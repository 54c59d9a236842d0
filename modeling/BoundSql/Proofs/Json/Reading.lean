import BoundSql.Json.Reader
import BoundSql.Proofs.Json.Cuts
import Mathlib.Data.List.Nodup

/-!
# Reading what is written

`tokensOf v` are the tokens that a value is written as. When the reader begins a value in front of
them, it ends up behind them with the value, whatever is open and whatever follows (`run_tokensOf`).
Two things must be right about the value, and `Readable` says them: its arrays and objects are not
too deep inside one another, and no object repeats a key.
-/

namespace BoundSql.Json

mutual

/-- The tokens that a value is written as. -/
def tokensOf : Value → List Token
  | .text s => [.text s]
  | .array [] => [.openArray, .closeArray]
  | .array (v :: l) => .openArray :: (tokensOf v ++ moreItems l)
  | .object [] => [.openObject, .closeObject]
  | .object ((key, v) :: l) =>
    .openObject :: .text key :: .colon :: (tokensOf v ++ moreEntries l)
  | v => [.scalar v]

/-- The tokens of further items, and of the end of their array. -/
def moreItems : List Value → List Token
  | [] => [.closeArray]
  | v :: l => .comma :: (tokensOf v ++ moreItems l)

/-- The tokens of further entries, and of the end of their object. -/
def moreEntries : List (String × Value) → List Token
  | [] => [.closeObject]
  | (key, v) :: l => .comma :: .text key :: .colon :: (tokensOf v ++ moreEntries l)

end

mutual

/-- Whether a value can be read inside so many arrays and objects. -/
def Readable (depth : Nat) : Value → Prop
  | .array l => depth < maxDepth ∧ ReadableItems (depth + 1) l
  | .object l => depth < maxDepth ∧ (l.map Prod.fst).Nodup ∧ ReadableEntries (depth + 1) l
  | _ => True

/-- Whether some values can be read inside so many arrays and objects. -/
def ReadableItems (depth : Nat) : List Value → Prop
  | [] => True
  | v :: l => Readable depth v ∧ ReadableItems depth l

/-- Whether the values of some entries can be read inside so many arrays and objects. -/
def ReadableEntries (depth : Nat) : List (String × Value) → Prop
  | [] => True
  | (_, v) :: l => Readable depth v ∧ ReadableEntries depth l

end

theorem readableItems_iff {depth : Nat} {l : List Value} :
    ReadableItems depth l ↔ ∀ w ∈ l, Readable depth w := by
  induction l with
  | nil => simp [ReadableItems]
  | cons w l ih => rw [ReadableItems, ih, List.forall_mem_cons]

theorem readableEntries_iff {depth : Nat} {entries : List (String × Value)} :
    ReadableEntries depth entries ↔ ∀ e ∈ entries, Readable depth e.2 := by
  induction entries with
  | nil => simp [ReadableEntries]
  | cons e l ih => rw [ReadableEntries, ih, List.forall_mem_cons]

/-- A key that is new goes to the end. -/
theorem setEntry_of_not_mem {key : String} {entries : List (String × Value)}
    (h : key ∉ entries.map Prod.fst) (v : Value) :
    setEntry key v entries = entries ++ [(key, v)] := by
  induction entries with
  | nil => rfl
  | cons e l ih =>
    obtain ⟨k, w⟩ := e
    rw [List.map_cons, List.mem_cons, not_or] at h
    rw [setEntry, if_neg (Ne.symm h.1), ih h.2, List.cons_append]

/-- The key of an entry is none of those before it. -/
theorem not_mem_of_nodup {before l : List (String × Value)} {key : String} {v : Value}
    (h : ((before ++ (key, v) :: l).map Prod.fst).Nodup) : key ∉ before.map Prod.fst := by
  rw [List.map_append, List.map_cons, List.nodup_append] at h
  exact fun hmem => h.2.2 key hmem key List.mem_cons_self rfl

namespace State

theorem run_cons {s s' : State} {t : Token} (h : s.step t = .ok s') (ts : List Token) :
    s.run (t :: ts) = s'.run ts := by
  rw [run, h]

theorem step_openArray {frames : List Frame} (h : frames.length < maxDepth) :
    step ⟨.value, frames⟩ .openArray = .ok ⟨.firstItem, .array [] :: frames⟩ :=
  if_neg (Nat.not_le.2 h)

theorem step_openObject {frames : List Frame} (h : frames.length < maxDepth) :
    step ⟨.value, frames⟩ .openObject = .ok ⟨.firstKey, frames⟩ :=
  if_neg (Nat.not_le.2 h)

/-- No value begins with the end of an array, so a first item is read like any other value. -/
theorem run_firstItem (v : Value) (frames : List Frame) (rest : List Token) :
    run ⟨.firstItem, frames⟩ (tokensOf v ++ rest) = run ⟨.value, frames⟩ (tokensOf v ++ rest) := by
  match v with
  | .array [] | .array (_ :: _) | .object [] | .object ((_, _) :: _) | .text _ | .undefined | .null
  | .bool _ | .int _ | .bigInt _ | .float _ | .date _ | .bytes _ => rfl

mutual

/-- **A value is read from its tokens**, whatever is open around it and follows it. -/
theorem run_tokensOf : ∀ (v : Value) (frames : List Frame) (rest : List Token),
    Readable frames.length v →
      run ⟨.value, frames⟩ (tokensOf v ++ rest) = run ⟨.after v, frames⟩ rest
  | .array [], frames, rest, h => by
    rw [tokensOf, List.cons_append, run_cons (step_openArray h.1)]
    rfl
  | .array (v :: l), frames, rest, h => by
    obtain ⟨hdepth, hv, hl⟩ := h
    rw [tokensOf, List.cons_append, run_cons (step_openArray hdepth), List.append_assoc,
      run_firstItem, run_tokensOf v (.array [] :: frames) _ hv,
      run_moreItems l v [] frames rest hl, List.reverse_nil, List.nil_append]
  | .object [], frames, rest, h => by
    rw [tokensOf, List.cons_append, run_cons (step_openObject h.1)]
    rfl
  | .object ((key, v) :: l), frames, rest, h => by
    obtain ⟨hdepth, hkeys, hv, hl⟩ := h
    have hkey : step ⟨.firstKey, frames⟩ (.text key) = .ok ⟨.colon [] key, frames⟩ := rfl
    have hcolon : step ⟨.colon [] key, frames⟩ .colon =
        .ok ⟨.value, .object [] key :: frames⟩ := rfl
    rw [tokensOf, List.cons_append, run_cons (step_openObject hdepth), List.cons_append,
      run_cons hkey, List.cons_append, run_cons hcolon, List.append_assoc,
      run_tokensOf v (.object [] key :: frames) _ hv,
      run_moreEntries l v [] key frames rest hkeys hl, List.nil_append]
  | .text _, _, _, _ | .undefined, _, _, _ | .null, _, _, _ | .bool _, _, _, _ | .int _, _, _, _
  | .bigInt _, _, _, _ | .float _, _, _, _ | .date _, _, _, _ | .bytes _, _, _, _ => rfl

/-- Behind an item, further items are added to those of the array. -/
theorem run_moreItems : ∀ (l : List Value) (v : Value) (before : List Value) (frames : List Frame)
    (rest : List Token), ReadableItems (frames.length + 1) l →
      run ⟨.after v, .array before :: frames⟩ (moreItems l ++ rest) =
        run ⟨.after (.array (before.reverse ++ v :: l)), frames⟩ rest
  | [], v, before, frames, rest, _ => by
    rw [← List.reverse_cons]
    rfl
  | w :: l, v, before, frames, rest, h => by
    have hcomma : step ⟨.after v, .array before :: frames⟩ .comma =
        .ok ⟨.value, .array (v :: before) :: frames⟩ := rfl
    rw [moreItems, List.cons_append, run_cons hcomma, List.append_assoc,
      run_tokensOf w (.array (v :: before) :: frames) _ h.1,
      run_moreItems l w (v :: before) frames rest h.2, List.reverse_cons, List.append_assoc,
      List.singleton_append]

/-- Behind an entry, further entries are added to those of the object. -/
theorem run_moreEntries : ∀ (l : List (String × Value)) (v : Value)
    (before : List (String × Value)) (key : String) (frames : List Frame) (rest : List Token),
    ((before ++ (key, v) :: l).map Prod.fst).Nodup → ReadableEntries (frames.length + 1) l →
      run ⟨.after v, .object before key :: frames⟩ (moreEntries l ++ rest) =
        run ⟨.after (.object (before ++ (key, v) :: l)), frames⟩ rest
  | [], v, before, key, frames, rest, hkeys, _ => by
    rw [← setEntry_of_not_mem (not_mem_of_nodup hkeys)]
    rfl
  | (key', w) :: l, v, before, key, frames, rest, hkeys, h => by
    have hcomma : step ⟨.after v, .object before key :: frames⟩ .comma =
        .ok ⟨.key (before ++ [(key, v)]), frames⟩ := by
      rw [← setEntry_of_not_mem (not_mem_of_nodup hkeys)]
      rfl
    have hkey : step ⟨.key (before ++ [(key, v)]), frames⟩ (.text key') =
        .ok ⟨.colon (before ++ [(key, v)]) key', frames⟩ := rfl
    have hcolon : step ⟨.colon (before ++ [(key, v)]) key', frames⟩ .colon =
        .ok ⟨.value, .object (before ++ [(key, v)]) key' :: frames⟩ := rfl
    rw [List.append_cons] at hkeys ⊢
    rw [moreEntries, List.cons_append, run_cons hcomma, List.cons_append, run_cons hkey,
      List.cons_append, run_cons hcolon, List.append_assoc,
      run_tokensOf w (.object (before ++ [(key, v)]) key' :: frames) _ h.1,
      run_moreEntries l w (before ++ [(key, v)]) key' frames rest hkeys h.2]

end

end State

/-- **A value is read from a text that is put together from its tokens.** -/
theorem read_of_cuts {text : String} {v : Value} (h : Cuts [] text.toList (tokensOf v))
    (hv : Readable 0 v) : read text = .ok v := by
  have hrun := State.run_tokensOf v [] [] hv
  rw [List.append_nil] at hrun
  rw [read, tokens_of_cuts h]
  exact hrun

/-! ## Texts of values -/

/-- A text is a way to write a value: in front of any text that does not go on with a word, it is
put together from the tokens of the value. -/
def Writes (s : List Char) (v : Value) : Prop :=
  ∀ r t ts, EndsWord t → Cuts r t ts → Cuts r (s ++ t) (tokensOf v ++ ts)

theorem endsWord_cons {c : Char} (h : isWordChar c = false) (s : List Char) : EndsWord (c :: s) :=
  fun _ hd => Option.some.inj hd ▸ h

theorem writes_word {w : List Char} {v : Value} (hw : ∀ c ∈ w, isWordChar c = true)
    (hv : scalarOfWord w = .ok v) (htokens : tokensOf v = [.scalar v]) : Writes w v := by
  intro r t ts ht h
  rw [htokens]
  exact .word hw hv ht h

theorem writes_quote (s : String) : Writes (quote s).toList (.text s) :=
  fun _ _ _ _ h => .text h

theorem Cuts.blanks {r bs s : List Char} {ts : List Token}
    (hbs : bs.all Text.isPlainBlank = true) (h : Cuts r s ts) : Cuts r (bs ++ s) ts := by
  induction bs with
  | nil => exact h
  | cons c bs ih =>
    rw [List.all_cons, Bool.and_eq_true] at hbs
    exact .blank hbs.1 (ih hbs.2)

section Arrays

variable {α : Type} {text : α → String} {value : α → Value} {separator : String}
  {blanks : List Char}

/-- The items of an array, with a comma and some blanks between each two, up to the end of the
array. -/
theorem cuts_items (hseparator : separator.toList = ',' :: blanks)
    (hblanks : blanks.all Text.isPlainBlank = true) {r s : List Char} {ts : List Token}
    (hs : EndsWord s) (h : Cuts r s (.closeArray :: ts)) (a : α) (l : List α)
    (hwrites : ∀ b ∈ a :: l, Writes (text b).toList (value b)) :
    Cuts r ((separator.intercalate ((a :: l).map text)).toList ++ s)
      (tokensOf (value a) ++ (moreItems (l.map value) ++ ts)) := by
  induction l generalizing a with
  | nil =>
    rw [List.map_singleton, String.intercalate_singleton]
    exact hwrites a List.mem_cons_self r s _ hs h
  | cons b l ih =>
    rw [List.forall_mem_cons] at hwrites
    have hb := ih b hwrites.2
    rw [List.map_cons] at hb
    rw [List.map_cons, List.map_cons, String.intercalate_cons_cons, String.toList_append,
      String.toList_append, hseparator, List.append_assoc, List.append_assoc, List.cons_append,
      List.map_cons, moreItems, List.cons_append, List.append_assoc]
    exact hwrites.1 _ _ _ (endsWord_cons rfl _) (.punctuation rfl (hb.blanks hblanks))

/-- An array is written as its items between brackets, with blanks inside these. -/
theorem writes_array (hseparator : separator.toList = ',' :: blanks)
    (hblanks : blanks.all Text.isPlainBlank = true) {opening closing : List Char}
    (hopening : opening.all Text.isPlainBlank = true)
    (hclosing : closing.all Text.isPlainBlank = true) {l : List α} (hne : l ≠ [])
    (hwrites : ∀ a ∈ l, Writes (text a).toList (value a)) :
    Writes ('[' :: (opening ++ ((separator.intercalate (l.map text)).toList ++
      (closing ++ [']'])))) (.array (l.map value)) := by
  obtain ⟨a, l, rfl⟩ := List.exists_cons_of_ne_nil hne
  intro r t ts _ h
  have hend : EndsWord (closing ++ ']' :: t) := by
    cases closing with
    | nil => exact endsWord_cons rfl t
    | cons c closing =>
      refine endsWord_cons ?_ (closing ++ ']' :: t)
      rw [← Bool.not_eq_true]
      intro hc
      have hblank := (of_isWordChar hc).1
      rw [List.all_cons, Bool.and_eq_true] at hclosing
      rw [hclosing.1] at hblank
      cases hblank
  have hitems := cuts_items hseparator hblanks hend ((Cuts.punctuation rfl h).blanks hclosing) a l
    hwrites
  have htokens : tokensOf (.array ((a :: l).map value)) =
      .openArray :: (tokensOf (value a) ++ moreItems (l.map value)) := rfl
  rw [htokens, List.cons_append, List.cons_append, List.append_assoc, List.append_assoc,
    List.append_assoc, List.singleton_append, List.append_assoc]
  exact .punctuation rfl (hitems.blanks hopening)

end Arrays

end BoundSql.Json
