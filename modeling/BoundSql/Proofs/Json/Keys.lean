import BoundSql.Proofs.Filter.Conjuncts
import BoundSql.Proofs.Json.Reading

/-!
# The keys of what is read

Whatever is read from a text is `Readable`: its arrays and objects are not too deep inside one
another, and no object in it repeats a key (`readable_of_read`). The reader keeps this up while it
runs. What it has collected in an array or an object that is open would be readable if the array or
the object ended there (`State.Sound`), every token keeps it so (`State.Sound.step`), and so do all
of them (`State.Sound.run`).

A filter object can lose a condition when a combinator is given twice. In a filter that is read from
a text none is, and every entry that is supplied counts (`Value.counted_eq_supplied_of_read`).
-/

namespace BoundSql

namespace Json

variable {depth : Nat} {key : String} {v : Value} {entries : List (String × Value)}
  {before l : List Value} {frames : List Frame} {t : Token}

/-! ## Arrays and objects that go on -/

/-- A key that is there keeps its place, and one that is new goes to the end. -/
@[simp] theorem map_fst_setEntry (key : String) (v : Value) (entries : List (String × Value)) :
    (setEntry key v entries).map Prod.fst =
      if key ∈ entries.map Prod.fst then entries.map Prod.fst
      else entries.map Prod.fst ++ [key] := by
  induction entries with
  | nil => rfl
  | cons e l ih =>
    obtain ⟨k, w⟩ := e
    rw [setEntry]
    by_cases hk : k = key
    · simp [hk]
    · have hne : key ≠ k := Ne.symm hk
      simp only [if_neg hk, List.map_cons, ih, List.mem_cons, hne, false_or]
      split <;> rfl

theorem eq_or_mem_of_mem_setEntry {e : String × Value} (h : e ∈ setEntry key v entries) :
    e = (key, v) ∨ e ∈ entries := by
  induction entries with
  | nil => exact .inl (List.mem_singleton.1 h)
  | cons d l ih =>
    obtain ⟨k, w⟩ := d
    rw [setEntry] at h
    split at h
    · exact (List.mem_cons.1 h).imp_right (List.mem_cons_of_mem _)
    · rcases List.mem_cons.1 h with rfl | h
      · exact .inr List.mem_cons_self
      · exact (ih h).imp_right (List.mem_cons_of_mem _)

/-- An array that goes on with an item. -/
theorem readable_array_concat (h : Readable depth (.array before)) (hv : Readable (depth + 1) v) :
    Readable depth (.array (before ++ [v])) := by
  refine ⟨h.1, readableItems_iff.2 ?_⟩
  rw [List.forall_mem_append, List.forall_mem_singleton]
  exact ⟨readableItems_iff.1 h.2, hv⟩

/-- An object that goes on with an entry. -/
theorem readable_object_setEntry (h : Readable depth (.object entries))
    (hv : Readable (depth + 1) v) : Readable depth (.object (setEntry key v entries)) := by
  obtain ⟨hdepth, hkeys, hentries⟩ := h
  refine ⟨hdepth, ?_, readableEntries_iff.2 fun e he => ?_⟩
  · rw [map_fst_setEntry]
    split
    · exact hkeys
    · next hkey =>
      rw [← List.concat_eq_append]
      exact hkeys.concat hkey
  · rcases eq_or_mem_of_mem_setEntry he with rfl | he
    · exact hv
    · exact readableEntries_iff.1 hentries e he

/-! ## Scalars -/

/-- A scalar can stand at any depth. -/
def Token.Sound : Token → Prop
  | scalar v => ∀ depth, Readable depth v
  | _ => True

theorem readable_of_scalarOfWord {w : List Char} (h : scalarOfWord w = .ok v) (depth : Nat) :
    Readable depth v := by
  have hfloat : ∀ x : Option Double, x.map Value.float = some v → Readable depth v := by
    intro x hx
    obtain ⟨d, -, rfl⟩ := Option.map_eq_some_iff.1 hx
    trivial
  rw [scalarOfWord] at h
  split at h
  · cases h; trivial
  split at h
  · cases h; trivial
  split at h
  · cases h; trivial
  split at h
  · cases h
  split at h
  · cases h
  next x _ _ hvalue =>
  cases h
  rw [Numeral.value?] at hvalue
  split at hvalue
  · rw [integerValue?] at hvalue
    split at hvalue
    · split at hvalue
      · cases hvalue; trivial
      · exact hfloat _ hvalue
    split at hvalue
    · cases hvalue; trivial
    split at hvalue
    · cases hvalue; trivial
    · exact hfloat _ hvalue
  · exact hfloat _ hvalue

theorem sound_of_first {c : Char} {s rest : List Char} (h : first c s = .ok (t, rest)) :
    t.Sound := by
  rw [first] at h
  split at h
  · next hpunctuation =>
    cases h
    unfold punctuation? at hpunctuation
    split at hpunctuation <;> cases hpunctuation <;> trivial
  split at h
  · split at h <;> cases h
    trivial
  split at h
  · split at h
    · cases h
    · next hscalar =>
      cases h
      exact readable_of_scalarOfWord hscalar
  · cases h

theorem sound_of_tokensFrom {found ts : List Token} {s : List Char}
    (hfound : ∀ t ∈ found, t.Sound) (h : tokensFrom found s = .ok ts) : ∀ t ∈ ts, t.Sound := by
  fun_induction tokensFrom found s with
  | case1 found =>
    cases h
    simpa using hfound
  | case2 found c s _ ih => exact ih hfound h
  | case3 => cases h
  | case4 found c s _ t rest hfirst _ ih =>
    exact ih (List.forall_mem_cons.2 ⟨sound_of_first hfirst, hfound⟩) h

/-! ## What is open -/

/-- What a frame has collected, as if it ended there. -/
def Frame.collected : Frame → Value
  | array before => .array before.reverse
  | object before _ => .object before

/-- What the frames have collected is readable, each inside those behind it. -/
def FramesSound : List Frame → Prop
  | [] => True
  | f :: frames => Readable frames.length f.collected ∧ FramesSound frames

/-- What has been read inside so many frames is readable. -/
def Want.Sound (depth : Nat) : Want → Prop
  | .value | .firstItem => True
  | .firstKey => Readable depth (.object [])
  | .key before | .colon before _ => Readable depth (.object before)
  | .after v => Readable depth v

theorem FramesSound.length_lt {f : Frame} (h : FramesSound (f :: frames)) :
    frames.length < maxDepth := by
  cases f <;> exact h.1.1

namespace State

/-- **The invariant of reading**: everything collected is readable. -/
structure Sound (s : State) : Prop where
  frames : FramesSound s.frames
  want : s.want.Sound s.frames.length

variable {s s' : State}

theorem Sound.beginValue (hframes : FramesSound frames) (ht : t.Sound)
    (h : State.beginValue frames t = .ok s') : s'.Sound := by
  cases t with
  | scalar v =>
    cases h
    exact ⟨hframes, ht _⟩
  | text s =>
    cases h
    exact ⟨hframes, trivial⟩
  | openArray =>
    rw [State.beginValue] at h
    split at h <;> cases h
    next hdepth => exact ⟨⟨⟨Nat.not_le.1 hdepth, trivial⟩, hframes⟩, trivial⟩
  | openObject =>
    rw [State.beginValue] at h
    split at h <;> cases h
    next hdepth => exact ⟨hframes, Nat.not_le.1 hdepth, List.nodup_nil, trivial⟩
  | closeArray | closeObject | comma | colon => cases h

theorem Sound.afterValue (hframes : FramesSound frames) (hv : Readable frames.length v)
    (h : State.afterValue v frames t = .ok s') : s'.Sound := by
  cases frames with
  | nil => cases h
  | cons f frames =>
    obtain ⟨hcollected, hframes⟩ := hframes
    cases f with
    | array before =>
      have hitems := readable_array_concat hcollected hv
      rw [← List.reverse_cons] at hitems
      cases t with
      | comma =>
        cases h
        exact ⟨⟨hitems, hframes⟩, trivial⟩
      | closeArray =>
        cases h
        exact ⟨hframes, hitems⟩
      | _ => cases h
    | object before key =>
      cases t with
      | comma | closeObject =>
        cases h
        exact ⟨hframes, readable_object_setEntry hcollected hv⟩
      | _ => cases h

/-- **A token keeps what is collected readable.** -/
theorem Sound.step (h : s.Sound) (ht : t.Sound) (hstep : s.step t = .ok s') : s'.Sound := by
  obtain ⟨want, frames⟩ := s
  obtain ⟨hframes, hwant⟩ := h
  cases want with
  | value => exact Sound.beginValue hframes ht hstep
  | firstItem =>
    cases t with
    | closeArray =>
      cases hstep
      cases frames with
      | nil => exact ⟨trivial, (by decide : 0 < maxDepth), trivial⟩
      | cons f frames => exact ⟨hframes.2, hframes.length_lt, trivial⟩
    | _ => exact Sound.beginValue hframes ht hstep
  | firstKey =>
    cases t with
    | closeObject | text =>
      cases hstep
      exact ⟨hframes, hwant⟩
    | _ => cases hstep
  | key before =>
    cases t with
    | text =>
      cases hstep
      exact ⟨hframes, hwant⟩
    | _ => cases hstep
  | colon before key =>
    cases t with
    | colon =>
      cases hstep
      exact ⟨⟨hwant, hframes⟩, trivial⟩
    | _ => cases hstep
  | after v => exact Sound.afterValue hframes hwant hstep

/-- Whatever comes out at the end of the tokens is readable. -/
theorem Sound.run {ts : List Token} (h : s.Sound) (hts : ∀ t ∈ ts, t.Sound)
    (hrun : s.run ts = .ok v) : Readable 0 v := by
  induction ts generalizing s with
  | nil =>
    obtain ⟨want, frames⟩ := s
    rw [State.run, finish] at hrun
    split at hrun <;> cases hrun
    next heq heq' =>
      cases heq
      cases heq'
      exact h.want
  | cons t ts ih =>
    rw [List.forall_mem_cons] at hts
    rw [State.run] at hrun
    split at hrun
    · cases hrun
    · next hstep => exact ih (h.step hts.1 hstep) hts.2 hrun

end State

/-- **Whatever is read from a text is readable**: no object in it repeats a key, and its arrays and
objects are not too deep inside one another. -/
theorem readable_of_read {text : String} (h : read text = .ok v) : Readable 0 v := by
  rw [read] at h
  split at h
  · cases h
  · next htokens =>
    have hstart : State.start.Sound := ⟨trivial, trivial⟩
    exact hstart.run (sound_of_tokensFrom (List.forall_mem_nil _) htokens) h

/-- An object that is readable has no key twice. -/
theorem keys?_nodup_of_readable (h : Readable depth v) {keys : List String}
    (hkeys : v.keys? = some keys) : keys.Nodup := by
  cases v with
  | object entries =>
    cases hkeys
    exact h.2.1
  | _ => cases hkeys

end Json

/-! ## Filters that are read -/

namespace Value

open Json

variable {v w : Value} {entries : List (String × Value)} {blocks : List String}

/-- A document that is read holds filters that could be read on their own, further inside. -/
theorem exists_readable_of_holdsFilter (h : Readable 0 v) (hheld : v.HoldsFilter blocks w) :
    ∃ depth, Readable depth w := by
  induction hheld with
  | root => exact ⟨0, h⟩
  | @item blocks entries c l w _ hmem hw ih =>
    obtain ⟨depth, -, -, hentries⟩ := ih
    have hl := readableEntries_iff.1 hentries _ (mem_of_mem_counted hmem)
    exact ⟨_, readableItems_iff.1 hl.2 w hw⟩
  | @block blocks entries name w _ hmem ih =>
    obtain ⟨depth, -, -, hentries⟩ := ih
    exact ⟨_, readableEntries_iff.1 hentries _ (mem_of_mem_counted hmem)⟩

theorem given_le_one_of_nodup (h : (entries.map Prod.fst).Nodup) (c : Combinator) :
    given c entries ≤ 1 := by
  calc given c entries ≤ entries.countP fun e => e.1 = c.key :=
        List.countP_mono_left fun e _ he => (Bool.and_eq_true _ _ ▸ he).1
    _ = (entries.map Prod.fst).count c.key := by
        rw [List.count, List.countP_map]
        rfl
    _ ≤ 1 := List.nodup_iff_count_le_one.1 h _

/-- **A filter that is read from a text loses no condition**: of every filter object that it holds,
all entries that are supplied count. -/
theorem counted_eq_supplied_of_read {text : String} (h : read text = .ok v)
    (hheld : v.HoldsFilter blocks (.object entries)) : counted entries = supplied entries := by
  obtain ⟨depth, hreadable⟩ := exists_readable_of_holdsFilter (readable_of_read h) hheld
  exact counted_eq_supplied_iff.2 (given_le_one_of_nodup (keys?_nodup_of_readable hreadable rfl))

end Value

end BoundSql
