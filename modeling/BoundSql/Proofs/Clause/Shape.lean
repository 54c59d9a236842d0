import BoundSql.Proofs.Filter.Field

/-!
# The shape of the text of a clause

The text of a clause has three kinds of characters: those of words, signs and blanks, parentheses,
and columns between double quotes. `ClauseText` says so, and which columns these are;
`Balanced` says that every parenthesis is closed. Both are kept when pieces of text are put together
(`Piece`), so they hold of the text of every clause (`Clause.piece_text`).
-/

namespace BoundSql

/-! ## Parentheses -/

/-- The number of parentheses that are open at the end of a text. -/
def nesting (s : List Char) : Int :=
  s.count '(' - s.count ')'

@[simp] theorem nesting_append (s t : List Char) : nesting (s ++ t) = nesting s + nesting t := by
  rw [nesting, nesting, nesting, List.count_append, List.count_append]
  omega

theorem nesting_eq_zero {s : List Char} (hopen : '(' ∉ s) (hclose : ')' ∉ s) : nesting s = 0 := by
  rw [nesting, List.count_eq_zero.2 hopen, List.count_eq_zero.2 hclose]
  rfl

/-- A text in which every parenthesis is closed, and only those that were opened before. -/
structure Balanced (s : List Char) : Prop where
  nesting_eq : nesting s = 0
  nesting_nonneg : ∀ p, p <+: s → 0 ≤ nesting p

namespace Balanced

variable {s t : List Char}

theorem of_not_mem (hopen : '(' ∉ s) (hclose : ')' ∉ s) : Balanced s where
  nesting_eq := nesting_eq_zero hopen hclose
  nesting_nonneg _ hp :=
    Int.le_of_eq (nesting_eq_zero (fun h => hopen (hp.mem h)) fun h => hclose (hp.mem h)).symm

theorem append (h : Balanced s) (h' : Balanced t) : Balanced (s ++ t) where
  nesting_eq := by rw [nesting_append, h.nesting_eq, h'.nesting_eq, Int.add_zero]
  nesting_nonneg p hp := by
    obtain ⟨q, hq⟩ := hp
    rcases List.append_eq_append_iff.1 hq with ⟨r, rfl, -⟩ | ⟨r, rfl, rfl⟩
    · exact h.nesting_nonneg p ⟨r, rfl⟩
    · rw [nesting_append, h.nesting_eq, Int.zero_add]
      exact h'.nesting_nonneg r ⟨q, rfl⟩

/-- Between parentheses, a balanced text is at least one parenthesis deep; the text with its
parentheses is at no depth only at its two ends. -/
theorem nesting_parens (h : Balanced s) {p : List Char} (hp : p <+: '(' :: s ++ [')']) :
    0 ≤ nesting p ∧ (nesting p = 0 ↔ p = [] ∨ p = '(' :: s ++ [')']) := by
  have hopen : ∀ q, nesting ('(' :: q) = nesting q + 1 := fun q => by
    rw [← List.singleton_append, nesting_append, Int.add_comm]
    rfl
  have hclose : nesting [')'] = -1 := rfl
  rcases List.prefix_concat_iff.1 hp with rfl | hp
  · rw [nesting_append, hopen, h.nesting_eq, hclose]
    exact ⟨Int.le_refl 0, fun _ => .inr rfl, fun _ => rfl⟩
  rcases List.prefix_cons_iff.1 hp with rfl | ⟨q, rfl, hq⟩
  · exact ⟨Int.le_refl 0, fun _ => .inl rfl, fun _ => rfl⟩
  · have hdeep := h.nesting_nonneg q hq
    rw [hopen]
    refine ⟨by omega, fun h0 => by omega, ?_⟩
    rintro (hnil | hall)
    · cases hnil
    · have hlength := hq.length_le
      rw [List.cons_append, List.cons.injEq] at hall
      rw [hall.2, List.length_append, List.length_singleton] at hlength
      omega

theorem parens (h : Balanced s) : Balanced ('(' :: s ++ [')']) where
  nesting_eq := (h.nesting_parens (List.prefix_refl _)).2.2 (.inr rfl)
  nesting_nonneg _ hp := (h.nesting_parens hp).1

end Balanced

/-! ## The characters of clauses -/

/-- Whether a character belongs to the words, numbers and signs of a clause, or to the blanks
between them. -/
def isWordChar (c : Char) : Bool :=
  isNameChar c || [' ', ',', '.', '?', '<', '=', '>'].contains c

/-- Text of words and parentheses, and of columns between double quotes that are of some kind. No
two columns stand side by side. -/
inductive ClauseText (P : Identifier → Prop) : List Char → Prop
  | nil : ClauseText P []
  | char {c : Char} {s : List Char} : isWordChar c = true ∨ c = '(' ∨ c = ')' →
      ClauseText P s → ClauseText P (c :: s)
  | column {i : Identifier} {s : List Char} : P i → s.head? ≠ some '"' → ClauseText P s →
      ClauseText P (i.quoted.toList ++ s)

theorem isWordChar_iff {c : Char} :
    isWordChar c = true ↔ isNameChar c = true ∨ c ∈ [' ', ',', '.', '?', '<', '=', '>'] := by
  rw [isWordChar, Bool.or_eq_true, List.contains_iff_mem]

theorem isWordChar_of_isNameChar {c : Char} (h : isNameChar c = true) : isWordChar c = true := by
  rw [isWordChar, h, Bool.true_or]

@[simp] theorem Identifier.toList_quoted (i : Identifier) :
    i.quoted.toList = '"' :: (i.name.toList ++ ['"']) := by
  simp [Identifier.quoted]

theorem Identifier.not_mem_quoted (i : Identifier) {c : Char} (hname : isNameChar c = false)
    (hquote : c ≠ '"') : c ∉ i.quoted.toList := by
  rw [i.toList_quoted]
  have hmem : c ∉ i.name.toList := fun h => by
    rw [i.isNameChar_of_mem h] at hname
    cases hname
  simp [hmem, hquote]

namespace ClauseText

variable {P Q : Identifier → Prop} {s t : List Char}

theorem mono (hPQ : ∀ i, P i → Q i) (h : ClauseText P s) : ClauseText Q s := by
  induction h with
  | nil => exact .nil
  | char hc _ ih => exact .char hc ih
  | column hi hs _ ih => exact .column (hPQ _ hi) hs ih

/-- Words may stand in front of anything. -/
theorem words_append (hs : s.all isWordChar = true) (h : ClauseText P t) :
    ClauseText P (s ++ t) := by
  induction s with
  | nil => exact h
  | cons c s ih =>
    rw [List.all_cons, Bool.and_eq_true] at hs
    exact .char (.inl hs.1) (ih hs.2)

theorem append (h : ClauseText P s) (h' : ClauseText P t) (ht : t.head? ≠ some '"') :
    ClauseText P (s ++ t) := by
  induction h with
  | nil => exact h'
  | char hc _ ih => exact .char hc ih
  | @column i s hi hs _ ih =>
    rw [List.append_assoc]
    refine .column hi ?_ ih
    cases s with
    | nil => exact ht
    | cons c s => exact hs

/-- What is behind a run of characters other than quotes. -/
theorem dropWhile {p : Char → Bool} (hp : p '"' = false) (h : ClauseText P s) :
    ClauseText P (s.dropWhile p) := by
  induction h with
  | nil => exact .nil
  | @char c s hc h ih =>
    cases hpc : p c with
    | true =>
      rw [List.dropWhile_cons_of_pos hpc]
      exact ih
    | false =>
      rw [List.dropWhile_cons_of_neg (by simp [hpc])]
      exact .char hc h
  | @column i s hi hs h ih =>
    have hstop : (i.quoted.toList ++ s).dropWhile p = i.quoted.toList ++ s := by
      rw [i.toList_quoted]
      exact List.dropWhile_cons_of_neg (by simp [hp])
    rw [hstop]
    exact .column hi hs h

end ClauseText

/-! ## Pieces of text -/

/-- A piece of the text of a clause, with its parentheses in balance. -/
structure Piece (P : Identifier → Prop) (s : List Char) : Prop where
  text : ClauseText P s
  balanced : Balanced s

namespace Piece

variable {P Q : Identifier → Prop} {s t : List Char}

theorem mono (hPQ : ∀ i, P i → Q i) (h : Piece P s) : Piece Q s :=
  ⟨h.text.mono hPQ, h.balanced⟩

theorem not_mem_of_words {c : Char} (hs : s.all isWordChar = true) (hc : isWordChar c = false) :
    c ∉ s := fun h => by
  rw [List.all_eq_true.1 hs c h] at hc
  cases hc

theorem balanced_of_words (hs : s.all isWordChar = true) : Balanced s :=
  .of_not_mem (not_mem_of_words hs rfl) (not_mem_of_words hs rfl)

theorem words_append (hs : s.all isWordChar = true) (h : Piece P t) : Piece P (s ++ t) :=
  ⟨.words_append hs h.text, (balanced_of_words hs).append h.balanced⟩

theorem nil : Piece P [] :=
  ⟨.nil, balanced_of_words rfl⟩

theorem words (hs : s.all isWordChar = true) : Piece P s := by
  have h : Piece P (s ++ []) := words_append hs nil
  rwa [List.append_nil] at h

theorem append (h : Piece P s) (h' : Piece P t) (ht : t.head? ≠ some '"') : Piece P (s ++ t) :=
  ⟨h.text.append h'.text ht, h.balanced.append h'.balanced⟩

/-- A piece, and words behind it. -/
theorem append_words (h : Piece P s) (ht : t.all isWordChar = true) : Piece P (s ++ t) :=
  h.append (words ht) fun hquote => not_mem_of_words ht rfl (List.mem_of_head? hquote)

theorem column {i : Identifier} (hi : P i) : Piece P i.quoted.toList := by
  have htext : ClauseText P (i.quoted.toList ++ []) := .column hi nofun .nil
  rw [List.append_nil] at htext
  exact ⟨htext, .of_not_mem (i.not_mem_quoted rfl (by decide)) (i.not_mem_quoted rfl (by decide))⟩

theorem parens {text : String} (h : Piece P text.toList) :
    Piece P ("(" ++ text ++ ")").toList := by
  have htext : ("(" ++ text ++ ")").toList = '(' :: text.toList ++ [')'] := by simp
  rw [htext]
  refine ⟨?_, h.balanced.parens⟩
  exact .char (.inr (.inl rfl)) (h.text.append (.char (.inr (.inr rfl)) .nil) (by decide))

/-- Pieces with some words between each two. -/
theorem join {separator : String} (hne : separator.toList ≠ [])
    (hwords : separator.toList.all isWordChar = true) {l : List String}
    (h : ∀ text ∈ l, Piece P text.toList) : Piece P (separator.intercalate l).toList := by
  induction l with
  | nil => exact nil
  | cons text l ih =>
    rw [List.forall_mem_cons] at h
    cases l with
    | nil => simpa using h.1
    | cons text' l =>
      rw [String.intercalate_cons_cons, String.toList_append, String.toList_append,
        List.append_assoc]
      refine h.1.append (words_append hwords (ih h.2)) fun hquote => ?_
      obtain ⟨c, s, hs⟩ := List.exists_cons_of_ne_nil hne
      rw [hs] at hquote hwords
      exact not_mem_of_words hwords rfl (List.mem_of_head? hquote)

end Piece

/-! ## The text of clauses -/

@[simp] theorem Combinator.isWordChar_joiner (c : Combinator) :
    c.joiner.toList.all isWordChar = true := by
  cases c <;> decide

theorem Combinator.joiner_ne_nil (c : Combinator) : c.joiner.toList ≠ [] := by
  cases c <;> decide

theorem piece_placeholderList (P : Identifier → Prop) (n : Nat) :
    Piece P (Test.placeholderList n).toList := by
  refine .parens (.join (by decide) (by decide) fun text htext => ?_)
  rw [(List.mem_replicate.1 htext).2]
  exact .words (by decide)

/-- The text of a test is made of words, but for the list of its placeholders. -/
theorem Test.piece_text (P : Identifier → Prop) (t : Test) : Piece P t.text.toList := by
  cases t with
  | oneOf n =>
    rw [Test.text, String.toList_append]
    exact .words_append (by decide) (piece_placeholderList P n)
  | noneOf n =>
    rw [Test.text, String.toList_append]
    exact .words_append (by decide) (piece_placeholderList P n)
  | _ => exact .words (by decide)

theorem Identifier.piece_qualified (column : Identifier) (qualifier : Option Identifier) :
    Piece (· = column) (column.qualified (qualifier.map Identifier.name)).toList := by
  cases qualifier with
  | none => exact .column rfl
  | some q =>
    have htext : (column.qualified (some q.name)).toList =
        (q.name.toList ++ ['.']) ++ column.quoted.toList := by
      simp [Identifier.qualified]
    rw [Option.map_some, htext]
    have hname : q.name.toList.all isWordChar = true :=
      List.all_eq_true.2 fun c hc => isWordChar_of_isNameChar (q.isNameChar_of_mem hc)
    refine .words_append ?_ (.column rfl)
    rw [List.all_append, hname]
    rfl

/-- The only column in the text of a target is its own. -/
theorem Target.piece_text (t : Target) : Piece (· = t.column) t.text.toList := by
  obtain ⟨qualifier, column, path⟩ := t
  have hcolumn := column.piece_qualified qualifier
  cases path with
  | none => exact hcolumn
  | some p =>
    have htext : (Target.mk qualifier column (some p)).text = "json_extract" ++
        ("(" ++ (column.qualified (qualifier.map Identifier.name) ++ ", ?") ++ ")") :=
      String.toList_injective (by simp [Target.text, JsonPath.extractText])
    rw [htext, String.toList_append]
    refine .words_append (by decide) (.parens ?_)
    rw [String.toList_append]
    exact hcolumn.append_words (by decide)

namespace Clause

mutual

/-- What the tests of a clause are about, in order. -/
def targets : Clause → List Target
  | tests target _ => [target]
  | combined _ clauses => allTargets clauses

/-- What the tests of some clauses are about, in order. -/
def allTargets : List Clause → List Target
  | [] => []
  | c :: cs => targets c ++ allTargets cs

end

/-- Whether a clause asks something of a column. -/
def IsColumn (c : Clause) (i : Identifier) : Prop :=
  ∃ t ∈ c.targets, t.column = i

mutual

/-- The text of a clause stands between two parentheses. What is between them is made of words and
of the columns of the clause, and its own parentheses are in balance. -/
theorem exists_inner : ∀ c : Clause,
    ∃ inner, c.text = "(" ++ inner ++ ")" ∧ Piece c.IsColumn inner.toList
  | tests target ts => by
    refine ⟨_, rfl, .join (by decide) (by decide) fun text htext => ?_⟩
    obtain ⟨t, -, rfl⟩ := List.mem_map.1 htext
    have htarget : Piece (tests target ts).IsColumn target.text.toList :=
      target.piece_text.mono fun i hi => ⟨target, List.mem_singleton_self _, hi.symm⟩
    rw [String.toList_append, String.toList_append, List.append_assoc]
    refine htarget.append (.words_append (by decide) (t.piece_text _)) ?_
    simp
  | combined c clauses => by
    refine ⟨_, rfl, .join c.joiner_ne_nil c.isWordChar_joiner fun text htext => ?_⟩
    exact piece_texts clauses text htext

theorem piece_texts : ∀ cs : List Clause, ∀ text ∈ texts cs,
    Piece (fun i => ∃ t ∈ allTargets cs, t.column = i) text.toList
  | [] => nofun
  | c :: cs => by
    obtain ⟨inner, hinner, hc⟩ := exists_inner c
    have hcs := piece_texts cs
    rw [texts, List.forall_mem_cons]
    refine ⟨?_, fun text htext => (hcs text htext).mono fun i hi => ?_⟩
    · rw [hinner]
      exact hc.parens.mono fun i hi => hi.imp fun t ht => ht.imp_left (List.mem_append_left _)
    · exact hi.imp fun t ht => ht.imp_left (List.mem_append_right _)

end

/-- **The text of a clause** is made of words and of the columns of the clause, and its parentheses
are in balance. -/
theorem piece_text (c : Clause) : Piece c.IsColumn c.text.toList := by
  obtain ⟨inner, hinner, hpiece⟩ := c.exists_inner
  rw [hinner]
  exact hpiece.parens

/-- The parentheses at the two ends of the text of a clause are each other's: the text is at no
depth only at its ends. -/
theorem nesting_text (c : Clause) : ∃ inner, c.text.toList = '(' :: inner ++ [')'] ∧
    ∀ p, p <+: c.text.toList → 0 ≤ nesting p ∧ (nesting p = 0 ↔ p = [] ∨ p = c.text.toList) := by
  obtain ⟨inner, hinner, hpiece⟩ := c.exists_inner
  have htext : c.text.toList = '(' :: inner.toList ++ [')'] := by
    rw [hinner]
    simp
  rw [htext]
  exact ⟨inner.toList, rfl, fun p hp => hpiece.balanced.nesting_parens hp⟩

end Clause

end BoundSql
