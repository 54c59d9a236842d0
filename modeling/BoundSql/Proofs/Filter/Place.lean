import BoundSql.Proofs.Filter.Field

/-!
# Fields that name a place inside a column

A field names a place when it is a column with steps behind it, a dot and an identifier each. The
column and the path that come of it put the field together again (`JsonPath.Names`), so two fields
never name the same place. Any other field is refused as a whole, for the leftmost fault in it
(`JsonPath.Fails`): what stands before the first dot is missing, there is no dot, or a segment is no
identifier (`JsonPath.IsFirstBadSegment`).

`JsonPath.ofField_exact` puts this together, with what reads the place: its text has the column and
the alias in it, and nothing of the path.
-/

namespace BoundSql

/-! ## Parts between separators -/

namespace Text

variable {c : Char} {s part : List Char} {rest : List (List Char)}

theorem not_mem_of_mem_splitOn (h : part ∈ s.splitOn c) : c ∉ part := by
  induction s generalizing part with
  | nil =>
    obtain rfl := List.mem_singleton.1 h
    exact List.not_mem_nil
  | cons d s ih =>
    rw [List.splitOn_cons_eq_if_modifyHead] at h
    by_cases hd : d = c
    · rw [if_pos (beq_iff_eq.2 hd)] at h
      rcases List.mem_cons.1 h with rfl | h
      · exact List.not_mem_nil
      · exact ih h
    · rw [if_neg (beq_iff_eq.not.2 hd)] at h
      cases hp : s.splitOn c with
      | nil => exact absurd hp (List.splitOn_ne_nil c s)
      | cons first others =>
        rw [hp] at h ih
        rcases List.mem_cons.1 h with rfl | h
        · rw [List.mem_cons, not_or]
          exact ⟨Ne.symm hd, ih List.mem_cons_self⟩
        · exact ih (List.mem_cons_of_mem _ h)

/-- **A text has these parts** exactly when it is put together of them and none has a separator. -/
theorem splitOn_eq_cons_iff :
    s.splitOn c = part :: rest ↔
      s = part ++ rest.flatMap (fun p => c :: p) ∧ ∀ p ∈ part :: rest, c ∉ p := by
  constructor
  · intro h
    refine ⟨?_, fun p hp => not_mem_of_mem_splitOn (h ▸ hp)⟩
    have hjoin := flatMap_splitOn c s
    rw [h, List.flatMap_cons, List.cons_append, List.cons.injEq] at hjoin
    exact hjoin.2.symm
  · rintro ⟨rfl, hfree⟩
    induction rest generalizing part with
    | nil =>
      rw [List.flatMap_nil, List.append_nil]
      exact List.splitOn_eq_singleton (hfree part List.mem_cons_self)
    | cons p rest ih =>
      rw [List.forall_mem_cons] at hfree
      rw [List.flatMap_cons, List.cons_append, List.splitOn_append_cons_self_of_not_mem hfree.1,
        ih hfree.2]

/-- Nothing, or a separator and what follows it, is made of parts with a separator before each. -/
theorem exists_parts_of_head? (h : s = [] ∨ s.head? = some c) :
    ∃ l : List (List Char), s = l.flatMap (fun p => c :: p) ∧ ∀ p ∈ l, c ∉ p := by
  rcases h with rfl | h
  · exact ⟨[], rfl, nofun⟩
  · obtain ⟨t, rfl⟩ := List.head?_eq_some_iff.1 h
    exact ⟨t.splitOn c, (flatMap_splitOn c t).symm, fun p => not_mem_of_mem_splitOn⟩

/-- Parts with a separator before each are nothing, or begin with a separator. -/
theorem head?_flatMap (l : List (List Char)) :
    l.flatMap (fun p => c :: p) = [] ∨ (l.flatMap (fun p => c :: p)).head? = some c := by
  cases l with
  | nil => exact .inl rfl
  | cons p l => exact .inr rfl

end Text

namespace JsonPath

/-! ## Fields that name a place -/

/-- Some identifiers, with a dot before each. -/
def steps (names : List Identifier) : String :=
  String.join (names.map fun i => "." ++ i.name)

/-- A field names a place: it is a column, which is not empty and has no dot, and one or more steps
from there, and the path of the place is a dollar sign and these steps. -/
def Names (field : String) (p : JsonPath) : Prop :=
  p.column ≠ "" ∧ '.' ∉ p.column.toList ∧
    ∃ names : List Identifier, names ≠ [] ∧ field = p.column ++ steps names ∧
      p.path = "$" ++ steps names

/-- A segment of a field is no identifier, and is the leftmost such segment: between it and the
column, which is not empty, are only steps. -/
def IsFirstBadSegment (field segment : String) : Prop :=
  isIdentifier segment = false ∧ '.' ∉ segment.toList ∧
    ∃ (column : String) (names : List Identifier) (rest : String),
      column ≠ "" ∧ '.' ∉ column.toList ∧ (rest = "" ∨ rest.toList.head? = some '.') ∧
        field = column ++ steps names ++ "." ++ segment ++ rest

/-- A field is refused as a whole, for a reason. -/
def Fails (field reason : String) : Prop :=
  ∃ fault, ofField field = .error (.badPath field fault) ∧ fault.reason = reason

variable {field segment : String} {column : List Char} {segments : List (List Char)}

/-! ## Fields and their parts -/

theorem toList_steps (names : List Identifier) :
    (steps names).toList = (names.map fun i => i.name.toList).flatMap fun part => '.' :: part := by
  induction names with
  | nil => rfl
  | cons i names ih =>
    rw [List.map_cons, List.flatMap_cons, ← ih, steps, steps, List.map_cons, String.join_cons,
      String.toList_append, String.toList_append]
    rfl

/-- Parts that are identifiers. -/
theorem exists_names (h : ∀ part ∈ segments, isIdentifier (String.ofList part) = true) :
    ∃ names : List Identifier, segments = names.map fun i => i.name.toList := by
  induction segments with
  | nil => exact ⟨[], rfl⟩
  | cons part segments ih =>
    rw [List.forall_mem_cons] at h
    obtain ⟨names, rfl⟩ := ih h.2
    exact ⟨⟨_, h.1⟩ :: names, by rw [List.map_cons, String.toList_ofList]⟩

/-- Names are identifiers. -/
theorem isIdentifier_of_mem_names (names : List Identifier) :
    ∀ part ∈ names.map fun i => i.name.toList, isIdentifier (String.ofList part) = true := by
  rw [List.forall_mem_map]
  intro i _
  rw [String.ofList_toList]
  exact i.isIdentifier_name

theorem dot_not_mem_names (names : List Identifier) :
    ∀ part ∈ names.map fun i => i.name.toList, '.' ∉ part := by
  rw [List.forall_mem_map]
  exact fun i _ => i.dot_not_mem

/-- The parts of a column with steps behind it. -/
theorem parts_column_steps {column : String} (h : '.' ∉ column.toList) (names : List Identifier) :
    (column ++ steps names).toList.splitOn '.' =
      column.toList :: names.map fun i => i.name.toList := by
  refine Text.splitOn_eq_cons_iff.2 ⟨?_, List.forall_mem_cons.2 ⟨h, dot_not_mem_names names⟩⟩
  rw [String.toList_append, toList_steps]

/-- The path of some names. -/
theorem pathOf_names (names : List Identifier) :
    pathOf (names.map fun i => i.name.toList) = "$" ++ steps names := by
  rw [← String.toList_inj, pathOf, String.toList_ofList, String.toList_append, toList_steps]
  rfl

/-- **When a field names a place**, and which. -/
theorem ofField_eq_ok_iff_names {p : JsonPath} : ofField field = .ok p ↔ Names field p := by
  constructor
  · intro h
    have hparts := Text.splitOn_eq_cons '.' field.toList
    obtain ⟨hcolumn, hne, hsegments, rfl⟩ := (Target.jsonPath_eq_ok_iff hparts).1 h
    obtain ⟨hjoin, hfree⟩ := Text.splitOn_eq_cons_iff.1 hparts
    obtain ⟨names, hnames⟩ := exists_names hsegments
    rw [hnames] at hne hjoin
    rw [hnames, pathOf_names]
    refine ⟨?_, ?_, names, ?_, ?_, rfl⟩
    · rwa [ne_eq, String.ofList_eq_empty_iff]
    · rw [String.toList_ofList]
      exact hfree _ List.mem_cons_self
    · rintro rfl
      exact hne rfl
    · rw [← String.toList_inj, String.toList_append, String.toList_ofList, toList_steps]
      exact hjoin
  · rintro ⟨hcolumn, hfree, names, hne, rfl, hpath⟩
    refine (Target.jsonPath_eq_ok_iff (parts_column_steps hfree names)).2
      ⟨?_, ?_, isIdentifier_of_mem_names names, ?_⟩
    · rwa [ne_eq, String.toList_eq_nil_iff]
    · rwa [ne_eq, List.map_eq_nil_iff]
    · rw [pathOf_names, ← hpath, String.ofList_toList]

/-- The column and the path of a place put its field together. -/
theorem Names.field_eq {p : JsonPath} (h : Names field p) :
    field = p.column ++ String.ofList (p.path.toList.drop 1) := by
  obtain ⟨-, -, names, -, rfl, hpath⟩ := h
  rw [hpath, String.toList_append, ← String.toList_inj, String.toList_append, String.toList_append,
    String.toList_ofList]
  rfl

/-! ## Faults -/

/-- **What is wrong with a field of these parts**, if anything is. -/
theorem ofField_eq_badPath_iff (hparts : field.toList.splitOn '.' = column :: segments)
    {fault : PathFault} :
    ofField field = .error (.badPath field fault) ↔
      column = [] ∧ fault = .missingColumn ∨ column ≠ [] ∧ segmentFault? segments = some fault ∨
        column ≠ [] ∧ segments = [] ∧ fault = .missingPath := by
  have heq : ∀ fault' : PathFault,
      (Except.error (.badPath field fault') : Except Error JsonPath) =
        .error (.badPath field fault) ↔ fault = fault' := by
    intro fault'
    rw [Except.error.injEq, Error.badPath.injEq]
    exact ⟨fun h => h.2.symm, fun h => ⟨rfl, h.symm⟩⟩
  rw [ofField, hparts]
  simp only [List.isEmpty_iff]
  by_cases hcolumn : column = []
  · rw [if_pos hcolumn, heq]
    simp only [hcolumn, true_and, ne_eq, not_true, false_and, or_false]
  rw [if_neg hcolumn]
  cases hfault : segmentFault? segments with
  | some fault' =>
    have hne : segments ≠ [] := by
      rintro rfl
      cases hfault
    simp only [heq, hcolumn, hne, false_and, not_false_eq_true, true_and, false_or, or_false, ne_eq,
      Option.some.injEq, eq_comm]
  | none =>
    by_cases hne : segments = []
    · simp only [hne, heq, hcolumn, if_true, false_and, not_false_eq_true, true_and, false_or,
        ne_eq, reduceCtorEq]
    · simp only [hne, hcolumn, if_false, false_and, and_false, or_false, reduceCtorEq]

/-- A field is refused as a whole. -/
theorem exists_badPath {e : Error} (h : ofField field = .error e) :
    ∃ fault, e = .badPath field fault := by
  unfold ofField at h
  split at h
  · cases h
    exact ⟨_, rfl⟩
  · split at h
    · cases h
      exact ⟨_, rfl⟩
    · split at h
      · cases h
        exact ⟨_, rfl⟩
      · split at h
        · cases h
          exact ⟨_, rfl⟩
        · cases h

theorem reason_injective : Function.Injective PathFault.reason := by
  intro fault fault' h
  cases fault <;> cases fault' <;> first | rfl | exact absurd h (by decide)

theorem fails_reason_iff (fault : PathFault) :
    Fails field fault.reason ↔ ofField field = .error (.badPath field fault) := by
  constructor
  · rintro ⟨fault', h, hreason⟩
    rwa [← reason_injective hreason]
  · exact fun h => ⟨fault, h, rfl⟩

/-- The first bad segment of a field of these parts. -/
theorem isFirstBadSegment_iff (hparts : field.toList.splitOn '.' = column :: segments) :
    IsFirstBadSegment field segment ↔
      column ≠ [] ∧ ∃ before after, segments = before ++ segment.toList :: after ∧
        (∀ part ∈ before, isIdentifier (String.ofList part) = true) ∧
          isIdentifier segment = false := by
  constructor
  · rintro ⟨hbad, hsegment, name, names, rest, hname, hfree, hrest, rfl⟩
    rw [← String.toList_eq_nil_iff] at hrest
    -- The parts of a field are unique, so those that are put together here are the given ones.
    obtain ⟨after, hafter, hafterfree⟩ := Text.exists_parts_of_head? hrest
    have hparts' : (name ++ steps names ++ "." ++ segment ++ rest).toList.splitOn '.' =
        name.toList :: ((names.map fun i => i.name.toList) ++ segment.toList :: after) := by
      refine Text.splitOn_eq_cons_iff.2 ⟨?_, ?_⟩
      · simp only [String.toList_append, toList_steps, hafter, List.flatMap_append,
          List.flatMap_cons, List.append_assoc]
        rfl
      · rw [List.forall_mem_cons, List.forall_mem_append, List.forall_mem_cons]
        exact ⟨hfree, dot_not_mem_names names, hsegment, hafterfree⟩
    rw [hparts'] at hparts
    cases hparts
    exact ⟨String.toList_eq_nil_iff.not.2 hname, _, _, rfl, isIdentifier_of_mem_names names, hbad⟩
  · rintro ⟨hcolumn, before, after, rfl, hbefore, hbad⟩
    obtain ⟨hjoin, hfree⟩ := Text.splitOn_eq_cons_iff.1 hparts
    obtain ⟨names, rfl⟩ := exists_names hbefore
    rw [List.forall_mem_cons, List.forall_mem_append, List.forall_mem_cons] at hfree
    refine ⟨hbad, hfree.2.2.1, String.ofList column, names,
      String.ofList (after.flatMap fun part => '.' :: part), ?_, ?_, ?_, ?_⟩
    · rwa [ne_eq, String.ofList_eq_empty_iff]
    · rw [String.toList_ofList]
      exact hfree.1
    · rw [String.ofList_eq_empty_iff, String.toList_ofList]
      exact Text.head?_flatMap after
    · rw [← String.toList_inj, hjoin]
      simp only [String.toList_append, toList_steps, List.flatMap_append, List.flatMap_cons,
        List.append_assoc, String.toList_ofList]
      rfl

/-! ## When a field fails, and for which reason -/

/-- The fault of a bad segment. -/
def segmentFault (segment : String) : PathFault :=
  if segment = "" then .emptySegment else .badSegment

/-- The fault in the segments of a field is that of the first bad one. -/
theorem ofField_eq_segmentFault_iff {fault : PathFault}
    (hfault : fault = .emptySegment ∨ fault = .badSegment) :
    ofField field = .error (.badPath field fault) ↔
      ∃ segment, fault = segmentFault segment ∧ IsFirstBadSegment field segment := by
  have hparts := Text.splitOn_eq_cons '.' field.toList
  have hothers : fault ≠ .missingColumn ∧ fault ≠ .missingPath := by
    rcases hfault with rfl | rfl <;> exact ⟨nofun, nofun⟩
  rw [ofField_eq_badPath_iff hparts]
  simp only [hothers, and_false, or_false, false_or, isFirstBadSegment_iff hparts,
    Target.segmentFault?_eq_some_iff]
  constructor
  · rintro ⟨hcolumn, before, segment, after, hsegments, hbefore, hbad, rfl⟩
    refine ⟨String.ofList segment, ?_, hcolumn, before, after, ?_, hbefore, hbad⟩
    · simp only [segmentFault, String.ofList_eq_empty_iff]
    · rwa [String.toList_ofList]
  · rintro ⟨segment, rfl, hcolumn, before, after, hsegments, hbefore, hbad⟩
    refine ⟨hcolumn, before, segment.toList, after, hsegments, hbefore, ?_, ?_⟩
    · rwa [String.ofList_toList]
    · simp only [segmentFault, String.toList_eq_nil_iff]

theorem fails_emptySegment_iff : Fails field "empty segment" ↔ IsFirstBadSegment field "" := by
  refine (fails_reason_iff .emptySegment).trans
    ((ofField_eq_segmentFault_iff (.inl rfl)).trans ⟨?_, fun h => ⟨"", rfl, h⟩⟩)
  rintro ⟨segment, hfault, h⟩
  by_cases hs : segment = ""
  · rwa [hs] at h
  · rw [segmentFault, if_neg hs] at hfault
    cases hfault

theorem fails_badSegment_iff :
    Fails field "segment is not an identifier" ↔
      ∃ segment, segment ≠ "" ∧ IsFirstBadSegment field segment := by
  refine (fails_reason_iff .badSegment).trans
    ((ofField_eq_segmentFault_iff (.inr rfl)).trans (exists_congr fun segment =>
      and_congr_left fun _ => ?_))
  by_cases hs : segment = "" <;> simp [segmentFault, hs]

theorem segmentFault?_ne {fault : PathFault} (h : fault = .missingColumn ∨ fault = .missingPath)
    (parts : List (List Char)) : segmentFault? parts ≠ some fault := by
  intro hparts
  obtain ⟨_, segment, _, _, _, _, rfl⟩ := Target.segmentFault?_eq_some_iff.1 hparts
  by_cases hs : segment = [] <;> simp [hs] at h

theorem fails_missingColumn_iff :
    Fails field "missing column" ↔ field = "" ∨ field.toList.head? = some '.' := by
  refine (fails_reason_iff .missingColumn).trans
    ((ofField_eq_badPath_iff (Text.splitOn_eq_cons '.' field.toList)).trans ?_)
  simp only [segmentFault?_ne (.inl rfl), and_false, or_false, and_true, reduceCtorEq]
  rw [← String.toList_eq_nil_iff]
  cases field.toList with
  | nil => simp
  | cons c s => by_cases hc : c = '.' <;> simp [hc]

theorem fails_missingPath_iff :
    Fails field "missing path" ↔ field ≠ "" ∧ '.' ∉ field.toList := by
  refine (fails_reason_iff .missingPath).trans ?_
  by_cases hdot : '.' ∈ field.toList
  · obtain ⟨segments, hne, hparts, -⟩ := Target.parts_of_mem hdot
    simp only [ofField_eq_badPath_iff hparts, segmentFault?_ne (.inr rfl), hne, hdot, and_false,
      false_and, or_false, reduceCtorEq, not_true]
  · rw [ofField_eq_badPath_iff (Target.parts_of_not_mem hdot), ne_eq, String.toList_eq_nil_iff]
    simp only [segmentFault?_ne (.inr rfl), hdot, and_false, false_or, and_true, reduceCtorEq,
      not_false_eq_true]

/-! ## Reading a place -/

/-- **A place is read** when its column is an identifier. The path is bound, and the text is the
same for all paths. -/
theorem extract_eq_ok_iff {p : JsonPath} {qualifier : Option String} {f : Fragment} :
    p.extract qualifier = .ok f ↔
      ∃ column : Identifier, column.name = p.column ∧
        f = { text := extractText column qualifier, bindings := [.text p.path] } := by
  constructor
  · intro h
    cases hname : Identifier.ofName p.column with
    | error e =>
      rw [extract, hname] at h
      cases h
    | ok column =>
      rw [extract, hname] at h
      cases h
      exact ⟨column, Identifier.ofName_eq_ok_iff.1 hname, rfl⟩
  · rintro ⟨column, hname, rfl⟩
    rw [extract, Identifier.ofName_eq_ok_iff.2 hname]
    rfl

/-- **Places are resolved exactly, and can be turned back.** The fields that name a place are those
made of a column and steps; the column and the path put the field together again, so no two fields
name the same place. Any other field is refused as a whole for its leftmost fault. Where the column
is an identifier the place can be read, with its path bound and not in the text. -/
theorem ofField_exact (field : String) :
    (∀ p, ofField field = .ok p ↔ Names field p) ∧
      (∀ p, ofField field = .ok p →
        field = p.column ++ String.ofList (p.path.toList.drop 1) ∧
          ∀ field', ofField field' = .ok p → field' = field) ∧
      (∀ e, ofField field = .error e → ∃ fault, e = .badPath field fault) ∧
      (Fails field "missing column" ↔ field = "" ∨ field.toList.head? = some '.') ∧
      (Fails field "missing path" ↔ field ≠ "" ∧ '.' ∉ field.toList) ∧
      (Fails field "empty segment" ↔ IsFirstBadSegment field "") ∧
      (Fails field "segment is not an identifier" ↔
        ∃ segment, segment ≠ "" ∧ IsFirstBadSegment field segment) ∧
      ∀ (qualifier : Option String) (f : Fragment),
        (do let p ← ofField field; p.extract qualifier) = .ok f ↔
          ∃ (p : JsonPath) (column : Identifier), Names field p ∧ column.name = p.column ∧
            f = { text := extractText column qualifier, bindings := [.text p.path] } := by
  refine ⟨fun p => ofField_eq_ok_iff_names, fun p hp => ?_, fun e => exists_badPath,
    fails_missingColumn_iff, fails_missingPath_iff, fails_emptySegment_iff, fails_badSegment_iff,
    fun qualifier f => ?_⟩
  · have hfield := (ofField_eq_ok_iff_names.1 hp).field_eq
    refine ⟨hfield, fun field' hp' => ?_⟩
    rw [(ofField_eq_ok_iff_names.1 hp').field_eq, ← hfield]
  · constructor
    · intro h
      cases hp : ofField field with
      | error e =>
        rw [hp] at h
        cases h
      | ok p =>
        rw [hp] at h
        obtain ⟨column, hname, hf⟩ := extract_eq_ok_iff.1 h
        exact ⟨p, column, ofField_eq_ok_iff_names.1 hp, hname, hf⟩
    · rintro ⟨p, column, hp, hname, hf⟩
      rw [ofField_eq_ok_iff_names.2 hp]
      exact extract_eq_ok_iff.2 ⟨column, hname, hf⟩

/-- A place two steps inside a column comes of one field only; and of two bad segments the first
decides, an empty one here. -/
theorem ofField_exact_nested :
    (∀ field', ofField field' = .ok ⟨"meta", "$.address.city"⟩ → field' = "meta.address.city") ∧
      IsFirstBadSegment "meta.address..it's" "" :=
  ⟨((ofField_exact "meta.address.city").2.1 _ rfl).2,
    (ofField_exact "meta.address..it's").2.2.2.2.2.1.1 ⟨.emptySegment, rfl, rfl⟩⟩

end JsonPath

end BoundSql
