import BoundSql.Clause
import Mathlib.Data.List.TakeWhile

/-!
# What a field names

A field is a column, or a column and a way into the JSON text that it holds, with a dot before each
step. `Field.column` is what stands before the first dot and `Field.path` a dollar sign and what
stands from there on. A field is well formed when it is made of identifiers with dots between them
(`IsFieldName`), and these are the fields that have a target (`Target.ofField_eq_ok_iff`).
-/

namespace BoundSql

namespace Field

/-- The column of a field: what stands before its first dot. -/
def column (field : String) : String :=
  String.ofList (field.toList.takeWhile (· ≠ '.'))

/-- The path of a field, if it has a dot: a dollar sign, then the field from its first dot on. -/
def path (field : String) : Option String :=
  if '.' ∈ field.toList then some (String.ofList ('$' :: field.toList.dropWhile (· ≠ '.')))
  else none

end Field

/-- A field name: one or more identifiers with dots between them. -/
def IsFieldName (field : String) : Prop :=
  ∃ names : List Identifier, names ≠ [] ∧ field = ".".intercalate (names.map Identifier.name)

/-! ## Identifiers -/

theorem Identifier.ofName_eq_ok_iff {name : String} {i : Identifier} :
    Identifier.ofName name = .ok i ↔ i.name = name := by
  constructor
  · intro h
    unfold Identifier.ofName at h
    split at h
    · cases h
      rfl
    · cases h
  · rintro rfl
    exact i.ofName_name

theorem isIdentifier_iff {s : String} : isIdentifier s = true ↔ ∃ i : Identifier, i.name = s :=
  ⟨fun h => ⟨⟨s, h⟩, rfl⟩, fun ⟨i, h⟩ => h ▸ i.isIdentifier_name⟩

theorem isIdentifier_eq_true_iff {s : String} :
    isIdentifier s = true ↔
      ∃ c cs, s.toList = c :: cs ∧ isNameStart c = true ∧ ∀ d ∈ cs, isNameChar d = true := by
  unfold isIdentifier
  cases s.toList with
  | nil => simp
  | cons c cs =>
    simp only [Bool.and_eq_true, List.all_eq_true]
    constructor
    · rintro ⟨hc, hcs⟩
      exact ⟨c, cs, rfl, hc, hcs⟩
    · rintro ⟨c', cs', heq, hc, hcs⟩
      cases heq
      exact ⟨hc, hcs⟩

theorem isNameChar_of_isNameStart {c : Char} (h : isNameStart c = true) : isNameChar c = true := by
  simp only [isNameStart, isNameChar, Char.isAlphanum, Bool.or_eq_true] at h ⊢
  exact h.imp_left Or.inl

/-- The code points of the characters of names: capitals, the underscore, small letters, digits. -/
theorem isNameChar_iff_toNat {c : Char} :
    isNameChar c = true ↔ 65 ≤ c.toNat ∧ c.toNat ≤ 90 ∨ c.toNat = 95 ∨
      97 ≤ c.toNat ∧ c.toNat ≤ 122 ∨ 48 ≤ c.toNat ∧ c.toNat ≤ 57 := by
  have hrange : ∀ low high : Char, (low.val ≤ c.val ∧ c.val ≤ high.val) ↔
      low.toNat ≤ c.toNat ∧ c.toNat ≤ high.toNat := by
    intro low high
    rw [UInt32.le_iff_toNat_le, UInt32.le_iff_toNat_le]
    rfl
  have hboth : ∀ low high : Char, (decide (low.val ≤ c.val) && decide (c.val ≤ high.val)) = true ↔
      low.toNat ≤ c.toNat ∧ c.toNat ≤ high.toNat := by
    intro low high
    rw [← hrange, Bool.and_eq_true, decide_eq_true_eq, decide_eq_true_eq]
  have hupper : c.isUpper = true ↔ 65 ≤ c.toNat ∧ c.toNat ≤ 90 :=
    decide_eq_true_iff.trans (hrange 'A' 'Z')
  have hlower : c.isLower = true ↔ 97 ≤ c.toNat ∧ c.toNat ≤ 122 := hboth 'a' 'z'
  have hdigit : c.isDigit = true ↔ 48 ≤ c.toNat ∧ c.toNat ≤ 57 := hboth '0' '9'
  have hunderscore : c = '_' ↔ c.toNat = 95 := ⟨fun h => h ▸ rfl, fun h => Char.toNat_inj.1 h⟩
  have hname : isNameChar c = (((c.isUpper || c.isLower) || c.isDigit) || decide (c = '_')) := rfl
  rw [hname, Bool.or_eq_true, Bool.or_eq_true, Bool.or_eq_true, decide_eq_true_eq, hupper, hlower,
    hdigit, hunderscore]
  omega

namespace Identifier

/-- An identifier is made of letters, digits and underscores. -/
theorem isNameChar_of_mem (i : Identifier) {c : Char} (h : c ∈ i.name.toList) :
    isNameChar c = true := by
  obtain ⟨d, ds, hlist, hd, hds⟩ := isIdentifier_eq_true_iff.1 i.isIdentifier_name
  rw [hlist, List.mem_cons] at h
  rcases h with rfl | h
  · exact isNameChar_of_isNameStart hd
  · exact hds c h

theorem isIdentifier_of_name_eq (i : Identifier) {name : String} (h : i.name = name) :
    isIdentifier name = true := by
  rw [← h]
  exact i.isIdentifier_name

theorem dot_not_mem (i : Identifier) : '.' ∉ i.name.toList := fun h =>
  absurd (i.isNameChar_of_mem h) (by decide)

end Identifier

/-! ## Parts between dots -/

namespace Text

/-- The first part is what stands before the first separator. -/
theorem splitOn_eq_cons (c : Char) (s : List Char) :
    s.splitOn c = s.takeWhile (· ≠ c) ::
      (match s.dropWhile (· ≠ c) with
        | [] => []
        | _ :: rest => rest.splitOn c) := by
  induction s with
  | nil => rfl
  | cons d s ih =>
    rw [List.splitOn_cons_eq_if_modifyHead]
    by_cases h : d = c
    · simp [h]
    · rw [ih]
      simp [h]

theorem flatMap_splitOn (c : Char) (s : List Char) :
    (s.splitOn c).flatMap (fun part => c :: part) = c :: s := by
  induction s with
  | nil => rfl
  | cons d s ih =>
    rw [List.splitOn_cons_eq_if_modifyHead]
    by_cases h : d = c
    · simp [h, ih]
    · cases hp : s.splitOn c with
      | nil => exact absurd hp (List.splitOn_ne_nil c s)
      | cons part rest =>
        rw [hp, List.flatMap_cons, List.cons_append, List.cons.injEq] at ih
        simp [h, ih.2]

end Text

/-- A field name falls apart into identifiers. -/
theorem isFieldName_iff {field : String} :
    IsFieldName field ↔
      ∀ part ∈ field.toList.splitOn '.', isIdentifier (String.ofList part) = true := by
  constructor
  · rintro ⟨names, hne, rfl⟩ part hpart
    rw [String.toList_intercalate, List.map_map] at hpart
    change part ∈ (List.intercalate ['.'] _).splitOn '.' at hpart
    rw [List.splitOn_intercalate] at hpart
    · obtain ⟨i, -, rfl⟩ := List.mem_map.1 hpart
      simpa using i.isIdentifier_name
    · intro l hl
      obtain ⟨i, -, rfl⟩ := List.mem_map.1 hl
      exact i.dot_not_mem
    · simpa using hne
  · intro h
    refine ⟨(field.toList.splitOn '.').pmap (fun part h => ⟨String.ofList part, h⟩) h, ?_, ?_⟩
    · simp
    · rw [← String.toList_inj, String.toList_intercalate, List.map_map, List.map_pmap]
      simp only [Function.comp_apply, String.toList_ofList, List.pmap_eq_map, List.map_id']
      exact (List.intercalate_splitOn '.').symm

namespace Target

/-- The segments of a field have no fault exactly when they are identifiers. -/
theorem segmentFault?_eq_none_iff {parts : List (List Char)} :
    JsonPath.segmentFault? parts = none ↔
      ∀ part ∈ parts, isIdentifier (String.ofList part) = true := by
  induction parts with
  | nil => simp [JsonPath.segmentFault?]
  | cons part parts ih =>
    rw [JsonPath.segmentFault?]
    by_cases he : part = []
    · subst he
      simp [isIdentifier]
    · by_cases hi : isIdentifier (String.ofList part) = true
      · simp [he, hi, ih]
      · simp [he, hi]

/-- The first segment that is no identifier decides what is wrong with the segments. -/
theorem segmentFault?_eq_some_iff {parts : List (List Char)} {fault : PathFault} :
    JsonPath.segmentFault? parts = some fault ↔
      ∃ before segment after, parts = before ++ segment :: after ∧
        (∀ part ∈ before, isIdentifier (String.ofList part) = true) ∧
        isIdentifier (String.ofList segment) = false ∧
        fault = if segment = [] then .emptySegment else .badSegment := by
  induction parts with
  | nil => simp [JsonPath.segmentFault?]
  | cons part parts ih =>
    have hempty : isIdentifier (String.ofList []) = false := rfl
    simp only [JsonPath.segmentFault?, List.isEmpty_iff]
    constructor
    · intro h
      by_cases he : part = []
      · rw [if_pos he] at h
        cases h
        exact ⟨[], part, parts, rfl, nofun, he ▸ hempty, (if_pos he).symm⟩
      rw [if_neg he] at h
      by_cases hi : isIdentifier (String.ofList part) = true
      · rw [if_pos hi] at h
        obtain ⟨before, segment, after, rfl, hbefore, hbad, hfault⟩ := ih.1 h
        exact ⟨part :: before, segment, after, rfl, List.forall_mem_cons.2 ⟨hi, hbefore⟩, hbad,
          hfault⟩
      · rw [if_neg hi] at h
        cases h
        exact ⟨[], part, parts, rfl, nofun, Bool.eq_false_iff.2 hi, (if_neg he).symm⟩
    · rintro ⟨before, segment, after, heq, hbefore, hbad, rfl⟩
      cases before with
      | nil =>
        cases heq
        by_cases he : part = []
        · rw [if_pos he, if_pos he]
        · rw [if_neg he, if_neg he, if_neg (Bool.eq_false_iff.1 hbad)]
      | cons first before =>
        cases heq
        rw [List.forall_mem_cons] at hbefore
        have he : part ≠ [] := by
          rintro rfl
          rw [hempty] at hbefore
          cases hbefore.1
        rw [if_neg he, if_pos hbefore.1, ih]
        exact ⟨before, segment, after, rfl, hbefore.2, hbad, rfl⟩

theorem isDotted_iff {field : String} : JsonPath.isDotted field = true ↔ '.' ∈ field.toList := by
  simp [JsonPath.isDotted]

/-- The parts of a field without dots. -/
theorem parts_of_not_mem {field : String} (h : '.' ∉ field.toList) :
    field.toList.splitOn '.' = [field.toList] :=
  List.splitOn_eq_singleton h

/-- The parts of a field with dots: its column, then the segments of its path. -/
theorem parts_of_mem {field : String} (h : '.' ∈ field.toList) :
    ∃ segments, segments ≠ [] ∧
      field.toList.splitOn '.' = (Field.column field).toList :: segments ∧
      Field.path field = some (JsonPath.pathOf segments) := by
  rw [Text.splitOn_eq_cons, Field.column, String.toList_ofList, Field.path, if_pos h]
  cases hrest : field.toList.dropWhile (· ≠ '.') with
  | nil =>
    rw [List.dropWhile_eq_nil_iff] at hrest
    simpa using hrest '.' h
  | cons c rest =>
    have hc : c = '.' := by
      have := List.head?_dropWhile_not (fun c => decide (c ≠ '.')) field.toList
      rw [hrest] at this
      simpa using this
    subst hc
    refine ⟨rest.splitOn '.', List.splitOn_ne_nil '.' rest, rfl, ?_⟩
    rw [JsonPath.pathOf, Text.flatMap_splitOn]

/-- When a field with these parts names a place, and which. -/
theorem jsonPath_eq_ok_iff {field : String} {column : List Char} {segments : List (List Char)}
    (hparts : field.toList.splitOn '.' = column :: segments) {p : JsonPath} :
    JsonPath.ofField field = .ok p ↔
      column ≠ [] ∧ segments ≠ [] ∧ (∀ part ∈ segments, isIdentifier (String.ofList part) = true) ∧
        p = { column := String.ofList column, path := JsonPath.pathOf segments } := by
  rw [← segmentFault?_eq_none_iff, JsonPath.ofField, hparts]
  by_cases hc : column = []
  · simp [hc]
  by_cases hs : segments = []
  · subst hs
    simp [hc, JsonPath.segmentFault?]
  cases hfault : JsonPath.segmentFault? segments with
  | some fault => simp [hc, hfault]
  | none =>
    have heq : ∀ q : JsonPath, (Except.ok q : Except Error JsonPath) = .ok p ↔ p = q := by
      intro q
      rw [Except.ok.injEq, eq_comm]
    simp only [hc, hs, hfault, List.isEmpty_iff, if_false, heq, ne_eq, not_false_eq_true, true_and]

/-- A field without a dot is a column. -/
theorem column_of_not_mem {field : String} (hdot : '.' ∉ field.toList) :
    Field.column field = field := by
  have hparts := parts_of_not_mem hdot
  rw [Text.splitOn_eq_cons] at hparts
  rw [Field.column, (List.cons.inj hparts).1, String.ofList_toList]

/-- The target of a column. -/
theorem column_eq_ok_iff {qualifier : Option Identifier} {name : String} {path : Option String}
    {t : Target} :
    (do let column ← Identifier.ofName name; pure { qualifier, column, path } :
        Except Error Target) = .ok t ↔
      t.qualifier = qualifier ∧ t.column.name = name ∧ t.path = path := by
  constructor
  · intro h
    cases hname : Identifier.ofName name with
    | error e =>
      rw [hname] at h
      cases h
    | ok i =>
      rw [hname] at h
      cases h
      exact ⟨rfl, Identifier.ofName_eq_ok_iff.1 hname, rfl⟩
  · rintro ⟨rfl, rfl, rfl⟩
    rw [t.column.ofName_name]
    rfl

/-- The target of a field that names a place. -/
theorem ofField_of_place {qualifier : Option Identifier} {field : String} {p : JsonPath}
    (hdot : '.' ∈ field.toList) (hplace : JsonPath.ofField field = .ok p) {t : Target} :
    Target.ofField qualifier field = .ok t ↔
      t.qualifier = qualifier ∧ t.column.name = p.column ∧ t.path = some p.path := by
  rw [Target.ofField, if_pos (isDotted_iff.2 hdot), hplace]
  exact column_eq_ok_iff

/-- **Which fields have a target, and which**: the field names, and the target is what stands
before the first dot, with the path that begins there. -/
theorem ofField_eq_ok_iff {qualifier : Option Identifier} {field : String} {t : Target} :
    Target.ofField qualifier field = .ok t ↔
      IsFieldName field ∧ t.qualifier = qualifier ∧ t.column.name = Field.column field ∧
        t.path = Field.path field := by
  rw [isFieldName_iff]
  by_cases hdot : '.' ∈ field.toList
  · obtain ⟨segments, hne, hparts, hpath⟩ := parts_of_mem hdot
    rw [hpath, hparts]
    simp only [List.forall_mem_cons, String.ofList_toList]
    constructor
    · intro h
      cases hplace : JsonPath.ofField field with
      | error e =>
        rw [Target.ofField, if_pos (isDotted_iff.2 hdot), hplace] at h
        cases h
      | ok p =>
        have ht := (ofField_of_place hdot hplace).1 h
        obtain ⟨-, -, hsegments, rfl⟩ := (jsonPath_eq_ok_iff hparts).1 hplace
        rw [String.ofList_toList] at ht
        exact ⟨⟨t.column.isIdentifier_of_name_eq ht.2.1, hsegments⟩, ht⟩
    · rintro ⟨⟨hcolumn, hsegments⟩, ht⟩
      have hc : (Field.column field).toList ≠ [] := by
        intro h
        simp [isIdentifier, h] at hcolumn
      have hplace := (jsonPath_eq_ok_iff hparts).2 ⟨hc, hne, hsegments, rfl⟩
      rw [ofField_of_place hdot hplace, String.ofList_toList]
      exact ht
  · rw [Target.ofField, if_neg (isDotted_iff.not.2 hdot), parts_of_not_mem hdot,
      column_of_not_mem hdot, column_eq_ok_iff, Field.path, if_neg hdot]
    simp only [List.forall_mem_singleton, String.ofList_toList]
    exact ⟨fun ht => ⟨t.column.isIdentifier_of_name_eq ht.2.1, ht⟩, And.right⟩

/-- The fields that have a target are the field names. -/
theorem isSome_ofField_iff (qualifier : Option Identifier) {field : String} :
    (Target.ofField qualifier field).toOption.isSome = true ↔ IsFieldName field := by
  constructor
  · intro h
    cases ht : Target.ofField qualifier field with
    | error e =>
      rw [ht] at h
      cases h
    | ok t => exact (ofField_eq_ok_iff.1 ht).1
  · intro h
    have hcolumn : isIdentifier (Field.column field) = true := by
      rw [isFieldName_iff, Text.splitOn_eq_cons] at h
      exact h _ List.mem_cons_self
    obtain ⟨column, hname⟩ := isIdentifier_iff.1 hcolumn
    have ht : Target.ofField qualifier field = .ok ⟨qualifier, column, Field.path field⟩ :=
      ofField_eq_ok_iff.2 ⟨h, rfl, hname, rfl⟩
    rw [ht]
    rfl

end Target

end BoundSql
