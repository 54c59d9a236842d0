import BoundSql.Proofs.Clause.Part
import BoundSql.Proofs.Filter.Holds
import BoundSql.Proofs.Filter.Meaning
import BoundSql.Proofs.Filter.Size

/-!
# The conjuncts of a filter object

An entry of a filter object is supplied when it is defined and, if it is the block of an alias, an
object. Every entry that is supplied gives the clause of the object a conjunct of its own, with one
exception: of the entries that give the same combinator only the last one counts
(`Value.counted_eq_supplied_iff`).

`compile_conjuncts` says this of all filter objects that a document holds. Their clauses stand in
the text of the document as they are, and the conjuncts of each are the clauses of its entries that
count, each compiled on its own.
-/

namespace BoundSql

/-! ## Supplied entries -/

namespace Value

/-- Whether an entry of a filter object is supplied: it is defined, and the block of an alias is an
object. -/
def isSupplied (key : String) (v : Value) : Bool :=
  !v.isUndefined &&
    match Key.ofText key with
    | .block _ => v.isObject
    | _ => true

/-- The entries of a filter object that are supplied, in order. -/
def supplied (entries : List (String × Value)) : List (String × Value) :=
  entries.filter fun e => isSupplied e.1 e.2

/-- How often a combinator is given in a filter object. -/
def given (c : Combinator) (entries : List (String × Value)) : Nat :=
  entries.countP fun e => e.1 = c.key && !e.2.isUndefined

variable {key : String} {v : Value} {entries : List (String × Value)}

theorem given_cons (c : Combinator) (key : String) (v : Value) (entries : List (String × Value)) :
    given c ((key, v) :: entries) =
      given c entries + if (key = c.key && !v.isUndefined) = true then 1 else 0 := by
  rw [given, List.countP_cons, ← given]

theorem isSupplied_combinator (c : Combinator) (v : Value) :
    isSupplied c.key v = !v.isUndefined := by
  rw [isSupplied, Key.ofText_key, Bool.and_true]

/-- An entry counts when it is supplied and gives no combinator that is given again. -/
theorem counts_iff : counts key v entries = true ↔
    isSupplied key v = true ∧ ∀ c : Combinator, key = c.key → given c entries = 0 := by
  have hgiven : ∀ c : Combinator,
      (!entries.any fun p => p.1 = c.key && !p.2.isUndefined) = true ↔ given c entries = 0 := by
    intro c
    rw [given, List.countP_eq_zero, Bool.not_eq_true', List.any_eq_false]
  rw [counts, isSupplied]
  cases hkey : Key.ofText key with
  | combinator c =>
    obtain rfl := Key.ofText_eq_combinator_iff.1 hkey
    simp only [Bool.and_true, Bool.and_eq_true, hgiven]
    refine and_congr_right fun _ => ⟨fun h c' hc => ?_, fun h => h c rfl⟩
    cases c <;> cases c' <;> first | exact h | exact absurd hc (by decide)
  | block name =>
    have hne := Key.ne_key_of_ofText hkey nofun
    simp [hne]
  | field name =>
    have hne := Key.ne_key_of_ofText hkey nofun
    simp [hne]

/-- A supplied entry that does not count is a combinator, and the combinator is given again. -/
theorem exists_given_of_not_counts (hsupplied : isSupplied key v = true)
    (h : counts key v entries = false) : ∃ c : Combinator, key = c.key ∧ given c entries ≠ 0 := by
  by_contra hnone
  refine absurd (counts_iff.2 ⟨hsupplied, fun c hc => ?_⟩) (by rw [h]; decide)
  by_contra hne
  exact hnone ⟨c, hc, hne⟩

theorem counted_sublist (entries : List (String × Value)) :
    (counted entries).Sublist (supplied entries) := by
  induction entries with
  | nil => exact .slnil
  | cons e l ih =>
    obtain ⟨key, v⟩ := e
    rw [counted, supplied, List.filter_cons, ← supplied]
    cases h : counts key v l with
    | true =>
      rw [if_pos rfl, if_pos (counts_iff.1 h).1]
      exact ih.cons_cons _
    | false =>
      rw [if_neg (by decide)]
      split
      · exact ih.cons _
      · exact ih

theorem mem_of_mem_counted {e : String × Value} (h : e ∈ counted entries) : e ∈ entries :=
  List.mem_of_mem_filter ((counted_sublist entries).mem h)

/-- **Which entries count**: all that are supplied, as long as no combinator is given twice. -/
theorem counted_eq_supplied_iff :
    counted entries = supplied entries ↔ ∀ c, given c entries ≤ 1 := by
  induction entries with
  | nil => exact ⟨fun _ c => Nat.zero_le 1, fun _ => rfl⟩
  | cons e l ih =>
    obtain ⟨key, v⟩ := e
    rw [counted, supplied, List.filter_cons, ← supplied]
    simp only [given_cons]
    cases h : counts key v l with
    | true =>
      obtain ⟨hsupplied, hfirst⟩ := counts_iff.1 h
      rw [if_pos rfl, if_pos hsupplied, List.cons.injEq, and_iff_right rfl, ih]
      refine forall_congr' fun c => ?_
      split
      · next hc =>
        rw [Bool.and_eq_true, decide_eq_true_eq] at hc
        rw [hfirst c hc.1]
        decide
      · rw [Nat.add_zero]
    | false =>
      rw [if_neg (by decide)]
      cases hsupplied : isSupplied key v with
      | false =>
        rw [if_neg (by decide), ih]
        refine forall_congr' fun c => ?_
        rw [if_neg, Nat.add_zero]
        intro hc
        rw [Bool.and_eq_true, decide_eq_true_eq] at hc
        rw [hc.1, isSupplied_combinator, hc.2] at hsupplied
        cases hsupplied
      | true =>
        obtain ⟨c, rfl, hne⟩ := exists_given_of_not_counts hsupplied h
        rw [isSupplied_combinator] at hsupplied
        constructor
        · intro heq
          have hlength := (counted_sublist l).length_le
          rw [heq, if_pos rfl, List.length_cons] at hlength
          omega
        · intro hle
          have hc := hle c
          rw [hsupplied, Bool.and_true, decide_eq_true rfl, if_pos rfl] at hc
          omega

theorem length_counted_eq_iff :
    (counted entries).length = (supplied entries).length ↔ ∀ c, given c entries ≤ 1 := by
  rw [← counted_eq_supplied_iff]
  exact ⟨(counted_sublist entries).eq_of_length, congrArg List.length⟩

end Value

/-! ## The size of what a document holds -/

namespace Filter

variable {key : String} {v w : Value} {entries : List (String × Value)}

/-- A document that is small enough for some limits. -/
structure Fits (limits : Limits) (v : Value) : Prop where
  depth_le : (ofValue v).depth ≤ limits.nestingDepth
  operators_le : (ofValue v).operators ≤ limits.operators

/-- A filter object is larger than what any of its entries that count is read as. -/
theorem size_le_of_mem_counted (h : (key, v) ∈ Value.counted entries) :
    depthEntry key v + 1 ≤ (ofValue (.object entries)).depth ∧
      operatorsEntry key v ≤ (ofValue (.object entries)).operators := by
  rw [ofValue]
  induction entries with
  | nil => cases h
  | cons e l ih =>
    obtain ⟨key', v'⟩ := e
    rw [Value.counted] at h
    cases hcounts : Value.counts key' v' l with
    | false =>
      rw [hcounts] at h
      rw [partsOf_cons_of_not_counts hcounts]
      exact ih h
    | true =>
      have hadds := partsOf_cons_of_counts hcounts
      rw [hcounts, if_pos rfl, List.mem_cons] at h
      rw [depth_adds hadds, operators_adds hadds]
      rcases h with h | h
      · cases h
        omega
      · have hl := ih h
        omega

/-- The size of an object with a single entry. -/
theorem size_singleton (h : Value.counts key v [] = true) :
    (ofValue (.object [(key, v)])).depth = depthEntry key v + 1 ∧
      (ofValue (.object [(key, v)])).operators = operatorsEntry key v := by
  have hadds := partsOf_cons_of_counts h
  have hempty : (ofParts (partsOf [])).depth = 1 ∧ (ofParts (partsOf [])).operators = 0 :=
    ⟨rfl, rfl⟩
  rw [ofValue, depth_adds hadds, operators_adds hadds]
  omega

/-- An entry that counts in front of others counts alone. -/
theorem counts_nil_of_mem_counted (h : (key, v) ∈ Value.counted entries) :
    Value.counts key v [] = true := by
  have hsupplied := List.of_mem_filter ((Value.counted_sublist entries).mem h)
  exact Value.counts_iff.2 ⟨hsupplied, fun c _ => rfl⟩

theorem Fits.singleton {limits : Limits} (h : Fits limits (.object entries))
    (hmem : (key, v) ∈ Value.counted entries) : Fits limits (.object [(key, v)]) := by
  obtain ⟨hdepth, hoperators⟩ := size_singleton (counts_nil_of_mem_counted hmem)
  obtain ⟨hdepth', hoperators'⟩ := size_le_of_mem_counted hmem
  refine ⟨?_, ?_⟩
  · rw [hdepth]
    exact hdepth'.trans h.depth_le
  · rw [hoperators]
    exact hoperators'.trans h.operators_le

theorem size_le_of_mem_ofItems {l : List Value} (h : w ∈ l) :
    (ofValue w).depth ≤ depthItems (ofItems l) ∧
      (ofValue w).operators ≤ operatorsItems (ofItems l) := by
  induction l with
  | nil => cases h
  | cons w' l ih =>
    rw [ofItems, depthItems, operatorsItems]
    rcases List.mem_cons.1 h with rfl | h
    · omega
    · have hl := ih h
      omega

/-- Whatever a document holds is as small as the document. -/
theorem Fits.holds {limits : Limits} (h : Fits limits v) {blocks : List String}
    (hheld : v.HoldsFilter blocks w) : Fits limits w := by
  induction hheld with
  | root => exact h
  | @item blocks entries c l w _ hmem hw ih =>
    obtain ⟨hdepth, hoperators⟩ := size_le_of_mem_counted hmem
    obtain ⟨hdepth', hoperators'⟩ := size_le_of_mem_ofItems hw
    have hd := ih.depth_le
    have hn := ih.operators_le
    simp only [depthEntry, operatorsEntry, Key.ofText_key, combinationOf, depthCombination,
      operatorsCombination] at hdepth hoperators
    exact ⟨by omega, by omega⟩
  | @block blocks entries name w _ hmem ih =>
    obtain ⟨hdepth, hoperators⟩ := size_le_of_mem_counted hmem
    have hd := ih.depth_le
    have hn := ih.operators_le
    simp only [depthEntry, operatorsEntry, Key.ofText_dollar] at hdepth hoperators
    exact ⟨by omega, by omega⟩

/-! ## The clauses of what a document holds -/

open BoundClause

/-- Inside the block of an alias, if there is one, a document compiles to a clause on its own. -/
def CompilesTo (limits : Limits) (qualifier : Option Identifier) (v : Value) (c : Clause) : Prop :=
  ∃ s, (ofValue v).compile qualifier { limits } = .ok c s

variable {items : Nat} {qualifier : Option Identifier} {limits : Limits} {b : BoundClause}

theorem compilesTo_of_bound (hfits : Fits limits v)
    (hb : bound limits.listItems qualifier (ofValue v) = some b) :
    CompilesTo limits qualifier v b.clause := by
  have hyields := yields_compile limits.listItems qualifier (ofValue v) { limits } rfl
    (Compilation.within_start limits)
  have hd := hfits.depth_le
  have hn := hfits.operators_le
  exact ⟨_, (hyields _ _).2 ⟨b.bindings, by rw [hb]; rfl, by simpa using hd, by simpa using hn,
    rfl⟩⟩

theorem boundEntries_eq_some_iff {bs : List BoundClause} :
    boundEntries items qualifier entries = some bs ↔
      List.Forall₂ (fun e b => boundEntry items qualifier e.1 e.2 = some b) entries bs := by
  induction entries generalizing bs with
  | nil => rw [boundEntries, List.forall₂_nil_left_iff, Option.some.injEq, eq_comm]
  | cons e l ih =>
    simp only [List.forall₂_cons_left_iff, ← ih, boundEntries, front]
    cases boundEntry items qualifier e.1 e.2 with
    | none => simp
    | some b => cases boundEntries items qualifier l <;> simp [eq_comm]

theorem boundItems_eq_some_iff {l : List Value} {bs : List BoundClause} :
    boundItems items qualifier (ofItems l) = some bs ↔
      List.Forall₂ (fun w b => bound items qualifier (ofValue w) = some b) l bs := by
  induction l generalizing bs with
  | nil => rw [ofItems, boundItems, List.forall₂_nil_left_iff, Option.some.injEq, eq_comm]
  | cons w l ih =>
    simp only [List.forall₂_cons_left_iff, ← ih, ofItems, boundItems]
    cases bound items qualifier (ofValue w) with
    | none => simp
    | some b => cases boundItems items qualifier (ofItems l) <;> simp [eq_comm]

/-- The clause of a filter object puts together those of its entries that count. -/
theorem exists_boundEntries_of_bound
    (hb : bound items qualifier (ofValue (.object entries)) = some b) :
    ∃ bs bs', BoundClause.conjunction bs = some b ∧ bs.Perm bs' ∧
      boundEntries items qualifier (Value.counted entries) = some bs' := by
  have hperm : Reordered (boundParts items qualifier (partsOf entries)) _ := boundParts_perm entries
  rw [bound_object] at hb
  obtain ⟨bs, hbs, hconjunction⟩ := Option.bind_eq_some_iff.1 hb
  rw [hbs] at hperm
  generalize boundEntries items qualifier (Value.counted entries) = r at hperm
  cases hperm with
  | some hperm => exact ⟨bs, _, hconjunction, hperm, rfl⟩

/-- The clause of an entry is that of an object with no other entry. -/
theorem bound_singleton (hcounts : Value.counts key v [] = true)
    (hb : boundEntry items qualifier key v = some b) :
    bound items qualifier (ofValue (.object [(key, v)])) = some b := by
  have hadds : Reordered (boundParts items qualifier (partsOf [(key, v)])) _ :=
    boundParts_adds (partsOf_cons_of_counts hcounts)
  have hempty : boundParts items qualifier (partsOf []) = some [] := rfl
  rw [hempty, hb] at hadds
  rw [bound_object]
  generalize boundParts items qualifier (partsOf [(key, v)]) = r at hadds
  cases hadds with
  | some hperm =>
    rw [List.perm_singleton.1 hperm]
    rfl

/-! ## Clauses inside others -/

/-- The clause of an entry that counts is a part of that of the filter object. -/
theorem exists_boundEntry_part (hb : bound items qualifier (ofValue (.object entries)) = some b)
    (hmem : (key, w) ∈ Value.counted entries) :
    ∃ b', boundEntry items qualifier key w = some b' ∧ IsPart b' b := by
  obtain ⟨bs, bs', hconjunction, hperm, hentries⟩ := exists_boundEntries_of_bound hb
  obtain ⟨b', hb', hentry⟩ := exists_of_mem_of_forall₂ (boundEntries_eq_some_iff.1 hentries) hmem
  exact ⟨b', hentry, isPart_of_mem_conjunction hconjunction (hperm.mem_iff.2 hb')⟩

/-- What a document holds has its clause in the clause of the document, inside the innermost of the
blocks that it stands below. -/
theorem exists_bound_part {outer : Option Identifier} {blocks : List String}
    (hb : bound items outer (ofValue v) = some b) (hheld : v.HoldsFilter blocks w) :
    ∃ qualifier b', qualifier.map Identifier.name = blocks.head?.or (outer.map Identifier.name) ∧
      bound items qualifier (ofValue w) = some b' ∧ IsPart b' b := by
  induction hheld with
  | root => exact ⟨outer, b, rfl, hb, .refl⟩
  | @item blocks entries c l w _ hmem hw ih =>
    obtain ⟨qualifier, b₁, hq, hb₁, hpart⟩ := ih
    obtain ⟨b₂, hb₂, hpart₂⟩ := exists_boundEntry_part hb₁ hmem
    rw [boundEntry, Key.ofText_key] at hb₂
    obtain ⟨first, rest, hitems, rfl⟩ := boundGiven_array hb₂
    obtain ⟨b₃, hmem₃, hb₃⟩ := exists_of_mem_of_forall₂ (boundItems_eq_some_iff.1 hitems) hw
    exact ⟨qualifier, b₃, hq, hb₃, (IsPart.member hmem₃ .refl).trans (hpart₂.trans hpart)⟩
  | @block blocks entries name w _ hmem ih =>
    obtain ⟨qualifier, b₁, -, hb₁, hpart⟩ := ih
    obtain ⟨b₂, hb₂, hpart₂⟩ := exists_boundEntry_part hb₁ hmem
    rw [boundEntry, Key.ofText_dollar] at hb₂
    obtain ⟨inner, hinner, hb₂⟩ := Option.bind_eq_some_iff.1 hb₂
    obtain ⟨-, hname⟩ := blockAlias_eq_ok_iff.1 (toOption_eq_some_iff.1 hinner)
    exact ⟨some inner, b₂, congrArg some hname, hb₂, hpart₂.trans hpart⟩

/-! ## Clauses inside the text of others -/

/-- A text stands as it is among others that are put together. -/
theorem infix_intercalate {separator text : String} {l : List String} (h : text ∈ l) :
    text.toList <:+: (separator.intercalate l).toList := by
  induction l with
  | nil => cases h
  | cons text' l ih =>
    cases l with
    | nil =>
      obtain rfl := List.mem_singleton.1 h
      simp
    | cons text'' l =>
      rw [String.intercalate_cons_cons, String.toList_append, String.toList_append,
        List.append_assoc]
      rcases List.mem_cons.1 h with rfl | h
      · exact (List.prefix_append _ _).isInfix
      · exact (ih h).trans ((List.suffix_append _ _).trans (List.suffix_append _ _)).isInfix

theorem infix_text_parens (text : String) : text.toList <:+: ("(" ++ text ++ ")").toList := by
  rw [String.toList_append, String.toList_append]
  exact List.infix_append _ _ _

/-- A part stands in the text of a clause as it is. -/
theorem infix_text_of_isPart {b' : BoundClause} (h : IsPart b' b) :
    b'.clause.text.toList <:+: b.clause.text.toList := by
  induction h with
  | refl => exact List.infix_rfl
  | @member c b₁ first rest hmem _ ih =>
    have htext : b₁.clause.text ∈ (first :: rest).map fun b => b.clause.text :=
      List.mem_map_of_mem (f := fun b => b.clause.text) hmem
    rw [clause, Clause.text, ← clauses, texts_clauses]
    exact ih.trans ((infix_intercalate htext).trans (infix_text_parens _))

/-- **What a document holds has its clause in the text of the document.** -/
theorem exists_bound_infix {outer : Option Identifier} {blocks : List String}
    (hb : bound items outer (ofValue v) = some b) (hheld : v.HoldsFilter blocks w) :
    ∃ qualifier b', qualifier.map Identifier.name = blocks.head?.or (outer.map Identifier.name) ∧
      bound items qualifier (ofValue w) = some b' ∧
      b'.clause.text.toList <:+: b.clause.text.toList := by
  obtain ⟨qualifier, b', hq, hb', hpart⟩ := exists_bound_part hb hheld
  exact ⟨qualifier, b', hq, hb', infix_text_of_isPart hpart⟩

end Filter

/-- **The conjuncts of a filter object.** Wherever a document that compiles holds a filter object,
the clause of the object stands in the text, and its conjuncts are, in some order, the clauses of
the entries that count, each of which compiles to its own. These are all entries that are supplied
exactly when no combinator is given more than once. -/
theorem compile_conjuncts {limits : Limits} {v : Value} {f : Fragment}
    (h : compile limits v = .ok f) {blocks : List String} {entries : List (String × Value)}
    (hheld : v.HoldsFilter blocks (.object entries)) :
    ∃ (qualifier : Option Identifier) (c : Clause) (conjuncts own : List Clause),
      qualifier.map Identifier.name = blocks.head? ∧
      Filter.CompilesTo limits qualifier (.object entries) c ∧
      c.text.toList <:+: f.text.toList ∧
      Filter.conjunction conjuncts = .ok c ∧ conjuncts.Perm own ∧
      List.Forall₂ (fun e c => Filter.CompilesTo limits qualifier (.object [e]) c)
        (Value.counted entries) own ∧
      (conjuncts.length = (Value.supplied entries).length ↔ ∀ k, Value.given k entries ≤ 1) := by
  obtain ⟨b, hb, hdepth, hoperators, rfl⟩ := compile_eq_ok_iff.1 h
  have hfits : Filter.Fits limits (.object entries) :=
    Filter.Fits.holds ⟨hdepth, hoperators⟩ hheld
  obtain ⟨qualifier, b', hq, hb', hinfix⟩ := Filter.exists_bound_infix hb hheld
  rw [Option.map_none, Option.or_none] at hq
  obtain ⟨bs, bs', hconjunction, hperm, hentries⟩ := Filter.exists_boundEntries_of_bound hb'
  have hforall := Filter.boundEntries_eq_some_iff.1 hentries
  refine ⟨qualifier, b'.clause, BoundClause.clauses bs, BoundClause.clauses bs', hq,
    Filter.compilesTo_of_bound hfits hb', hinfix.trans (Filter.infix_text_parens _), ?_, ?_, ?_, ?_⟩
  · rw [← toOption_eq_some_iff, Filter.toOption_conjunction, hconjunction]
    rfl
  · rw [BoundClause.clauses_eq_map, BoundClause.clauses_eq_map]
    exact hperm.map _
  · rw [BoundClause.clauses_eq_map, List.forall₂_map_right_iff]
    refine ((List.forall₂_and_left ..).2 ⟨fun e he => he, hforall⟩).imp fun e b hentry => ?_
    exact Filter.compilesTo_of_bound (hfits.singleton hentry.1)
      (Filter.bound_singleton (Filter.counts_nil_of_mem_counted hentry.1) hentry.2)
  · rw [BoundClause.clauses_eq_map, List.length_map, hperm.length_eq, ← hforall.length_eq]
    exact Value.length_counted_eq_iff

/-- A field that is repeated inside the block of an alias keeps both its conditions. -/
theorem compile_conjuncts_of_repeated_field :
    ∃ f c conjuncts, compile {} (.object [("x", .undefined), ("$t", .object [("y", .null),
        ("$u", .int 5), ("y", .object [("gt", .int 3)])])]) = .ok f ∧
      f.text = "(((t.\"y\" IS NULL) AND (t.\"y\" > ?)))" ∧
      (Value.object [("x", .undefined), ("$t", .object [("y", .null), ("$u", .int 5),
        ("y", .object [("gt", .int 3)])])]).HoldsFilter ["t"]
          (.object [("y", .null), ("$u", .int 5), ("y", .object [("gt", .int 3)])]) ∧
      c.text.toList <:+: f.text.toList ∧ Filter.conjunction conjuncts = .ok c ∧
      conjuncts.length = 2 := by
  have h : compile {} (.object [("x", .undefined), ("$t", .object [("y", .null),
      ("$u", .int 5), ("y", .object [("gt", .int 3)])])]) = .ok
        { text := "(((t.\"y\" IS NULL) AND (t.\"y\" > ?)))", bindings := [.integer 3] } := rfl
  have hheld : (Value.object [("x", .undefined), ("$t", .object [("y", .null), ("$u", .int 5),
      ("y", .object [("gt", .int 3)])])]).HoldsFilter ["t"]
        (.object [("y", .null), ("$u", .int 5), ("y", .object [("gt", .int 3)])]) :=
    .block .root (.head _)
  obtain ⟨-, c, conjuncts, -, -, -, hinfix, hconjunction, -, -, hlength⟩ :=
    compile_conjuncts h hheld
  have hgiven : ∀ k, Value.given k [("y", .null), ("$u", .int 5),
      ("y", .object [("gt", .int 3)])] ≤ 1 := fun k => by
    cases k <;> decide
  exact ⟨_, c, conjuncts, h, rfl, hheld, hinfix, hconjunction, hlength.2 hgiven⟩

/-- A combinator that is given twice loses a conjunct: two entries are supplied, the text has the
condition of the second one only, and its clause falls apart into a single conjunct. -/
theorem repeated_combinator_loses_conjunct :
    ∃ c, compile {} (.object [("and", .array [.object [("a", .int 1)]]),
        ("and", .array [.object [("b", .int 2)]])]) =
          .ok { text := "(((\"b\" = ?)))", bindings := [.integer 2] } ∧
      (Value.supplied [("and", .array [.object [("a", .int 1)]]),
        ("and", .array [.object [("b", .int 2)]])]).length = 2 ∧
      Filter.CompilesTo {} none (.object [("and", .array [.object [("a", .int 1)]]),
        ("and", .array [.object [("b", .int 2)]])]) c ∧
      ∀ conjuncts, Filter.conjunction conjuncts = .ok c → conjuncts.length = 1 := by
  refine ⟨.combined .and [.tests ⟨none, ⟨"b", rfl⟩, none⟩ [.equal]], rfl, rfl, ⟨_, rfl⟩, ?_⟩
  intro conjuncts h
  match conjuncts, h with
  | [c], _ => rfl
  | c :: c' :: cs, h => cases h

end BoundSql
