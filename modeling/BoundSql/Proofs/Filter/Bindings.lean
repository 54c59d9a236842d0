import BoundSql.Proofs.Filter.Origin

/-!
# Where bindings come from

`Value.Gives` says which bindings a document gives: those of the scalars that it holds where a
scalar is wanted, the patterns, and the paths of the fields with dots in them. The bindings of a
clause belong to its tests, the tests come from the fields of the document, and the lemmas go from
the operands of a field to the bindings of its tests. So a compiled filter binds what its document
gives and nothing else (`compile_gives`): no blobs, no numbers that are not finite, and no integers
but those of the document.
-/

namespace BoundSql

/-- A document gives a binding: that of a scalar it holds, a pattern that it compares with, or the
path of a field. -/
inductive Value.Gives (v : Value) : Binding → Prop
  | scalar {w : Value} {b : Binding} : v.HoldsScalar w → w.bind = .ok b → Gives v b
  | pattern {op : Operator} {s : String} : op ∈ [.like, .likeNoCase, .regex] →
      v.HoldsOperand op (.text s) → Gives v (.text s)
  | path {field path : String} {condition : Value} : v.HoldsField field condition →
      Field.path field = some path → Gives v (.text path)

/-- A binding that some value has. -/
def Binding.IsBound (b : Binding) : Prop :=
  ∃ v : Value, v.bind = .ok b

variable {v : Value}

/-! ## What a binding is -/

theorem Value.Gives.isBound {b : Binding} (h : v.Gives b) : b.IsBound := by
  cases h with
  | scalar _ hbind => exact ⟨_, hbind⟩
  | pattern _ _ => exact ⟨.text _, rfl⟩
  | path _ _ => exact ⟨.text _, rfl⟩

/-- **Which bindings values have**: no blobs, no numbers that are not finite, and no integers but
their own. -/
theorem Value.bind_cases {w : Value} {b : Binding} (h : w.bind = .ok b) :
    b = .null ∨ (∃ x, b = .bool x) ∨ (∃ n, w = .int n ∧ b = .integer n) ∨
      (∃ x : Double, x.isFinite = true ∧ b = .real x) ∨ ∃ s, b = .text s := by
  cases w with
  | undefined | null =>
    cases h
    exact .inl rfl
  | bool x =>
    cases h
    exact .inr (.inl ⟨x, rfl⟩)
  | int n =>
    cases h
    exact .inr (.inr (.inl ⟨n, rfl, rfl⟩))
  | float x =>
    rw [Value.bind] at h
    split at h
    · next hfinite =>
      cases h
      exact .inr (.inr (.inr (.inl ⟨x, Double.isFinite_iff_nonFinite?_eq_none.2 hfinite, rfl⟩)))
    · cases h
  | text _ | date _ =>
    cases h
    exact .inr (.inr (.inr (.inr ⟨_, rfl⟩)))
  | bigInt _ | bytes _ | array _ | object _ => cases h

theorem Binding.not_isBound_blob (content : List UInt8) : ¬ (Binding.blob content).IsBound := by
  rintro ⟨w, h⟩
  rcases Value.bind_cases h with h | ⟨_, h⟩ | ⟨_, -, h⟩ | ⟨_, -, h⟩ | ⟨_, h⟩ <;> cases h

theorem Binding.IsBound.isFinite {x : Double} (h : (Binding.real x).IsBound) :
    x.isFinite = true := by
  obtain ⟨w, h⟩ := h
  rcases Value.bind_cases h with h | ⟨_, h⟩ | ⟨_, -, h⟩ | ⟨y, hfinite, h⟩ | ⟨_, h⟩ <;> cases h
  exact hfinite

/-- An integer is given by itself. -/
theorem Value.Gives.holdsScalar {n : Int64} (h : v.Gives (.integer n)) :
    v.HoldsScalar (.int n) := by
  cases h with
  | scalar hheld hbind =>
    rcases Value.bind_cases hbind with h | ⟨_, h⟩ | ⟨_, rfl, h⟩ | ⟨_, -, h⟩ | ⟨_, h⟩ <;> cases h
    exact hheld

/-! ## The operands of tests -/

namespace Operator

variable {items : Nat} {op : Operator} {operand : Value} {t : BoundTest}

theorem gives_scalar {test : Test} {takes : ∀ b, test.Takes [b]} (hheld : v.HoldsScalar operand)
    (h : operand.bind.toOption.map (.one test takes) = some t) : ∀ b ∈ t.operands, v.Gives b := by
  obtain ⟨b, hb, rfl⟩ := Option.map_eq_some_iff.1 h
  exact List.forall_mem_singleton.2 (.scalar hheld (toOption_eq_some_iff.1 hb))

theorem gives_askList {test : Nat → Test}
    {takes : ∀ b bs, (test (List.length (b :: bs))).Takes (b :: bs)} (hop : op ∈ [.oneOf, .noneOf])
    (hheld : v.HoldsOperand op operand) (h : askList items test takes operand = some t) :
    ∀ b ∈ t.operands, v.Gives b := by
  cases operand with
  | array l =>
    unfold askList at h
    simp only at h
    split at h
    · cases h
    · split at h
      · next b bs hbs =>
        cases h
        have hforall := Value.bindAll_eq_ok_iff.1 (toOption_eq_some_iff.1 hbs)
        intro b' hb'
        obtain ⟨w, hw, hbind⟩ := exists_of_mem_of_forall₂ hforall.flip hb'
        exact .scalar (.item hop hheld hw) hbind
      · cases h
  | _ => cases h

theorem gives_askPattern {test : Test} {takes : ∀ b, test.Takes [b]}
    (hop : op ∈ [.like, .likeNoCase, .regex]) (hheld : v.HoldsOperand op operand)
    (h : askPattern test takes operand = some t) : ∀ b ∈ t.operands, v.Gives b := by
  cases operand with
  | text s =>
    cases h
    exact List.forall_mem_singleton.2 (.pattern hop hheld)
  | _ => cases h

/-- The operands of the test that an operator asks for are given by its own operand. -/
theorem gives_ask (hheld : v.HoldsOperand op operand) (h : op.ask items operand = some t) :
    ∀ b ∈ t.operands, v.Gives b := by
  cases op with
  | greater | atLeast | less | atMost => exact gives_scalar (.operand (by decide) hheld) h
  | notEqual =>
    rw [ask] at h
    split at h
    · cases h
      exact List.forall_mem_nil _
    · exact gives_scalar (.operand (by decide) hheld) h
  | oneOf | noneOf => exact gives_askList (by decide) hheld h
  | like | likeNoCase | regex => exact gives_askPattern (by decide) hheld h
  | present => cases h

theorem gives_askAll {ops : List (Operator × Value)} {ts : List BoundTest}
    (hheld : ∀ p ∈ ops, v.HoldsOperand p.1 p.2) (h : askAll items ops = some ts) :
    ∀ t ∈ ts, ∀ b ∈ t.operands, v.Gives b := by
  induction ops generalizing ts with
  | nil =>
    cases h
    exact List.forall_mem_nil _
  | cons p ops ih =>
    obtain ⟨op, operand⟩ := p
    rw [List.forall_mem_cons] at hheld
    rw [askAll] at h
    split at h
    · exact ih hheld.2 h
    · obtain ⟨t, ht, h⟩ := Option.bind_eq_some_iff.1 h
      obtain ⟨ts', hts', rfl⟩ := Option.map_eq_some_iff.1 h
      exact List.forall_mem_cons.2 ⟨gives_ask hheld.1 ht, ih hheld.2 hts'⟩

end Operator

/-! ## The bindings of clauses -/

namespace BoundClause

/-- The bindings of some tests of a target are its path and their operands. -/
theorem gives_tests {target : Target} {t : BoundTest} {ts : List BoundTest}
    (htarget : ∀ b ∈ target.bindings, v.Gives b)
    (h : ∀ t' ∈ t :: ts, ∀ b ∈ t'.operands, v.Gives b) :
    ∀ b ∈ (tests target t ts).bindings, v.Gives b := by
  intro b hb
  obtain ⟨t', ht', hb⟩ := List.mem_flatMap.1 hb
  rcases List.mem_append.1 hb with hb | hb
  · exact htarget b hb
  · exact h t' ht' b hb

end BoundClause

/-! ## Filters -/

namespace Filter

open BoundClause

variable {items : Nat} {qualifier : Option Identifier} {c : BoundClause}

theorem gives_boundOperators {target : Target} {field : String} {entries : List (String × Value)}
    (htarget : ∀ b ∈ target.bindings, v.Gives b) (hheld : v.HoldsField field (.object entries))
    (h : boundOperators items target entries = some c) : ∀ b ∈ c.bindings, v.Gives b := by
  rw [boundOperators] at h
  obtain ⟨ops, hops, hmatch⟩ := Option.bind_eq_some_iff.1 h
  obtain rfl := Operator.ofEntries_eq_ok_iff.1 (toOption_eq_some_iff.1 hops)
  split at hmatch
  · next b _ =>
    cases hmatch
    refine gives_tests htarget (List.forall_mem_singleton.2 ?_)
    cases b <;> exact List.forall_mem_nil _
  · cases hmatch
  · obtain ⟨ts, hts, hmatch⟩ := Option.bind_eq_some_iff.1 hmatch
    split at hmatch
    · cases hmatch
    · cases hmatch
      exact gives_tests htarget (Operator.gives_askAll (fun p hp =>
        ⟨field, _, hheld, List.mem_map_of_mem hp⟩) hts)

/-- The target of a field binds its path, if it has one. -/
theorem gives_target {target : Target} {field : String} {condition : Value}
    (hheld : v.HoldsField field condition) (h : Target.ofField qualifier field = .ok target) :
    ∀ b ∈ target.bindings, v.Gives b := by
  intro b hb
  have hpath := (Target.ofField_eq_ok_iff.1 h).2.2.2
  unfold Target.bindings at hb
  split at hb
  · cases hb
  · next path htarget =>
    obtain rfl := List.mem_singleton.1 hb
    exact .path hheld (hpath.symm.trans htarget)

theorem gives_boundField {field : String} {condition : Value}
    (hheld : v.HoldsField field condition)
    (h : boundField items qualifier field condition = some c) : ∀ b ∈ c.bindings, v.Gives b := by
  rw [boundField] at h
  obtain ⟨target, htarget, h⟩ := Option.bind_eq_some_iff.1 h
  have htarget := gives_target hheld (toOption_eq_some_iff.1 htarget)
  have hequal : v.HoldsScalar condition → condition.bind.toOption.map (fun b =>
      .tests target (.one .equal (fun _ => rfl) b) []) = some c → ∀ b ∈ c.bindings, v.Gives b := by
    intro hscalar hc
    obtain ⟨b, hb, rfl⟩ := Option.map_eq_some_iff.1 hc
    exact gives_tests htarget (List.forall_mem_singleton.2
      (List.forall_mem_singleton.2 (.scalar hscalar (toOption_eq_some_iff.1 hb))))
  cases condition with
  | array l => cases h
  | object entries => exact gives_boundOperators htarget hheld h
  | null | undefined =>
    cases h
    exact gives_tests htarget (List.forall_mem_singleton.2 (List.forall_mem_nil _))
  | _ => exact hequal (.condition hheld Shape.noConfusion Shape.noConfusion) h

/-- **The bindings of the clause of a filter** are given by the document. -/
theorem gives_bound (h : bound items none (ofValue v) = some c) : ∀ b ∈ c.bindings, v.Gives b := by
  intro b hb
  obtain ⟨target, t, ts, hpart, hb⟩ := exists_isPart_of_mem_bindings hb
  obtain ⟨blocks, qualifier, field, condition, -, hheld, hkey, hfield⟩ :=
    comesFromField_bound none [] rfl v .root c h hpart
  exact gives_boundField ⟨hkey, blocks, hheld⟩ hfield b hb

end Filter

/-- A document gives the bindings of what it compiles to. -/
theorem gives_of_mem_bindings {limits : Limits} {f : Fragment} (h : compile limits v = .ok f) :
    ∀ b ∈ f.bindings, v.Gives b := by
  obtain ⟨c, hc, -, -, rfl⟩ := compile_eq_ok_iff.1 h
  exact Filter.gives_bound hc

/-- Every binding of a compiled filter is the binding of a value. -/
theorem isBound_of_mem_bindings {limits : Limits} {f : Fragment} (h : compile limits v = .ok f) :
    ∀ b ∈ f.bindings, b.IsBound :=
  fun b hb => (gives_of_mem_bindings h b hb).isBound

/-- **A compiled filter binds what its document gives, and nothing else**: scalars of the document
as they are compared, its patterns, and the paths of its fields. There are no blobs and no numbers
that are not finite among the bindings, and each integer stands in the document. -/
theorem compile_gives {limits : Limits} {v : Value} {f : Fragment}
    (h : compile limits v = .ok f) :
    ∀ b ∈ f.bindings, v.Gives b ∧ (∀ content, b ≠ .blob content) ∧
      (∀ x, b = .real x → x.isFinite = true) ∧ ∀ n, b = .integer n → v.HoldsScalar (.int n) := by
  intro b hb
  have hgives := gives_of_mem_bindings h b hb
  refine ⟨hgives, ?_, ?_, ?_⟩
  · rintro content rfl
    exact Binding.not_isBound_blob content hgives.isBound
  · rintro x rfl
    exact hgives.isBound.isFinite
  · rintro n rfl
    exact hgives.holdsScalar

/-- The path of a field below an alias, and an item of a list. -/
theorem compile_gives_below_alias :
    let v : Value := .object [("$t", .object [("m.n", .object [("in", .array [.int 7])])])]
    (∃ f, compile {} v = .ok f ∧ f.bindings = [.text "$.n", .integer 7]) ∧
      v.Gives (.text "$.n") ∧ v.HoldsScalar (.int 7) := by
  intro v
  have h : compile {} v = .ok
      { text := "((json_extract(t.\"m\", ?) IN (?)))", bindings := [.text "$.n", .integer 7] } :=
    rfl
  have hgives := compile_gives h
  exact ⟨⟨_, h, rfl⟩, (hgives _ (.head _)).1, (hgives _ (.tail _ (.head _))).2.2.2 7 rfl⟩

end BoundSql
