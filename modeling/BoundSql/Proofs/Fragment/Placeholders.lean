import BoundSql.Fragment.Expr
import BoundSql.Proofs.Filter.Shape
import BoundSql.Proofs.Fragment.Making
import Mathlib.Algebra.Ring.Nat

/-!
# The placeholders of a fragment

A fragment that is put together by an expression takes what it binds from the leaves of the
expression, from left to right. Each leaf but `raw` has as many question marks in its text as it has
bindings: lists because they are written with a placeholder for each item, filters because of their
shape, and identifiers because no question mark is a letter. What is left are the question marks of
literal texts, those of `raw` and those of separators, which stand between each two parts
(`Fragment.Expr.literalMarks`). `Fragment.Expr.Made` is the account of some fragments; it is kept by
all ways to put fragments together.
-/

namespace BoundSql

/-! ## Question marks in texts -/

/-- The question marks of texts with a separator between each two. -/
theorem count_intercalate (separator : String) (texts : List String) :
    (separator.intercalate texts).toList.count '?' =
      (texts.map fun text => text.toList.count '?').sum +
        (texts.length - 1) * separator.toList.count '?' := by
  induction texts with
  | nil => simp
  | cons text texts ih =>
    cases texts with
    | nil => simp
    | cons next texts =>
      have hlength : (text :: next :: texts).length - 1 = (next :: texts).length - 1 + 1 := rfl
      rw [String.intercalate_cons_cons, String.toList_append, String.toList_append,
        List.count_append, List.count_append, ih, List.map_cons (l := next :: texts),
        List.sum_cons, hlength, Nat.succ_mul]
      omega

@[simp] theorem count_parens (text : String) :
    ("(" ++ text ++ ")").toList.count '?' = text.toList.count '?' := by
  simp

@[simp] theorem count_placeholderList (n : Nat) :
    (Test.placeholderList n).toList.count '?' = n := by
  rw [Test.placeholderList, count_parens, count_intercalate, List.map_replicate,
    List.sum_replicate_nat]
  simp

@[simp] theorem Fragment.count_text_ofBinding (b : Binding) :
    (ofBinding b).text.toList.count '?' = 1 := by
  simp [ofBinding]

@[simp] theorem Identifier.count_quoted (i : Identifier) : i.quoted.toList.count '?' = 0 :=
  List.count_eq_zero.2 (i.not_mem_quoted rfl (by decide))

/-- The text of a clause has as many question marks as the clause has bindings. -/
theorem BoundClause.count_text (b : BoundClause) :
    b.clause.text.toList.count '?' = b.bindings.length := by
  have hparity : countPlaceholders ("(" ++ b.clause.text ++ ")") = .ok b.bindings.length := by
    rw [countPlaceholders_eq_readMarks, readMarks, b.inert.endRegion_eq]
    exact congrArg Except.ok b.inert.placeholderMarks_eq
  have hcount := countPlaceholders_of_clauseText b.clause.piece_text.parens.text
  rw [hparity, Except.ok.injEq, count_parens] at hcount
  exact hcount.symm

/-- The text of a filter has as many question marks as there are bindings. -/
theorem count_text_of_compile {limits : Limits} {v : Value} {f : Fragment}
    (h : compile limits v = .ok f) : f.text.toList.count '?' = f.bindings.length := by
  obtain ⟨b, -, -, -, rfl⟩ := compile_eq_ok_iff.1 h
  rw [count_parens, b.count_text]

namespace Fragment.Expr

/-! ## Leaves and literal texts -/

mutual

/-- The leaves of an expression, from left to right. -/
def leaves : Expr → List Expr
  | wrap e => leaves e
  | join _ parts => leavesAll parts
  | leaf => [leaf]

/-- The leaves of some expressions, in order. -/
def leavesAll : List Expr → List Expr
  | [] => []
  | e :: es => leaves e ++ leavesAll es

end

mutual

/-- The number of question marks in the literal texts of an expression: in its `raw` texts, and in
the separators between the parts that it joins. -/
def literalMarks : Expr → Nat
  | raw text => text.toList.count '?'
  | wrap e => literalMarks e
  | join separator parts =>
    literalMarksAll parts + (parts.length - 1) * separator.toList.count '?'
  | _ => 0

/-- The number of question marks in the literal texts of some expressions. -/
def literalMarksAll : List Expr → Nat
  | [] => 0
  | e :: es => literalMarks e + literalMarksAll es

end

/-! ## Failing leaves -/

mutual

/-- An expression fails as the first of its leaves that fails. -/
theorem failure?_eval (e : Expr) :
    failure? e.eval = e.leaves.findSome? fun leaf => failure? leaf.eval := by
  cases e with
  | wrap e => rw [eval, failure?_map, leaves, failure?_eval e]
  | join separator parts => rw [eval, failure?_map, leaves, failure?_evalAll parts]
  | _ => simp only [leaves, List.findSome?_singleton]

theorem failure?_evalAll (es : List Expr) :
    failure? (evalAll es) = (leavesAll es).findSome? fun leaf => failure? leaf.eval := by
  cases es with
  | nil => rfl
  | cons e es =>
    rw [evalAll, failure?_cons, leavesAll, List.findSome?_append, failure?_eval e,
      failure?_evalAll es]

end

/-! ## The account of fragments -/

/-- Some fragments bind what the leaves bind, in order, and of the question marks in their texts all
but `marks` are placeholders of these bindings. -/
structure Made (leaves : List Expr) (marks : Nat) (fs : List Fragment) : Prop where
  bindings_eq : ∃ gs, List.Forall₂ (fun leaf g => leaf.eval = .ok g) leaves gs ∧
    fs.flatMap bindings = gs.flatMap bindings
  count_eq : (fs.map fun f => f.text.toList.count '?').sum =
    (fs.flatMap bindings).length + marks

namespace Made

variable {ls ls' : List Expr} {m m' : Nat} {f : Fragment} {fs fs' : List Fragment}

theorem nil : Made [] 0 [] where
  bindings_eq := ⟨[], .nil, rfl⟩
  count_eq := rfl

theorem append (h : Made ls m fs) (h' : Made ls' m' fs') :
    Made (ls ++ ls') (m + m') (fs ++ fs') where
  bindings_eq := by
    obtain ⟨gs, hgs, hbindings⟩ := h.bindings_eq
    obtain ⟨gs', hgs', hbindings'⟩ := h'.bindings_eq
    refine ⟨gs ++ gs', List.rel_append hgs hgs', ?_⟩
    rw [List.flatMap_append, List.flatMap_append, hbindings, hbindings']
  count_eq := by
    rw [List.map_append, List.sum_append, List.flatMap_append, List.length_append, h.count_eq,
      h'.count_eq]
    omega

/-- A leaf whose text is accounted for. -/
theorem leaf {e : Expr} (h : e.eval = .ok f)
    (hcount : f.text.toList.count '?' = f.bindings.length + m) : Made [e] m [f] where
  bindings_eq := ⟨[f], .cons h .nil, rfl⟩
  count_eq := by
    rw [List.map_singleton, List.sum_singleton, List.flatMap_singleton, hcount]

theorem wrap (h : Made ls m [f]) : Made ls m [f.wrap] where
  bindings_eq := h.bindings_eq
  count_eq := by
    rw [List.map_singleton, Fragment.wrap, count_parens]
    exact h.count_eq

/-- A separator stands once less than there are parts. -/
theorem join (h : Made ls m fs) (separator : String) :
    Made ls (m + (fs.length - 1) * separator.toList.count '?') [Fragment.join separator fs] where
  bindings_eq := by
    rw [List.flatMap_singleton]
    exact h.bindings_eq
  count_eq := by
    rw [List.map_singleton, List.sum_singleton, List.flatMap_singleton, Fragment.join,
      count_intercalate, List.map_map, List.length_map, ← Nat.add_assoc, ← h.count_eq]
    rfl

end Made

theorem evalAll_cons_eq_ok_iff {e : Expr} {es : List Expr} {fs : List Fragment} :
    evalAll (e :: es) = .ok fs ↔ ∃ f gs, e.eval = .ok f ∧ evalAll es = .ok gs ∧ f :: gs = fs := by
  rw [evalAll]
  cases e.eval with
  | error e => simp [Bind.bind, Except.bind]
  | ok f => cases evalAll es <;> simp [Bind.bind, Except.bind, pure, Except.pure]

theorem length_of_evalAll {es : List Expr} {fs : List Fragment} (h : evalAll es = .ok fs) :
    fs.length = es.length := by
  induction es generalizing fs with
  | nil =>
    cases h
    rfl
  | cons e es ih =>
    obtain ⟨f, gs, -, hgs, rfl⟩ := evalAll_cons_eq_ok_iff.1 h
    rw [List.length_cons, List.length_cons, ih hgs]

mutual

/-- What an expression puts together is accounted for by its leaves and its literal texts. -/
theorem made_eval {e : Expr} {f : Fragment} (h : e.eval = .ok f) :
    Made e.leaves e.literalMarks [f] := by
  cases e with
  | raw text =>
    cases h
    exact .leaf rfl (Nat.zero_add _).symm
  | value v =>
    have hf := eq_of_ofValue h
    exact .leaf h (by rw [hf, count_text_ofBinding]; rfl)
  | binding b =>
    cases h
    exact .leaf rfl (count_text_ofBinding b)
  | name n =>
    obtain ⟨i, -, hf⟩ := eq_of_ofName h
    exact .leaf h (by rw [hf]; exact i.count_quoted)
  | list op items max =>
    have hf := eq_of_ofList h
    exact .leaf h (by rw [hf, count_placeholderList, List.length_map]; rfl)
  | filter v => exact .leaf h (count_text_of_compile h)
  | wrap e =>
    obtain ⟨g, hg, rfl⟩ := map_eq_ok_iff.1 h
    exact (made_eval hg).wrap
  | join separator parts =>
    obtain ⟨fs, hfs, rfl⟩ := map_eq_ok_iff.1 h
    rw [literalMarks, ← length_of_evalAll hfs]
    exact (made_evalAll hfs).join separator

theorem made_evalAll {es : List Expr} {fs : List Fragment} (h : evalAll es = .ok fs) :
    Made (leavesAll es) (literalMarksAll es) fs := by
  cases es with
  | nil =>
    cases h
    exact .nil
  | cons e es =>
    obtain ⟨f, gs, hf, hgs, rfl⟩ := evalAll_cons_eq_ok_iff.1 h
    exact (made_eval hf).append (made_evalAll hgs)

end

/-- **The account of an expression.** If a leaf fails, the expression fails as the leftmost of those
that do. Otherwise it binds what its leaves bind, from left to right, and the question marks in its
text are one for each binding and those of its literal texts. -/
theorem eval_accounted (e : Expr) :
    match e.leaves.findSome? fun leaf => failure? leaf.eval with
    | some refusal => e.eval = .error refusal
    | none => ∃ f fs, e.eval = .ok f ∧
        List.Forall₂ (fun leaf g => leaf.eval = .ok g) e.leaves fs ∧
        f.bindings = fs.flatMap Fragment.bindings ∧
        f.text.toList.count '?' = f.bindings.length + e.literalMarks := by
  rw [← failure?_eval]
  cases h : e.eval with
  | error refusal => rfl
  | ok f =>
    obtain ⟨⟨fs, hleaves, hbindings⟩, hcount⟩ := made_eval h
    rw [List.flatMap_singleton] at hbindings hcount
    rw [List.map_singleton, List.sum_singleton] at hcount
    exact ⟨f, fs, rfl, hleaves, hbindings, hcount⟩

-- A separator is written once for each gap, so its question mark counts twice.
example : (join " ? " [raw "a?", value (.int 1), wrap (name "b")]).literalMarks = 3 := by decide

end Fragment.Expr

end BoundSql
