import BoundSql.Limits.Basic
import BoundSql.Value.Binding

/-!
# The state of a compilation

A `Compilation` is a compilation under way: the limits it keeps to, how deep in the filter it
stands, how many operators it has met, and the bindings collected so far, in the order of their
placeholders. `CompileM` is the monad of its steps; a step that fails leaves behind what was
counted and collected before.

* `nested` goes one level deeper for the length of a step.
* `countOperator` accounts for one more operator.
* `addBinding` and `addBindings` collect bindings.

The program counts operators in a word of 64 bits, which begins again at zero behind its greatest
number (a build that checks for overflow stops there instead): this is `Compilation UInt64`. A
compilation that begins at zero would have to meet `2 ^ 64` operators to get there, so `Compilation`
alone counts with natural numbers. The steps are the same for both: they count with whatever is a
`Counter`.
-/

namespace BoundSql

/-- The numbers that operators are counted with. -/
class Counter (N : Type) where
  /-- How many operators a number says were met. -/
  toNat : N → Nat
  /-- The number after some more operators. -/
  add : N → Nat → N
  add_zero (c : N) : add c 0 = c
  add_add (c : N) (m n : Nat) : add (add c m) n = add c (m + n)

namespace Counter

/-- Natural numbers go on without an end. -/
@[default_instance]
instance : Counter Nat where
  toNat c := c
  add c n := c + n
  add_zero := Nat.add_zero
  add_add := Nat.add_assoc

/-- A word goes on to its greatest number, and then from zero again. -/
instance : Counter UInt64 where
  toNat := UInt64.toNat
  add c n := c + UInt64.ofNat n
  add_zero := UInt64.add_zero
  add_add c m n := by rw [UInt64.add_assoc, ← UInt64.ofNat_add]

attribute [simp] add_zero add_add

@[simp] theorem toNat_nat (c : Nat) : toNat c = c := rfl

@[simp] theorem add_nat (c n : Nat) : add c n = c + n := rfl

@[simp] theorem toNat_word (c : UInt64) : toNat c = c.toNat := rfl

@[simp] theorem add_word (c : UInt64) (n : Nat) : add c n = c + UInt64.ofNat n := rfl

end Counter

/-- A compilation under way, its operators counted with numbers of some kind. -/
structure Compilation (N : Type := Nat) where
  limits : Limits
  /-- The number of filter objects around the present place. -/
  depth : Nat := 0
  /-- The number of combinators and operators met so far. -/
  operators : N := by exact 0
  /-- The bindings collected so far. -/
  bindings : List Binding := []
  deriving Repr

namespace Compilation

variable {N : Type}

/-- Go one level deeper, unless the greatest depth is reached. -/
def enter (c : Compilation N) : Except Error (Compilation N) :=
  if c.limits.nestingDepth ≤ c.depth then .error (.tooDeep c.limits.nestingDepth)
  else .ok { c with depth := c.depth + 1 }

/-- Come back up from a level. -/
def leave (c : Compilation N) : Compilation N :=
  { c with depth := c.depth - 1 }

/-- The compilation after `n` more operators and with some more bindings. -/
def after [Counter N] (c : Compilation N) (n : Nat) (bs : List Binding) : Compilation N :=
  { c with operators := Counter.add c.operators n, bindings := c.bindings ++ bs }

theorem enter_of_le {c : Compilation N} (h : c.limits.nestingDepth ≤ c.depth) :
    c.enter = .error (.tooDeep c.limits.nestingDepth) :=
  if_pos h

theorem enter_of_lt {c : Compilation N} (h : c.depth < c.limits.nestingDepth) :
    c.enter = .ok { c with depth := c.depth + 1 } :=
  if_neg (Nat.not_le.2 h)

@[simp] theorem leave_limits (c : Compilation N) : c.leave.limits = c.limits := rfl

@[simp] theorem leave_depth (c : Compilation N) : c.leave.depth = c.depth - 1 := rfl

@[simp] theorem leave_operators (c : Compilation N) : c.leave.operators = c.operators := rfl

@[simp] theorem leave_bindings (c : Compilation N) : c.leave.bindings = c.bindings := rfl

section After

variable [Counter N] (c : Compilation N) (m n : Nat) (bs bs' : List Binding)

@[simp] theorem after_limits : (c.after n bs).limits = c.limits := rfl

@[simp] theorem after_depth : (c.after n bs).depth = c.depth := rfl

@[simp] theorem after_operators : (c.after n bs).operators = Counter.add c.operators n := rfl

@[simp] theorem after_bindings : (c.after n bs).bindings = c.bindings ++ bs := rfl

@[simp] theorem after_zero_nil : c.after 0 [] = c := by
  simp [after]

@[simp] theorem after_after : (c.after m bs).after n bs' = c.after (m + n) (bs ++ bs') := by
  simp [after]

end After

end Compilation

/-- A step of a compilation that counts operators with numbers of some kind: it may fail, and
changes the state either way. -/
abbrev CompileWith (N : Type) := EStateM Error (Compilation N)

/-- A step of a compilation. -/
abbrev CompileM := CompileWith Nat

namespace CompileM

variable {N : Type} {α β : Type}

/-- Take a step one level deeper, and come back up whether it fails or not. At the greatest depth
the step is refused and not taken. -/
def nested (step : CompileWith N α) : CompileWith N α := fun c =>
  match c.enter with
  | .error e => .error e c
  | .ok inner =>
    match step inner with
    | .ok a c' => .ok a c'.leave
    | .error e c' => .error e c'.leave

/-- Account for one more operator. It is counted even when it is one too many. -/
def countOperator [Counter N] : CompileWith N Unit := fun c =>
  let c := { c with operators := Counter.add c.operators 1 }
  if c.limits.operators < Counter.toNat c.operators then
    .error (.tooManyOperators c.limits.operators) c
  else .ok () c

/-- Collect bindings, in the order of their placeholders. -/
def addBindings (bs : List Binding) : CompileWith N Unit :=
  modify fun c => { c with bindings := c.bindings ++ bs }

/-- Collect one binding, and give the placeholder that stands for it. -/
def addBinding (b : Binding) : CompileWith N String := do
  addBindings [b]
  pure "?"

/-! ## Runs -/

variable {m : CompileWith N α} {c c' : Compilation N} {a : α} {e : Error}

@[simp] theorem pure_run (a : α) (c : Compilation N) :
    (pure a : CompileWith N α) c = .ok a c := rfl

@[simp] theorem throw_run (e : Error) (c : Compilation N) :
    (throw e : CompileWith N α) c = .error e c := rfl

@[simp] theorem get_run (c : Compilation N) : (get : CompileWith N (Compilation N)) c = .ok c c :=
  rfl

@[simp] theorem ofExcept_ok (a : α) : (ofExcept (.ok a) : CompileWith N α) = pure a := rfl

@[simp] theorem ofExcept_error (e : Error) : (ofExcept (.error e) : CompileWith N α) = throw e :=
  rfl

@[simp] theorem addBindings_run [Counter N] (bs : List Binding) (c : Compilation N) :
    addBindings bs c = .ok () (c.after 0 bs) := by
  change EStateM.Result.ok () { c with bindings := c.bindings ++ bs } = _
  rw [Compilation.after, Counter.add_zero]

/-- An operator is counted, and refused if it is one too many. -/
@[simp] theorem countOperator_run [Counter N] (c : Compilation N) :
    countOperator c =
      if c.limits.operators < Counter.toNat (Counter.add c.operators 1) then
        .error (.tooManyOperators c.limits.operators) (c.after 1 [])
      else .ok () (c.after 1 []) := by
  rw [Compilation.after, List.append_nil]
  rfl

theorem bind_run_ok (h : m c = .ok a c') (g : α → CompileWith N β) : (m >>= g) c = g a c' := by
  change EStateM.bind m g c = _
  rw [EStateM.bind, h]

theorem bind_run_error (h : m c = .error e c') (g : α → CompileWith N β) :
    (m >>= g) c = .error e c' := by
  change EStateM.bind m g c = _
  rw [EStateM.bind, h]

theorem bind_eq_ok_iff {g : α → CompileWith N β} {b : β} :
    (m >>= g) c = .ok b c' ↔ ∃ a c₁, m c = .ok a c₁ ∧ g a c₁ = .ok b c' := by
  cases h : m c with
  | ok a c₁ =>
    rw [bind_run_ok h]
    constructor
    · intro h'
      exact ⟨a, c₁, rfl, h'⟩
    · rintro ⟨a', c₁', heq, h'⟩
      cases heq
      exact h'
  | error e c₁ => simp [bind_run_error h]

theorem map_eq_ok_iff {f : α → β} {b : β} :
    (f <$> m) c = .ok b c' ↔ ∃ a, m c = .ok a c' ∧ f a = b := by
  rw [map_eq_pure_bind, bind_eq_ok_iff]
  simp only [pure_run, EStateM.Result.ok.injEq]
  constructor
  · rintro ⟨a, c₁, h, rfl, rfl⟩
    exact ⟨a, h, rfl⟩
  · rintro ⟨a, h, rfl⟩
    exact ⟨a, c', h, rfl, rfl⟩

/-- At the greatest depth a step one level deeper is refused. -/
theorem nested_run_of_le (h : c.limits.nestingDepth ≤ c.depth) (m : CompileWith N α) :
    nested m c = .error (.tooDeep c.limits.nestingDepth) c := by
  rw [nested, Compilation.enter_of_le h]

theorem nested_run_ok (h : c.depth < c.limits.nestingDepth)
    (hm : m { c with depth := c.depth + 1 } = .ok a c') : nested m c = .ok a c'.leave := by
  simp only [nested, Compilation.enter_of_lt h, hm]

theorem nested_run_error (h : c.depth < c.limits.nestingDepth)
    (hm : m { c with depth := c.depth + 1 } = .error e c') : nested m c = .error e c'.leave := by
  simp only [nested, Compilation.enter_of_lt h, hm]

theorem nested_eq_ok_iff : nested m c = .ok a c' ↔
    c.depth < c.limits.nestingDepth ∧
      ∃ c₁, m { c with depth := c.depth + 1 } = .ok a c₁ ∧ c' = c₁.leave := by
  rcases Nat.lt_or_ge c.depth c.limits.nestingDepth with hdepth | hdepth
  · cases hm : m { c with depth := c.depth + 1 } with
    | ok a' c₁ =>
      rw [nested_run_ok hdepth hm]
      constructor
      · intro h
        cases h
        exact ⟨hdepth, c₁, rfl, rfl⟩
      · rintro ⟨-, c₁', heq, rfl⟩
        cases heq
        rfl
    | error e c₁ => simp [nested_run_error hdepth hm]
  · simp [nested_run_of_le hdepth, Nat.not_lt.2 hdepth]

end CompileM

end BoundSql
