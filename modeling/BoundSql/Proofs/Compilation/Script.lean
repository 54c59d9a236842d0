import BoundSql.Compilation.Script
import BoundSql.Proofs.Compilation.Yield

/-!
# What every run of a script keeps

`Step.taken` lists the steps that are taken while a step of a script runs, in the order in which
they begin and each with the compilation in which it does: a block stands in front of the steps
inside it, and where operators are counted several times, each time is a step of its own. `Track`
says what such a list tells of a compilation. Whatever the depth, the operators that were counted
and the bindings that were collected are those of the steps taken so far, those of a block that
failed included.

* `Step.perform_eq_run`: a step of a script is a step of the compiler, and a block is `nested`.
* `Step.track_taken`: the steps that are taken lead a compilation on and back to its depth.
* `Step.performAll_keeps`: what holds of each step that is taken in a run from the beginning.
-/

namespace BoundSql

namespace Step

/-! ## Steps of scripts as steps of the compiler -/

mutual

/-- A step of a script as a step of the compiler. -/
def run : Step → CompileM Unit
  | count times => countTimes times
  | binding b => discard (CompileM.addBinding b)
  | bindings bs => CompileM.addBindings bs
  | nested steps => CompileM.nested (runBlock steps)

/-- Steps of a script one after the other, until one fails. -/
def runBlock : List Step → CompileM Unit
  | [] => pure ()
  | s :: l => do
    run s
    runBlock l

end

/-- How a step ends that does not fail. -/
def success : Step → Outcome
  | binding _ => .placeholder "?"
  | _ => .done

theorem success_ne_failed (s : Step) (e : Error) : s.success ≠ .failed e := by
  cases s <;> nofun

mutual

/-- **A step of a script does what the step of the compiler does.** -/
theorem perform_eq_run (c : Compilation) : ∀ s : Step,
    (perform c s).2 = outcome (fun _ => s.success) (run s c)
  | count times => rfl
  | binding b => rfl
  | bindings bs => rfl
  | nested steps => by
    have hblock := fun inner => performBlock_eq_run inner steps
    rw [run]
    rcases Nat.lt_or_ge c.depth c.limits.nestingDepth with hdepth | hdepth
    · rw [perform_nested_of_lt hdepth, hblock]
      cases hrun : runBlock steps { c with depth := c.depth + 1 } with
      | ok a c' => rw [CompileM.nested_run_ok hdepth hrun, outcome, outcome]; rfl
      | error e c' => rw [CompileM.nested_run_error hdepth hrun, outcome, outcome]
    · rw [perform_nested_of_le hdepth, CompileM.nested_run_of_le hdepth, outcome]

theorem performBlock_eq_run (c : Compilation) : ∀ l : List Step,
    (performBlock c l).2 = outcome (fun _ => .done) (runBlock l c)
  | [] => rfl
  | s :: l => by
    have hs := perform_eq_run c s
    have hl := fun c' => performBlock_eq_run c' l
    rw [performBlock, runBlock]
    simp only [hs]
    cases hrun : run s c with
    | error e c' => rw [CompileM.bind_run_error hrun, outcome, outcome]
    | ok a c' =>
      rw [CompileM.bind_run_ok hrun, ← hl c', outcome]
      cases h : s.success with
      | failed e => exact absurd h (s.success_ne_failed e)
      | _ => rfl

end

end Step

/-! ## The steps that are taken -/

/-- A step that is taken, and the compilation in which it is. -/
structure Taken where
  step : Step
  before : Compilation

namespace Taken

/-- How the step ends. -/
def outcome (t : Taken) : Outcome :=
  (t.step.perform t.before).2.1

/-- Where the step leaves the compilation. -/
def after (t : Taken) : Compilation :=
  (t.step.perform t.before).2.2

end Taken

namespace Step

/-- The bindings that a step collects, but for those of the steps inside it. -/
def collects : Step → List Binding
  | binding b => [b]
  | bindings bs => bs
  | _ => []

/-- The number of operators that some steps accounted for, those that were one too many included. -/
def counted (l : List Taken) : Nat :=
  l.countP fun t => t.step.kind = .count

theorem counted_cons (t : Taken) (l : List Taken) : counted (t :: l) = counted [t] + counted l := by
  rw [counted, counted, counted, ← List.countP_append, List.singleton_append]

/-- The bindings that some steps collected, in order. -/
def collected (l : List Taken) : List Binding :=
  l.flatMap fun t => t.step.collects

/-- The steps that are taken while `times` operators are counted, until one is too many. -/
def takenCounts (c : Compilation) : Nat → List Taken
  | 0 => []
  | times + 1 =>
    ⟨.count 1, c⟩ ::
      match (perform c (.count 1)).2.1 with
      | .failed _ => []
      | _ => takenCounts (perform c (.count 1)).2.2 times

mutual

/-- The steps that are taken while a step runs, itself included. -/
def taken (c : Compilation) : Step → List Taken
  | count times => takenCounts c times
  | nested steps =>
    ⟨.nested steps, c⟩ ::
      match c.enter with
      | .error _ => []
      | .ok inner => takenBlock inner steps
  | s => [⟨s, c⟩]

/-- The steps that are taken in a block, until one fails. -/
def takenBlock (c : Compilation) : List Step → List Taken
  | [] => []
  | s :: l =>
    taken c s ++
      match (perform c s).2.1 with
      | .failed _ => []
      | _ => takenBlock (perform c s).2.2 l

end

/-- The steps that are taken while a script runs. -/
def takenAll (c : Compilation) : List Step → List Taken
  | [] => []
  | s :: l => taken c s ++ takenAll (perform c s).2.2 l

/-- The steps of a list lead from a compilation to another one. Each is taken with the operators
and the bindings of those before it, and at a depth that is allowed. -/
inductive Track : Compilation → List Taken → Compilation → Prop
  | nil (c : Compilation) : Track c [] c
  | cons {c c' : Compilation} {t : Taken} {l : List Taken} (depth : Nat) :
      depth ≤ c.limits.nestingDepth → t.before = { c with depth } →
      (t.step.kind = .count → t.step = .count 1) →
      Track (c.after (counted [t]) t.step.collects) l c' → Track c (t :: l) c'

namespace Track

variable {c c' c'' : Compilation} {l l' : List Taken}

theorem append (h : Track c l c') (h' : Track c' l' c'') : Track c (l ++ l') c'' := by
  induction h with
  | nil c => exact h'
  | cons depth hdepth hbefore hone _ ih => exact .cons depth hdepth hbefore hone (ih h')

/-- A track says nothing of the depth of its ends. -/
theorem atDepth (h : Track c l c') (depth : Nat) :
    Track { c with depth } l { c' with depth } := by
  induction h with
  | nil c => exact .nil _
  | cons depth' hdepth hbefore hone _ ih => exact .cons depth' hdepth hbefore hone ih

/-- **Where a track leads to.** -/
theorem eq_after (h : Track c l c') : c' = c.after (counted l) (collected l) := by
  induction h with
  | nil c => exact c.after_zero_nil.symm
  | @cons c c' t l depth _ _ _ _ ih =>
    rw [ih, Compilation.after_after, counted_cons t l]
    rfl

/-- Where a step of a track was taken. -/
theorem before_eq {earlier later : List Taken} {t : Taken}
    (h : Track c (earlier ++ t :: later) c') :
    ∃ depth ≤ c.limits.nestingDepth,
      t.before = { c.after (counted earlier) (collected earlier) with depth } ∧
        (t.step.kind = .count → t.step = .count 1) := by
  induction earlier generalizing c with
  | nil =>
    cases h with
    | cons depth hdepth hbefore hone _ =>
      have hstart : c.after (counted []) (collected []) = c := c.after_zero_nil
      rw [hstart]
      exact ⟨depth, hdepth, hbefore, hone⟩
  | cons t' earlier ih =>
    cases h with
    | cons depth' _ _ _ hrest =>
      obtain ⟨depth, hdepth, hbefore, hone⟩ := ih hrest
      rw [Compilation.after_after] at hbefore
      rw [counted_cons t' earlier]
      exact ⟨depth, hdepth, hbefore, hone⟩

end Track

/-! ## The tracks of steps -/

theorem perform_count_one (c : Compilation) :
    perform c (.count 1) =
      ([], if c.limits.operators < c.operators + 1 then
        .failed (.tooManyOperators c.limits.operators) else .done, c.after 1 []) := by
  rw [perform_count_succ]
  split <;> rfl

theorem track_takenCounts (times : Nat) (c : Compilation) (hc : c.depth ≤ c.limits.nestingDepth) :
    Track c (takenCounts c times) (perform c (.count times)).2.2 := by
  induction times generalizing c with
  | zero => exact .nil c
  | succ times ih =>
    rw [takenCounts, perform_count_succ, perform_count_succ]
    refine .cons c.depth hc rfl (fun _ => rfl) ?_
    by_cases h : c.limits.operators < c.operators + 1
    · simp only [h, if_true]
      exact .nil _
    · simp only [h, if_false]
      exact ih (c.after 1 []) hc

mutual

/-- **The track of a step** leads to where the step leaves the compilation. -/
theorem track_taken (c : Compilation) (hc : c.depth ≤ c.limits.nestingDepth) : ∀ s : Step,
    Track c (taken c s) (perform c s).2.2
  | count times => track_takenCounts times c hc
  | binding b => .cons c.depth hc rfl nofun (.nil _)
  | bindings bs => .cons c.depth hc rfl nofun (.nil _)
  | nested steps => by
    have hblock := fun inner hinner => track_takenBlock inner hinner steps
    rw [taken.eq_def]
    refine .cons c.depth hc rfl nofun ?_
    have hstart : c.after (counted [⟨.nested steps, c⟩]) (collects (.nested steps)) = c :=
      c.after_zero_nil
    rw [hstart]
    rcases Nat.lt_or_ge c.depth c.limits.nestingDepth with hdepth | hdepth
    · rw [perform_nested_of_lt hdepth, Compilation.enter_of_lt hdepth]
      -- The steps inside are a track one level deeper, and depth is all that leaving changes.
      have hin := hblock { c with depth := c.depth + 1 } hdepth
      have hback := hin.atDepth c.depth
      have hleave : (performBlock { c with depth := c.depth + 1 } steps).2.2.leave =
          { (performBlock { c with depth := c.depth + 1 } steps).2.2 with depth := c.depth } := by
        rw [hin.eq_after]
        rfl
      simp only [hleave]
      exact hback
    · rw [perform_nested_of_le hdepth, Compilation.enter_of_le hdepth]
      exact .nil c

theorem track_takenBlock (c : Compilation) (hc : c.depth ≤ c.limits.nestingDepth) :
    ∀ l : List Step, Track c (takenBlock c l) (performBlock c l).2.2
  | [] => .nil c
  | s :: l => by
    have hs := track_taken c hc s
    have hrest := fun c' hc' => track_takenBlock c' hc' l
    have hc' : (perform c s).2.2.depth ≤ (perform c s).2.2.limits.nestingDepth := by
      rw [hs.eq_after]
      exact hc
    rw [takenBlock, performBlock]
    generalize perform c s = r at hs hc' ⊢
    obtain ⟨events, result, c'⟩ := r
    cases result with
    | failed e => exact hs.append (.nil _)
    | _ => exact hs.append (hrest c' hc')

end

theorem track_takenAll (c : Compilation) (hc : c.depth ≤ c.limits.nestingDepth) (l : List Step) :
    Track c (takenAll c l) (performAll c l).2 := by
  induction l generalizing c with
  | nil => exact .nil c
  | cons s l ih =>
    have hs := track_taken c hc s
    have hc' : (perform c s).2.2.depth ≤ (perform c s).2.2.limits.nestingDepth := by
      rw [hs.eq_after]
      exact hc
    exact hs.append (ih _ hc')

/-! ## Runs from the beginning -/

/-- What is kept of a compilation under some limits by a step that is taken after some others. -/
structure Keeps (limits : Limits) (earlier : List Taken) (t : Taken) : Prop where
  depth_le : t.before.depth ≤ limits.nestingDepth
  /-- The depth is the same behind the step, whether it fails or not. -/
  depth_after : t.after.depth = t.before.depth
  operators_eq : t.before.operators = counted earlier
  bindings_eq : t.before.bindings = collected earlier
  /-- No binding is lost, whether the step fails or not. -/
  bindings_after : t.before.bindings <+: t.after.bindings
  /-- Operators are counted one at a time, and exactly those past the limit are one too many. -/
  count : t.step.kind = .count → t.step = .count 1 ∧ t.after.operators = counted earlier + 1 ∧
    t.outcome = if limits.operators < counted earlier + 1 then
      .failed (.tooManyOperators limits.operators) else .done
  collect : t.step.kind = .binding ∨ t.step.kind = .bindings →
    t.outcome = t.step.success ∧ t.after.bindings = collected earlier ++ t.step.collects
  /-- A block is `nested`. It is refused before any of its steps exactly at the greatest depth, and
  elsewhere entered. -/
  nested : ∀ steps, t.step = .nested steps →
    (t.outcome, t.after) =
        outcome (fun _ => .done) (CompileM.nested (runBlock steps) t.before) ∧
      (perform t.before (.nested steps) =
          ([], .failed (.tooDeep limits.nestingDepth), t.before) ↔
        limits.nestingDepth ≤ t.before.depth) ∧
      (t.before.depth < limits.nestingDepth →
        (perform t.before (.nested steps)).1.head? = some (.entered (t.before.depth + 1)))

variable {limits : Limits} {earlier : List Taken} {t : Taken}

theorem keeps_of_before {depth : Nat} (hdepth : depth ≤ limits.nestingDepth)
    (hbefore : t.before =
      { ({ limits } : Compilation).after (counted earlier) (collected earlier) with depth })
    (hone : t.step.kind = .count → t.step = .count 1) : Keeps limits earlier t := by
  have hlimits : t.before.limits = limits := by simp [hbefore]
  have hle : t.before.depth ≤ t.before.limits.nestingDepth := by simpa [hbefore] using hdepth
  have hoperators : t.before.operators = counted earlier := by simp [hbefore]
  have hbindings : t.before.bindings = collected earlier := by simp [hbefore]
  have hafter := (track_taken t.before hle t.step).eq_after
  refine ⟨hlimits ▸ hle, ?_, hoperators, hbindings, ?_, fun hkind => ?_, fun hkind => ?_,
    fun steps hstep => ?_⟩
  · rw [Taken.after, hafter]
    rfl
  · rw [Taken.after, hafter]
    exact List.prefix_append _ _
  · have hcount := hone hkind
    have hperform := perform_count_one t.before
    rw [← hcount, hlimits, hoperators] at hperform
    refine ⟨hcount, ?_, ?_⟩
    · rw [Taken.after, hperform, ← hoperators]
      rfl
    · rw [Taken.outcome, hperform]
  · rw [Taken.outcome, Taken.after, ← hbindings]
    cases hstep : t.step with
    | binding b => simp [success, collects]
    | bindings bs => simp [success, collects]
    | _ =>
      rw [hstep] at hkind
      rcases hkind with hkind | hkind <;> cases hkind
  · rw [Taken.outcome, Taken.after, hstep, ← hlimits]
    refine ⟨perform_eq_run t.before (.nested steps), ⟨fun hrefused => ?_, fun hdeep => ?_⟩,
      fun hdeep => ?_⟩
    · refine Nat.le_of_not_lt fun hdeep => ?_
      have hentered := perform_nested_of_lt hdeep steps
      rw [hrefused] at hentered
      cases hentered
    · exact perform_nested_of_le hdeep steps
    · rw [perform_nested_of_lt hdeep, List.head?_cons]

/-- **What every run of a script keeps.** A script that is run from the beginning, whatever fails in
it, ends outside all blocks, with the operators counted and the bindings collected of all steps that
were taken. Each step that was taken finds those of the steps before it, at a depth that is allowed,
and comes back to its depth. -/
theorem performAll_keeps (limits : Limits) (script : List Step) :
    (performAll { limits } script).2 =
        { limits, depth := 0, operators := counted (takenAll { limits } script),
          bindings := collected (takenAll { limits } script) } ∧
      ∀ earlier t later, takenAll { limits } script = earlier ++ t :: later →
        Keeps limits earlier t := by
  have htrack := track_takenAll { limits } (Nat.zero_le _) script
  refine ⟨?_, fun earlier t later hsplit => ?_⟩
  · simp [htrack.eq_after, Compilation.after]
  · rw [hsplit] at htrack
    obtain ⟨depth, hdepth, hbefore, hone⟩ := htrack.before_eq
    exact keeps_of_before hdepth hbefore hone

/-- A block that fails at its second operator of three, and a block inside a block that is refused:
the operators and the binding of the first are still there when the last operator is counted. -/
theorem performAll_keeps_after_failures :
    let limits : Limits := { nestingDepth := 1, operators := 1 }
    let script : List Step :=
      [.nested [.binding (.integer 7), .count 3, .binding .null], .nested [.nested [.count 1]],
        .count 1]
    let last : Taken := ⟨.count 1, { limits, operators := 2, bindings := [.integer 7] }⟩
    ∃ earlier, takenAll { limits } script = earlier ++ [last] ∧ Keeps limits earlier last ∧
      counted earlier = 2 ∧ collected earlier = [.integer 7] := by
  intro limits script last
  have hsplit : takenAll { limits } script = (takenAll { limits } script).dropLast ++ [last] := rfl
  have hlast := (performAll_keeps limits script).2 _ last [] hsplit
  exact ⟨_, hsplit, hlast, hlast.operators_eq.symm, hlast.bindings_eq.symm⟩

end Step

end BoundSql
