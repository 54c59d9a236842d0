import BoundSql.Limits.Document
import Mathlib.Data.List.Nodup

/-!
# What a limits document sets

A limits document is read line by line. `Limits.Sets` says what its lines do to the limits before
them: every line is idle or sets a limit, no limit is set twice, a limit that is set is at its
number, and any other stays as it was. This holds exactly of the documents that are accepted
(`Limits.ofDocument_eq_ok_iff`). The numbers in them fit the signed range of 64 bits
(`Limits.get_lt_of_ofDocument`).
-/

namespace BoundSql.Limits

/-- Limits are told by their numbers. -/
theorem eq_of_get_eq {ls ls' : Limits} (h : ∀ l, ls.get l = ls'.get l) : ls = ls' := by
  have hdepth := h .nestingDepth
  have hoperators := h .operators
  have hitems := h .listItems
  have hlength := h .queryLength
  cases ls
  cases ls'
  simp_all [get]

/-- What some lines set, in order. -/
def settings (lines : List (List Char)) : List (Limit × Nat) :=
  lines.filterMap fun line => if isIdle line then none else setting? line

/-- What the lines of a document do to some limits. -/
structure Sets (lines : List (List Char)) (limits ls : Limits) : Prop where
  readable : ∀ line ∈ lines, isIdle line = true ∨ (setting? line).isSome = true
  once : ((settings lines).map Prod.fst).Nodup
  set : ∀ p ∈ settings lines, ls.get p.1 = p.2
  /-- A limit that is not set stays as it is. -/
  kept : ∀ l ∉ (settings lines).map Prod.fst, ls.get l = limits.get l

variable {line : List Char} {lines : List (List Char)} {limits ls : Limits} {l : Limit} {n : Nat}

theorem sets_nil_iff : Sets [] limits ls ↔ ls = limits := by
  refine ⟨fun h => eq_of_get_eq fun l => h.kept l List.not_mem_nil, ?_⟩
  rintro rfl
  exact ⟨nofun, List.nodup_nil, nofun, fun _ _ => rfl⟩

theorem settings_cons_of_idle (h : isIdle line = true) (lines : List (List Char)) :
    settings (line :: lines) = settings lines :=
  List.filterMap_cons_none (if_pos h)

theorem settings_cons_of_setting (hidle : isIdle line = false) (h : setting? line = some (l, n))
    (lines : List (List Char)) : settings (line :: lines) = (l, n) :: settings lines :=
  List.filterMap_cons_some (by simp [hidle, h])

theorem sets_cons_idle_iff (h : isIdle line = true) :
    Sets (line :: lines) limits ls ↔ Sets lines limits ls := by
  have hsettings := settings_cons_of_idle h lines
  constructor
  · rintro ⟨hread, honce, hset, hkept⟩
    rw [hsettings] at honce hset hkept
    exact ⟨fun line' hmem => hread line' (List.mem_cons_of_mem _ hmem), honce, hset, hkept⟩
  · rintro ⟨hread, honce, hset, hkept⟩
    rw [← hsettings] at honce hset hkept
    exact ⟨List.forall_mem_cons.2 ⟨.inl h, hread⟩, honce, hset, hkept⟩

/-- A line that sets a limit comes before those that set others. -/
theorem sets_cons_setting_iff (hidle : isIdle line = false) (h : setting? line = some (l, n)) :
    Sets (line :: lines) limits ls ↔
      Sets lines (limits.set l n) ls ∧ l ∉ (settings lines).map Prod.fst := by
  have hsettings := settings_cons_of_setting hidle h lines
  constructor
  · rintro ⟨hread, honce, hset, hkept⟩
    rw [hsettings, List.map_cons, List.nodup_cons] at honce
    rw [hsettings, List.forall_mem_cons] at hset
    refine ⟨⟨fun line' hmem => hread line' (List.mem_cons_of_mem _ hmem), honce.2, hset.2,
      fun l' hl' => ?_⟩, honce.1⟩
    by_cases hll' : l = l'
    · subst hll'
      rw [get_set_self]
      exact hset.1
    · rw [get_set_of_ne limits hll']
      refine hkept l' ?_
      rw [hsettings, List.map_cons, List.mem_cons, not_or]
      exact ⟨Ne.symm hll', hl'⟩
  · rintro ⟨⟨hread, honce, hset, hkept⟩, hnew⟩
    have hl : ls.get l = n := by rw [hkept l hnew, get_set_self]
    refine ⟨List.forall_mem_cons.2 ⟨.inr (by rw [h]; rfl), hread⟩, ?_, ?_, fun l' hl' => ?_⟩
    · rw [hsettings, List.map_cons, List.nodup_cons]
      exact ⟨hnew, honce⟩
    · rw [hsettings, List.forall_mem_cons]
      exact ⟨hl, hset⟩
    · rw [hsettings, List.map_cons, List.mem_cons, not_or] at hl'
      rw [hkept l' hl'.2, get_set_of_ne limits (Ne.symm hl'.1)]

/-- Lines are taken one after the other, and none may set a limit that is done. -/
theorem setAll_eq_ok_iff (done : List Limit) (lineNumber : Nat) :
    setAll limits done lineNumber lines = .ok ls ↔
      Sets lines limits ls ∧ ∀ l ∈ done, l ∉ (settings lines).map Prod.fst := by
  induction lines generalizing limits done lineNumber with
  | nil =>
    rw [setAll, sets_nil_iff, Except.ok.injEq, eq_comm]
    simp [settings]
  | cons line lines ih =>
    rw [setAll]
    cases hidle : isIdle line with
    | true => rw [if_pos rfl, ih, sets_cons_idle_iff hidle, settings_cons_of_idle hidle]
    | false =>
      rw [if_neg Bool.false_ne_true]
      cases hsetting : setting? line with
      | none =>
        refine iff_of_false nofun fun h => ?_
        have hread := h.1.readable line List.mem_cons_self
        simp [hidle, hsetting] at hread
      | some p =>
        obtain ⟨l, n⟩ := p
        have hsettings := settings_cons_of_setting hidle hsetting lines
        rw [hsettings, List.map_cons, sets_cons_setting_iff hidle hsetting]
        by_cases hdone : l ∈ done
        · simp only [hdone, if_true]
          exact iff_of_false nofun fun h => h.2 l hdone List.mem_cons_self
        · simp only [hdone, if_false]
          rw [ih, List.forall_mem_cons]
          simp only [List.mem_cons, not_or]
          constructor
          · rintro ⟨hsets, hnew, hothers⟩
            exact ⟨⟨hsets, hnew⟩, fun l' hl' => ⟨fun heq => hdone (heq ▸ hl'), hothers l' hl'⟩⟩
          · rintro ⟨⟨hsets, hnew⟩, hothers⟩
            exact ⟨hsets, hnew, fun l' hl' => (hothers l' hl').2⟩

/-- The lines of a limits document, without a byte order mark at its beginning. -/
def linesOfDocument (text : String) : List (List Char) :=
  linesOf
    (match text.toList with
      | '\uFEFF' :: s => s
      | s => s)

/-- **What a limits document sets.** It is accepted exactly when each of its lines is idle or sets a
limit and none is set twice, and a limit that it does not set stays as it is by default. -/
theorem ofDocument_eq_ok_iff {text : String} :
    ofDocument text = .ok ls ↔ Sets (linesOfDocument text) {} ls := by
  change setAll {} [] 1 (linesOfDocument text) = .ok ls ↔ _
  rw [setAll_eq_ok_iff]
  simp

/-! ## The range of the numbers -/

theorem lt_of_number? {word : List Char} (h : number? word = some n) : n < Nat.pow 2 63 := by
  simpa using (Option.filter_eq_some_iff.1 h).2

theorem lt_of_setting? (h : setting? line = some (l, n)) : n < Nat.pow 2 63 := by
  simp only [setting?, Option.bind_eq_bind, Option.bind_eq_some_iff] at h
  obtain ⟨⟨key, s⟩, -, l', -, h⟩ := h
  split at h
  · obtain ⟨n', hnumber, h⟩ := Option.bind_eq_some_iff.1 h
    split at h
    · cases h
      exact lt_of_number? hnumber
    · cases h
  · cases h

/-- A limit that a document sets, or leaves as it is, is in the signed range of 64 bits. -/
theorem get_lt_of_ofDocument {text : String} (h : ofDocument text = .ok ls) (l : Limit) :
    ls.get l < Nat.pow 2 63 := by
  have hsets := ofDocument_eq_ok_iff.1 h
  by_cases hl : l ∈ (settings (linesOfDocument text)).map Prod.fst
  · obtain ⟨⟨l, n⟩, hmem, rfl⟩ := List.mem_map.1 hl
    rw [hsets.set _ hmem]
    obtain ⟨line, -, hline⟩ := List.mem_filterMap.1 hmem
    split at hline
    · cases hline
    · exact lt_of_setting? hline
  · rw [hsets.kept l hl]
    cases l <;> decide

end BoundSql.Limits
