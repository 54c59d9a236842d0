import BoundSql.Proofs.Sql.Expr

/-!
# Expressions are read in one way

A token list is the text of at most one well grouped expression (`Expr.eq_of_tokens_eq`). What makes
an expression end where it ends is what may follow it: nothing, a closing parenthesis, or a
connective that binds more loosely than the expression is held together (`Follows`).
-/

namespace BoundSql

namespace Sql

/-- The token lists that may follow an expression that is held together at a level. -/
def Follows (k : Nat) : List Token → Prop
  | [] => True
  | .closing :: _ => True
  | .word w :: _ => ∃ c, w = connective c ∧ k < looseness c
  | _ => False

theorem Follows.mono {j k : Nat} {r : List Token} (hjk : j ≤ k) (h : Follows k r) :
    Follows j r := by
  unfold Follows at h ⊢
  split at h
  · trivial
  · trivial
  · obtain ⟨c, hw, hk⟩ := h
    exact ⟨c, hw, by omega⟩
  · exact h.elim

/-! ## Atomic predicates -/

/-- The list of operands at the head of some tokens, through the parenthesis that closes it. -/
def readList : List Token → Option (List Binding × List Token)
  | .operand b :: .closing :: r => some ([b], r)
  | .operand b :: .comma :: r => (readList r).map fun p => (b :: p.1, p.2)
  | _ => none

/-- The comparison that a sign stands for. -/
def comparison? : String → Option Test
  | "=" => some .equal
  | ">" => some .greater
  | ">=" => some .atLeast
  | "<" => some .less
  | "<=" => some .atMost
  | "<>" => some .notEqual
  | _ => none

/-- The test at the head of some tokens, with its operands. -/
def readTest : List Token → Option (Test × List Binding × List Token)
  | .symbol s :: .operand b :: r => (comparison? s).map fun t => (t, [b], r)
  | .word "IS" :: .word "NULL" :: r => some (.isNull, [], r)
  | .word "IS" :: .word "NOT" :: .word "NULL" :: r => some (.isNotNull, [], r)
  | .word "LIKE" :: .operand b :: .word "COLLATE" :: .word "NOCASE" :: r =>
    some (.likeNoCase, [b], r)
  | .word "LIKE" :: .operand b :: r => some (.like, [b], r)
  | .word "REGEXP" :: .operand b :: r => some (.regex, [b], r)
  | .word "IN" :: .opening :: r => (readList r).map fun p => (.oneOf p.1.length, p.1, p.2)
  | .word "NOT" :: .word "IN" :: .opening :: r =>
    (readList r).map fun p => (.noneOf p.1.length, p.1, p.2)
  | _ => none

theorem readList_listTokens {bs : List Binding} (h : bs ≠ []) (r : List Token) :
    readList (listTokens bs ++ .closing :: r) = some (bs, r) := by
  induction bs with
  | nil => exact absurd rfl h
  | cons b bs ih =>
    cases bs with
    | nil => rfl
    | cons b' bs =>
      have htail := ih (List.cons_ne_nil b' bs)
      change (readList (listTokens (b' :: bs) ++ .closing :: r)).map _ = _
      rw [htail]
      rfl

/-- A test is read back from its tokens, whatever may follow it. -/
theorem readTest_testTokens (t : BoundTest) {r : List Token} (h : Follows 0 r) :
    readTest (testTokens t.test t.operands ++ r) = some (t.test, t.operands, r) := by
  obtain ⟨test, bs, takes⟩ := t
  have hone : bs.length = 1 → ∃ b, bs = [b] := List.length_eq_one_iff.1
  cases test with
  | isNull =>
    obtain rfl := List.length_eq_zero_iff.1 takes
    rfl
  | isNotNull =>
    obtain rfl := List.length_eq_zero_iff.1 takes
    rfl
  | oneOf n =>
    obtain ⟨rfl, hne⟩ := takes
    change (readList (listTokens bs ++ [.closing] ++ r)).map _ = _
    rw [List.append_assoc, List.singleton_append, readList_listTokens hne]
    rfl
  | noneOf n =>
    obtain ⟨rfl, hne⟩ := takes
    change (readList (listTokens bs ++ [.closing] ++ r)).map _ = _
    rw [List.append_assoc, List.singleton_append, readList_listTokens hne]
    rfl
  | like =>
    obtain ⟨b, rfl⟩ := hone takes
    -- What may follow is never `COLLATE`.
    cases r with
    | nil => rfl
    | cons x r =>
      cases x with
      | closing => rfl
      | word w =>
        obtain ⟨c, rfl, -⟩ := h
        cases c <;> rfl
      | _ => exact h.elim
  | _ =>
    obtain ⟨b, rfl⟩ := hone takes
    rfl

theorem Subject.eq_of_tokens_append {s s' : Subject} {r r' : List Token}
    (h : s.tokens ++ r = s'.tokens ++ r') : s = s' ∧ r = r' := by
  obtain ⟨q, c, p⟩ := s
  obtain ⟨q', c', p'⟩ := s'
  cases q <;> cases p <;> cases q' <;> cases p' <;>
    simp [Subject.tokens, columnTokens] at h ⊢ <;> simp [h]

/-- An atomic predicate ends where it ends. -/
theorem Atom.eq_of_tokens_append {a a' : Atom} {r r' : List Token} (hr : Follows 0 r)
    (hr' : Follows 0 r') (h : a.tokens ++ r = a'.tokens ++ r') : a = a' ∧ r = r' := by
  obtain ⟨s, t⟩ := a
  obtain ⟨s', t'⟩ := a'
  rw [Atom.tokens, Atom.tokens, List.append_assoc, List.append_assoc] at h
  obtain ⟨rfl, htest⟩ := Subject.eq_of_tokens_append h
  have hread := congrArg readTest htest
  rw [readTest_testTokens t hr, readTest_testTokens t' hr'] at hread
  obtain ⟨test, bs, takes⟩ := t
  obtain ⟨test', bs', takes'⟩ := t'
  simp only [Option.some.injEq, Prod.mk.injEq] at hread
  obtain ⟨rfl, rfl, rfl⟩ := hread
  exact ⟨rfl, rfl⟩

/-! ## Expressions -/

/-- Expressions of up to `n` tokens that are held together at a level end where they end. -/
def EndsWhereItEnds (k n : Nat) : Prop :=
  ∀ e e' : Expr, ∀ r r', e.tokens.length ≤ n → e.WellGrouped → e'.WellGrouped → e.level ≤ k →
    e'.level ≤ k → Follows k r → Follows k r' → e.tokens ++ r = e'.tokens ++ r' → e = e' ∧ r = r'

theorem Expr.level_le_two (e : Expr) : e.level ≤ 2 := by
  cases e with
  | atom a => exact Nat.zero_le 2
  | group e => exact Nat.zero_le 2
  | chain c => cases c <;> simp [Expr.level, looseness]

theorem Atom.head_tokens (a : Atom) :
    ∃ x l, a.tokens = x :: l ∧ x ≠ .opening := by
  obtain ⟨⟨q, c, p⟩, t⟩ := a
  cases q <;> cases p <;> exact ⟨_, _, rfl, nofun⟩

theorem endsWhereItEnds_zero {n : Nat} (ih : ∀ m < n, EndsWhereItEnds 2 m) :
    EndsWhereItEnds 0 n := by
  intro e e' r r' hn hwg hwg' hlevel hlevel' hr hr' h
  have hopen : ∀ (a : Atom) (g : Expr) (s s' : List Token),
      a.tokens ++ s ≠ (Expr.group g).tokens ++ s' := by
    intro a g s s' heq
    obtain ⟨x, l, hx, hne⟩ := a.head_tokens
    rw [hx, Expr.tokens, List.cons_append, List.cons_append] at heq
    exact hne (List.cons.inj heq).1
  cases e with
  | atom a =>
    cases e' with
    | atom a' =>
      obtain ⟨rfl, hrr⟩ := Atom.eq_of_tokens_append hr hr' h
      exact ⟨rfl, hrr⟩
    | group g => exact absurd h (hopen a g r r')
    | chain c => cases c <;> simp [Expr.level, looseness] at hlevel'
  | group g =>
    cases e' with
    | atom a => exact absurd h.symm (hopen a g r' r)
    | group g' =>
      rw [Expr.tokens] at hn
      simp only [Expr.tokens, List.cons_append, List.append_assoc, List.cons.injEq, true_and,
        List.nil_append] at h
      simp only [List.length_cons, List.length_append, List.length_nil] at hn
      obtain ⟨rfl, hrr⟩ := ih g.tokens.length (by omega) g g' (.closing :: r) (.closing :: r')
        (Nat.le_refl _) hwg hwg' g.level_le_two g'.level_le_two trivial trivial h
      exact ⟨rfl, (List.cons.inj hrr).2⟩
    | chain c => cases c <;> simp [Expr.level, looseness] at hlevel'
  | chain c => cases c <;> simp [Expr.level, looseness] at hlevel

/-- What goes on a chain may follow a member of it. -/
theorem follows_tailTokens {c : Combinator} {k : Nat} (hk : k < looseness c) {r : List Token}
    (h : Follows (looseness c) r) (l : List Expr) : Follows k (Expr.tailTokens c l ++ r) := by
  cases l with
  | nil => exact h.mono (Nat.le_of_lt hk)
  | cons e l => exact ⟨c, rfl, hk⟩

/-- What follows a chain does not begin with its connective. -/
theorem not_follows_connective {c : Combinator} {r : List Token} :
    ¬ Follows (looseness c) (.word (connective c) :: r) := by
  rintro ⟨c', hw, hlt⟩
  cases c <;> cases c' <;> simp [connective, looseness] at hw hlt

/-- A chain ends where it ends when its members do. -/
theorem chain_endsWhereItEnds {c : Combinator} {k n : Nat} (hk : k + 1 = looseness c)
    (ih : EndsWhereItEnds k n) (l : List Expr) :
    ∀ (e e' : Expr) (l' : List Expr) (r r' : List Token),
      e.tokens.length + (Expr.tailTokens c l).length ≤ n →
      Expr.AllWellGrouped (looseness c) (e :: l) → Expr.AllWellGrouped (looseness c) (e' :: l') →
      Follows (looseness c) r → Follows (looseness c) r' →
      e.tokens ++ (Expr.tailTokens c l ++ r) = e'.tokens ++ (Expr.tailTokens c l' ++ r') →
      e = e' ∧ l = l' ∧ r = r' := by
  induction l with
  | nil =>
    intro e e' l' r r' hn hwg hwg' hr hr' h
    have hlt : k < looseness c := by omega
    obtain ⟨rfl, hrest⟩ := ih e e' _ _ (by omega) hwg.1.2 hwg'.1.2 (by have := hwg.1.1; omega)
      (by have := hwg'.1.1; omega) (follows_tailTokens hlt hr []) (follows_tailTokens hlt hr' l') h
    cases l' with
    | nil => exact ⟨rfl, rfl, hrest⟩
    | cons x l' =>
      rw [Expr.tailTokens, Expr.tailTokens, List.nil_append] at hrest
      rw [hrest] at hr
      exact absurd hr not_follows_connective
  | cons x l ihl =>
    intro e e' l' r r' hn hwg hwg' hr hr' h
    have hlt : k < looseness c := by omega
    rw [Expr.tailTokens, List.length_cons, List.length_append] at hn
    obtain ⟨rfl, hrest⟩ := ih e e' _ _ (by omega) hwg.1.2 hwg'.1.2 (by have := hwg.1.1; omega)
      (by have := hwg'.1.1; omega) (follows_tailTokens hlt hr _) (follows_tailTokens hlt hr' l') h
    cases l' with
    | nil =>
      rw [Expr.tailTokens, Expr.tailTokens, List.nil_append] at hrest
      rw [← hrest] at hr'
      exact absurd hr' not_follows_connective
    | cons y l' =>
      rw [Expr.tailTokens, Expr.tailTokens, List.cons_append, List.cons_append, List.append_assoc,
        List.append_assoc, List.cons.injEq] at hrest
      obtain ⟨rfl, rfl, hrr⟩ := ihl x y l' r r' (by omega) hwg.2 hwg'.2 hr hr' hrest.2
      exact ⟨rfl, rfl, hrr⟩

theorem endsWhereItEnds_succ {c : Combinator} {k n : Nat} (hk : k + 1 = looseness c)
    (ih : EndsWhereItEnds k n) : EndsWhereItEnds (k + 1) n := by
  intro e e' r r' hn hwg hwg' hlevel hlevel' hr hr' h
  rw [hk] at hlevel hlevel' hr hr'
  obtain ⟨f, l, rfl, hl⟩ := Expr.exists_join hwg hlevel
  obtain ⟨f', l', rfl, hl'⟩ := Expr.exists_join hwg' hlevel'
  rw [Expr.tokens_join, List.length_append] at hn
  rw [Expr.tokens_join, Expr.tokens_join, List.append_assoc, List.append_assoc] at h
  obtain ⟨rfl, rfl, hrr⟩ := chain_endsWhereItEnds hk ih l f f' l' r r' hn hl hl' hr hr' h
  exact ⟨rfl, hrr⟩

theorem endsWhereItEnds (n : Nat) : EndsWhereItEnds 2 n := by
  induction n using Nat.strongRecOn with
  | ind n ih =>
    have hzero := endsWhereItEnds_zero ih
    have hone : EndsWhereItEnds 1 n := endsWhereItEnds_succ (c := .and) rfl hzero
    exact endsWhereItEnds_succ (c := .or) rfl hone

/-- **Tokens are read in one way**: they are the text of at most one well grouped expression. -/
theorem Expr.eq_of_tokens_eq {e e' : Expr} (hwg : e.WellGrouped) (hwg' : e'.WellGrouped)
    (h : e.tokens = e'.tokens) : e = e' := by
  have happend : e.tokens ++ [] = e'.tokens ++ [] := by rw [h]
  exact (endsWhereItEnds _ e e' [] [] (Nat.le_refl _) hwg hwg' e.level_le_two e'.level_le_two
    trivial trivial happend).1

end Sql

end BoundSql
