import BoundSql.Proofs.Clause.Reading

/-!
# Reserved words

Some words have their own places in an expression, whether they are written in capitals or not, and
no alias without quotes can be called like one of them. `Fragment.ReadsAs` does not look at this: it
takes any word for an alias that stands in front of a dot. `Fragment.IsSentence` does. The reserved
words of a text are put into capitals before it is read, and none of them may be an alias.

A fragment that reads as an expression is a sentence exactly when none of the aliases in the
expression is reserved (`Fragment.ReadsAs.isSentence_iff`): no other way of reading it can help.
-/

namespace BoundSql

namespace Sql

/-! ## Words -/

/-- The words that are no aliases. -/
def reservedWords : List String :=
  ["AND", "OR", "NOT", "IS", "NULL", "IN", "LIKE", "COLLATE"]

/-- Whether a word is reserved, in capitals or not. -/
def isReserved (w : String) : Bool :=
  reservedWords.contains w.toUpper

/-- A word with its letters in capitals if it is reserved. -/
def foldWord (w : String) : String :=
  if isReserved w then w.toUpper else w

@[simp] theorem isReserved_foldWord (w : String) : isReserved (foldWord w) = isReserved w := by
  have hcapitals : ∀ r ∈ reservedWords, isReserved r = true := by decide +kernel
  rw [foldWord]
  split
  · next h => rw [h, hcapitals _ (List.contains_iff_mem.1 h)]
  · rfl

/-- A token with its letters in capitals if it is a reserved word. -/
def Token.fold : Token → Token
  | word w => .word (foldWord w)
  | t => t

/-- The words that the tests and connectives of an expression are written with. -/
theorem foldWord_of_mem {w : String} (h : w ∈ ["AND", "OR", "NOT", "IS", "NULL", "IN", "LIKE",
    "COLLATE", "NOCASE", "REGEXP", "json_extract"]) : foldWord w = w := by
  revert w
  decide +kernel

/-! ## Folding an expression -/

/-- A subject with its alias in capitals if that is reserved. -/
def Subject.fold (s : Subject) : Subject :=
  { s with qualifier := s.qualifier.map foldWord }

namespace Expr

mutual

/-- The aliases in an expression, from left to right. -/
def qualifiers : Expr → List String
  | atom a => a.subject.qualifier.toList
  | group e => qualifiers e
  | chain _ e e' es => qualifiers e ++ (qualifiers e' ++ allQualifiers es)

/-- The aliases in some expressions, in order. -/
def allQualifiers : List Expr → List String
  | [] => []
  | e :: es => qualifiers e ++ allQualifiers es

end

mutual

/-- An expression with those of its aliases in capitals that are reserved. -/
def fold : Expr → Expr
  | atom a => .atom { a with subject := a.subject.fold }
  | group e => .group (fold e)
  | chain c e e' es => .chain c (fold e) (fold e') (foldAll es)

/-- Some expressions with those of their aliases in capitals that are reserved. -/
def foldAll : List Expr → List Expr
  | [] => []
  | e :: es => fold e :: foldAll es

end

theorem allQualifiers_eq_flatMap (es : List Expr) : allQualifiers es = es.flatMap qualifiers := by
  induction es with
  | nil => rfl
  | cons e es ih => rw [allQualifiers, ih, List.flatMap_cons]

theorem qualifiers_join {c : Combinator} {e : Expr} {es : List Expr} :
    (join c e es).qualifiers = (e :: es).flatMap qualifiers := by
  cases es with
  | nil => rw [join, List.flatMap_singleton]
  | cons e' es =>
    rw [join, qualifiers, allQualifiers_eq_flatMap, List.flatMap_cons, List.flatMap_cons]

@[simp] theorem level_fold (e : Expr) : e.fold.level = e.level := by
  cases e <;> rfl

mutual

theorem qualifiers_fold : ∀ e : Expr, e.fold.qualifiers = e.qualifiers.map foldWord
  | atom a => by
    obtain ⟨⟨q, c, p⟩, t⟩ := a
    cases q <;> rfl
  | group e => qualifiers_fold e
  | chain c e e' es => by
    rw [fold, qualifiers, qualifiers, List.map_append, List.map_append, qualifiers_fold e,
      qualifiers_fold e', allQualifiers_foldAll es]

theorem allQualifiers_foldAll : ∀ es : List Expr,
    allQualifiers (foldAll es) = (allQualifiers es).map foldWord
  | [] => rfl
  | e :: es => by
    rw [foldAll, allQualifiers, allQualifiers, List.map_append, qualifiers_fold e,
      allQualifiers_foldAll es]

end

mutual

theorem wellGrouped_fold : ∀ e : Expr, e.WellGrouped → e.fold.WellGrouped
  | atom _, _ => trivial
  | group e, h => wellGrouped_fold e h
  | chain c e e' es, ⟨⟨hlt, hwg⟩, ⟨hlt', hwg'⟩, hes⟩ => by
    have he := wellGrouped_fold e hwg
    have he' := wellGrouped_fold e' hwg'
    have hall := allWellGrouped_foldAll (looseness c) es hes
    refine ⟨⟨?_, he⟩, ⟨?_, he'⟩, hall⟩
    · rwa [level_fold]
    · rwa [level_fold]

theorem allWellGrouped_foldAll (k : Nat) : ∀ es : List Expr,
    AllWellGrouped k es → AllWellGrouped k (foldAll es)
  | [], _ => trivial
  | e :: es, ⟨⟨hlt, hwg⟩, hes⟩ => by
    have he := wellGrouped_fold e hwg
    have hall := allWellGrouped_foldAll k es hes
    refine ⟨⟨?_, he⟩, hall⟩
    rwa [level_fold]

end

end Expr

/-! ## Folding tokens -/

theorem map_fold_listTokens (bs : List Binding) :
    (listTokens bs).map Token.fold = listTokens bs := by
  induction bs with
  | nil => rfl
  | cons b bs ih =>
    cases bs with
    | nil => rfl
    | cons b' bs => exact congrArg (fun ts => .operand b :: .comma :: ts) ih

/-- The words of a test are in capitals already. -/
theorem map_fold_testTokens (t : Test) (bs : List Binding) :
    (testTokens t bs).map Token.fold = testTokens t bs := by
  cases t <;> simp [testTokens, Token.fold, foldWord_of_mem, map_fold_listTokens]

theorem fold_connective (c : Combinator) :
    Token.fold (.word (connective c)) = .word (connective c) := by
  cases c <;> exact congrArg Token.word (foldWord_of_mem (by decide))

theorem Subject.tokens_fold (s : Subject) : s.fold.tokens = s.tokens.map Token.fold := by
  obtain ⟨q, c, p⟩ := s
  cases q <;> cases p <;>
    simp [Subject.fold, Subject.tokens, columnTokens, Token.fold, foldWord_of_mem]

namespace Expr

mutual

/-- Folding an expression folds its tokens. -/
theorem tokens_fold : ∀ e : Expr, e.fold.tokens = e.tokens.map Token.fold
  | atom a => by
    rw [fold, tokens, tokens, Atom.tokens, Atom.tokens, List.map_append, Subject.tokens_fold,
      map_fold_testTokens]
  | group e => by
    rw [fold, tokens, tokens, tokens_fold e, List.map_cons, List.map_append]
    rfl
  | chain c e e' es => by
    rw [fold, tokens, tokens, tokens_fold e, tokens_fold e', tailTokens_foldAll c es,
      List.map_append, List.map_cons, List.map_append, fold_connective]

theorem tailTokens_foldAll (c : Combinator) : ∀ es : List Expr,
    tailTokens c (foldAll es) = (tailTokens c es).map Token.fold
  | [] => rfl
  | e :: es => by
    rw [foldAll, tailTokens, tailTokens, tokens_fold e, tailTokens_foldAll c es, List.map_cons,
      List.map_append, fold_connective]

end

end Expr

end Sql

/-! ## Sentences -/

open Sql

/-- A fragment is a boolean expression when some words are reserved: with these in capitals, its
tokens are those of an expression in which no alias is reserved. -/
def Fragment.IsSentence (f : Fragment) : Prop :=
  ∃ (ts : List Token) (e : Sql.Expr), tokens? f.text f.bindings = some ts ∧
    ts.map Token.fold = e.tokens ∧ e.WellGrouped ∧ ∀ q ∈ e.qualifiers, isReserved q = false

/-- **When a reading is a sentence**: exactly when it has no reserved alias. Tokens are read in one
way, so a text with such an alias has no other reading in which it is none. -/
theorem Fragment.ReadsAs.isSentence_iff {f : Fragment} {e : Sql.Expr} (h : f.ReadsAs e) :
    f.IsSentence ↔ ∀ q ∈ e.qualifiers, isReserved q = false := by
  obtain ⟨hwg, htokens⟩ := h
  have hqualifiers : (∀ q ∈ e.fold.qualifiers, isReserved q = false) ↔
      ∀ q ∈ e.qualifiers, isReserved q = false := by
    simp only [Expr.qualifiers_fold, List.forall_mem_map, isReserved_foldWord]
  rw [← hqualifiers]
  constructor
  · rintro ⟨ts, e', hts, hfold, hwg', hfree⟩
    obtain rfl : e.tokens = ts := Option.some.inj (htokens.symm.trans hts)
    rw [← e.tokens_fold] at hfold
    rwa [Expr.eq_of_tokens_eq (e.wellGrouped_fold hwg) hwg' hfold]
  · intro hfree
    exact ⟨e.tokens, e.fold, htokens, e.tokens_fold.symm, e.wellGrouped_fold hwg, hfree⟩

end BoundSql
