import BoundSql.Proofs.Fragment.Making
import BoundSql.Query

/-!
# Queries as replays

A query keeps no more of its pieces than what they come to. Each piece is refused or has a text and
bindings of its own (`Piece.toFragment_eq`); what a query has become is then told from its pieces
alone: the first refusal, or the texts and the bindings one after the other (`Replays`). So the
query can be built by replaying its pieces (`build_replays`), and the text that comes of it does not
depend on what is bound.
-/

namespace BoundSql

namespace Query

/-! ## Pieces -/

namespace Piece

/-- Why a piece is refused, if it is: its value has no binding, its name is no identifier, or its
list is empty, too long, or has an item without a binding. -/
def refusal? (limits : Limits) : Piece → Option Error
  | sql _ | blob _ | fragment _ => none
  | value v => failure? v.bind
  | name n => if isIdentifier n then none else some (.badIdentifier n)
  | items l =>
    if l.isEmpty then some (.emptyList .oneOf)
    else if limits.listItems < l.length then
      some (.listTooLong .oneOf l.length limits.listItems)
    else l.findSome? fun v => failure? v.bind

/-- The text of a piece: what is bound has a placeholder in its place. -/
def text : Piece → String
  | sql text => text
  | value _ | blob _ => "?"
  | name n => "\"" ++ n ++ "\""
  | items l => Test.placeholderList l.length
  | fragment f => f.text

/-- The bindings of a piece, in the order of their placeholders. -/
def bindings : Piece → List Binding
  | sql _ | name _ => []
  | value v => [v.coerced]
  | blob content => [.blob content]
  | items l => l.map Value.coerced
  | fragment f => f.bindings

/-- Pieces that differ at most in what is bound by them. -/
inductive Alike : Piece → Piece → Prop
  | sql (text : String) : Alike (.sql text) (.sql text)
  | value (v w : Value) : Alike (.value v) (.value w)
  | blob (content content' : List UInt8) : Alike (.blob content) (.blob content')
  | name (n : String) : Alike (.name n) (.name n)
  | items {l m : List Value} : l.length = m.length → Alike (.items l) (.items m)
  | fragment {f g : Fragment} : f.text = g.text → Alike (.fragment f) (.fragment g)

theorem Alike.text_eq {p q : Piece} (h : Alike p q) : p.text = q.text := by
  cases h with
  | items hlength => exact congrArg Test.placeholderList hlength
  | fragment htext => exact htext
  | _ => rfl

theorem failure?_toFragment (limits : Limits) (p : Piece) :
    failure? (p.toFragment limits) = p.refusal? limits := by
  cases p with
  | value v => exact failure?_map _ _
  | name n =>
    rw [toFragment, Fragment.ofName, failure?_map, Identifier.ofName, refusal?]
    split <;> rfl
  | items l => exact Fragment.failure?_ofList .oneOf l limits.listItems
  | _ => rfl

theorem eq_of_toFragment {limits : Limits} {p : Piece} {f : Fragment}
    (h : p.toFragment limits = .ok f) : f = { text := p.text, bindings := p.bindings } := by
  cases p with
  | value v => exact Fragment.eq_of_ofValue h
  | name n =>
    obtain ⟨i, rfl, rfl⟩ := Fragment.eq_of_ofName h
    rfl
  | items l => exact Fragment.eq_of_ofList h
  | _ =>
    cases h
    rfl

/-- **A piece is refused, or it has its text and its bindings.** -/
theorem toFragment_eq (limits : Limits) (p : Piece) :
    p.toFragment limits =
      match p.refusal? limits with
      | some e => .error e
      | none => .ok { text := p.text, bindings := p.bindings } := by
  rw [← failure?_toFragment]
  cases h : p.toFragment limits with
  | error e => rfl
  | ok f => rw [eq_of_toFragment h, failure?]

end Piece

/-! ## The run of a query -/

/-- The texts of some pieces one after the other, and their bindings. -/
def replay (ps : List Piece) : Fragment where
  text := String.join (ps.map Piece.text)
  bindings := ps.flatMap Piece.bindings

@[simp] theorem replay_append (ps ps' : List Piece) :
    replay (ps ++ ps') = replay ps ++ replay ps' := by
  ext1
  · simp [replay, String.join_append]
  · simp [replay]

theorem replay_singleton (p : Piece) :
    replay [p] = { text := p.text, bindings := p.bindings } := by
  rw [replay, List.map_singleton, String.join_cons, String.join_nil, String.append_empty,
    List.flatMap_singleton]

/-- Some pieces make the query `q'` of `q`: the first refusal is kept, and as long as no piece is
refused, the fragment goes on with all of them. -/
structure Replays (q : Query) (ps : List Piece) (q' : Query) : Prop where
  limits_eq : q'.limits = q.limits
  refusal_eq : q'.refusal = q.refusal.or (ps.findSome? (Piece.refusal? q.limits))
  fragment_eq : ps.findSome? (Piece.refusal? q.limits) = none →
    q'.fragment = q.fragment ++ replay ps

namespace Replays

theorem nil (q : Query) : Replays q [] q where
  limits_eq := rfl
  refusal_eq := (Option.or_none).symm
  fragment_eq _ := (Fragment.append_empty q.fragment).symm

theorem append {q q' q'' : Query} {ps ps' : List Piece} (h : Replays q ps q')
    (h' : Replays q' ps' q'') : Replays q (ps ++ ps') q'' where
  limits_eq := h'.limits_eq.trans h.limits_eq
  refusal_eq := by
    rw [h'.refusal_eq, h.refusal_eq, h.limits_eq, Option.or_assoc, List.findSome?_append]
  fragment_eq hnone := by
    rw [List.findSome?_append, Option.or_eq_none_iff] at hnone
    have hnone' : ps'.findSome? (Piece.refusal? q'.limits) = none := by
      rw [h.limits_eq]
      exact hnone.2
    rw [h'.fragment_eq hnone', h.fragment_eq hnone.1, replay_append, Fragment.append_assoc]

end Replays

/-- One piece more. A piece that is refused leaves the fragment as it is. -/
theorem replays_push (q : Query) (p : Piece) : Replays q [p] (q.push p) := by
  have hfragment := p.toFragment_eq q.limits
  cases h : p.refusal? q.limits with
  | some e =>
    rw [h] at hfragment
    constructor
    · rw [push, hfragment]
    · rw [push, hfragment, List.findSome?_singleton, h]
    · rw [List.findSome?_singleton, h]
      exact nofun
  | none =>
    rw [h] at hfragment
    constructor
    · rw [push, hfragment]
    · rw [push, hfragment, List.findSome?_singleton, h, Option.or_none]
    · intro _
      rw [push, hfragment, replay_singleton]

/-- **A query is the replay of its pieces**, from wherever it stands. -/
theorem replays_foldl (q : Query) (ps : List Piece) : Replays q ps (ps.foldl push q) := by
  induction ps generalizing q with
  | nil => exact .nil q
  | cons p ps ih => exact (replays_push q p).append (ih (q.push p))

/-- A query that is built is refused as its first piece that is refused, or else screened. -/
theorem build_ofPieces (limits : Limits) (ps : List Piece) :
    (ofPieces limits ps).build =
      match ps.findSome? (Piece.refusal? limits) with
      | some e => .error e
      | none => (screen (replay ps).text limits.queryLength).map fun _ => replay ps := by
  have hreplays : Replays { limits } ps (ofPieces limits ps) := replays_foldl { limits } ps
  rw [build, hreplays.refusal_eq, Option.none_or]
  cases hps : ps.findSome? (Piece.refusal? limits) with
  | some e => rfl
  | none =>
    have hfragment : (ofPieces limits ps).fragment = replay ps := by
      rw [hreplays.fragment_eq hps, Fragment.empty_append]
    rw [hfragment, hreplays.limits_eq]
    cases screen (replay ps).text limits.queryLength <;> rfl

/-- What is built is made of all pieces. -/
theorem eq_replay_of_build {limits : Limits} {ps : List Piece} {f : Fragment}
    (h : (ofPieces limits ps).build = .ok f) : f = replay ps := by
  rw [build_ofPieces] at h
  split at h
  case h_1 => cases h
  case h_2 =>
    cases hscreen : screen (replay ps).text limits.queryLength with
    | error e =>
      rw [hscreen] at h
      cases h
    | ok _ =>
      rw [hscreen] at h
      cases h
      rfl

theorem text_replay_eq {ps ps' : List Piece} (h : List.Forall₂ Piece.Alike ps ps') :
    (replay ps).text = (replay ps').text := by
  have htexts : ps.map Piece.text = ps'.map Piece.text := by
    rw [← List.forall₂_eq_eq_eq, List.forall₂_map_left_iff, List.forall₂_map_right_iff]
    exact h.imp fun _ _ halike => halike.text_eq
  rw [replay, replay, htexts]

/-- **The query of some pieces.** If a piece is refused, the query is refused as the first such
piece, whatever the others are. Otherwise it is screened, and is made of the texts of all pieces in
order and of their bindings in order. The text is the same for pieces that differ only in what is
bound. -/
theorem build_replays (limits : Limits) (ps : List Piece) :
    ((ofPieces limits ps).build =
      match ps.findSome? (Piece.refusal? limits) with
      | some e => .error e
      | none =>
        (screen (String.join (ps.map Piece.text)) limits.queryLength).map fun _ =>
          { text := String.join (ps.map Piece.text), bindings := ps.flatMap Piece.bindings }) ∧
    ∀ ps' f f', List.Forall₂ Piece.Alike ps ps' → (ofPieces limits ps).build = .ok f →
      (ofPieces limits ps').build = .ok f' → f.text = f'.text := by
  refine ⟨build_ofPieces limits ps, fun ps' f f' halike h h' => ?_⟩
  rw [eq_replay_of_build h, eq_replay_of_build h', text_replay_eq halike]

/-- A value that tries to go on as SQL and a number give the same text. -/
theorem build_replays_hostile_value :
    ∃ f f', (ofPieces {} [.name "a", .sql " = ", .value (.text "'; DROP t"), .sql " OR b IN ",
        .items [.int 1, .null]]).build = .ok f ∧
      (ofPieces {} [.name "a", .sql " = ", .value (.int 7), .sql " OR b IN ",
        .items [.text ")", .bool true]]).build = .ok f' ∧
      f.bindings = [.text "'; DROP t", .integer 1, .null] ∧ f.text = f'.text := by
  have h : (ofPieces {} [.name "a", .sql " = ", .value (.text "'; DROP t"), .sql " OR b IN ",
      .items [.int 1, .null]]).build = .ok
        { text := "\"a\" = ? OR b IN (?,?)"
          bindings := [.text "'; DROP t", .integer 1, .null] } := by
    decide +kernel
  have h' : (ofPieces {} [.name "a", .sql " = ", .value (.int 7), .sql " OR b IN ",
      .items [.text ")", .bool true]]).build = .ok
        { text := "\"a\" = ? OR b IN (?,?)"
          bindings := [.integer 7, .text ")", .bool true] } := by
    decide +kernel
  have hlist : Piece.Alike (.items [.int 1, .null]) (.items [.text ")", .bool true]) := .items rfl
  have halike := List.Forall₂.cons (.name "a") (.cons (.sql " = ")
    (.cons (.value (.text "'; DROP t") (.int 7)) (.cons (.sql " OR b IN ") (.cons hlist .nil))))
  exact ⟨_, _, h, h', rfl, (build_replays _ _).2 _ _ _ halike h h'⟩

-- The first refusal is reported, not the second, and not the stacked statement in the text.
example : (ofPieces {} [.sql "; x", .name "bad name", .value (.bytes [0])]).build =
    .error (.badIdentifier "bad name") := by decide +kernel

end Query

end BoundSql
