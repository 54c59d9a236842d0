import BoundSql.Proofs.Clause.Qualified
import BoundSql.Proofs.Filter.Conjuncts
import BoundSql.Proofs.Filter.Shape

/-!
# The block of an alias around a filter

A document that holds no alias block can be put into one. It compiles there exactly when it compiles
by itself, with one more level to spare, and to the same bindings; its text is that of the document
with the alias and a dot in front of each column. A document that holds an alias block never
compiles inside another one. `compile_block` says both.
-/

namespace BoundSql

/-- A document holds an alias block: one of its filter objects has an entry whose key begins with a
dollar sign and whose value is an object. -/
def Value.HoldsBlock (v : Value) : Prop :=
  ∃ blocks entries name inner, v.HoldsFilter blocks (.object entries) ∧
    ("$" ++ name, .object inner) ∈ entries

/-- The characters of a lexeme, with an alias and a dot in front if it is a quoted identifier. -/
def Lexeme.qualified (q : Identifier) (l : Lexeme) : List Char :=
  if l.kind = .quotedIdentifier then q.name.toList ++ '.' :: l.chars else l.chars

namespace Filter

open BoundClause

variable {items : Nat} {v w : Value} {entries : List (String × Value)} {name : String}

/-! ## Blocks and entries -/

/-- Alias blocks that are objects always count. -/
theorem mem_counted_of_block {inner : List (String × Value)}
    (h : ("$" ++ name, .object inner) ∈ entries) :
    ("$" ++ name, .object inner) ∈ Value.counted entries := by
  induction entries with
  | nil => cases h
  | cons e l ih =>
    obtain ⟨key, v⟩ := e
    rw [Value.counted]
    rcases List.mem_cons.1 h with h | h
    · cases h
      have hcounts : Value.counts ("$" ++ name) (.object inner) l = true := by
        rw [Value.counts, Key.ofText_dollar]
        rfl
      rw [if_pos hcounts]
      exact List.mem_cons_self
    · split
      · exact List.mem_cons_of_mem _ (ih h)
      · exact ih h

theorem exists_eq_object (h : v.isObject = true) : ∃ entries, v = .object entries := by
  cases v with
  | object entries => exact ⟨entries, rfl⟩
  | _ => cases h

/-- Inside a block, no filter with a block in it has a clause. -/
theorem bound_eq_none_of_holdsBlock {q : Identifier} (h : v.HoldsBlock) :
    bound items (some q) (ofValue v) = none := by
  obtain ⟨blocks, entries, name, inner, hheld, hmem⟩ := h
  rw [Option.eq_none_iff_forall_ne_some]
  intro b hb
  obtain ⟨qualifier, b', hq, hb', -⟩ := exists_bound_part hb hheld
  obtain ⟨b'', hentry, -⟩ := exists_boundEntry_part hb' (mem_counted_of_block hmem)
  rw [boundEntry, Key.ofText_dollar] at hentry
  obtain ⟨i, hi, -⟩ := Option.bind_eq_some_iff.1 hentry
  obtain ⟨rfl, -⟩ := blockAlias_eq_ok_iff.1 (toOption_eq_some_iff.1 hi)
  cases hhead : blocks.head? <;> simp [hhead] at hq

/-! ## The clause of a filter with any qualifier -/

variable (q : Option Identifier)

theorem toOption_ofField_within (field : String) :
    (Target.ofField q field).toOption =
      (Target.ofField none field).toOption.map (Target.within q) := by
  unfold Target.ofField
  split
  · cases JsonPath.ofField field with
    | error e => rfl
    | ok p =>
      simp only [Bind.bind, Except.bind]
      cases Identifier.ofName p.column <;> rfl
  · simp only [Bind.bind, Except.bind]
    cases Identifier.ofName field <;> rfl

theorem boundOperators_within (target : Target) (entries : List (String × Value)) :
    boundOperators items (target.within q) entries =
      (boundOperators items target entries).map (within q) := by
  unfold boundOperators
  cases Operator.ofEntries entries with
  | error e => rfl
  | ok ops =>
    simp only [Except.toOption, Option.bind_eq_bind, Option.bind_some]
    cases Operator.presence? ops with
    | some v => cases v <;> rfl
    | none =>
      cases Operator.askAll items ops with
      | none => rfl
      | some ts => cases ts <;> rfl

theorem boundField_within (field : String) (condition : Value) :
    boundField items q field condition =
      (boundField items none field condition).map (within q) := by
  unfold boundField
  rw [toOption_ofField_within]
  cases (Target.ofField none field).toOption with
  | none => rfl
  | some target =>
    simp only [Option.map_some, Option.bind_eq_bind, Option.bind_some]
    cases condition with
    | undefined | null | array => rfl
    | object entries => exact boundOperators_within q target entries
    | _ =>
      rw [Option.map_map]
      rfl

theorem boundFields_within (fields : List (String × Value)) :
    boundFields items q fields = (boundFields items none fields).map (List.map (within q)) := by
  induction fields with
  | nil => rfl
  | cons e l ih =>
    obtain ⟨field, condition⟩ := e
    rw [boundFields, boundFields, boundField_within, ih]
    cases boundField items none field condition with
    | none => rfl
    | some b => cases boundFields items none l <;> rfl

mutual

/-- A filter without blocks asks for the same clause inside a block, but for the qualifier. -/
theorem bound_within {blocks : List String} (hv : ¬ v.HoldsBlock) : ∀ (f : Filter) (w : Value),
    f = ofValue w → v.HoldsFilter blocks w →
      bound items q f = (bound items none f).map (within q)
  | .notObject s, _, _, _ => rfl
  | .object conj disj fields inner, w, hw, h => by
    obtain ⟨entries, rfl, hparts⟩ := exists_entries_of_eq_ofValue hw
    have hof := of_partsOf entries
    rw [hparts] at hof
    have hinner : inner = [] := List.eq_nil_iff_forall_not_mem.2 fun b hb => by
      obtain ⟨w, hmem, -⟩ := hof.block b hb
      obtain ⟨block, rfl⟩ := exists_eq_object (Value.isObject_of_mem_counted hmem)
      have hsupplied := (Value.counted_sublist entries).mem hmem
      exact hv ⟨blocks, entries, b.1, block, h, (List.mem_filter.1 hsupplied).1⟩
    have hconj := boundCombination_within hv .and conj
      ((hof.combination .and).imp_right fun ⟨w, hmem, heq⟩ => ⟨w, ⟨entries, h, hmem⟩, heq⟩)
    have hdisj := boundCombination_within hv .or disj
      ((hof.combination .or).imp_right fun ⟨w, hmem, heq⟩ => ⟨w, ⟨entries, h, hmem⟩, heq⟩)
    rw [bound, bound, hconj, hdisj, boundFields_within, hinner]
    cases boundCombination items none .and conj with
    | none => rfl
    | some as =>
    cases boundCombination items none .or disj with
    | none => rfl
    | some os =>
    cases boundFields items none fields with
    | none => rfl
    | some fs =>
      simp only [boundBlocks, Option.map_some, Option.bind_eq_bind, Option.bind_some,
        ← conjunction_map_within, List.map_append, List.map_nil]

theorem boundCombination_within {blocks : List String} (hv : ¬ v.HoldsBlock) (c : Combinator) :
    ∀ given : Combination Filter,
      (given = .absent ∨ ∃ w, v.HoldsEntry blocks c.key w ∧ given = combinationOf w) →
      boundCombination items q c given =
        (boundCombination items none c given).map (List.map (within q))
  | .absent, _ => rfl
  | .notArray, _ => rfl
  | .items l, h => by
    obtain ⟨w, ⟨entries, hfilter, hmem⟩, heq⟩ := h.resolve_left nofun
    obtain ⟨values, rfl, hvalues⟩ := exists_array_of_eq_combinationOf heq
    have hplaces : ∀ f ∈ l, ∃ w, f = ofValue w ∧ v.HoldsFilter blocks w := fun f hf => by
      rw [hvalues] at hf
      obtain ⟨w, hw, rfl⟩ := mem_ofItems hf
      exact ⟨w, rfl, hfilter.item hmem hw⟩
    have hl := boundItems_within hv l hplaces
    rw [boundCombination, boundCombination, hl]
    cases boundItems items none l with
    | none => rfl
    | some bs =>
      cases bs with
      | nil => rfl
      | cons b bs =>
        simp only [Option.map_some, Option.bind_eq_bind, Option.bind_some, List.map_cons,
          List.map_nil, within, allWithin_eq_map]

theorem boundItems_within {blocks : List String} (hv : ¬ v.HoldsBlock) : ∀ l : List Filter,
    (∀ f ∈ l, ∃ w, f = ofValue w ∧ v.HoldsFilter blocks w) →
      boundItems items q l = (boundItems items none l).map (List.map (within q))
  | [], _ => rfl
  | f :: l, h => by
    rw [List.forall_mem_cons] at h
    obtain ⟨w, hw, hplace⟩ := h.1
    have hf := bound_within hv f w hw hplace
    have hl := boundItems_within hv l h.2
    rw [boundItems, boundItems, hf, hl]
    cases bound items none f with
    | none => rfl
    | some b => cases boundItems items none l <;> rfl

end

/-- Outside and inside a block, a document without blocks asks for the same clause. -/
theorem bound_within_of_not_holdsBlock (hv : ¬ v.HoldsBlock) :
    bound items q (ofValue v) = (bound items none (ofValue v)).map (within q) :=
  bound_within q hv (ofValue v) v rfl .root

theorem exists_object_of_bound {q : Option Identifier} {b : BoundClause}
    (h : bound items q (ofValue v) = some b) : ∃ entries, v = .object entries := by
  cases v with
  | object entries => exact ⟨entries, rfl⟩
  | _ => cases h

variable {t : Identifier}

/-- A document in a block asks for what it asks for inside the block. -/
theorem bound_singleton_block (t : Identifier) (entries : List (String × Value)) :
    bound items none (ofValue (.object [("$" ++ t.name, .object entries)])) =
      bound items (some t) (ofValue (.object entries)) := by
  have hparts : partsOf [("$" ++ t.name, .object entries)] =
      { blocks := [(t.name, ofValue (.object entries))] } := by
    simp [partsOf, Value.isUndefined, ofValue]
  have halias : (blockAlias none t.name).toOption = some t := by
    rw [blockAlias, t.ofName_name]
    rfl
  rw [ofValue, hparts, ofParts, bound, boundBlocks, halias]
  simp only [boundCombination, boundFields, boundBlocks, Option.bind_eq_bind, Option.bind_some,
    List.nil_append]
  cases bound items (some t) (ofValue (.object entries)) <;> rfl

/-- A block is one level deep, and has no operator of its own. -/
theorem size_singleton_block (name : String) (entries : List (String × Value)) :
    (ofValue (.object [("$" ++ name, .object entries)])).depth =
        (ofValue (.object entries)).depth + 1 ∧
      (ofValue (.object [("$" ++ name, .object entries)])).operators =
        (ofValue (.object entries)).operators := by
  have hmem : ("$" ++ name, .object entries) ∈
      Value.counted [("$" ++ name, .object entries)] :=
    mem_counted_of_block List.mem_cons_self
  have hsize := size_singleton (counts_nil_of_mem_counted hmem)
  rwa [depthEntry, operatorsEntry, Key.ofText_dollar] at hsize

/-- A document in a block, which is dropped if the document is no object. -/
theorem exists_object_of_bound_block {b : BoundClause}
    (h : bound items none (ofValue (.object [("$" ++ t.name, v)])) = some b) :
    ∃ entries, v = .object entries := by
  cases hobject : v.isObject with
  | true => exact exists_eq_object hobject
  | false =>
    have hcounts : Value.counts ("$" ++ t.name) v [] = false := by
      rw [Value.counts, Key.ofText_dollar]
      simp only [hobject, Bool.and_false]
    rw [bound_object, partsOf_cons_of_not_counts hcounts] at h
    cases h

end Filter

/-! ## The lexemes of a text with a qualifier -/

open Lexeme

variable {q : Identifier} {s s' : List Char}

/-- A run of characters that are no quotes is the same in both texts. -/
theorem Qualifies.exists_dropWhile {p : Char → Bool} (hp : p '"' = false) (h : Qualifies q s s') :
    ∃ r', s' = s.takeWhile p ++ r' ∧ Qualifies q (s.dropWhile p) r' := by
  induction h with
  | nil => exact ⟨[], rfl, .nil⟩
  | @char c s s' hc h ih =>
    cases hpc : p c with
    | true =>
      obtain ⟨r', rfl, hr⟩ := ih
      rw [List.takeWhile_cons_of_pos hpc, List.dropWhile_cons_of_pos hpc]
      exact ⟨r', rfl, hr⟩
    | false =>
      rw [List.takeWhile_cons_of_neg (by simp [hpc]), List.dropWhile_cons_of_neg (by simp [hpc])]
      exact ⟨_, rfl, .char hc h⟩
  | @column i s s' hs h _ =>
    have hquoted : i.quoted.toList ++ s = '"' :: (i.name.toList ++ ['"'] ++ s) := by
      rw [i.toList_quoted, List.cons_append]
    have htake : (i.quoted.toList ++ s).takeWhile p = [] := by
      rw [hquoted, List.takeWhile_cons_of_neg (by simp [hp])]
    have hdrop : (i.quoted.toList ++ s).dropWhile p = i.quoted.toList ++ s := by
      rw [hquoted, List.dropWhile_cons_of_neg (by simp [hp])]
    rw [htake, hdrop]
    exact ⟨_, rfl, .column hs h⟩

theorem Qualifies.eq_nil (h : Qualifies q s s') (hs : s = []) : s' = [] := by
  cases h with
  | nil => rfl
  | char => cases hs
  | column => simp at hs

/-- The first lexeme of a text stands first in the text with a qualifier too, behind the qualifier
if the lexeme is a column, and the texts behind it are such a pair again. -/
theorem Qualifies.exists_first (h : Qualifies q s s') {c : Char} {t : List Char}
    (hs : s = c :: t) (offset : Nat) :
    ∃ cut r', first c t = .ok cut ∧
      s' = Lexeme.qualified q { kind := cut.kind, chars := cut.chars, offset } ++ r' ∧
      Qualifies q cut.rest r' := by
  cases h with
  | nil => cases hs
  | @char c s s' hc h =>
    cases hs
    rcases eq_space_or_not_endsCode hc with rfl | hcode
    · obtain ⟨r', rfl, hr⟩ := h.exists_dropWhile (p := Text.isPlainBlank) (by decide)
      exact ⟨run .trivia Text.isPlainBlank [' '] t, r', rfl, rfl, hr⟩
    · obtain ⟨r', rfl, hr⟩ := h.exists_dropWhile (p := fun d => !endsCode d) (by decide)
      exact ⟨_, r', first_of_not_endsCode hcode t, rfl, hr⟩
  | @column i s s' hquote h =>
    rw [i.toList_quoted, List.cons_append, List.append_assoc, List.singleton_append] at hs
    cases hs
    exact ⟨_, s', first_quoted i hquote, rfl, h⟩

/-- **The lexemes of a text tell where its qualifier goes**: in front of each column. -/
theorem Qualifies.exists_lexemesFrom (found : List Lexeme) (offset : Nat)
    (h : Qualifies q s s') :
    ∃ new, lexemesFrom found offset s = .ok (found.reverse ++ new) ∧
      s' = new.flatMap (Lexeme.qualified q) := by
  fun_induction lexemesFrom found offset s generalizing s' with
  | case1 => exact ⟨[], by simp, h.eq_nil rfl⟩
  | case2 found offset c s e hfirst =>
    obtain ⟨cut, r', hcut, -⟩ := h.exists_first rfl offset
    rw [hfirst] at hcut
    cases hcut
  | case3 found offset c s cut hfirst _ ih =>
    obtain ⟨cut', r', hcut, hs', hrest⟩ := h.exists_first rfl offset
    rw [hfirst] at hcut
    cases hcut
    obtain ⟨new, hnew, rfl⟩ := ih hrest
    refine ⟨{ kind := cut.kind, chars := cut.chars, offset } :: new, ?_, hs'⟩
    rw [hnew]
    simp

/-- A text that is qualified has the lexemes of the text before it was, each of them qualified. -/
theorem Qualifies.exists_lexemes {text text' : String} (h : Qualifies q text.toList text'.toList) :
    ∃ ls, lexemes text = .ok ls ∧ text = String.ofList (ls.flatMap Lexeme.chars) ∧
      text' = String.ofList (ls.flatMap (Lexeme.qualified q)) := by
  obtain ⟨ls, hls, htext'⟩ := h.exists_lexemesFrom [] 0
  rw [List.reverse_nil, List.nil_append] at hls
  have hlexemes : lexemes text = .ok ls := by rw [lexemes, hls]
  refine ⟨ls, hlexemes, ?_, ?_⟩
  · rw [(agree_lexemes hlexemes).flatMap_chars, String.ofList_toList]
  · rw [← htext', String.ofList_toList]

/-- When a document compiles in the block of an alias, and to what. -/
theorem compile_singleton_block_iff {limits : Limits} {t : Identifier} {v : Value} {f : Fragment}
    (hblock : ¬ v.HoldsBlock) :
    compile { limits with nestingDepth := limits.nestingDepth + 1 }
        (.object [("$" ++ t.name, v)]) = .ok f ↔
      ∃ b, (Filter.ofValue v).bound limits.listItems none = some b ∧
        (Filter.ofValue v).depth ≤ limits.nestingDepth ∧
        (Filter.ofValue v).operators ≤ limits.operators ∧
        f = { text := "(" ++ (b.within (some t)).clause.text ++ ")"
              bindings := (b.within (some t)).bindings } := by
  constructor
  · intro hf
    obtain ⟨b', hb', hdepth, hoperators, rfl⟩ := compile_eq_ok_iff.1 hf
    obtain ⟨entries, rfl⟩ := Filter.exists_object_of_bound_block hb'
    obtain ⟨hdepth', hoperators'⟩ := Filter.size_singleton_block t.name entries
    rw [Filter.bound_singleton_block, Filter.bound_within_of_not_holdsBlock _ hblock,
      Option.map_eq_some_iff] at hb'
    obtain ⟨b, hb, rfl⟩ := hb'
    rw [hdepth'] at hdepth
    rw [hoperators'] at hoperators
    exact ⟨b, hb, Nat.le_of_succ_le_succ hdepth, hoperators, rfl⟩
  · rintro ⟨b, hb, hdepth, hoperators, rfl⟩
    obtain ⟨entries, rfl⟩ := Filter.exists_object_of_bound hb
    obtain ⟨hdepth', hoperators'⟩ := Filter.size_singleton_block t.name entries
    refine compile_eq_ok_iff.2 ⟨b.within (some t), ?_, ?_, ?_, rfl⟩
    · rw [Filter.bound_singleton_block, Filter.bound_within_of_not_holdsBlock _ hblock, hb]
      rfl
    · rw [hdepth']
      exact Nat.succ_le_succ hdepth
    · rwa [hoperators']

/-- **An alias block qualifies every column, and nothing else.** In the block of an alias, and with
one more level to spare, a document that holds no block compiles exactly when it compiles by itself.
The bindings are the same, and the text is that of the document with the alias and a dot in front of
each quoted identifier. A document that holds a block does not compile inside another one. -/
theorem compile_block (limits : Limits) (t : Identifier) (v : Value) :
    (v.HoldsBlock → ∀ f, compile { limits with nestingDepth := limits.nestingDepth + 1 }
      (.object [("$" ++ t.name, v)]) ≠ .ok f) ∧
    (¬ v.HoldsBlock →
      ((∃ f, compile limits v = .ok f) ↔
        ∃ f', compile { limits with nestingDepth := limits.nestingDepth + 1 }
          (.object [("$" ++ t.name, v)]) = .ok f') ∧
      ∀ f f', compile limits v = .ok f →
        compile { limits with nestingDepth := limits.nestingDepth + 1 }
          (.object [("$" ++ t.name, v)]) = .ok f' →
        f'.bindings = f.bindings ∧
        ∃ ls, lexemes f.text = .ok ls ∧ f.text = String.ofList (ls.flatMap Lexeme.chars) ∧
          f'.text = String.ofList (ls.flatMap (Lexeme.qualified t))) := by
  refine ⟨fun hblock f' hf' => ?_, fun hblock => ⟨⟨?_, ?_⟩, fun f f' hf hf' => ?_⟩⟩
  · obtain ⟨b, hb, -⟩ := compile_eq_ok_iff.1 hf'
    obtain ⟨entries, rfl⟩ := Filter.exists_object_of_bound_block hb
    rw [Filter.bound_singleton_block, Filter.bound_eq_none_of_holdsBlock hblock] at hb
    cases hb
  · rintro ⟨f, hf⟩
    obtain ⟨b, hb, hdepth, hoperators, -⟩ := compile_eq_ok_iff.1 hf
    exact ⟨_, (compile_singleton_block_iff hblock).2 ⟨b, hb, hdepth, hoperators, rfl⟩⟩
  · rintro ⟨f', hf'⟩
    obtain ⟨b, hb, hdepth, hoperators, -⟩ := (compile_singleton_block_iff hblock).1 hf'
    exact ⟨_, compile_eq_ok_iff.2 ⟨b, hb, hdepth, hoperators, rfl⟩⟩
  · obtain ⟨b, hb, -, -, rfl⟩ := compile_eq_ok_iff.1 hf
    obtain ⟨b', hb', -, -, rfl⟩ := (compile_singleton_block_iff hblock).1 hf'
    obtain rfl : b = b' := Option.some.inj (hb.symm.trans hb')
    have hnone : b = b.within none := by
      rw [← Option.some.injEq, ← Option.map_some, ← hb]
      exact Filter.bound_within_of_not_holdsBlock none hblock
    have hclause := b.qualifies_text t
    rw [← hnone] at hclause
    exact ⟨b.bindings_within _, hclause.parens.exists_lexemes⟩

/-- A field that is dotted and one that is not, in a block; and a block in another one. -/
theorem compile_block_of_dotted_field :
    (∃ f f', compile {} (.object [("a.b", .int 1), ("or", .array [.object [("c", .null)]])]) =
        .ok f ∧
      compile { nestingDepth := 11 } (.object [("$t", .object [("a.b", .int 1),
        ("or", .array [.object [("c", .null)]])])]) = .ok f' ∧
      f'.bindings = f.bindings ∧ ∃ ls, lexemes f.text = .ok ls ∧
        f'.text = String.ofList (ls.flatMap (Lexeme.qualified ⟨"t", rfl⟩)) ∧
        f'.text = "((((t.\"c\" IS NULL)) AND (json_extract(t.\"a\", ?) = ?)))") ∧
    ∀ f, compile { nestingDepth := 11 }
      (.object [("$t", .object [("$u", .object [("x", .null)])])]) ≠ .ok f := by
  have hblock : (Value.object [("$u", .object [("x", .null)])]).HoldsBlock :=
    ⟨[], _, "u", _, .root, List.mem_cons_self⟩
  have hfree : ¬ (Value.object [("a.b", .int 1),
      ("or", .array [.object [("c", .null)]])]).HoldsBlock := fun h =>
    nomatch @Filter.bound_eq_none_of_holdsBlock 1 _ ⟨"t", rfl⟩ h
  obtain ⟨-, hcompiles⟩ := (compile_block {} ⟨"t", rfl⟩ _).2 hfree
  obtain ⟨hbindings, ls, hls, -, htext⟩ := hcompiles _ _ rfl rfl
  exact ⟨⟨_, _, rfl, rfl, hbindings, ls, hls, htext, rfl⟩,
    (compile_block {} ⟨"t", rfl⟩ _).1 hblock⟩

end BoundSql
