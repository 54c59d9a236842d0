import BoundSql.Proofs.Filter.Field
import BoundSql.Proofs.Sql.Expr

/-!
# Scanning the text of an expression

`Sql.tokens?` cuts the text of an expression into tokens. It goes over the text once, from left to
right; the placeholders take the bindings in order, and all bindings have to be taken.

`Scans bs s ts` says that a piece of text, with its bindings, is scanned to some tokens. Pieces are
put together by `Scans.append`, where the second begins with a character that ends a token.
-/

namespace BoundSql

namespace Sql

/-! ## The scanner -/

/-- What the scanner is in the middle of, with the characters taken so far, in reverse. -/
inductive Mode
  | between
  | word (taken : List Char)
  | symbol (taken : List Char)
  /-- Inside double quotes. -/
  | quoted (taken : List Char)
  /-- Behind a double quote that closes a name, unless another one follows it. -/
  | name (taken : List Char)
  deriving DecidableEq, Repr

namespace Mode

/-- The token that is complete when nothing more belongs to it. -/
def pending : Mode → List Token
  | between | quoted _ => []
  | word w => [.word (String.ofList w.reverse)]
  | symbol w => [.symbol (String.ofList w.reverse)]
  | name w => [.name (String.ofList w.reverse)]

/-- Whether the scanner is inside quotes. -/
def isOpen : Mode → Bool
  | quoted _ => true
  | _ => false

end Mode

/-- Whether a character belongs to a comparison sign. -/
def isSign (c : Char) : Bool :=
  c = '<' || c = '=' || c = '>'

/-- What the scanner does at a character that begins something new, behind some tokens: the mode it
comes to, the bindings that are left, and the tokens. -/
def start (bs : List Binding) (ts : List Token) (c : Char) :
    Option (Mode × List Binding × List Token) :=
  if isNameChar c then some (.word [c], bs, ts)
  else if isSign c then some (.symbol [c], bs, ts)
  else
    match c with
    | ' ' => some (.between, bs, ts)
    | '"' => some (.quoted [], bs, ts)
    | '(' => some (.between, bs, ts ++ [.opening])
    | ')' => some (.between, bs, ts ++ [.closing])
    | ',' => some (.between, bs, ts ++ [.comma])
    | '.' => some (.between, bs, ts ++ [.dot])
    | '?' =>
      match bs with
      | [] => none
      | b :: bs => some (.between, bs, ts ++ [.operand b])
    | _ => none

/-- What the scanner does at a character. -/
def step (m : Mode) (bs : List Binding) (c : Char) :
    Option (Mode × List Binding × List Token) :=
  match m with
  | .between => start bs [] c
  | .word w => if isNameChar c then some (.word (c :: w), bs, []) else start bs m.pending c
  | .symbol w => if isSign c then some (.symbol (c :: w), bs, []) else start bs m.pending c
  | .quoted w => if c = '"' then some (.name w, bs, []) else some (.quoted (c :: w), bs, [])
  | .name w => if c = '"' then some (.quoted (c :: w), bs, []) else start bs m.pending c

/-- The scanner at work: where it comes to at the end of some characters. -/
def run (m : Mode) (bs : List Binding) : List Char → Option (Mode × List Binding × List Token)
  | [] => some (m, bs, [])
  | c :: s => do
    let (m', bs', ts) ← step m bs c
    let (m'', bs'', ts') ← run m' bs' s
    some (m'', bs'', ts ++ ts')

/-- The tokens of a text whose placeholders stand for some bindings, if it can be scanned. -/
def tokens? (text : String) (bs : List Binding) : Option (List Token) :=
  match run .between bs text.toList with
  | some (m, [], ts) => if m.isOpen then none else some (ts ++ m.pending)
  | _ => none

/-! ## Pieces of text -/

/-- From one mode the scanner comes to another over some characters, and takes these bindings. -/
def Runs (m : Mode) (bs : List Binding) (s : List Char) (ts : List Token) (m' : Mode) : Prop :=
  ∀ more, run m (bs ++ more) s = some (m', more, ts)

theorem run_append (s s' : List Char) (m : Mode) (bs : List Binding) :
    run m bs (s ++ s') = (run m bs s).bind fun p =>
      (run p.1 p.2.1 s').map fun p' => (p'.1, p'.2.1, p.2.2 ++ p'.2.2) := by
  induction s generalizing m bs with
  | nil => simp [run]
  | cons c s ih =>
    rw [List.cons_append, run, run]
    cases step m bs c with
    | none => rfl
    | some p =>
      simp only [Option.bind_eq_bind, Option.bind_some, ih, Option.bind_assoc]
      cases run p.1 p.2.1 s with
      | none => rfl
      | some p' => cases h : run p'.1 p'.2.1 s' <;> simp [h]

theorem Runs.append {m m' m'' : Mode} {bs bs' : List Binding} {s s' : List Char}
    {ts ts' : List Token} (h : Runs m bs s ts m') (h' : Runs m' bs' s' ts' m'') :
    Runs m (bs ++ bs') (s ++ s') (ts ++ ts') m'' := by
  intro more
  rw [run_append, List.append_assoc, h, Option.bind_some, h']
  rfl

theorem Runs.nil (m : Mode) : Runs m [] [] [] m :=
  fun _ => rfl

/-- A single step that takes no binding. -/
theorem Runs.single {m m' : Mode} {c : Char} {ts : List Token}
    (h : ∀ bs, step m bs c = some (m', bs, ts)) : Runs m [] [c] ts m' := by
  intro more
  rw [List.nil_append, run, h]
  simp [run]

/-- The characters that end every token before them. -/
def endsToken (c : Char) : Bool :=
  !isNameChar c && !isSign c && c ≠ '"'

theorem start_eq (bs : List Binding) (ts : List Token) (c : Char) :
    start bs ts c = (start bs [] c).map fun p => (p.1, p.2.1, ts ++ p.2.2) := by
  unfold start
  split
  · simp
  split
  · simp
  split
  case h_7 => cases bs <;> simp
  all_goals simp

theorem step_of_endsToken {m : Mode} {c : Char} (hc : endsToken c = true) (hm : m.isOpen = false)
    (bs : List Binding) : step m bs c = start bs m.pending c := by
  simp only [endsToken, Bool.and_eq_true, Bool.not_eq_true', decide_eq_true_eq] at hc
  obtain ⟨⟨hname, hsign⟩, hquote⟩ := hc
  cases m with
  | between => rfl
  | word w => simp [step, hname]
  | symbol w => simp [step, hsign]
  | quoted w => cases hm
  | name w => simp [step, hquote]

/-- What is scanned from between tokens is scanned in the same way behind a token that it ends. -/
theorem Runs.of_between {m m' : Mode} {bs : List Binding} {c : Char} {s : List Char}
    {ts : List Token} (h : Runs .between bs (c :: s) ts m') (hc : endsToken c = true)
    (hm : m.isOpen = false) : Runs m bs (c :: s) (m.pending ++ ts) m' := by
  intro more
  have hmore := h more
  rw [run, step] at hmore
  rw [run, step_of_endsToken hc hm, start_eq]
  cases hstart : start (bs ++ more) [] c with
  | none =>
    rw [hstart] at hmore
    cases hmore
  | some p =>
    rw [hstart] at hmore
    simp only [Option.map_some, Option.bind_eq_bind, Option.bind_some] at hmore ⊢
    cases hrun : run p.1 p.2.1 s with
    | none =>
      rw [hrun] at hmore
      cases hmore
    | some p' =>
      rw [hrun] at hmore
      simp only [Option.bind_some, Option.some.injEq, Prod.mk.injEq] at hmore ⊢
      obtain ⟨rfl, rfl, rfl⟩ := hmore
      exact ⟨rfl, rfl, List.append_assoc ..⟩

/-- A piece of text is scanned to some tokens, the last of which may still be pending. -/
def Scans (bs : List Binding) (s : List Char) (ts : List Token) : Prop :=
  ∃ m ts', Runs .between bs s ts' m ∧ m.isOpen = false ∧ ts = ts' ++ m.pending

namespace Scans

variable {bs bs' : List Binding} {s s' : List Char} {ts ts' : List Token}

/-- A piece that leaves nothing pending. -/
theorem of_runs (h : Runs .between bs s ts .between) : Scans bs s ts :=
  ⟨.between, ts, h, rfl, by simp [Mode.pending]⟩

/-- A piece in front of another leaves nothing pending. -/
theorem after_runs (h : Runs .between bs s ts .between) (h' : Scans bs' s' ts') :
    Scans (bs ++ bs') (s ++ s') (ts ++ ts') := by
  obtain ⟨m, ts', hruns, hm, rfl⟩ := h'
  exact ⟨m, ts ++ ts', h.append hruns, hm, by simp⟩

/-- Two pieces, the second of which begins with a character that ends a token. -/
theorem append (h : Scans bs s ts) {c : Char} (hc : endsToken c = true)
    (h' : Scans bs' (c :: s') ts') : Scans (bs ++ bs') (s ++ c :: s') (ts ++ ts') := by
  obtain ⟨m, ts, hruns, hm, rfl⟩ := h
  obtain ⟨m', ts', hruns', hm', rfl⟩ := h'
  refine ⟨m', ts ++ (m.pending ++ ts'), hruns.append (hruns'.of_between hc hm), hm', ?_⟩
  simp

/-- A whole text is scanned when it is as a piece. -/
theorem tokens?_eq {text : String} (h : Scans bs text.toList ts) : tokens? text bs = some ts := by
  obtain ⟨m, ts', hruns, hm, rfl⟩ := h
  have hrun := hruns []
  rw [List.append_nil] at hrun
  rw [tokens?, hrun]
  simp [hm]

end Scans

/-! ## Identifiers -/

/-- A word goes on as long as characters of names follow. -/
theorem runs_word {s : List Char} (hs : ∀ c ∈ s, isNameChar c = true) (w : List Char) :
    Runs (.word w) [] s [] (.word (s.reverse ++ w)) := by
  induction s generalizing w with
  | nil => exact Runs.nil _
  | cons c s ih =>
    rw [List.forall_mem_cons] at hs
    have hstep : Runs (.word w) [] [c] [] (.word (c :: w)) :=
      .single fun bs => by rw [step, if_pos hs.1]
    rw [List.reverse_cons, List.append_assoc]
    exact hstep.append (ih hs.2 (c :: w))

/-- A quoted name goes on as long as no quote follows. -/
theorem runs_quoted {s : List Char} (hs : '"' ∉ s) (w : List Char) :
    Runs (.quoted w) [] s [] (.quoted (s.reverse ++ w)) := by
  induction s generalizing w with
  | nil => exact Runs.nil _
  | cons c s ih =>
    rw [List.mem_cons, not_or] at hs
    have hstep : Runs (.quoted w) [] [c] [] (.quoted (c :: w)) :=
      .single fun bs => by rw [step, if_neg (Ne.symm hs.1)]
    rw [List.reverse_cons, List.append_assoc]
    exact hstep.append (ih hs.2 (c :: w))

/-- An identifier without quotes is scanned as a word. -/
theorem scans_word (i : Identifier) : Scans [] i.name.toList [.word i.name] := by
  obtain ⟨c, s, hlist, -, -⟩ := isIdentifier_eq_true_iff.1 i.isIdentifier_name
  have hall : ∀ d ∈ c :: s, isNameChar d = true := fun d hd =>
    i.isNameChar_of_mem (hlist ▸ hd)
  rw [List.forall_mem_cons] at hall
  have hstart : Runs .between [] [c] [] (.word [c]) :=
    .single fun bs => by simp [step, start, hall.1]
  have hword := hstart.append (runs_word hall.2 [c])
  rw [List.singleton_append, ← hlist] at hword
  refine ⟨_, _, hword, rfl, ?_⟩
  rw [Mode.pending, List.reverse_append, List.reverse_reverse, List.reverse_singleton,
    List.singleton_append, ← hlist, String.ofList_toList]
  rfl

/-- An identifier between quotes is scanned as a name. -/
theorem scans_quoted (i : Identifier) : Scans [] i.quoted.toList [.name i.name] := by
  have hquote : '"' ∉ i.name.toList := fun h => absurd (i.isNameChar_of_mem h) (by decide)
  have hopen : Runs .between [] ['"'] [] (.quoted []) := .single fun _ => rfl
  have hclose : ∀ w, Runs (.quoted w) [] ['"'] [] (.name w) := fun w => .single fun _ => rfl
  have hname := runs_quoted hquote []
  rw [List.append_nil] at hname
  have htext : i.quoted.toList = ['"'] ++ (i.name.toList ++ ['"']) := by
    simp [Identifier.quoted]
  rw [htext]
  refine ⟨_, _, hopen.append (hname.append (hclose _)), rfl, ?_⟩
  rw [Mode.pending, List.reverse_reverse, String.ofList_toList]
  rfl

end Sql

end BoundSql
