import BoundSql.Json.Token
import BoundSql.Json.Writer

/-!
# Texts that are cut into tokens

`Cuts r s ts` says how the JSON text `s` is put together from some tokens and a rest `r`: blanks
stand anywhere between the tokens, a text stands between quotes with its characters escaped, and a
word is not followed by a character that would go on with it. Such a text is cut into these tokens
as far as its rest (`tokensFrom_of_cuts`). Escapes are undone character by character
(`readText_escape`).
-/

namespace BoundSql.Json

variable {c : Char} {s w : List Char} {t : Token} {ts : List Token} {v : Value}

/-! ## Escapes -/

/-- A control character has four hexadecimal digits, the first two of them zeros. -/
theorem hexUnit?_control {n : Nat} (h : n < 32) (s : List Char) :
    hexUnit? ('0' :: '0' :: Nat.digitChar (n / 16) :: Nat.digitChar (n % 16) :: s) =
      some (n, s) := by
  have hdigits : ∀ n < 32, (['0', '0', Nat.digitChar (n / 16), Nat.digitChar (n % 16)].all
      fun x => (hexUnit?.digitOf x).isSome) = true ∧
      Text.value 16 ['0', '0', Nat.digitChar (n / 16), Nat.digitChar (n % 16)] = n := by
    decide
  obtain ⟨hall, hvalue⟩ := hdigits n h
  rw [hexUnit?, if_pos hall, hvalue]

theorem unescape_control (h : c.toNat < 0x20) (s : List Char) :
    unescape ('u' :: '0' :: '0' :: Nat.digitChar (c.toNat / 16) :: Nat.digitChar (c.toNat % 16) ::
      s) = .ok (c, s) := by
  rw [unescape, if_pos rfl, hexUnit?_control h]
  simp only
  rw [if_neg (by omega), Char.ofNat_toNat]

/-- Behind a backslash, the character that an escape denotes is read. -/
theorem readText_backslash {d : Char} {r : List Char} (h : unescape s = .ok (d, r))
    (taken : List Char) : readText taken ('\\' :: s) = readText (d :: taken) r := by
  rw [readText, if_neg (by decide), if_pos rfl]
  split
  · next e he =>
    rw [h] at he
    cases he
  · next he =>
    rw [h] at he
    cases he
    rfl

/-- **A character is read as it was written.** -/
theorem readText_escape (taken : List Char) (c : Char) (s : List Char) :
    readText taken (escape c ++ s) = readText (c :: taken) s := by
  by_cases hnamed : c ∈ ['"', '\\', '\x08', '\x0c', '\n', '\r', '\t']
  · simp only [List.mem_cons, List.not_mem_nil, or_false] at hnamed
    rcases hnamed with rfl | rfl | rfl | rfl | rfl | rfl | rfl <;>
      exact readText_backslash rfl taken
  · simp only [List.mem_cons, List.not_mem_nil, or_false, not_or] at hnamed
    obtain ⟨hquote, hslash, hb, hf, hn, hr, ht⟩ := hnamed
    rw [escape, if_neg hquote, if_neg hslash, if_neg hb, if_neg hf, if_neg hn, if_neg hr, if_neg ht]
    split
    · next hcontrol => exact readText_backslash (unescape_control hcontrol s) taken
    · next hcontrol =>
      rw [List.singleton_append, readText, if_neg hquote, if_neg hslash, if_neg hcontrol]

theorem readText_flatMap_escape (taken cs s : List Char) :
    readText taken (cs.flatMap escape ++ '"' :: s) =
      .ok (String.ofList (taken.reverse ++ cs), s) := by
  induction cs generalizing taken with
  | nil => rw [List.flatMap_nil, List.nil_append, readText, if_pos rfl, List.append_nil]
  | cons c cs ih =>
    rw [List.flatMap_cons, List.append_assoc, readText_escape, ih, List.reverse_cons,
      List.append_assoc, List.singleton_append]

/-! ## Putting tokens together -/

/-- Whether a word ends in front of a text. -/
def EndsWord (s : List Char) : Prop :=
  ∀ c, s.head? = some c → isWordChar c = false

/-- A text is put together from tokens and a rest. -/
inductive Cuts (r : List Char) : List Char → List Token → Prop
  | rest : Cuts r r []
  | blank {c : Char} {s : List Char} {ts : List Token} : Text.isPlainBlank c = true → Cuts r s ts →
      Cuts r (c :: s) ts
  | punctuation {c : Char} {t : Token} {s : List Char} {ts : List Token} :
      punctuation? c = some t → Cuts r s ts → Cuts r (c :: s) (t :: ts)
  | text {t : String} {s : List Char} {ts : List Token} : Cuts r s ts →
      Cuts r ((quote t).toList ++ s) (.text t :: ts)
  | word {w : List Char} {v : Value} {s : List Char} {ts : List Token} :
      (∀ c ∈ w, isWordChar c = true) → scalarOfWord w = .ok v → EndsWord s → Cuts r s ts →
      Cuts r (w ++ s) (.scalar v :: ts)

theorem scalarOfWord_ne_nil (h : scalarOfWord w = .ok v) : w ≠ [] := by
  rintro rfl
  cases h

/-- A character that is no blank begins the first token. -/
theorem tokensFrom_of_first {r : List Char} (hblank : Text.isPlainBlank c = false)
    (h : first c s = .ok (t, r)) (found : List Token) :
    tokensFrom found (c :: s) = tokensFrom (t :: found) r := by
  rw [tokensFrom, if_neg (by rw [hblank]; decide)]
  split
  · next he =>
    rw [h] at he
    cases he
  · next he =>
    rw [h] at he
    cases he
    rfl

theorem isPlainBlank_of_punctuation (h : punctuation? c = some t) :
    Text.isPlainBlank c = false := by
  unfold punctuation? at h
  split at h <;> first | rfl | cases h

theorem first_quote (t : String) (s : List Char) :
    first '"' (t.toList.flatMap escape ++ '"' :: s) = .ok (.text t, s) := by
  rw [first, readText_flatMap_escape, List.reverse_nil, List.nil_append, String.ofList_toList]
  rfl

/-- A character of a word begins no other token. -/
theorem of_isWordChar (h : isWordChar c = true) :
    Text.isPlainBlank c = false ∧ punctuation? c = none ∧ c ≠ '"' := by
  have hne : ∀ d, isWordChar d = false → c ≠ d := by
    rintro d hd rfl
    rw [h] at hd
    cases hd
  refine ⟨?_, ?_, hne '"' rfl⟩
  · simp [Text.isPlainBlank, hne ' ' rfl, hne '\t' rfl, hne '\r' rfl, hne '\n' rfl]
  · unfold punctuation?
    split <;> first | rfl | cases h

/-- A run of characters of a class, in front of a text that begins with none of them. -/
theorem span_append {p : Char → Bool} (hw : ∀ d ∈ w, p d = true)
    (hs : ∀ d, s.head? = some d → p d = false) :
    (w ++ s).takeWhile p = w ∧ (w ++ s).dropWhile p = s := by
  have hstop : s.takeWhile p = [] ∧ s.dropWhile p = s := by
    cases s with
    | nil => exact ⟨rfl, rfl⟩
    | cons d s =>
      have hd := hs d rfl
      exact ⟨List.takeWhile_cons_of_neg (by simp [hd]), List.dropWhile_cons_of_neg (by simp [hd])⟩
  rw [List.takeWhile_append_of_pos hw, List.dropWhile_append_of_pos hw, hstop.1, hstop.2,
    List.append_nil]
  exact ⟨rfl, rfl⟩

/-- A word in front of a text that ends it is read as a whole. -/
theorem first_word (hw : ∀ d ∈ c :: w, isWordChar d = true) (hs : EndsWord s) :
    first c (w ++ s) = (scalarOfWord (c :: w)).map fun v => (.scalar v, s) := by
  rw [List.forall_mem_cons] at hw
  obtain ⟨-, hpunctuation, hquote⟩ := of_isWordChar hw.1
  obtain ⟨htake, hdrop⟩ := span_append hw.2 hs
  rw [first, hpunctuation]
  simp only
  rw [if_neg hquote, if_pos hw.1, htake, hdrop]
  cases scalarOfWord (c :: w) <;> rfl

/-- **A text is cut into the tokens that it was put together from**, as far as its rest. -/
theorem tokensFrom_of_cuts {r : List Char} (h : Cuts r s ts) (found : List Token) :
    tokensFrom found s = tokensFrom (ts.reverse ++ found) r := by
  induction h generalizing found with
  | rest => rfl
  | blank hc _ ih => rw [tokensFrom, if_pos hc, ih]
  | @punctuation c t s ts hc _ ih =>
    have hfirst : first c s = .ok (t, s) := by rw [first, hc]
    rw [tokensFrom_of_first (isPlainBlank_of_punctuation hc) hfirst, ih, List.reverse_cons,
      List.append_assoc, List.singleton_append]
  | @text t s ts _ ih =>
    have hquote : (quote t).toList ++ s = '"' :: (t.toList.flatMap escape ++ '"' :: s) := by
      simp [quote]
    rw [hquote, tokensFrom_of_first (by decide) (first_quote t s), ih, List.reverse_cons,
      List.append_assoc, List.singleton_append]
  | @word w v s ts hw hv hs _ ih =>
    obtain ⟨c, w, rfl⟩ := List.exists_cons_of_ne_nil (scalarOfWord_ne_nil hv)
    have hblank := (of_isWordChar (hw c List.mem_cons_self)).1
    have hfirst : first c (w ++ s) = .ok (.scalar v, s) := by
      rw [first_word hw hs, hv]
      rfl
    rw [List.cons_append, tokensFrom_of_first hblank hfirst, ih, List.reverse_cons,
      List.append_assoc, List.singleton_append]

theorem tokens_of_cuts {text : String} (h : Cuts [] text.toList ts) : tokens text = .ok ts := by
  rw [tokens, tokensFrom_of_cuts h, List.append_nil, tokensFrom, List.reverse_reverse]

/-- A text cannot be cut up if a word behind some tokens stands for nothing. -/
theorem tokens_of_bad_word {text : String} {e : Fault} (hne : w ≠ [])
    (hw : ∀ d ∈ w, isWordChar d = true) (he : scalarOfWord w = .error e) (hs : EndsWord s)
    (h : Cuts (w ++ s) text.toList ts) : tokens text = .error e := by
  obtain ⟨c, w, rfl⟩ := List.exists_cons_of_ne_nil hne
  have hblank := (of_isWordChar (hw c List.mem_cons_self)).1
  have hfirst : first c (w ++ s) = .error e := by
    rw [first_word hw hs, he]
    rfl
  rw [tokens, tokensFrom_of_cuts h, List.cons_append, tokensFrom, if_neg (by rw [hblank]; decide)]
  split
  · next he' =>
    rw [hfirst] at he'
    cases he'
    rfl
  · next he' =>
    rw [hfirst] at he'
    cases he'

end BoundSql.Json
