import BoundSql.Proofs.Text.Digits
import Mathlib.Order.Defs.LinearOrder
import Mathlib.Tactic.Tauto

/-!
# Texts in order

Texts are ordered by their first difference. Numbers that are written with the same count of digits
are ordered as numbers (`lt_iff_value_lt`), so a text made of numbers at fixed widths is ordered by
the first of them that differs (`padded_append_lt_iff`). As long as all characters are ASCII it
makes no difference whether the characters are compared or the bytes (`bytes_lt_iff`).
-/

namespace BoundSql

/-- Numbers that are told by a block and a place in it are ordered by the block first, where the
blocks lie one behind the other. -/
theorem lt_iff_of_blocks {ι : Type} [LinearOrder ι] {start : ι → Int} {size : ι → Nat}
    (hblocks : ∀ a b, a < b → start a + size a ≤ start b) {a b : ι} {r s : Nat} (hr : r < size a)
    (hs : s < size b) : start a + r < start b + s ↔ a < b ∨ a = b ∧ r < s := by
  rcases lt_trichotomy a b with hlt | rfl | hlt
  · have hle := hblocks a b hlt
    exact iff_of_true (by omega) (.inl hlt)
  · simp
  · have hle := hblocks b a hlt
    refine iff_of_false (by omega) ?_
    rintro (hlt' | ⟨rfl, -⟩)
    · exact lt_asymm hlt hlt'
    · exact lt_irrefl _ hlt

/-- Blocks of the same size. -/
theorem mul_add_lt_iff {a b p r s : Nat} (hr : r < p) (hs : s < p) :
    a * p + r < b * p + s ↔ a < b ∨ a = b ∧ r < s := by
  have hblocks : ∀ a b : Nat, a < b → ((a * p : Nat) : Int) + p ≤ (b * p : Nat) := by
    intro a b hab
    have hle := Nat.mul_le_mul_right p (Nat.succ_le_of_lt hab)
    rw [Nat.succ_mul] at hle
    exact_mod_cast hle
  exact_mod_cast lt_iff_of_blocks hblocks hr hs

namespace Text

variable {c d : Char} {ds es : List Char} {w n m : Nat}

/-- What has the same length in front of two lists is compared first. -/
theorem append_lt_append_iff {α : Type} [LT α] {l l' r r' : List α} (h : l.length = l'.length) :
    l ++ r < l' ++ r' ↔ l < l' ∨ l = l' ∧ r < r' := by
  induction l generalizing l' with
  | nil =>
    obtain rfl := List.length_eq_zero_iff.1 h.symm
    simp
  | cons a l ih =>
    cases l' with
    | nil => cases h
    | cons b l' =>
      rw [List.cons_append, List.cons_append, List.cons_lt_cons_iff, List.cons_lt_cons_iff,
        ih (Nat.succ.inj h), List.cons.injEq]
      tauto

/-! ## Numbers at a fixed width -/

theorem lt_iff_toNat_lt : c < d ↔ c.toNat < d.toNat :=
  Iff.rfl

theorem value_cons_of_isDigit (h : c.isDigit = true) (ds : List Char) :
    value 10 (c :: ds) = (c.toNat - '0'.toNat) * 10 ^ ds.length + value 10 ds := by
  have hc : value 10 [c] = c.toNat - '0'.toNat := by
    rw [value, List.foldl_cons, List.foldl_nil, digitValue?_of_isDigit h, Option.getD_some,
      Nat.mul_zero, Nat.zero_add]
  rw [← List.singleton_append, value_append, hc]

theorem value_lt_pow (h : ∀ c ∈ ds, c.isDigit = true) : value 10 ds < 10 ^ ds.length := by
  induction ds with
  | nil => exact Nat.one_pos
  | cons c ds ih =>
    rw [List.forall_mem_cons] at h
    have hc := (Char.isDigit_iff_toNat.1 h.1).2
    have hds := ih h.2
    have hle : (c.toNat - '0'.toNat) * 10 ^ ds.length ≤ 9 * 10 ^ ds.length :=
      Nat.mul_le_mul_right _ (Nat.sub_le_of_le_add hc)
    rw [value_cons_of_isDigit h.1, List.length_cons, Nat.pow_succ]
    omega

/-- **Digits of the same length are in the order of their values.** -/
theorem lt_iff_value_lt (hlength : ds.length = es.length) (hds : ∀ c ∈ ds, c.isDigit = true)
    (hes : ∀ c ∈ es, c.isDigit = true) : ds < es ↔ value 10 ds < value 10 es := by
  induction ds generalizing es with
  | nil =>
    obtain rfl := List.length_eq_zero_iff.1 hlength.symm
    simp
  | cons c ds ih =>
    cases es with
    | nil => cases hlength
    | cons d es =>
      rw [List.forall_mem_cons] at hds hes
      have hlength : ds.length = es.length := Nat.succ.inj hlength
      have hd := value_lt_pow hds.2
      have he := value_lt_pow hes.2
      rw [← hlength] at he
      have hc := (Char.isDigit_iff_toNat.1 hds.1).1
      have hc' := (Char.isDigit_iff_toNat.1 hes.1).1
      rw [List.cons_lt_cons_iff, ih hlength hds.2 hes.2, value_cons_of_isDigit hds.1,
        value_cons_of_isDigit hes.1, ← hlength, mul_add_lt_iff hd he, lt_iff_toNat_lt,
        ← Char.toNat_inj]
      omega

@[simp] theorem length_padded (hw : 0 < w) (h : n < 10 ^ w) : (padded w n).length = w := by
  have hle : (digits n).length ≤ w := (Nat.length_toDigits_le_iff (by decide) hw).2 h
  rw [padded, List.length_append, List.length_replicate]
  omega

theorem isDigit_of_mem_padded (h : c ∈ padded w n) : c.isDigit = true := by
  rcases List.mem_append.1 h with h | h
  · rw [List.eq_of_mem_replicate h]
    rfl
  · exact isDigit_of_mem_digits h

theorem toNat_lt_of_mem_padded : ∀ c ∈ padded w n, c.toNat < 128 := fun _ hc =>
  (Char.isDigit_iff_toNat.1 (isDigit_of_mem_padded hc)).2.trans_lt (by decide)

@[simp] theorem value_padded (w n : Nat) : value 10 (padded w n) = n := by
  rw [padded, value_append, value_replicate_zero, Nat.zero_mul, Nat.zero_add, value_digits]

/-- **Numbers that are written at the same width** are ordered as numbers, and what follows them
counts where they are equal. -/
theorem padded_append_lt_iff (hw : 0 < w) (hn : n < 10 ^ w) (hm : m < 10 ^ w) (s t : List Char) :
    padded w n ++ s < padded w m ++ t ↔ n < m ∨ n = m ∧ s < t := by
  have hlength := (length_padded hw hn).trans (length_padded hw hm).symm
  have hlt := lt_iff_value_lt hlength (fun c => isDigit_of_mem_padded)
    fun c => isDigit_of_mem_padded
  have heq : padded w n = padded w m ↔ n = m :=
    ⟨fun h => by rw [← value_padded w n, h, value_padded], congrArg (padded w)⟩
  rw [append_lt_append_iff hlength, hlt, heq, value_padded, value_padded]

/-! ## Bytes -/

/-- The bytes of a text. -/
def bytes (s : String) : List UInt8 :=
  s.toUTF8.data.toList

/-- An ASCII character is a single byte. -/
theorem bytes_ofList (h : ∀ c ∈ ds, c.toNat < 128) :
    bytes (String.ofList ds) = ds.map fun c => c.val.toUInt8 := by
  rw [bytes, String.toUTF8, String.toByteArray_ofList, List.utf8Encode, List.data_toByteArray]
  induction ds with
  | nil => rfl
  | cons c ds ih =>
    rw [List.forall_mem_cons] at h
    have hc : c.utf8Size = 1 :=
      Char.utf8Size_eq_one_iff.2 (UInt32.le_iff_toNat_le.2 (Nat.le_of_lt_succ h.1))
    rw [List.flatMap_cons, String.utf8EncodeChar_eq_singleton hc, List.map_cons, ← ih h.2]
    rfl

theorem toNat_toUInt8 (h : c.toNat < 128) : c.val.toUInt8.toNat = c.toNat := by
  rw [UInt32.toNat_toUInt8]
  exact Nat.mod_eq_of_lt (h.trans (by decide))

/-- **The bytes of ASCII texts** are in the order of the texts. -/
theorem bytes_lt_iff (hds : ∀ c ∈ ds, c.toNat < 128) (hes : ∀ c ∈ es, c.toNat < 128) :
    bytes (String.ofList ds) < bytes (String.ofList es) ↔ ds < es := by
  rw [bytes_ofList hds, bytes_ofList hes]
  induction ds generalizing es with
  | nil => cases es <;> simp
  | cons c ds ih =>
    cases es with
    | nil => simp
    | cons d es =>
      rw [List.forall_mem_cons] at hds hes
      rw [List.map_cons, List.map_cons, List.cons_lt_cons_iff, List.cons_lt_cons_iff,
        ih hds.2 hes.2, UInt8.lt_iff_toNat_lt, ← UInt8.toNat_inj, toNat_toUInt8 hds.1,
        toNat_toUInt8 hes.1, lt_iff_toNat_lt, Char.toNat_inj]

end Text

end BoundSql
