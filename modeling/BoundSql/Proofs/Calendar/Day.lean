import BoundSql.Calendar.Date
import BoundSql.Proofs.Text.Order

/-!
# Days of the calendar in order

`Date.dayNumber` counts the days from the first day of the year zero. A date of the calendar proper
stays one when it is moved a day, and the number of the day changes by one (`addDays_spec`). So the
days of the calendar are in the order of their years, months and days (`dayNumber_lt_iff`).
-/

namespace BoundSql.Date

/-! ## Counting days -/

/-- The number of days from the year zero to a year: of the years before it every fourth is a leap
year, but for those that end a century and are no fourth century. -/
def yearStart (year : Int) : Int :=
  365 * year + (year + 3) / 4 - (year + 99) / 100 + (year + 399) / 400

/-- The number of days of a year. -/
def yearLength (year : Int) : Nat :=
  if isLeap year then 366 else 365

/-- The number of days of the first months of a year. -/
def monthStart (year : Int) : Nat → Nat
  | 0 => 0
  | months + 1 => monthStart year months + daysInMonth year (months + 1)

/-- The number of days from the first day of the year zero to a date. -/
def dayNumber (d : Date) : Int :=
  yearStart d.year + (monthStart d.year (d.month - 1) + (d.day - 1) : Nat)

theorem yearStart_succ (year : Int) : yearStart (year + 1) = yearStart year + yearLength year := by
  simp only [yearStart, yearLength, isLeap, Bool.and_eq_true, Bool.or_eq_true, decide_eq_true_eq]
  split <;> omega

theorem yearStart_le {a b : Int} (h : a < b) : yearStart a + yearLength a ≤ yearStart b := by
  rw [← yearStart_succ]
  simp only [yearStart]
  omega

/-- The months of a year make up the year. -/
@[simp] theorem monthStart_twelve (year : Int) : monthStart year 12 = yearLength year := by
  simp only [monthStart, yearLength, daysInMonth]
  cases isLeap year <;> rfl

theorem monthStart_le (year : Int) {a b : Nat} (h : a < b) :
    monthStart year a + daysInMonth year (a + 1) ≤ monthStart year b := by
  have hmono : Monotone (monthStart year) := monotone_nat_of_le_succ fun n => Nat.le_add_right _ _
  exact hmono (Nat.succ_le_of_lt h)

theorem monthStart_add_daysInMonth (year : Int) {month : Nat} (h : 1 ≤ month) :
    monthStart year (month - 1) + daysInMonth year month = monthStart year month := by
  conv_rhs => rw [← Nat.sub_add_cancel h, monthStart, Nat.sub_add_cancel h]

theorem daysInMonth_bounds (year : Int) (month : Nat) :
    1 ≤ daysInMonth year month ∧ daysInMonth year month ≤ 31 := by
  unfold daysInMonth
  split
  · split <;> decide
  · split <;> decide

variable {d d' : Date}

/-- The day of a date lies in its month, and its month in its year. -/
theorem Valid.dayOfYear_lt (h : d.Valid) :
    d.day - 1 < daysInMonth d.year (d.month - 1 + 1) ∧
      monthStart d.year (d.month - 1) + (d.day - 1) < yearLength d.year := by
  obtain ⟨hmonth, hmonth', hday, hday'⟩ := h
  have hle := monthStart_le d.year (show d.month - 1 < 12 by omega)
  rw [Nat.sub_add_cancel hmonth] at hle ⊢
  rw [← monthStart_twelve]
  omega

/-! ## Moving a day -/

/-- The following day has the following number. -/
theorem next_spec (h : d.Valid) : d.next.Valid ∧ d.next.dayNumber = d.dayNumber + 1 := by
  obtain ⟨hmonth, hmonth', hday, hday'⟩ := h
  have hmonths := monthStart_add_daysInMonth d.year hmonth
  unfold next
  split
  · next hlt =>
    refine ⟨⟨hmonth, hmonth', Nat.le_add_left 1 _, hlt⟩, ?_⟩
    simp only [dayNumber]
    omega
  · next hge =>
    split
    · next hlt =>
      refine ⟨⟨Nat.le_add_left 1 _, hlt, Nat.le_refl 1, (daysInMonth_bounds _ _).1⟩, ?_⟩
      simp only [dayNumber, Nat.add_sub_cancel]
      omega
    · have hlast : d.month = 12 := by omega
      have hyear := monthStart_twelve d.year
      have hfirst : monthStart (d.year + 1) (1 - 1) = 0 := rfl
      rw [hlast] at hmonths hday' hge
      refine ⟨⟨Nat.le_refl 1, Nat.le_add_left 1 11, Nat.le_refl 1, (daysInMonth_bounds _ _).1⟩, ?_⟩
      simp only [dayNumber, yearStart_succ, hlast, hfirst]
      omega

/-- The preceding day is the one that is followed by the day. -/
theorem previous_spec (h : d.Valid) : d.previous.Valid ∧ d.previous.next = d := by
  obtain ⟨year, month, day⟩ := d
  obtain ⟨hmonth, hmonth', hday, hday'⟩ := h
  simp only at hmonth hmonth' hday hday'
  unfold previous
  split
  · next hlt =>
    simp only at hlt
    refine ⟨⟨hmonth, hmonth', Nat.le_sub_one_of_lt hlt, (Nat.sub_le _ _).trans hday'⟩, ?_⟩
    rw [next, if_pos (Nat.lt_of_lt_of_le (Nat.sub_one_lt_of_lt hlt) hday')]
    simp only [Nat.sub_add_cancel hday]
  · next hge =>
    obtain rfl : day = 1 := Nat.le_antisymm (Nat.not_lt.1 hge) hday
    split
    · next hlt =>
      simp only at hlt
      refine ⟨⟨Nat.le_sub_one_of_lt hlt, (Nat.sub_le _ _).trans hmonth', (daysInMonth_bounds _ _).1,
        Nat.le_refl _⟩, ?_⟩
      rw [next, if_neg (Nat.lt_irrefl _), if_pos (Nat.sub_one_lt_of_le hmonth hmonth')]
      simp only [Nat.sub_add_cancel hmonth]
    · next hge' =>
      obtain rfl : month = 1 := Nat.le_antisymm (Nat.not_lt.1 hge') hmonth
      have hlength : daysInMonth (year - 1) 12 = 31 := rfl
      refine ⟨⟨Nat.le_add_left 1 11, Nat.le_refl 12, Nat.le_add_left 1 30, Nat.le_refl 31⟩, ?_⟩
      rw [next, if_neg (by simp only [hlength]; decide), if_neg (Nat.lt_irrefl _)]
      simp only [Int.sub_add_cancel]

/-- Days that are moved one at a time. -/
theorem repeat_spec {move : Date → Date} {k : Int}
    (hmove : ∀ d : Date, d.Valid → (move d).Valid ∧ (move d).dayNumber = d.dayNumber + k)
    (h : d.Valid) (n : Nat) :
    (Nat.repeat move n d).Valid ∧ (Nat.repeat move n d).dayNumber = d.dayNumber + n * k := by
  induction n with
  | zero => exact ⟨h, by simp [Nat.repeat]⟩
  | succ n ih =>
    obtain ⟨hvalid, hnumber⟩ := hmove _ ih.1
    refine ⟨hvalid, ?_⟩
    rw [Nat.repeat, hnumber, ih.2, Nat.cast_succ]
    ring

/-- **Moving a date by some days** changes its number by so many. -/
theorem addDays_spec (h : d.Valid) (n : Int) :
    (d.addDays n).Valid ∧ (d.addDays n).dayNumber = d.dayNumber + n := by
  cases n with
  | ofNat n =>
    obtain ⟨hvalid, hnumber⟩ := repeat_spec (fun d hd => next_spec hd) h n
    exact ⟨hvalid, by rw [addDays, hnumber]; simp⟩
  | negSucc n =>
    -- Going back a day is turned round: the day before is followed by the day.
    have hprevious : ∀ d : Date, d.Valid →
        d.previous.Valid ∧ d.previous.dayNumber = d.dayNumber + -1 := by
      intro d hd
      obtain ⟨hvalid, hnext⟩ := previous_spec hd
      have hnumber := (next_spec hvalid).2
      rw [hnext] at hnumber
      exact ⟨hvalid, by omega⟩
    obtain ⟨hvalid, hnumber⟩ := repeat_spec hprevious h (n + 1)
    refine ⟨hvalid, ?_⟩
    rw [addDays, hnumber]
    omega

/-! ## The order of dates -/

/-- A date lies before another one: the first of year, month and day in which they differ is
smaller. -/
def Before (d d' : Date) : Prop :=
  d.year < d'.year ∨ d.year = d'.year ∧ (d.month < d'.month ∨ d.month = d'.month ∧ d.day < d'.day)

/-- **The days of the calendar** are in the order of the dates. -/
theorem dayNumber_lt_iff (h : d.Valid) (h' : d'.Valid) :
    d.dayNumber < d'.dayNumber ↔ d.Before d' := by
  have hyears := lt_iff_of_blocks (fun a b => yearStart_le) h.dayOfYear_lt.2 h'.dayOfYear_lt.2
  rw [dayNumber, dayNumber, hyears, Before]
  refine or_congr_right (and_congr_right fun hyear => ?_)
  have hblocks : ∀ a b : Nat, a < b →
      (monthStart d.year a : Int) + daysInMonth d.year (a + 1) ≤ monthStart d.year b := by
    intro a b hab
    exact_mod_cast monthStart_le d.year hab
  have hmonths : monthStart d.year (d.month - 1) + (d.day - 1) <
      monthStart d.year (d'.month - 1) + (d'.day - 1) ↔ d.month - 1 < d'.month - 1 ∨
        d.month - 1 = d'.month - 1 ∧ d.day - 1 < d'.day - 1 := by
    exact_mod_cast lt_iff_of_blocks hblocks h.dayOfYear_lt.1 (hyear ▸ h'.dayOfYear_lt.1)
  obtain ⟨hmonth, -, hday, -⟩ := h
  obtain ⟨hmonth', -, hday', -⟩ := h'
  rw [← hyear, hmonths]
  omega

theorem eq_iff_fields : d = d' ↔ d.year = d'.year ∧ d.month = d'.month ∧ d.day = d'.day := by
  cases d
  cases d'
  rw [mk.injEq]

/-- Different dates are different days. -/
theorem dayNumber_inj (h : d.Valid) (h' : d'.Valid) : d.dayNumber = d'.dayNumber ↔ d = d' := by
  refine ⟨fun heq => ?_, congrArg dayNumber⟩
  have hlt := (dayNumber_lt_iff h h').not.1 (by omega)
  have hgt := (dayNumber_lt_iff h' h).not.1 (by omega)
  rw [Before] at hlt hgt
  rw [eq_iff_fields]
  omega

end BoundSql.Date
