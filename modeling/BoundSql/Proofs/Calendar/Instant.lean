import BoundSql.Proofs.Calendar.Day
import BoundSql.Value.Binding
import BoundSql.Value.Conversion

/-!
# Times in order

A `Moment` is a time that a caller hands in: one without a zone, or a local time that is some
seconds ahead of universal time. `Moment.universal` is the time that becomes its value, and
`Moment.instant` the point in time that it denotes, in nanoseconds. Going over to universal time
keeps the point in time, whatever borders of days, months and years it crosses
(`DateTime.atOffset_spec`), and the texts of times are in the order of the seconds
(`DateTime.bytes_text_lt_iff`). So the texts that are bound for two moments compare as the moments
do (`Moment.texts_in_order`). What such a text has lost is the fraction of the second: the full text
of a time has it, and loses nothing (`DateTime.isoText_inj`).
-/

namespace BoundSql

namespace DateTime

/-! ## Counting seconds -/

/-- A time of the calendar and the clock. -/
structure Valid (t : DateTime) : Prop where
  date : t.date.Valid
  hour_lt : t.hour < 24
  minute_lt : t.minute < 60
  second_lt : t.second < 60

/-- The number of seconds from the beginning of the year zero to a time. -/
def seconds (t : DateTime) : Int :=
  t.date.dayNumber * 86400 + t.secondOfDay

variable {t t' : DateTime}

theorem Valid.secondOfDay_lt (h : t.Valid) : t.secondOfDay < 86400 := by
  have hhour := h.hour_lt
  have hminute := h.minute_lt
  have hsecond := h.second_lt
  rw [secondOfDay]
  omega

@[simp] theorem secondOfDay_ofSecondOfDay (d : Date) (s nanosecond : Nat) :
    (ofSecondOfDay d s nanosecond).secondOfDay = s := by
  simp only [secondOfDay, ofSecondOfDay]
  omega

/-- **Going over to universal time** keeps the point in time. -/
theorem atOffset_spec (h : t.Valid) (offset : Int) :
    (t.atOffset offset).Valid ∧ (t.atOffset offset).seconds = t.seconds - offset := by
  obtain ⟨hdate, hnumber⟩ := Date.addDays_spec h.date ((t.secondOfDay - offset) / 86400)
  refine ⟨⟨hdate, ?_, ?_, ?_⟩, ?_⟩
  · simp only [atOffset, ofSecondOfDay]
    omega
  · exact Nat.mod_lt _ (by decide)
  · exact Nat.mod_lt _ (by decide)
  · rw [seconds, atOffset, secondOfDay_ofSecondOfDay, ofSecondOfDay, hnumber, seconds]
    omega

/-- The times of a day are in the order of their hours, minutes and seconds. -/
theorem secondOfDay_lt_iff (h : t.Valid) (h' : t'.Valid) :
    t.secondOfDay < t'.secondOfDay ↔ t.hour < t'.hour ∨ t.hour = t'.hour ∧
      (t.minute < t'.minute ∨ t.minute = t'.minute ∧ t.second < t'.second) := by
  have hminute := h.minute_lt
  have hminute' := h'.minute_lt
  have hsecond := h.second_lt
  have hsecond' := h'.second_lt
  rw [secondOfDay, secondOfDay]
  omega

/-- Times are in the order of their dates, and on the same day of their seconds. -/
theorem seconds_lt_iff (h : t.Valid) (h' : t'.Valid) :
    t.seconds < t'.seconds ↔
      t.date.Before t'.date ∨ t.date = t'.date ∧ t.secondOfDay < t'.secondOfDay := by
  have hblocks : ∀ a b : Int, a < b → a * 86400 + (86400 : Nat) ≤ b * 86400 := by
    intro a b hab
    omega
  rw [seconds, seconds, lt_iff_of_blocks hblocks h.secondOfDay_lt h'.secondOfDay_lt,
    Date.dayNumber_lt_iff h.date h'.date, Date.dayNumber_inj h.date h'.date]

/-- No two times of day are at the same second. -/
theorem seconds_inj (h : t.Valid) (h' : t'.Valid) :
    t.seconds = t'.seconds ↔
      t.date = t'.date ∧ t.hour = t'.hour ∧ t.minute = t'.minute ∧ t.second = t'.second := by
  have hday := h.secondOfDay_lt
  have hday' := h'.secondOfDay_lt
  have hminute := h.minute_lt
  have hminute' := h'.minute_lt
  have hsecond := h.second_lt
  have hsecond' := h'.second_lt
  rw [← Date.dayNumber_inj h.date h'.date, seconds, seconds]
  rw [secondOfDay] at hday hday' ⊢
  rw [secondOfDay]
  omega

/-! ## The order of texts -/

/-- A time that is written with four digits for the year and without a leap second. -/
structure Plain (t : DateTime) : Prop where
  nanosecond_lt : t.nanosecond < 10 ^ 9
  year_nonneg : 0 ≤ t.date.year
  year_le : t.date.year ≤ 9999

/-- The characters of the text of a plain time, with a separator between date and time, in front of
a rest. -/
def fields (separator : Char) (rest : List Char) (t : DateTime) : List Char :=
  Text.padded 4 t.date.year.natAbs ++ '-' :: (Text.padded 2 t.date.month ++
    '-' :: (Text.padded 2 t.date.day ++ separator :: (Text.padded 2 t.hour ++
      ':' :: (Text.padded 2 t.minute ++ ':' :: (Text.padded 2 t.second ++ rest)))))

/-- The digits of a fraction of a second, behind their point. -/
def fraction (t : DateTime) : List Char :=
  '.' :: Text.padded 9 t.nanosecond

/-- The seconds of a plain time are not carried over. -/
theorem Plain.second_eq (h : t.Plain) : t.second + t.nanosecond / Nat.pow 10 9 = t.second := by
  rw [Nat.div_eq_of_lt (by exact h.nanosecond_lt), Nat.add_zero]

theorem Plain.text_eq (h : t.Plain) : t.text = String.ofList (t.fields ' ' []) := by
  rw [text, dateText, timeText, yearText, if_neg (Int.not_lt.2 h.year_nonneg), if_pos h.year_le,
    h.second_eq, fields]
  simp only [List.append_assoc, List.cons_append, List.append_nil]

theorem Plain.isoText_eq (h : t.Plain) :
    t.isoText = String.ofList (t.fields 'T' t.fraction) := by
  have hnanosecond : t.nanosecond % Nat.pow 10 9 = t.nanosecond := Nat.mod_eq_of_lt h.nanosecond_lt
  rw [isoText, dateText, timeText, yearText, if_neg (Int.not_lt.2 h.year_nonneg), if_pos h.year_le,
    h.second_eq, hnanosecond, fields, fraction]
  simp only [List.append_assoc, List.cons_append]

/-- The fields of a time are no longer than their widths. -/
theorem Valid.fields_lt (h : t.Valid) (hplain : t.Plain) :
    t.date.year.natAbs < 10 ^ 4 ∧ t.date.month < 10 ^ 2 ∧ t.date.day < 10 ^ 2 ∧
      t.hour < 10 ^ 2 ∧ t.minute < 10 ^ 2 ∧ t.second < 10 ^ 2 := by
  obtain ⟨⟨-, hmonth, -, hday⟩, hhour, hminute, hsecond⟩ := h
  obtain ⟨-, hyear, hyear'⟩ := hplain
  have hlength := (Date.daysInMonth_bounds t.date.year t.date.month).2
  omega

/-- **The fields of times** are in the order of the times, and what follows them counts where the
times are the same to the second. -/
theorem fields_lt_iff (h : t.Valid) (h' : t'.Valid) (hplain : t.Plain) (hplain' : t'.Plain)
    (separator : Char) (rest rest' : List Char) :
    t.fields separator rest < t'.fields separator rest' ↔
      t.seconds < t'.seconds ∨ t.seconds = t'.seconds ∧ rest < rest' := by
  obtain ⟨hyear, hmonth, hday, hhour, hminute, hsecond⟩ := h.fields_lt hplain
  obtain ⟨hyear', hmonth', hday', hhour', hminute', hsecond'⟩ := h'.fields_lt hplain'
  rw [fields, fields, Text.padded_append_lt_iff (by decide) hyear hyear',
    List.cons_lt_cons_self, Text.padded_append_lt_iff (by decide) hmonth hmonth',
    List.cons_lt_cons_self, Text.padded_append_lt_iff (by decide) hday hday',
    List.cons_lt_cons_self, Text.padded_append_lt_iff (by decide) hhour hhour',
    List.cons_lt_cons_self, Text.padded_append_lt_iff (by decide) hminute hminute',
    List.cons_lt_cons_self, Text.padded_append_lt_iff (by decide) hsecond hsecond',
    seconds_lt_iff h h', secondOfDay_lt_iff h h', seconds_inj h h', Date.eq_iff_fields, Date.Before]
  have hnonneg := hplain.year_nonneg
  have hnonneg' := hplain'.year_nonneg
  have hlt : t.date.year.natAbs < t'.date.year.natAbs ↔ t.date.year < t'.date.year := by omega
  have heq : t.date.year.natAbs = t'.date.year.natAbs ↔ t.date.year = t'.date.year := by omega
  -- both sides say which field is the first to differ
  simp only [hlt, heq, and_or_left, or_assoc, and_assoc]

theorem length_fields (h : t.Valid) (hplain : t.Plain) (separator : Char) :
    (t.fields separator []).length = 19 := by
  obtain ⟨hyear, hmonth, hday, hhour, hminute, hsecond⟩ := h.fields_lt hplain
  rw [fields]
  simp only [List.length_append, List.length_cons, List.length_nil,
    Text.length_padded (by decide) hyear, Text.length_padded (by decide) hmonth,
    Text.length_padded (by decide) hday, Text.length_padded (by decide) hhour,
    Text.length_padded (by decide) hminute, Text.length_padded (by decide) hsecond]

theorem toNat_lt_of_mem_fields (t : DateTime) {separator : Char} {rest : List Char}
    (hseparator : separator.toNat < 128) (hrest : ∀ c ∈ rest, c.toNat < 128) :
    ∀ c ∈ t.fields separator rest, c.toNat < 128 := by
  simp only [fields, List.forall_mem_append, List.forall_mem_cons]
  exact ⟨Text.toNat_lt_of_mem_padded, by decide, Text.toNat_lt_of_mem_padded, by decide,
    Text.toNat_lt_of_mem_padded, hseparator, Text.toNat_lt_of_mem_padded, by decide,
    Text.toNat_lt_of_mem_padded, by decide, Text.toNat_lt_of_mem_padded, hrest⟩

/-- **The texts of times** are in the order of the times, byte for byte. -/
theorem bytes_text_lt_iff (h : t.Valid) (h' : t'.Valid) (hplain : t.Plain) (hplain' : t'.Plain) :
    Text.bytes t.text < Text.bytes t'.text ↔ t.seconds < t'.seconds := by
  have hascii : ∀ u : DateTime, ∀ c ∈ u.fields ' ' [], c.toNat < 128 := fun u =>
    u.toNat_lt_of_mem_fields (by decide) (List.forall_mem_nil _)
  have hnil : ¬ ([] : List Char) < [] := List.not_lt_nil _
  rw [hplain.text_eq, hplain'.text_eq, Text.bytes_lt_iff (hascii t) (hascii t'),
    fields_lt_iff h h' hplain hplain']
  simp only [hnil, and_false, or_false]

/-- Times with the same text are the same to the second. -/
theorem text_eq_of_seconds_eq (h : t.Valid) (h' : t'.Valid) (hplain : t.Plain)
    (hplain' : t'.Plain) (heq : t.seconds = t'.seconds) : t.text = t'.text := by
  obtain ⟨hdate, hhour, hminute, hsecond⟩ := (seconds_inj h h').1 heq
  rw [hplain.text_eq, hplain'.text_eq, fields, fields, hdate, hhour, hminute, hsecond]

/-- **The full texts of times** are in the order of the times, byte for byte and to the
nanosecond. -/
theorem bytes_isoText_lt_iff (h : t.Valid) (h' : t'.Valid) (hplain : t.Plain)
    (hplain' : t'.Plain) : Text.bytes t.isoText < Text.bytes t'.isoText ↔
      t.seconds < t'.seconds ∨ t.seconds = t'.seconds ∧ t.nanosecond < t'.nanosecond := by
  have hascii : ∀ u : DateTime, ∀ c ∈ u.fields 'T' u.fraction, c.toNat < 128 := fun u =>
    u.toNat_lt_of_mem_fields (by decide)
      (List.forall_mem_cons.2 ⟨by decide, Text.toNat_lt_of_mem_padded⟩)
  have hfraction : t.fraction < t'.fraction ↔ t.nanosecond < t'.nanosecond := by
    have hpadded := Text.padded_append_lt_iff (by decide) hplain.nanosecond_lt
      hplain'.nanosecond_lt [] []
    have hnil : ¬ ([] : List Char) < [] := List.not_lt_nil _
    simp only [hnil, and_false, or_false, List.append_nil] at hpadded
    rw [fraction, fraction, List.cons_lt_cons_self, hpadded]
  rw [hplain.isoText_eq, hplain'.isoText_eq, Text.bytes_lt_iff (hascii t) (hascii t'),
    fields_lt_iff h h' hplain hplain', hfraction]

/-- **The full text tells times apart.** Nothing of a time is lost in it, while the text that is
bound is the same within a second. -/
theorem isoText_inj (h : t.Valid) (h' : t'.Valid) (hplain : t.Plain) (hplain' : t'.Plain) :
    t.isoText = t'.isoText ↔ t = t' := by
  refine ⟨fun heq => ?_, congrArg isoText⟩
  have hlt := bytes_isoText_lt_iff h h' hplain hplain'
  have hgt := bytes_isoText_lt_iff h' h hplain' hplain
  rw [heq, iff_false_left (List.lt_irrefl _)] at hlt hgt
  obtain ⟨hdate, hhour, hminute, hsecond⟩ := (seconds_inj h h').1 (by omega)
  have hnanosecond : t.nanosecond = t'.nanosecond := by omega
  cases t
  cases t'
  rw [mk.injEq]
  exact ⟨hdate, hhour, hminute, hsecond, hnanosecond⟩

end DateTime

/-! ## Moments -/

/-- A time that a caller hands in. -/
inductive Moment
  /-- A time without a zone. -/
  | naive (t : DateTime)
  /-- A local time that is ahead of universal time by some seconds. -/
  | zoned (t : DateTime) (offset : Int)

namespace Moment

/-- What the clock shows. -/
def clock : Moment → DateTime
  | naive t => t
  | zoned t _ => t

/-- By how many seconds the clock is ahead. -/
def offset : Moment → Int
  | naive _ => 0
  | zoned _ offset => offset

/-- The time that becomes the value of a moment. -/
def universal : Moment → DateTime
  | naive t => t
  | zoned t offset => t.atOffset offset

/-- The point in time, in nanoseconds from the beginning of the year zero. -/
def instant (m : Moment) : Int :=
  (m.clock.seconds - m.offset) * 10 ^ 9 + m.clock.nanosecond

/-- A moment that the calendar has, not in a leap second, in one of the years of four digits of
universal time. -/
structure Proper (m : Moment) : Prop where
  valid : m.clock.Valid
  nanosecond_lt : m.clock.nanosecond < 10 ^ 9
  year_nonneg : 0 ≤ m.universal.date.year
  year_le : m.universal.date.year ≤ 9999

variable {m m' : Moment}

theorem Proper.universal_spec (h : m.Proper) :
    m.universal.Valid ∧ m.universal.Plain ∧ m.universal.seconds = m.instant / 10 ^ 9 := by
  have hplain : m.universal.Plain := by
    refine ⟨?_, h.year_nonneg, h.year_le⟩
    have hnanosecond := h.nanosecond_lt
    cases m <;> exact hnanosecond
  have hspec : m.universal.Valid ∧ m.universal.seconds = m.clock.seconds - m.offset := by
    cases m with
    | naive t => exact ⟨h.valid, (Int.sub_zero _).symm⟩
    | zoned t offset => exact DateTime.atOffset_spec h.valid offset
  have hnanosecond := h.nanosecond_lt
  refine ⟨hspec.1, hplain, ?_⟩
  rw [hspec.2, instant]
  omega

/-- **Texts of dates are in the order of time.** The texts that are bound for two moments have
nineteen characters, and compare byte for byte as the points in time do, to the second. So the same
second has the same text at all offsets. -/
theorem texts_in_order (h : m.Proper) (h' : m'.Proper) :
    ∃ s s' : String, (toValue m.universal).bind = .ok (.text s) ∧
      (toValue m'.universal).bind = .ok (.text s') ∧ s.length = 19 ∧ s'.length = 19 ∧
      (Text.bytes s ≤ Text.bytes s' ↔ m.instant / 10 ^ 9 ≤ m'.instant / 10 ^ 9) ∧
      (m.instant / 10 ^ 9 = m'.instant / 10 ^ 9 → s = s') := by
  obtain ⟨hvalid, hplain, hseconds⟩ := h.universal_spec
  obtain ⟨hvalid', hplain', hseconds'⟩ := h'.universal_spec
  rw [← hseconds, ← hseconds']
  refine ⟨m.universal.text, m'.universal.text, rfl, rfl, ?_, ?_, ?_,
    DateTime.text_eq_of_seconds_eq hvalid hvalid' hplain hplain'⟩
  · rw [hplain.text_eq, String.length_ofList, DateTime.length_fields hvalid hplain]
  · rw [hplain'.text_eq, String.length_ofList, DateTime.length_fields hvalid' hplain']
  · rw [← List.not_lt, ← Int.not_lt, DateTime.bytes_text_lt_iff hvalid' hvalid hplain' hplain]

/-- Half past midnight on the first of March, an hour ahead of universal time, and half past six
in the evening before, on a leap day five hours behind. -/
theorem texts_in_order_across_leap_day :
    let m := zoned ⟨⟨2024, 3, 1⟩, 0, 30, 0, 0⟩ 3600
    let m' := zoned ⟨⟨2024, 2, 29⟩, 18, 30, 0, 500000000⟩ (-18000)
    m.Proper ∧ m'.Proper ∧
      (toValue m.universal).bind = .ok (.text "2024-02-29 23:30:00") ∧
      (toValue m'.universal).bind = .ok (.text "2024-02-29 23:30:00") := by
  intro m m'
  have h : m.Proper :=
    ⟨⟨by decide, by decide, by decide, by decide⟩, by decide, by decide, by decide⟩
  have h' : m'.Proper :=
    ⟨⟨by decide, by decide, by decide, by decide⟩, by decide, by decide, by decide⟩
  have htext : (toValue m.universal).bind = .ok (.text "2024-02-29 23:30:00") := by decide +kernel
  obtain ⟨s, s', hs, hs', -, -, -, hsame⟩ := texts_in_order h h'
  rw [htext, Except.ok.injEq, Binding.text.injEq] at hs
  rw [← hsame (by decide), ← hs] at hs'
  exact ⟨h, h', htext, hs'⟩

end Moment

end BoundSql
