/-
Literals of date-times sort as the date-times do. Every field of a literal has its own width, so that the first
field in which two literals differ decides between them, as it does between the date-times. A leap second is
written as second 60, which no other second is, and what is finer than a microsecond is cut off.
-/
import RelSql.Data.Literal
import RelSql.Proofs.Number.DecimalText
import Mathlib.Data.String.Basic

namespace RelSql

open Digits List

/-- Of lists with beginnings of one length, the beginnings are compared first. -/
theorem append_lt_append_iff {α : Type} [LT α] {a b c d : List α} (h : a.length = b.length) :
    a ++ c < b ++ d ↔ a < b ∨ a = b ∧ c < d := by
  induction a generalizing b with
  | nil =>
    obtain rfl : b = [] := eq_nil_of_length_eq_zero h.symm
    simp
  | cons x a ih =>
    obtain ⟨y, b, rfl⟩ : ∃ y b', b = y :: b' := exists_cons_of_length_eq_add_one h.symm
    rw [cons_append, cons_append, cons_lt_cons_iff, cons_lt_cons_iff, ih (Nat.succ.inj h),
      cons.injEq]
    tauto

theorem eq_iff_of_lt_iff {α β : Type} [LinearOrder α] [LinearOrder β] {a b : α} {c d : β} (h : a < b ↔ c < d)
    (h' : b < a ↔ d < c) : a = b ↔ c = d := by
  rw [← not_iff_not, ← Ne, ← Ne, ne_iff_lt_or_gt, ne_iff_lt_or_gt, h, h']

/-! ## Digits of one width -/

namespace Digits

theorem value_cons (c : Char) (ds : List Char) : value (c :: ds) = digitValue c * 10 ^ ds.length + value ds := by
  rw [← singleton_append, value_append]
  simp [value]

theorem toNat_of_isDigit {c : Char} (h : c.isDigit = true) : c.toNat = 48 + digitValue c ∧ digitValue c < 10 := by
  simp only [Char.isDigit, ge_iff_le, Bool.and_eq_true, decide_eq_true_eq, UInt32.le_iff_toNat_le] at h
  have hlow : 48 ≤ c.toNat := h.1
  have hhigh : c.toNat ≤ 57 := h.2
  change c.toNat = 48 + (c.toNat - 48) ∧ c.toNat - 48 < 10
  omega

theorem value_lt {ds : List Char} (h : ∀ c ∈ ds, c.isDigit = true) : value ds < 10 ^ ds.length := by
  induction ds with
  | nil => decide
  | cons c ds ih =>
    obtain ⟨hc, hds⟩ := forall_mem_cons.1 h
    have := (toNat_of_isDigit hc).2
    have := ih hds
    rw [value_cons, length_cons, pow_succ]
    nlinarith

/-- Digits of one length compare as the numbers do. -/
theorem lt_iff_value_lt {ds es : List Char} (hd : ∀ c ∈ ds, c.isDigit = true) (he : ∀ c ∈ es, c.isDigit = true)
    (hlength : ds.length = es.length) : ds < es ↔ value ds < value es := by
  induction ds generalizing es with
  | nil =>
    obtain rfl : es = [] := eq_nil_of_length_eq_zero hlength.symm
    simp
  | cons c ds ih =>
    obtain ⟨e, es, rfl⟩ : ∃ e es', es = e :: es' := exists_cons_of_length_eq_add_one hlength.symm
    obtain ⟨hc, hds⟩ := forall_mem_cons.1 hd
    obtain ⟨he, hes⟩ := forall_mem_cons.1 he
    have hlength : ds.length = es.length := Nat.succ.inj hlength
    have hlt : c < e ↔ digitValue c < digitValue e := by
      have := (toNat_of_isDigit hc).1
      have := (toNat_of_isDigit he).1
      rw [Char.lt_def, UInt32.lt_iff_toNat_lt]
      change c.toNat < e.toNat ↔ _
      omega
    have heq : c = e ↔ digitValue c = digitValue e := by
      have := (toNat_of_isDigit hc).1
      have := (toNat_of_isDigit he).1
      rw [← Char.toNat_inj]
      omega
    have hvd := value_lt hds
    have hve := value_lt hes
    rw [cons_lt_cons_iff, hlt, heq, ih hds hes hlength, value_cons, value_cons, ← hlength]
    rw [← hlength] at hve
    generalize 10 ^ ds.length = p at *
    rcases Nat.lt_trichotomy (digitValue c) (digitValue e) with h | h | h
    · have : (digitValue c + 1) * p ≤ digitValue e * p := Nat.mul_le_mul_right p h
      constructor
      · intro; linarith
      · intro; exact Or.inl h
    · rw [h]; simp
    · have : (digitValue e + 1) * p ≤ digitValue c * p := Nat.mul_le_mul_right p h
      constructor
      · rintro (h' | h') <;> omega
      · intro; linarith

/-- The number is written in the width, which is not zero. -/
def Fits (width n : Nat) : Prop := 0 < width ∧ n < 10 ^ width

theorem Fits.length {width n : Nat} (h : Fits width n) : (padLeft width (decimal n)).length = width := by
  rw [length_padLeft]
  exact max_eq_left ((Nat.length_toDigits_le_iff (by decide) h.1).2 h.2)

theorem Fits.lt_iff {width m n : Nat} (hm : Fits width m) (hn : Fits width n) :
    padLeft width (decimal m) < padLeft width (decimal n) ↔ m < n := by
  rw [lt_iff_value_lt (fun _ h => isDigit_padLeft h) (fun _ h => isDigit_padLeft h) (hm.length.trans hn.length.symm),
    value_padLeft, value_padLeft, value_decimal, value_decimal]

theorem padLeft_decimal_inj {width m n : Nat} : padLeft width (decimal m) = padLeft width (decimal n) ↔ m = n := by
  refine ⟨fun h => ?_, fun h => h ▸ rfl⟩
  simpa only [value_padLeft, value_decimal] using congrArg value h

/-- Numbers one behind the other, each in its width. -/
def row (widths ns : List Nat) : List Char := (zipWith (fun w n => padLeft w (decimal n)) widths ns).flatten

variable {ws ns ms : List Nat}

theorem length_row (hn : List.Forall₂ Fits ws ns) (hm : List.Forall₂ Fits ws ms) : (row ws ns).length = (row ws ms).length := by
  induction hn generalizing ms with
  | nil => cases hm; rfl
  | cons hn _ ih =>
    obtain ⟨m, ms, h, hms, rfl⟩ := forall₂_cons_left_iff.1 hm
    change (padLeft _ _ ++ row _ _).length = (padLeft _ _ ++ row _ _).length
    rw [length_append, length_append, hn.length, h.length, ih hms]

/-- Rows compare as their numbers do. -/
theorem row_lt_iff (hn : List.Forall₂ Fits ws ns) (hm : List.Forall₂ Fits ws ms) : row ws ns < row ws ms ↔ ns < ms := by
  induction hn generalizing ms with
  | nil => cases hm; simp [row]
  | cons hn _ ih =>
    obtain ⟨m, ms, h, hms, rfl⟩ := forall₂_cons_left_iff.1 hm
    change padLeft _ _ ++ row _ _ < padLeft _ _ ++ row _ _ ↔ _
    rw [append_lt_append_iff (hn.length.trans h.length.symm), hn.lt_iff h, padLeft_decimal_inj, ih hms,
      cons_lt_cons_iff]

end Digits

/-! ## Date-times -/

namespace Calendar.DateTime

/-- The fields keep the ranges of the calendar, in the years that have four digits. Only second 59 of a minute may be
followed by a leap second. -/
structure InRange (t : DateTime) : Prop where
  year : 0 ≤ t.date.year ∧ t.date.year ≤ 9999
  month : t.date.month ≤ 12
  day : t.date.day ≤ 31
  hour : t.time.hour ≤ 23
  minute : t.time.minute ≤ 59
  second : t.time.second ≤ 59
  nanos : t.time.nanos < 2 * nanosPerSecond
  leap : nanosPerSecond ≤ t.time.nanos → t.time.second = 59

/-- The fields from the year to the minute. -/
def minutes (t : DateTime) : List Nat :=
  [t.date.year.toNat, t.date.month, t.date.day, t.time.hour, t.time.minute]

/-- All fields, the greatest first: date-times follow one another as these do. -/
def fields (t : DateTime) : List Nat := t.minutes ++ [t.time.second, t.time.nanos]

/-- The date-time without what is finer than a microsecond. -/
def truncated (t : DateTime) : DateTime := { t with time.nanos := t.time.nanos / 1000 * 1000 }

variable {a b t : DateTime}

theorem minutes_append_lt_iff {xs ys : List Nat} :
    a.minutes ++ xs < b.minutes ++ ys ↔ a.minutes < b.minutes ∨ a.minutes = b.minutes ∧ xs < ys :=
  append_lt_append_iff rfl

theorem InRange.fits_minutes (h : t.InRange) : List.Forall₂ Digits.Fits [4, 2, 2, 2, 2] t.minutes := by
  obtain ⟨hyear, hmonth, hday, hhour, hminute, -, -, -⟩ := h
  simp only [minutes, Digits.Fits, forall₂_cons, List.Forall₂.nil, and_true]
  omega

theorem InRange.fits_second (h : t.InRange) : Digits.Fits 2 t.time.shownSecond := by
  have := h.second
  unfold Time.shownSecond Digits.Fits
  split <;> omega

theorem InRange.fits_micros (h : t.InRange) : Digits.Fits 6 (t.time.shownNanos / 1000) := by
  have := h.nanos
  unfold Time.shownNanos Digits.Fits nanosPerSecond at *
  split <;> omega

theorem InRange.toList_literal (h : t.InRange) : (Literal.ofDateTime t).toList =
    '\'' :: (row [4, 2, 2, 2, 2] t.minutes ++ (padLeft 2 (decimal t.time.shownSecond) ++
      '.' :: (padLeft 6 (decimal (t.time.shownNanos / 1000)) ++ "+000'".toList))) := by
  have hyear : t.date.year.toNat = t.date.year.natAbs := by have := h.year; omega
  unfold Literal.ofDateTime compact Date.compact Date.yearText Time.compact
  rw [if_pos h.year]
  simp [row, padded, minutes, hyear]

theorem InRange.length_literal (ha : a.InRange) (hb : b.InRange) :
    (Literal.ofDateTime a).length = (Literal.ofDateTime b).length := by
  rw [← String.length_toList, ← String.length_toList, ha.toList_literal, hb.toList_literal]
  simp [length_row ha.fits_minutes hb.fits_minutes, ha.fits_second.length, hb.fits_second.length,
    ha.fits_micros.length, hb.fits_micros.length]

/-- Second 60 is a leap second, and comes behind all of second 59. -/
theorem InRange.shown_lt_iff (ha : a.InRange) (hb : b.InRange) :
    (a.time.shownSecond < b.time.shownSecond ∨
        a.time.shownSecond = b.time.shownSecond ∧ a.time.shownNanos / 1000 < b.time.shownNanos / 1000) ↔
      [a.time.second, a.time.nanos / 1000 * 1000] < [b.time.second, b.time.nanos / 1000 * 1000] := by
  obtain ⟨-, -, -, -, -, hsa, hna, hla⟩ := ha
  obtain ⟨-, -, -, -, -, hsb, hnb, hlb⟩ := hb
  simp only [cons_lt_cons_iff, not_lt_nil, and_false, or_false]
  unfold Time.shownSecond Time.shownNanos nanosPerSecond at *
  split <;> split <;> omega

/-- Literals compare as what they show. -/
theorem InRange.literal_lt_iff (ha : a.InRange) (hb : b.InRange) :
    Literal.ofDateTime a < Literal.ofDateTime b ↔ a.truncated.fields < b.truncated.fields := by
  have hrow : row [4, 2, 2, 2, 2] a.minutes = row [4, 2, 2, 2, 2] b.minutes ↔ a.minutes = b.minutes :=
    eq_iff_of_lt_iff (row_lt_iff ha.fits_minutes hb.fits_minutes) (row_lt_iff hb.fits_minutes ha.fits_minutes)
  change _ ↔ a.minutes ++ [a.time.second, a.time.nanos / 1000 * 1000] <
    b.minutes ++ [b.time.second, b.time.nanos / 1000 * 1000]
  rw [minutes_append_lt_iff, ← ha.shown_lt_iff hb, String.lt_iff_toList_lt, ha.toList_literal, hb.toList_literal,
    cons_lt_cons_iff, append_lt_append_iff (length_row ha.fits_minutes hb.fits_minutes), hrow,
    row_lt_iff ha.fits_minutes hb.fits_minutes,
    append_lt_append_iff (ha.fits_second.length.trans hb.fits_second.length.symm), cons_lt_cons_iff,
    append_lt_append_iff (ha.fits_micros.length.trans hb.fits_micros.length.symm), ha.fits_second.lt_iff hb.fits_second,
    ha.fits_micros.lt_iff hb.fits_micros, padLeft_decimal_inj]
  simp only [lt_irrefl, false_or, true_and, and_false, or_false]

/-- Cutting off a fraction turns no two date-times around. -/
theorem fields_lt_of_truncated (h : a.truncated.fields < b.truncated.fields) : a.fields < b.fields := by
  change a.minutes ++ [a.time.second, a.time.nanos / 1000 * 1000] <
    b.minutes ++ [b.time.second, b.time.nanos / 1000 * 1000] at h
  unfold fields
  simp only [minutes_append_lt_iff, cons_lt_cons_iff, not_lt_nil, and_false, or_false] at h ⊢
  refine h.imp id (And.imp_right fun h => ?_)
  omega

theorem truncated_inj (ha : a.InRange) (hb : b.InRange) : a.truncated.fields = b.truncated.fields ↔ a.truncated = b.truncated := by
  refine ⟨fun h => ?_, fun h => h ▸ rfl⟩
  have hya := ha.year
  have hyb := hb.year
  obtain ⟨⟨year, month, day⟩, hour, minute, second, nanos⟩ := a
  obtain ⟨⟨year', month', day'⟩, hour', minute', second', nanos'⟩ := b
  simp only [fields, minutes, truncated, cons_append, nil_append, cons.injEq] at h ⊢
  simp_all
  omega

/-- Literals of date-times in the years from 0 to 9999 have one length, follow one another as the date-times do, and
are equal exactly when the date-times show the same microsecond. -/
theorem literal_dateTime_sorted (ha : a.InRange) (hb : b.InRange) : ∃ s t,
    (Constant.dateTime a).literal = .ok s ∧ (Constant.dateTime b).literal = .ok t ∧ s.length = t.length ∧
      (a.fields ≤ b.fields → s ≤ t) ∧ (s = t ↔ a.truncated = b.truncated) := by
  refine ⟨_, _, rfl, rfl, ha.length_literal hb, fun h => ?_, ?_⟩
  · refine not_lt.1 fun hlt => not_lt.2 h (fields_lt_of_truncated ((hb.literal_lt_iff ha).1 hlt))
  · rw [eq_iff_of_lt_iff (ha.literal_lt_iff hb) (hb.literal_lt_iff ha), truncated_inj ha hb]

/-- A leap second at the end of a year. -/
def leapSecond : DateTime := ⟨⟨2016, 12, 31⟩, ⟨23, 59, 59, 1500000999⟩⟩

/-- The leap second comes before the new year. -/
theorem leapSecond_sorted : leapSecond.InRange ∧ InRange ⟨⟨2017, 1, 1⟩, ⟨0, 0, 0, 0⟩⟩ ∧ ∃ s t,
    (Constant.dateTime leapSecond).literal = .ok s ∧ (Constant.dateTime ⟨⟨2017, 1, 1⟩, ⟨0, 0, 0, 0⟩⟩).literal = .ok t ∧
      s.length = t.length ∧ (leapSecond.fields ≤ fields ⟨⟨2017, 1, 1⟩, ⟨0, 0, 0, 0⟩⟩ → s ≤ t) ∧
      (s = t ↔ leapSecond.truncated = truncated ⟨⟨2017, 1, 1⟩, ⟨0, 0, 0, 0⟩⟩) :=
  have hleap : leapSecond.InRange := by constructor <;> decide
  have hnext : InRange ⟨⟨2017, 1, 1⟩, ⟨0, 0, 0, 0⟩⟩ := by constructor <;> decide
  ⟨hleap, hnext, literal_dateTime_sorted hleap hnext⟩

end Calendar.DateTime

end RelSql
