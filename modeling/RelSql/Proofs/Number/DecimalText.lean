/-
Decimal text. A numeral is a sign, digits and perhaps a point among them, and reading takes these apart:
text denotes a decimal exactly when it is a numeral between blanks, and the decimal has its digits for
mantissa and those behind the point for scale. What is written for a decimal is such a numeral, with
zeros in front that count for nothing. Only the magnitude may be too great: text denotes mantissas of up
to `maxMagnitude` on either side of zero, and the lowest number of 128 bits lies one below.
-/
import RelSql.Number.Decimal
import Mathlib.Data.List.TakeWhile
import Mathlib.Tactic

namespace RelSql

open Digits List

/-! ## Digits -/

namespace Digits

theorem value_decimal (n : Nat) : value (decimal n) = n := Nat.ofDigitChars_toDigits (by decide) (by decide)

theorem value_append (ds es : List Char) : value (ds ++ es) = value ds * 10 ^ es.length + value es := by
  change Nat.ofDigitChars 10 (ds ++ es) 0 = Nat.ofDigitChars 10 ds 0 * 10 ^ es.length + Nat.ofDigitChars 10 es 0
  rw [Nat.ofDigitChars_append, Nat.ofDigitChars_eq_ofDigitChars_zero, mul_comm]

/-- Zeros in front do not count. -/
theorem value_padLeft (width : Nat) (ds : List Char) : value (padLeft width ds) = value ds := by
  have hzeros : ∀ k, value (replicate k '0') = 0 := by
    intro k
    induction k with
    | zero => rfl
    | succ k ih => rw [replicate_succ', value_append, ih]; rfl
  rw [padLeft, value_append, hzeros, zero_mul, zero_add]

theorem isDigit_padLeft {width n : Nat} {c : Char} (h : c ∈ padLeft width (decimal n)) : c.isDigit = true := by
  rcases mem_append.1 h with h | h
  · rw [eq_of_mem_replicate h]; rfl
  · exact isDigit_decimal h

/-- A digit is no blank, no sign and no point. -/
theorem apart_of_isDigit {c : Char} (h : c.isDigit = true) :
    Blank.isBlank c = false ∧ c ≠ '-' ∧ c ≠ '+' ∧ c ≠ '.' := by
  have hrange : 48 ≤ c.toNat ∧ c.toNat ≤ 57 := by
    simp only [Char.isDigit, ge_iff_le, Bool.and_eq_true, decide_eq_true_eq, UInt32.le_iff_toNat_le] at h
    exact h
  refine ⟨?_, ?_, ?_, ?_⟩
  · unfold Blank.isBlank
    generalize c.toNat = n at hrange
    obtain ⟨hlow, hhigh⟩ := hrange
    interval_cases n <;> rfl
  all_goals rintro rfl; revert h; decide

end Digits

/-! ## Blanks at both ends -/

namespace Blank

/-- What is trimmed off are blanks. -/
theorem exists_trim (cs : List Char) :
    ∃ left right, cs = left ++ trim cs ++ right ∧ ∀ c ∈ left ++ right, isBlank c = true := by
  refine ⟨cs.takeWhile isBlank, ((trimLeft cs).reverse.takeWhile isBlank).reverse, ?_, ?_⟩
  · rw [append_assoc, trim, trimRight, ← reverse_append, takeWhile_append_dropWhile,
      reverse_reverse, trimLeft, takeWhile_append_dropWhile]
  · intro c hc
    rcases mem_append.1 hc with hc | hc
    · exact mem_takeWhile_imp hc
    · exact mem_takeWhile_imp (mem_reverse.1 hc)

/-- Trimming ends at what is no blank. -/
theorem trim_between {left cs right : List Char} (hblank : ∀ c ∈ left ++ right, isBlank c = true)
    (h : ∀ c ∈ cs, isBlank c = false) (hne : cs ≠ []) : trim (left ++ cs ++ right) = cs := by
  have hdrop : ∀ {l m r : List Char}, (∀ c ∈ l, isBlank c = true) → (∀ c ∈ m, isBlank c = false) → m ≠ [] →
      (l ++ (m ++ r)).dropWhile isBlank = m ++ r := by
    intro l m r hl hm hne
    obtain ⟨c, m, rfl⟩ := exists_cons_of_ne_nil hne
    rw [dropWhile_append_of_pos hl, cons_append, dropWhile_cons, hm c mem_cons_self]
    rfl
  have hleft : ∀ c ∈ left, isBlank c = true := fun c hc => hblank c (mem_append_left _ hc)
  have hright : ∀ c ∈ right.reverse, isBlank c = true :=
    fun c hc => hblank c (mem_append_right _ (mem_reverse.1 hc))
  have hreverse : ∀ c ∈ cs.reverse, isBlank c = false := fun c hc => h c (mem_reverse.1 hc)
  have htrim := hdrop (r := []) hright hreverse (by simpa using hne)
  rw [append_nil, ← reverse_append] at htrim
  rw [trim, trimLeft, append_assoc, hdrop hleft h hne, trimRight, htrim, reverse_reverse]

end Blank

/-! ## Numerals -/

/-- A number as text shows it: perhaps a sign, then digits, with further ones behind a point if there is one. -/
structure Numeral where
  sign : Option Char
  whole : List Char
  fraction : Option (List Char)
  sign_cases : ∀ c ∈ sign, c = '-' ∨ c = '+'
  isDigit : ∀ c ∈ whole ++ fraction.getD [], c.isDigit = true
  ne_nil : whole ++ fraction.getD [] ≠ []

namespace Numeral

def digits (n : Numeral) : List Char := n.whole ++ n.fraction.getD []

def body (n : Numeral) : List Char := n.whole ++ n.fraction.elim [] ('.' :: ·)

def chars (n : Numeral) : List Char := n.sign.toList ++ n.body

/-- The decimal with all digits of the numeral. -/
def decimal (n : Numeral) : Decimal where
  mantissa := if n.sign = some '-' then -(value n.digits : Int) else value n.digits
  scale := (n.fraction.getD []).length

/-- The text is the numeral with blanks around it. -/
def Spells (n : Numeral) (text : List Char) : Prop :=
  ∃ left right, text = left ++ n.chars ++ right ∧ ∀ c ∈ left ++ right, Blank.isBlank c = true

theorem mem_body {n : Numeral} {c : Char} (h : c ∈ n.body) : c = '.' ∨ c.isDigit = true := by
  have hdigit := n.isDigit c
  unfold body at h
  cases hf : n.fraction <;> simp_all
  tauto

theorem body_ne_nil (n : Numeral) : n.body ≠ [] := by
  have := n.ne_nil
  unfold body
  cases hf : n.fraction <;> simp_all

end Numeral

namespace Decimal

/-- The sign of text, if it has one, and what follows. -/
theorem exists_sign (cs : List Char) :
    ∃ sign : Option Char, cs = sign.toList ++ (splitSign cs).2 ∧ ∀ c ∈ sign, c = '-' ∨ c = '+' := by
  unfold splitSign
  split
  · exact ⟨some '-', rfl, by simp⟩
  · exact ⟨some '+', rfl, by simp⟩
  · exact ⟨none, rfl, by simp⟩

theorem splitSign_chars (n : Numeral) : splitSign n.chars = (decide (n.sign = some '-'), n.body) := by
  have hsign := n.sign_cases
  unfold Numeral.chars
  cases hs : n.sign with
  | some c =>
    rcases hsign c hs with rfl | rfl <;> rfl
  | none =>
    change splitSign n.body = (false, n.body)
    unfold splitSign
    split
    · rename_i hb
      have := n.mem_body (c := '-') (by rw [hb]; exact mem_cons_self)
      simp at this
    · rename_i hb
      have := n.mem_body (c := '+') (by rw [hb]; exact mem_cons_self)
      simp at this
    · rfl

/-- What stands before and behind the point, if there is one. -/
theorem exists_fraction (cs : List Char) : ∃ fraction : Option (List Char),
    cs = (splitPoint cs).1 ++ fraction.elim [] ('.' :: ·) ∧ fraction.getD [] = (splitPoint cs).2 := by
  unfold splitPoint
  have hcs := takeWhile_append_dropWhile (p := (· != '.')) (l := cs)
  cases hd : cs.dropWhile (· != '.') with
  | nil => exact ⟨none, by rw [hd] at hcs; exact hcs.symm, rfl⟩
  | cons c rest =>
    have hc : c = '.' := by
      have := dropWhile_get_zero_not (· != '.') cs (by rw [hd]; simp)
      simpa [hd] using this
    subst hc
    exact ⟨some rest, by rw [hd] at hcs; exact hcs.symm, rfl⟩

theorem splitPoint_body (n : Numeral) : splitPoint n.body = (n.whole, n.fraction.getD []) := by
  have hall : ∀ c ∈ n.whole, (c != '.') = true := fun c hc => by
    simpa using (apart_of_isDigit (n.isDigit c (mem_append_left _ hc))).2.2.2
  unfold splitPoint Numeral.body
  rw [takeWhile_append_of_pos hall, dropWhile_append_of_pos hall]
  cases n.fraction <;> simp

/-! ## Reading -/

/-- A numeral between blanks is read as its decimal, unless that is too great. -/
theorem parse_of_spells {n : Numeral} {text : String} (h : n.Spells text.toList) :
    parse text = if value n.digits ≤ maxMagnitude then some n.decimal else none := by
  obtain ⟨left, right, htext, hblank⟩ := h
  have hchars : ∀ c ∈ n.chars, Blank.isBlank c = false := by
    intro c hc
    rcases mem_append.1 hc with hc | hc
    · rcases n.sign_cases c (Option.mem_toList.1 hc) with rfl | rfl <;> rfl
    · rcases n.mem_body hc with rfl | hc
      · rfl
      · exact (apart_of_isDigit hc).1
  have htrim : Blank.trim text.toList = n.chars := by
    rw [htext]
    exact Blank.trim_between hblank hchars (by simp [Numeral.chars, n.body_ne_nil])
  have hempty : n.digits.isEmpty = false := isEmpty_eq_false_iff.2 n.ne_nil
  have hall : n.digits.all Char.isDigit = true := all_eq_true.2 n.isDigit
  unfold parse
  rw [htrim, splitSign_chars]
  dsimp only
  rw [splitPoint_body]
  change (if n.digits.isEmpty || !n.digits.all Char.isDigit then none else _) = _
  rw [hempty, hall]
  by_cases hs : n.sign = some '-' <;> simp [Numeral.decimal, Numeral.digits, hs]

/-- Only numerals are read. -/
theorem spells_of_parse {text : String} {d : Decimal} (h : parse text = some d) :
    ∃ n : Numeral, n.Spells text.toList := by
  obtain ⟨left, right, htext, hblank⟩ := Blank.exists_trim text.toList
  unfold parse at h
  obtain ⟨sign, hsign, hcases⟩ := exists_sign (Blank.trim text.toList)
  obtain ⟨fraction, hpoint, hfraction⟩ := exists_fraction (splitSign (Blank.trim text.toList)).2
  dsimp only at h
  split at h
  · cases h
  · rename_i hdigits
    rw [← hfraction] at hdigits
    simp only [Bool.or_eq_true, Bool.not_eq_true', not_or, Bool.not_eq_true, Bool.not_eq_false,
      isEmpty_eq_false_iff, all_eq_true] at hdigits
    refine ⟨⟨sign, _, fraction, hcases, hdigits.2, hdigits.1⟩, left, right, ?_, hblank⟩
    rw [Numeral.chars, Numeral.body, ← hpoint, ← hsign]
    exact htext

/-- Text denotes a decimal exactly when it is a numeral between blanks whose digits denote a number of at
most 127 bits; the digits are the mantissa, negated behind a minus, and those behind the point the scale. -/
theorem parse_eq_some_iff_spells (text : String) :
    (∀ d, parse text = some d ↔ ∃ n : Numeral, n.Spells text.toList ∧ Digits.value n.digits ≤ 2 ^ 127 - 1 ∧ d = n.decimal) ∧
      (parse text = none ↔ ∀ n : Numeral, n.Spells text.toList → 2 ^ 127 - 1 < Digits.value n.digits) := by
  have hmax : maxMagnitude = 2 ^ 127 - 1 := rfl
  constructor
  · intro d
    constructor
    · intro h
      obtain ⟨n, hn⟩ := spells_of_parse h
      rw [parse_of_spells hn] at h
      split at h
      · rename_i hle
        exact ⟨n, hn, hmax ▸ hle, (Option.some.inj h).symm⟩
      · cases h
    · rintro ⟨n, hn, hle, rfl⟩
      rw [parse_of_spells hn, if_pos (hmax ▸ hle)]
  · constructor
    · intro h n hn
      rw [parse_of_spells hn] at h
      split at h
      · cases h
      · rename_i hgt
        exact not_le.1 (hmax ▸ hgt)
    · intro h
      cases hp : parse text with
      | none => rfl
      | some d =>
        obtain ⟨n, hn⟩ := spells_of_parse hp
        rw [parse_of_spells hn, if_neg (not_le.2 (hmax ▸ h n hn))] at hp
        cases hp

/-! ## Writing -/

/-- The digits that are written for a decimal: with zeros in front, one of them stands before the point. -/
def digits (d : Decimal) : List Char := padLeft (d.scale + 1) (decimal d.mantissa.natAbs)

theorem length_digits (d : Decimal) : d.scale + 1 ≤ d.digits.length := by
  rw [digits, length_padLeft]
  exact le_max_left _ _

/-- The digits behind the point, if there is one. -/
def fraction? (d : Decimal) : Option (List Char) :=
  if d.scale = 0 then none else some (d.digits.drop (d.digits.length - d.scale))

theorem take_append_fraction (d : Decimal) :
    d.digits.take (d.digits.length - d.scale) ++ d.fraction?.getD [] = d.digits := by
  unfold fraction?
  split <;> simp_all

theorem length_fraction (d : Decimal) : (d.fraction?.getD []).length = d.scale := by
  have := d.length_digits
  unfold fraction?
  split
  · simp_all
  · rw [Option.getD_some, length_drop]
    omega

/-- The numeral that is written for a decimal. -/
def numeral (d : Decimal) : Numeral where
  sign := if d.mantissa < 0 then some '-' else none
  whole := d.digits.take (d.digits.length - d.scale)
  fraction := d.fraction?
  sign_cases := by split <;> simp
  isDigit := by rw [take_append_fraction]; exact fun c hc => isDigit_padLeft hc
  ne_nil := by rw [take_append_fraction]; exact ne_nil_of_length_pos (by have := d.length_digits; omega)

theorem value_numeral (d : Decimal) : value d.numeral.digits = d.mantissa.natAbs := by
  change value (d.digits.take (d.digits.length - d.scale) ++ d.fraction?.getD []) = _
  rw [take_append_fraction, digits, value_padLeft, value_decimal]

theorem decimal_numeral (d : Decimal) : d.numeral.decimal = d := by
  have hsign : d.numeral.sign = some '-' ↔ d.mantissa < 0 := by
    change (if d.mantissa < 0 then some '-' else none) = some '-' ↔ _
    split <;> simp_all
  have hmantissa : (if d.mantissa < 0 then -(d.mantissa.natAbs : Int) else d.mantissa.natAbs) = d.mantissa := by
    split <;> omega
  unfold Numeral.decimal
  simp only [value_numeral, hsign, hmantissa]
  exact congrArg (mk _) d.length_fraction

theorem chars_numeral (d : Decimal) : d.numeral.chars = d.chars := by
  have hbody : d.numeral.body = pointed d.scale d.mantissa.natAbs := by
    change d.digits.take (d.digits.length - d.scale) ++ d.fraction?.elim [] ('.' :: ·) = _
    unfold fraction? pointed
    split
    · rename_i hscale
      have : 0 < (decimal d.mantissa.natAbs).length := Nat.length_toDigits_pos
      have hpad : 1 - (decimal d.mantissa.natAbs).length = 0 := by omega
      simp [digits, hscale, padLeft, hpad]
    · rfl
  change (if d.mantissa < 0 then some '-' else none).toList ++ d.numeral.body = _
  rw [hbody, chars]
  split <;> rfl

/-- The text of a decimal denotes it, unless its magnitude is too great. -/
theorem parse_toText (d : Decimal) :
    parse d.toText = if d.mantissa.natAbs ≤ maxMagnitude then some d else none := by
  have hspells : d.numeral.Spells d.toText.toList :=
    ⟨[], [], by simp [toText, chars_numeral], by simp⟩
  rw [parse_of_spells hspells, decimal_numeral, value_numeral]

/-- A decimal with a mantissa of 128 bits is read back from its text, the lowest of them excepted. -/
theorem parse_toText_eq_some_iff {d : Decimal} (hlow : -2 ^ 127 ≤ d.mantissa) (hhigh : d.mantissa < 2 ^ 127) :
    parse d.toText = some d ↔ d.mantissa ≠ -2 ^ 127 := by
  have hbound : d.mantissa.natAbs ≤ maxMagnitude ↔ d.mantissa ≠ -2 ^ 127 := by
    change d.mantissa.natAbs ≤ 2 ^ 127 - 1 ↔ _
    omega
  rw [parse_toText, ← hbound]
  split <;> simp_all

/-- More digits behind the point than the mantissa has. -/
theorem parse_toText_lowest_but_one :
    -2 ^ 127 ≤ (-2 ^ 127 + 1 : Int) ∧ (-2 ^ 127 + 1 : Int) < 2 ^ 127 ∧
      parse (toText ⟨-2 ^ 127 + 1, 40⟩) = some ⟨-2 ^ 127 + 1, 40⟩ :=
  ⟨by decide, by decide, (parse_toText_eq_some_iff (by decide) (by decide)).2 (by decide)⟩

/-- The text of the lowest mantissa is read as no decimal, although it is one of 128 bits. -/
theorem parse_toText_lowest :
    toText ⟨-2 ^ 127, 0⟩ = "-170141183460469231731687303715884105728" ∧ parse (toText ⟨-2 ^ 127, 0⟩) = none := by
  refine ⟨by decide +kernel, ?_⟩
  rw [parse_toText]
  rfl

end Decimal

end RelSql
