/-
What literals denote. A decimal stands as the numeral of its exact value, whole ones within a cast; quoted
text ends at its own closing quote whatever follows, and gives the text back; bytes and identifiers are read
back from their hexadecimal digits.
-/
import RelSql.Data.Literal
import RelSql.Proofs.Number.DecimalText

namespace RelSql

open Digits

/-! ## Decimals -/

namespace Numeral

/-- The number that a numeral denotes. -/
def value (n : Numeral) : ℚ :=
  (if n.sign = some '-' then -1 else 1) *
    (Digits.value n.whole + Digits.value (n.fraction.getD []) / 10 ^ (n.fraction.getD []).length)

theorem value_eq (n : Numeral) : n.value = n.decimal.mantissa / 10 ^ n.decimal.scale := by
  have hdigits : (Digits.value n.digits : ℚ) / 10 ^ (n.fraction.getD []).length =
      Digits.value n.whole + Digits.value (n.fraction.getD []) / 10 ^ (n.fraction.getD []).length := by
    rw [digits, Digits.value_append]
    push_cast
    field_simp
  unfold value decimal
  rw [← hdigits]
  split <;> push_cast <;> ring

theorem point_mem_chars (n : Numeral) : '.' ∈ n.chars ↔ n.fraction.isSome = true := by
  have hwhole : '.' ∉ n.whole := fun h => by
    simpa using n.isDigit '.' (List.mem_append_left _ h)
  have hsign : '.' ∉ n.sign.toList := fun h => by
    rcases n.sign_cases '.' (Option.mem_toList.1 h) with h | h <;> cases h
  unfold chars body
  cases n.fraction <;> simp [hwhole, hsign]

end Numeral

theorem Literal.ofDecimal_eq (d : Decimal) : ofDecimal d =
    if d.scale = 0 ∧ d.mantissa.natAbs < 10 ^ 19 then
      "CAST(" ++ d.toText ++ " AS DECIMAL(" ++
        ofNat (max (decimal d.mantissa.natAbs).length Facets.defaultPrecision) ++ "))"
    else d.toText := by
  have hlimit : castLimit ≤ (decimal d.mantissa.natAbs).length ↔ ¬ d.mantissa.natAbs < 10 ^ 19 := by
    rw [← Nat.length_toDigits_le_iff (b := 10) (by decide) (by decide)]
    exact Nat.not_le.symm
  unfold ofDecimal
  generalize 10 ^ 19 = bound at hlimit ⊢
  by_cases hscale : d.scale = 0 <;> by_cases hlow : d.mantissa.natAbs < bound <;> simp [hscale, hlow, hlimit]

/-- The literal of a decimal is a numeral of its value, with as many digits behind the point as the scale says and at
least one before it. It stands within a cast, to a precision that holds its digits, exactly when it is whole and below
`10 ^ 19` in magnitude. -/
theorem literal_decimal_exact (d : Decimal) : ∃ (text : String) (n : Numeral),
    (Constant.decimal d).literal = .ok text ∧ n.value = d.mantissa / 10 ^ d.scale ∧
      n.fraction.map List.length = (if d.scale = 0 then none else some d.scale) ∧ n.whole ≠ [] ∧
      ('.' ∈ text.toList ↔ 0 < d.scale) ∧
      if d.scale = 0 ∧ d.mantissa.natAbs < 10 ^ 19 then
        ∃ precision, n.digits.length ≤ precision ∧
          text = "CAST(" ++ String.ofList n.chars ++ " AS DECIMAL(" ++ Digits.ofNat precision ++ "))"
      else text = String.ofList n.chars := by
  have htext : d.toText = String.ofList d.numeral.chars := by rw [Decimal.toText, Decimal.chars_numeral]
  have hlength : d.numeral.digits.length = max (d.scale + 1) (Digits.decimal d.mantissa.natAbs).length := by
    rw [← Digits.length_padLeft]
    exact congrArg List.length d.take_append_fraction
  have hpoint : '.' ∈ d.numeral.chars ↔ 0 < d.scale := by
    rw [Numeral.point_mem_chars]
    change d.fraction?.isSome = true ↔ _
    unfold Decimal.fraction?
    split <;> simp <;> omega
  refine ⟨_, d.numeral, rfl, ?_, ?_, ?_, ?_⟩
  · rw [Numeral.value_eq, Decimal.decimal_numeral]
  · have := d.length_fraction
    change d.fraction?.map List.length = _
    unfold Decimal.fraction? at this ⊢
    split <;> simp_all
  · have := d.length_digits
    change d.digits.take _ ≠ []
    rw [Ne, List.take_eq_nil_iff]
    rintro (h | h)
    · omega
    · simp [h] at this
  · rw [Literal.ofDecimal_eq, htext]
    split
    · rename_i hcast
      have hdigits : ∀ n, '.' ∉ (Digits.ofNat n).toList := fun n h => by
        have := Digits.isDigit_decimal (by simpa [Digits.ofNat] using h)
        simp at this
      refine ⟨?_, _, ?_, rfl⟩
      · simp [String.toList_append, hpoint, hdigits]
      · have : 0 < (Digits.decimal d.mantissa.natAbs).length := Nat.length_toDigits_pos
        omega
    · exact ⟨by rw [String.toList_ofList]; exact hpoint, rfl⟩

/-! ## Quoted text -/

namespace Quoted

/-- Reads on to the closing quote: two quotes stand for one, and a single one closes. Gives the text and what follows it. -/
def readOn : List Char → Option (List Char × List Char)
  | [] => none
  | '\'' :: '\'' :: rest => (readOn rest).map (Prod.map ('\'' :: ·) id)
  | '\'' :: rest => some ([], rest)
  | c :: rest => (readOn rest).map (Prod.map (c :: ·) id)

/-- Reads a quoted text from its opening quote. -/
def read? : List Char → Option (List Char × List Char)
  | '\'' :: rest => readOn rest
  | _ => none

theorem readOn_escape {rest : List Char} (h : rest.head? ≠ some '\'') (s : List Char) :
    readOn (escape s ++ '\'' :: rest) = some (s, rest) := by
  fun_induction escape s with
  | case1 =>
    change readOn ('\'' :: rest) = _
    unfold readOn
    split <;> grind
  | case2 s ih => simp [readOn, ih]
  | case3 c s hc ih =>
    rw [List.cons_append]
    unfold readOn
    split <;> grind

end Quoted

/-! ## Bytes -/

namespace Digits

theorem unhex_hex (bytes : List UInt8) : unhex? (hex true bytes) = some bytes := by
  have hdigit : ∀ n : Fin 16, hexValue? (hexDigit true n) = some n.val := by decide
  induction bytes with
  | nil => rfl
  | cons b bytes ih =>
    have hhigh := hdigit ⟨b.toNat / 16, by have := b.toNat_lt; omega⟩
    have hlow := hdigit ⟨b.toNat % 16, by omega⟩
    change unhex? (hexDigit true (b.toNat / 16) :: hexDigit true (b.toNat % 16) :: hex true bytes) = _
    rw [unhex?, hhigh, hlow, ih]
    change some (UInt8.ofNat (16 * (b.toNat / 16) + b.toNat % 16) :: bytes) = _
    rw [Nat.div_add_mod, UInt8.ofNat_toNat]

end Digits

namespace Guid

/-- The bytes of an identifier from their stored order: the first three groups are turned around again. -/
def ofStored (bytes : List UInt8) : List UInt8 :=
  (bytes.take 4).reverse ++ ((bytes.drop 4).take 2).reverse ++ ((bytes.drop 6).take 2).reverse ++ bytes.drop 8

theorem ofStored_storedOrder (g : Guid) : ofStored g.storedOrder = g.toList := by
  have hlength : 8 ≤ g.toList.length := by simp
  change ofStored (ofStored g.toList) = g.toList
  generalize g.toList = bytes at hlength
  rcases bytes with _ | ⟨_, _ | ⟨_, _ | ⟨_, _ | ⟨_, _ | ⟨_, _ | ⟨_, _ | ⟨_, _ | ⟨_, _⟩⟩⟩⟩⟩⟩⟩⟩
  on_goal 9 => rfl
  all_goals simp at hlength

end Guid

/-- Literals give back what they stand for: quoted text whatever follows it but another quote, and bytes and
identifiers by their hexadecimal digits. -/
theorem literal_reads_back :
    (∀ s rest : String, rest.toList.head? ≠ some '\'' → ∃ text, (Constant.string s).literal = .ok text ∧
        Quoted.read? (text ++ rest).toList = some (s.toList, rest.toList)) ∧
      (∀ bytes, ∃ digits, (Constant.binary bytes).literal = .ok ("X'" ++ String.ofList digits ++ "'") ∧
        Digits.unhex? digits = some bytes) ∧
      ∀ g : Guid, ∃ digits bytes, (Constant.guid g).literal = .ok ("X'" ++ String.ofList digits ++ "'") ∧
        Digits.unhex? digits = some bytes ∧ Guid.ofStored bytes = g.toList := by
  refine ⟨fun s rest hrest => ⟨_, rfl, ?_⟩, fun bytes => ⟨_, rfl, Digits.unhex_hex bytes⟩,
    fun g => ⟨_, _, rfl, Digits.unhex_hex _, g.ofStored_storedOrder⟩⟩
  have htext : (Quoted.quote s ++ rest).toList = '\'' :: (Quoted.escape s.toList ++ '\'' :: rest.toList) := by
    simp [Quoted.quote]
  rw [htext]
  exact Quoted.readOn_escape hrest s.toList

/-- Quotes at both ends and in a row, with the end of a statement behind them. -/
theorem literal_reads_back_quotes : "; --".toList.head? ≠ some '\'' ∧ ∃ text, (Constant.string "'a''").literal = .ok text ∧
    Quoted.read? (text ++ "; --").toList = some ("'a''".toList, "; --".toList) :=
  ⟨by decide, literal_reads_back.1 "'a''" "; --" (by decide)⟩

end RelSql
