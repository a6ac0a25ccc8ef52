/-
Digits of natural numbers: decimal and hexadecimal text, padding with zeros, and the number that
a row of digits denotes.
-/
namespace RelSql.Digits

/-- The decimal digits of a number, without leading zeros; zero is one digit. -/
def decimal (n : Nat) : List Char := Nat.toDigits 10 n

/-- The decimal text of an integer, with a minus sign for a negative one. -/
def ofInt (i : Int) : String :=
  if i < 0 then String.ofList ('-' :: decimal i.natAbs) else String.ofList (decimal i.natAbs)

def ofNat (n : Nat) : String := String.ofList (decimal n)

/-- The digits with as many zeros in front as the width asks for. -/
def padLeft (width : Nat) (ds : List Char) : List Char :=
  List.replicate (width - ds.length) '0' ++ ds

/-- The decimal text of a number, at least `width` digits long. -/
def padded (width n : Nat) : String := String.ofList (padLeft width (decimal n))

def digitValue (c : Char) : Nat := c.toNat - '0'.toNat

/-- The number that a row of decimal digits denotes; an empty row denotes zero. -/
def value (ds : List Char) : Nat := ds.foldl (fun n c => 10 * n + digitValue c) 0

theorem isDigit_decimal {n : Nat} {c : Char} (h : c ∈ decimal n) : c.isDigit = true :=
  Nat.isDigit_of_mem_toDigits (by decide) (by decide) h

theorem length_padLeft (width : Nat) (ds : List Char) :
    (padLeft width ds).length = max width ds.length := by
  simp [padLeft]; omega

/-! ## Hexadecimal -/

def hexDigit (upper : Bool) (n : Nat) : Char :=
  if n < 10 then Char.ofNat ('0'.toNat + n)
  else Char.ofNat ((if upper then 'A' else 'a').toNat + (n - 10))

/-- The two hexadecimal digits of a byte. -/
def hexByte (upper : Bool) (b : UInt8) : List Char :=
  [hexDigit upper (b.toNat / 16), hexDigit upper (b.toNat % 16)]

def hex (upper : Bool) (bytes : List UInt8) : List Char := bytes.flatMap (hexByte upper)

/-- The value of a hexadecimal digit, in either case. -/
def hexValue? (c : Char) : Option Nat :=
  if '0' ≤ c && c ≤ '9' then some (c.toNat - '0'.toNat)
  else if 'a' ≤ c && c ≤ 'f' then some (c.toNat - 'a'.toNat + 10)
  else if 'A' ≤ c && c ≤ 'F' then some (c.toNat - 'A'.toNat + 10)
  else none

/-- The bytes that pairs of hexadecimal digits denote. -/
def unhex? : List Char → Option (List UInt8)
  | [] => some []
  | h :: l :: rest => do
    let hi ← hexValue? h
    let lo ← hexValue? l
    let bytes ← unhex? rest
    return UInt8.ofNat (16 * hi + lo) :: bytes
  | [_] => none

/-- The number that a row of hexadecimal digits denotes. -/
def hexNumber? (cs : List Char) : Option Nat :=
  cs.foldlM (fun n c => (hexValue? c).map (16 * n + ·)) 0

end RelSql.Digits
