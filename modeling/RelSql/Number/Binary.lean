/-
Binary floating-point numbers by their bits. A format gives the widths of the exponent and
fraction fields; a finite number is a sign and `mantissa * 2 ^ exponent`.
-/
namespace RelSql.Binary

/-- The widths of the fields below the sign bit. -/
structure Format where
  exponentBits : Nat
  fractionBits : Nat
deriving Repr, DecidableEq

namespace Format

def double : Format := ⟨11, 52⟩

def single : Format := ⟨8, 23⟩

/-- The exponent field of infinities and of what is no number. -/
def topExponent (f : Format) : Nat := Nat.pow 2 f.exponentBits - 1

/-- The power of two of the last fraction bit in the lowest binade. -/
def leastExponent (f : Format) : Int := 2 - (Nat.pow 2 (f.exponentBits - 1) : Nat) - f.fractionBits

/-- The nearest number with no more bits than a mantissa has, a tie to the even one. -/
def round (f : Format) (n : Nat) : Nat :=
  let unit := Nat.pow 2 (n.log2 - f.fractionBits)
  let below := n / unit
  let rest := 2 * (n % unit)
  (if rest > unit || (rest == unit && below % 2 == 1) then below + 1 else below) * unit

/-- The least number that rounds to infinity, half a place above the largest finite one. -/
def overflow (f : Format) : Nat :=
  let top := Nat.pow 2 (f.exponentBits - 1)
  Nat.pow 2 top - Nat.pow 2 (top - f.fractionBits - 2)

end Format

/-- The fields of a bit pattern. -/
structure Fields where
  negative : Bool
  exponent : Nat
  fraction : Nat
deriving Repr, DecidableEq

def Fields.ofBits (f : Format) (bits : Nat) : Fields where
  negative := (bits >>> (f.exponentBits + f.fractionBits)) % 2 == 1
  exponent := (bits >>> f.fractionBits) % Nat.pow 2 f.exponentBits
  fraction := bits % Nat.pow 2 f.fractionBits

/-- The magnitude `mantissa * 2 ^ exponent`. Below a number whose mantissa is the least of its
binade the next number is only half as far away as above it, which `narrowBelow` records. -/
structure Magnitude where
  mantissa : Nat
  exponent : Int
  narrowBelow : Bool
deriving Repr, DecidableEq

/-- What a bit pattern denotes. -/
inductive Number where
  | finite (negative : Bool) (magnitude : Magnitude)
  | infinite (negative : Bool)
  | undefined
deriving Repr, DecidableEq

def Number.ofBits (f : Format) (bits : Nat) : Number :=
  let fields := Fields.ofBits f bits
  if fields.exponent = f.topExponent then
    if fields.fraction = 0 then .infinite fields.negative else .undefined
  else if fields.exponent = 0 then
    .finite fields.negative ⟨fields.fraction, f.leastExponent, false⟩
  else
    .finite fields.negative
      ⟨Nat.pow 2 f.fractionBits + fields.fraction, f.leastExponent + (fields.exponent - 1 : Nat),
        fields.fraction == 0 && fields.exponent != 1⟩

/-- Numeric equality of two bit patterns: the zeros of both signs are equal, and what is no
number equals nothing. -/
def numEq (f : Format) (a b : Nat) : Bool :=
  match Number.ofBits f a, Number.ofBits f b with
  | .undefined, _ => false
  | _, .undefined => false
  | .finite na ma, .finite nb mb =>
    ma == mb && (na == nb || ma.mantissa == 0)
  | .infinite na, .infinite nb => na == nb
  | _, _ => false

end RelSql.Binary
