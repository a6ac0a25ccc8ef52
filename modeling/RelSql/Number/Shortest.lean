/-
The fewest decimal digits that read back as a given binary number. A magnitude stands for all
reals that round to it, an interval whose ends belong to it when the mantissa is even. For one
digit, two digits and so on, the two neighbours of the magnitude on that decimal grid are tried;
the first grid with a neighbour inside the interval gives the digits, the nearer neighbour first.
-/
import RelSql.Number.Binary
import RelSql.Text.Digits

namespace RelSql.Binary

/-- Which neighbour is taken when the magnitude lies exactly between two. -/
inductive Tie where
  | up
  | toEven
deriving Repr, DecidableEq

/-- The decimal `0.d₁d₂… * 10 ^ point`. -/
structure ShortDecimal where
  digits : List Char
  point : Int
deriving Repr, DecidableEq

namespace Magnitude

/-- The power of two that turns the interval of a magnitude into whole numbers. -/
def quarterExponent (m : Magnitude) : Int := m.exponent - 2

/-- A whole number `n * 2 ^ e` as a fraction. -/
def ratio (n : Nat) (e : Int) : Nat × Nat :=
  if e ≥ 0 then (n * Nat.pow 2 e.toNat, 1) else (n, Nat.pow 2 (-e).toNat)

/-- The magnitude and the ends of its interval, in quarters of its last place. -/
def centre (m : Magnitude) : Nat := 4 * m.mantissa

def lower (m : Magnitude) : Nat := if m.narrowBelow then m.centre - 1 else m.centre - 2

def upper (m : Magnitude) : Nat := m.centre + 2

/-- The decimal `n * 10 ^ e` rounds to the magnitude. -/
def admits (m : Magnitude) (n : Nat) (e : Int) : Bool :=
  let (qn, qd) := ratio 1 m.quarterExponent
  let (dn, dd) := if e ≥ 0 then (n * Nat.pow 10 e.toNat, 1) else (n, Nat.pow 10 (-e).toNat)
  -- n * 10 ^ e against k * (qn / qd), over the common denominator dd * qd
  let scaled := dn * qd
  let low := m.lower * qn * dd
  let high := m.upper * qn * dd
  if m.mantissa % 2 = 0 then decide (low ≤ scaled ∧ scaled ≤ high)
  else decide (low < scaled ∧ scaled < high)

/-- The place of the point: the magnitude lies between `10 ^ (p - 1)` and `10 ^ p`. -/
def point (m : Magnitude) : Int :=
  let (n, d) := ratio m.mantissa m.exponent
  let shift := (Digits.decimal d).length
  (Digits.decimal (n * Nat.pow 10 shift / d)).length - (shift : Int)

/-- The magnitude over a grid of step `10 ^ e`: the grid point below, and twice the remainder
compared with a step. -/
def onGrid (m : Magnitude) (e : Int) : Nat × Ordering :=
  let (n, d) := ratio m.mantissa m.exponent
  let (gn, gd) := if e ≥ 0 then (n, d * Nat.pow 10 e.toNat) else (n * Nat.pow 10 (-e).toNat, d)
  (gn / gd, compare (2 * (gn % gd)) gd)

/-- The grid point with `count` digits that reads back, if there is one. -/
def candidate? (tie : Tie) (m : Magnitude) (point : Int) (count : Nat) : Option Nat :=
  let e := point - count
  let (below, half) := m.onGrid e
  let preferUp := match half with
    | .lt => false
    | .gt => true
    | .eq => match tie with
      | .up => true
      | .toEven => below % 2 == 1
  let first := if preferUp then below + 1 else below
  let second := if preferUp then below else below + 1
  if m.admits first e then some first
  else if m.admits second e then some second
  else none

/-- Tries `count`, `count + 1`, … digits, `fuel` grids in all; the last resort keeps every digit
of the last grid. -/
def search (tie : Tie) (m : Magnitude) (point : Int) : Nat → Nat → Nat × Nat
  | 0, count => ((m.onGrid (point - count)).1, count)
  | fuel + 1, count =>
    match m.candidate? tie point count with
    | some n => (n, count)
    | none => search tie m point fuel (count + 1)

/-- Seventeen digits tell any two numbers of either format apart. -/
def maxDigits : Nat := 17

/-- The shortest decimal of a magnitude other than zero, without trailing zeros. -/
def shortest (tie : Tie) (m : Magnitude) : ShortDecimal :=
  let point := m.point
  let (n, count) := search tie m point maxDigits 1
  let ds := Digits.decimal n
  let kept := (ds.reverse.dropWhile (· == '0')).reverse
  ⟨kept, point + (ds.length - count : Nat)⟩

end Magnitude

/-! ## Layouts -/

namespace ShortDecimal

/-- Positional text; a point stands only before fraction digits. -/
def positional (d : ShortDecimal) : List Char :=
  if d.point ≤ 0 then
    '0' :: '.' :: (List.replicate (-d.point).toNat '0' ++ d.digits)
  else
    let p := d.point.toNat
    if d.digits.length ≤ p then d.digits ++ List.replicate (p - d.digits.length) '0'
    else d.digits.take p ++ '.' :: d.digits.drop p

/-- Text with one digit before the point and a signed power of ten. -/
def scientific (d : ShortDecimal) : List Char :=
  let mantissa := match d.digits with
    | [] => ['0']
    | [c] => [c]
    | c :: rest => c :: '.' :: rest
  let e := d.point - 1
  mantissa ++ 'e' :: (if e < 0 then '-' else '+') :: Digits.decimal e.natAbs

end ShortDecimal

end RelSql.Binary
