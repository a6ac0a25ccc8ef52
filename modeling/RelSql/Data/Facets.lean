/-
Facets refine a scalar kind: lengths, character set, precision, nullability. Each may be absent,
and an absent facet has a default: values are nullable, text is Unicode and of varying length,
decimals have 18 digits.
-/
namespace RelSql

structure Facets where
  maxLength : Option Nat := none
  fixedLength : Option Bool := none
  unicode : Option Bool := none
  precision : Option Nat := none
  scale : Option Nat := none
  nullable : Option Bool := none
deriving Repr, DecidableEq, Inhabited

namespace Facets

def defaultPrecision : Nat := 18

def withMaxLength (f : Facets) (length : Nat) : Facets := { f with maxLength := some length }

def withFixedLength (f : Facets) (fixed : Bool) : Facets := { f with fixedLength := some fixed }

def withUnicode (f : Facets) (unicode : Bool) : Facets := { f with unicode := some unicode }

def withDecimal (f : Facets) (precision scale : Nat) : Facets :=
  { f with precision := some precision, scale := some scale }

def notNull (f : Facets) : Facets := { f with nullable := some false }

def isNullable (f : Facets) : Bool := f.nullable.getD true

def isUnicode (f : Facets) : Bool := f.unicode.getD true

def isFixedLength (f : Facets) : Bool := f.fixedLength.getD false

def precisionOrDefault (f : Facets) : Nat := f.precision.getD defaultPrecision

def scaleOrZero (f : Facets) : Nat := f.scale.getD 0

def isEmpty (f : Facets) : Bool := f == {}

end Facets

end RelSql
