/-!
Double precision numbers as their sixty-four bits, with the exact rational each one stands for.
Results are rounded once, to the nearest number, a tie to the even significand. All arithmetic is
on natural numbers.
-/

set_option autoImplicit false

namespace LuaChunk

/-- A double precision number, given by its bits: sign, eleven bits of exponent, fraction. -/
structure Binary64 where
  bits : UInt64
  deriving DecidableEq, Repr, Inhabited

/-- What the bits mean. A finite number is `significand * 2 ^ exponent`. -/
inductive Binary64.Meaning where
  | nan
  | infinite (negative : Bool)
  | finite (negative : Bool) (significand : Nat) (exponent : Int)
  deriving DecidableEq, Repr

namespace Binary64

/-- Numbers of which the exponent is least are spaced by two to this power. -/
def minExponent : Int := -1074

/-- Size of the fraction, and the least significand of a number with the top bit implied. -/
def fractionSize : Nat := Nat.pow 2 52

/-- Exponent field of the infinities and of what is not a number. -/
def topField : Nat := 2047

def meaning (x : Binary64) : Meaning :=
  let bits := x.bits.toNat
  let negative := decide (Nat.pow 2 63 ≤ bits)
  let field := bits / fractionSize % 2048
  let fraction := bits % fractionSize
  if field = topField then
    if fraction = 0 then .infinite negative else .nan
  else if field = 0 then .finite negative fraction minExponent
  else .finite negative (fractionSize + fraction) (field - 1 + minExponent)

def zero : Binary64 := ⟨0⟩

def infinity : Binary64 := ⟨UInt64.ofNat (topField * fractionSize)⟩

def nan : Binary64 := ⟨UInt64.ofNat (topField * fractionSize + fractionSize / 2)⟩

/-- The quotient to the nearest integer, a tie to the even one. -/
def divideToEven (num den : Nat) : Nat :=
  let quotient := num / den
  let twice := 2 * (num % den)
  if den < twice ∨ (den = twice ∧ quotient % 2 = 1) then quotient + 1 else quotient

/-- `significand * 2 ^ exponent` for a significand already rounded to its exponent. One that
rounding carried to the next power of two gets the next exponent, and beyond the last exponent
lies infinity. -/
def pack (significand : Nat) (exponent : Int) : Binary64 :=
  let bits :=
    if significand < fractionSize then significand
    else (exponent - minExponent).toNat * fractionSize + significand
  if topField * fractionSize ≤ bits then infinity else ⟨UInt64.ofNat bits⟩

/-- The exponent of the leading bit of a quotient of positive numbers. -/
def leadingExponent (num den : Nat) : Int :=
  let k := (num.log2 : Int) - den.log2
  if den * Nat.pow 2 k.toNat ≤ num * Nat.pow 2 (-k).toNat then k else k - 1

/-- The number nearest to the quotient `num / den`. -/
def ofQuotient (num den : Nat) : Binary64 :=
  if num = 0 then zero
  else
    let exponent := max minExponent (leadingExponent num den - 52)
    let up := Nat.pow 2 (-exponent).toNat
    let down := Nat.pow 2 exponent.toNat
    pack (divideToEven (num * up) (den * down)) exponent

/-- The number nearest to `digits * 10 ^ exponent`. Exponents that no digits can bring into range
are settled without building the power. -/
def ofDecimal (digits : Nat) (exponent : Int) : Binary64 :=
  if digits = 0 then zero
  else if 1024 ≤ digits.log2 + 3 * exponent ∧ 0 ≤ exponent then infinity
  else if digits.log2 + 1077 ≤ -3 * exponent then zero
  else ofQuotient (digits * Nat.pow 10 exponent.toNat) (Nat.pow 10 (-exponent).toNat)

/-- The number nearest to `x * 2 ^ shift + num / 2 ^ scale` for a number `x` that is not negative;
one rounding for the whole sum. -/
def scaleAdd (x : Binary64) (shift : Nat) (num scale : Nat) : Binary64 :=
  match x.meaning with
  | .finite _ significand exponent =>
    let up := exponent.toNat + shift
    let down := (-exponent).toNat
    let sum := significand * Nat.pow 2 (up + scale) + num * Nat.pow 2 down
    ofQuotient sum (Nat.pow 2 (down + scale))
  | _ => x

/-- Multiplies a number that is not negative by a power of two that has itself been rounded:
beyond the range of numbers it is infinite, and the reciprocal of an infinite one is zero. -/
def timesPowerOfTwo (x : Binary64) (exponent : Int) : Binary64 :=
  match x.meaning with
  | .nan => x
  | .infinite _ => if exponent ≤ -1024 then nan else x
  | .finite _ significand e =>
    if 1024 ≤ exponent then (if significand = 0 then nan else infinity)
    else if exponent ≤ -1024 then zero
    else
      let total := e + exponent
      ofQuotient (significand * Nat.pow 2 total.toNat) (Nat.pow 2 (-total).toNat)

end Binary64

end LuaChunk
