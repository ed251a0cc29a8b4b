import LuaChunk.Number.Binary64

/-!
Shortest decimal text of a double precision number: the fewest digits that read back as the same
number, and of those the nearest to it. Numbers from `0.0001` up to `10 ^ 16` are written
positionally with at least one fractional digit, all others with an exponent.
-/

set_option autoImplicit false

namespace LuaChunk

/-- `digits * 10 ^ exponent`. -/
structure Decimal where
  digits : Nat
  exponent : Int
  deriving DecidableEq, Repr

namespace Decimal

/-- Drops a last digit that is zero; a neighbour on the coarsest grid may be ten. -/
def trim (d : Decimal) : Decimal :=
  if d.digits % 10 = 0 then ⟨d.digits / 10, d.exponent + 1⟩ else d

/-- The number `num / den` and the ends of the reals that round to it, over one denominator. -/
structure Rounding where
  num : Nat
  low : Nat
  high : Nat
  den : Nat
  closed : Bool
  deriving DecidableEq, Repr

namespace Rounding

/-- Half the distance to either neighbour; below a power of two the neighbours are closer. -/
def of (significand : Nat) (exponent : Int) : Rounding :=
  let up := Nat.pow 2 exponent.toNat
  let narrow := significand = Binary64.fractionSize ∧ Binary64.minExponent < exponent
  { num := 4 * significand * up
    low := (if narrow then 4 * significand - 1 else 4 * significand - 2) * up
    high := (4 * significand + 2) * up
    den := 4 * Nat.pow 2 (-exponent).toNat
    closed := significand % 2 == 0 }

/-- The decimal `digits * 10 ^ exponent` reads back as the number. -/
def admits (r : Rounding) (digits : Nat) (exponent : Int) : Bool :=
  let point := digits * Nat.pow 10 exponent.toNat * r.den
  let low := r.low * Nat.pow 10 (-exponent).toNat
  let high := r.high * Nat.pow 10 (-exponent).toNat
  if r.closed then decide (low ≤ point ∧ point ≤ high) else decide (low < point ∧ point < high)

/-- The neighbour of the number among the multiples of `10 ^ exponent` that reads back, the nearer
one when both do, and the greater one of two equally near. -/
def neighbour? (r : Rounding) (exponent : Int) : Option Decimal :=
  let num := r.num * Nat.pow 10 (-exponent).toNat
  let den := r.den * Nat.pow 10 exponent.toNat
  let below := num / den
  let nearAbove := den ≤ 2 * (num % den)
  match r.admits below exponent, r.admits (below + 1) exponent with
  | true, true => some ⟨if nearAbove then below + 1 else below, exponent⟩
  | true, false => some ⟨below, exponent⟩
  | false, true => some ⟨below + 1, exponent⟩
  | false, false => none

/-- Looks on ever finer grids, starting from the given one. -/
def search (r : Rounding) : Nat → Int → Decimal
  | 0, exponent =>
    ⟨r.num * Nat.pow 10 (-exponent).toNat / (r.den * Nat.pow 10 exponent.toNat), exponent⟩
  | steps + 1, exponent =>
    match r.neighbour? exponent with
    | some d => d
    | none => r.search steps (exponent - 1)

/-- The exponent of the leading decimal digit, found by stepping down from a bound. -/
def leadingDigit (r : Rounding) : Nat → Int → Int
  | 0, exponent => exponent
  | steps + 1, exponent =>
    if Nat.pow 10 exponent.toNat * r.den ≤ r.num * Nat.pow 10 (-exponent).toNat then exponent
    else r.leadingDigit steps (exponent - 1)

/-- Seventeen digits always read back. The power of two of the leading bit bounds the leading
decimal digit from above. -/
def shortest (r : Rounding) : Decimal :=
  let bound := (Binary64.leadingExponent r.num r.den + 1) * 30103 / 100000 + 1
  (r.search 17 (r.leadingDigit 4 bound)).trim

end Rounding

/-- The digits from the first one, and the place of the decimal point counted from before it. -/
def layout (d : Decimal) : List Char × Int :=
  let digits := (toString d.digits).toList
  (digits, digits.length + d.exponent)

/-- Positional from the fourth zero after the point up to sixteen digits before it. -/
def text (d : Decimal) : String :=
  let (digits, point) := d.layout
  if -3 ≤ point ∧ point ≤ 0 then
    "0." ++ String.ofList (List.replicate (-point).toNat '0' ++ digits)
  else if 0 < point ∧ point ≤ 16 then
    let whole := digits.take point.toNat
    let part := digits.drop point.toNat
    String.ofList (whole ++ List.replicate (point.toNat - whole.length) '0') ++ "."
      ++ (if part.isEmpty then "0" else String.ofList part)
  else
    let (first, part) := (digits.take 1, digits.drop 1)
    String.ofList first ++ (if part.isEmpty then "" else "." ++ String.ofList part)
      ++ "e" ++ toString (point - 1)

end Decimal

/-- Zero keeps its sign, and what is not a number has none. -/
def Binary64.text (x : Binary64) : String :=
  match x.meaning with
  | .nan => "NaN"
  | .infinite negative => if negative then "-inf" else "inf"
  | .finite negative significand exponent =>
    let magnitude :=
      if significand = 0 then "0.0"
      else (Decimal.Rounding.of significand exponent).shortest.text
    if negative then "-" ++ magnitude else magnitude

end LuaChunk
