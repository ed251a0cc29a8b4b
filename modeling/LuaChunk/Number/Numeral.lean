import LuaChunk.Number.Binary64

/-!
The value of a numeral. Decimal digits that fit a signed word are an integer and otherwise a
float; hexadecimal digits are an integer that wraps around. The suffixes `LL` and `ULL`, in any
letter case, ask for an integer of sixty-four bits. A hexadecimal float is built digit by digit,
with one rounding for each.
-/

set_option autoImplicit false

namespace LuaChunk

inductive Numeral where
  | integer (value : Int64)
  | float (value : Binary64)
  deriving DecidableEq, Repr

namespace Numeral

def hexDigit? (c : Char) : Option Nat :=
  if c.isDigit then some (c.toNat - '0'.toNat)
  else if 'a' ≤ c ∧ c ≤ 'f' then some (c.toNat - 'a'.toNat + 10)
  else if 'A' ≤ c ∧ c ≤ 'F' then some (c.toNat - 'A'.toNat + 10)
  else none

/-- The number that digits in the given base write. -/
def ofDigits (base : Nat) (digits : List Nat) : Nat :=
  digits.foldl (fun value digit => value * base + digit) 0

/-- A non-empty run of digits in the given base. -/
def digits? (base : Nat) (cs : List Char) : Option Nat :=
  if cs.isEmpty then none
  else do
    let digits ← cs.mapM hexDigit?
    if digits.all (· < base) then some (ofDigits base digits) else none

def decimal? (cs : List Char) : Option Nat := digits? 10 cs

def hexadecimal? (cs : List Char) : Option Nat := digits? 16 cs

/-- What follows `0x` or `0X`. -/
def afterHexMark? : List Char → Option (List Char)
  | '0' :: 'x' :: rest => some rest
  | '0' :: 'X' :: rest => some rest
  | _ => none

/-- Splits at the first character of a kind and drops that character. -/
def splitAtFirst (p : Char → Bool) (cs : List Char) : List Char × Option (List Char) :=
  match cs.dropWhile (!p ·) with
  | [] => (cs, none)
  | _ :: rest => (cs.takeWhile (!p ·), some rest)

/-- A decimal number with an optional sign. -/
def signed? : List Char → Option Int
  | '-' :: rest => (decimal? rest).map fun n => -(n : Int)
  | '+' :: rest => (decimal? rest).map Int.ofNat
  | rest => (decimal? rest).map Int.ofNat

/-- An integer without a suffix. -/
def integer? (cs : List Char) : Option Int64 :=
  match afterHexMark? cs with
  | some digits => (hexadecimal? digits).map Int64.ofNat
  | none => (decimal? cs).bind fun n => if n < Nat.pow 2 63 then some (Int64.ofNat n) else none

/-- A decimal float: digits with at most one point among or around them, then an exponent. -/
def decimalFloat? (cs : List Char) : Option Binary64 := do
  let (mantissa, exponent) := splitAtFirst (fun c => c = 'e' || c = 'E') cs
  let (whole, part) := splitAtFirst (· = '.') mantissa
  let part := part.getD []
  let value ← decimal? (whole ++ part)
  let exponent ← match exponent with
    | none => some 0
    | some written => signed? written
  some (.ofDecimal value (exponent - part.length))

/-- The weight of a hexadecimal digit after the point is a power of two that vanishes once it is
less than the least number. -/
def addFractionDigits : Binary64 → Nat → List Nat → Binary64
  | value, _, [] => value
  | value, place, digit :: rest =>
    let scale := 4 * place
    let value := if scale ≤ 1074 then value.scaleAdd 0 digit scale else value
    addFractionDigits value (place + 1) rest

/-- A binary exponent fits a signed word of thirty-two bits. -/
def binaryExponent? (cs : List Char) : Option Int :=
  (signed? cs).bind fun e => if -2147483648 ≤ e ∧ e ≤ 2147483647 then some e else none

/-- A hexadecimal float, after its mark. -/
def hexFloat? (cs : List Char) : Option Binary64 := do
  let (mantissa, exponent) := splitAtFirst (fun c => c = 'p' || c = 'P') cs
  let exponent ← match exponent with
    | none => some 0
    | some written => binaryExponent? written
  let (whole, part) := splitAtFirst (· = '.') mantissa
  let part := part.getD []
  if whole.isEmpty && part.isEmpty then none
  else
    let whole ← whole.mapM hexDigit?
    let part ← part.mapM hexDigit?
    let value := whole.foldl (fun value digit => value.scaleAdd 4 digit 0) Binary64.zero
    some ((addFractionDigits value 1 part).timesPowerOfTwo exponent)

def float? (cs : List Char) : Option Binary64 :=
  match afterHexMark? cs with
  | some hex => hexFloat? hex
  | none => decimalFloat? cs

/-- What stands before a suffix written in any letter case. -/
def beforeSuffix? (suffix : String) (cs : List Char) : Option (List Char) :=
  if suffix.toList.isSuffixOf (cs.map Char.toUpper) then some (cs.take (cs.length - suffix.length))
  else none

/-- An integer with a suffix; decimal digits may use all sixty-four bits. -/
def suffixed? (cs : List Char) : Option Int64 := do
  let digits ← (beforeSuffix? "ULL" cs).or (beforeSuffix? "LL" cs)
  match afterHexMark? digits with
  | some hex => (hexadecimal? hex).map Int64.ofNat
  | none => (decimal? digits).bind fun n => if n < Nat.pow 2 64 then some (Int64.ofNat n) else none

/-- The forms are tried in turn: integer, float, integer with a suffix. -/
def read? (text : String) : Option Numeral :=
  let cs := text.toList
  ((integer? cs).map integer).or (((float? cs).map float).or ((suffixed? cs).map integer))

end Numeral

end LuaChunk
