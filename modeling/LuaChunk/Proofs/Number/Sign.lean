import LuaChunk.Number.Numeral
import LuaChunk.Proofs.Layout.Fragments

/-!
# Numerals have no sign

The value of a numeral that is a float has no sign bit, whatever its digits.
-/

set_option autoImplicit false

namespace LuaChunk

namespace Binary64

theorem unsigned_of_lt {n : Nat} (small : n < Nat.pow 2 63) :
    isNegative ⟨UInt64.ofNat n⟩ = false := by
  have bits : (UInt64.ofNat n).toNat = n := by
    rw [UInt64.toNat_ofNat']
    exact Nat.mod_eq_of_lt (Nat.lt_trans small (by decide))
  simpa [isNegative, bits] using small

theorem unsigned_zero : zero.isNegative = false := by decide

theorem unsigned_infinity : infinity.isNegative = false := by decide

theorem unsigned_nan : nan.isNegative = false := by decide

theorem unsigned_pack (significand : Nat) (exponent : Int) :
    (pack significand exponent).isNegative = false := by
  unfold pack
  extract_lets bits
  split
  · exact unsigned_infinity
  next small => exact unsigned_of_lt (Nat.lt_trans (Nat.not_le.1 small) (by decide))

theorem unsigned_ofQuotient (num den : Nat) : (ofQuotient num den).isNegative = false := by
  unfold ofQuotient
  split
  · exact unsigned_zero
  · exact unsigned_pack _ _

theorem unsigned_ofDecimal (digits : Nat) (exponent : Int) :
    (ofDecimal digits exponent).isNegative = false := by
  unfold ofDecimal
  split
  · exact unsigned_zero
  split
  · exact unsigned_infinity
  split
  · exact unsigned_zero
  · exact unsigned_ofQuotient _ _

theorem unsigned_scaleAdd {x : Binary64} (h : x.isNegative = false) (shift num scale : Nat) :
    (x.scaleAdd shift num scale).isNegative = false := by
  unfold scaleAdd
  split
  · exact unsigned_ofQuotient _ _
  · exact h

theorem unsigned_timesPowerOfTwo {x : Binary64} (h : x.isNegative = false) (exponent : Int) :
    (x.timesPowerOfTwo exponent).isNegative = false := by
  unfold timesPowerOfTwo
  split
  · exact h
  · split
    · exact unsigned_nan
    · exact h
  · split
    · split
      · exact unsigned_nan
      · exact unsigned_infinity
    · split
      · exact unsigned_zero
      · exact unsigned_ofQuotient _ _

end Binary64

namespace Numeral

open Binary64

theorem unsigned_addFractionDigits (digits : List Nat) (place : Nat) {x : Binary64}
    (h : x.isNegative = false) : (addFractionDigits x place digits).isNegative = false := by
  induction digits generalizing x place with
  | nil => exact h
  | cons digit rest inductionHypothesis =>
    refine inductionHypothesis (place + 1) ?_
    split
    · exact unsigned_scaleAdd h _ _ _
    · exact h

theorem unsigned_decimalFloat {cs : List Char} {x : Binary64} (h : decimalFloat? cs = some x) :
    x.isNegative = false := by
  simp only [decimalFloat?, Option.bind_eq_bind, Option.bind_eq_some_iff] at h
  obtain ⟨value, -, h⟩ := h
  split at h <;>
  · simp only [Option.bind_eq_some_iff, Option.some.injEq] at h
    obtain ⟨exponent, -, rfl⟩ := h
    exact unsigned_ofDecimal _ _

theorem unsigned_digits (digits : List Nat) {x : Binary64} (h : x.isNegative = false) :
    (digits.foldl (fun value digit => value.scaleAdd 4 digit 0) x).isNegative = false := by
  induction digits generalizing x with
  | nil => exact h
  | cons digit rest inductionHypothesis => exact inductionHypothesis (unsigned_scaleAdd h _ _ _)

theorem unsigned_hexFloat {cs : List Char} {x : Binary64} (h : hexFloat? cs = some x) :
    x.isNegative = false := by
  simp only [hexFloat?, Option.bind_eq_bind] at h
  split at h <;>
  · rw [Option.bind_eq_some_iff] at h
    obtain ⟨exponent, -, h⟩ := h
    split at h
    · cases h
    · simp only [Option.bind_eq_some_iff, Option.some.injEq] at h
      obtain ⟨whole, -, part, -, rfl⟩ := h
      exact unsigned_timesPowerOfTwo
        (unsigned_addFractionDigits _ _ (unsigned_digits _ unsigned_zero)) _

/-- A numeral that is read as a float has no sign bit. -/
theorem unsigned_read {text : String} {x : Binary64} (h : read? text = some (.float x)) :
    x.isNegative = false := by
  simp only [read?, Option.or_eq_some_iff, Option.map_eq_some_iff, Numeral.float.injEq, reduceCtorEq,
    and_false, exists_false, false_or] at h
  obtain ⟨-, ⟨y, read, rfl⟩ | suffixed⟩ := h
  · unfold float? at read
    split at read
    · exact unsigned_hexFloat read
    · exact unsigned_decimalFloat read
  · cases suffixed

end Numeral

end LuaChunk
