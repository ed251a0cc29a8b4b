import LuaChunk.Number.Shortest
import Mathlib

/-!
# Rounding to the nearest number

Every number that is not zero has an interval of rationals that are rounded to it.  A quotient or a
decimal inside the interval is read as that number, whichever of its many forms it is written in.
-/

set_option autoImplicit false

namespace LuaChunk

/-! ## Powers with a sign -/

/-- A power of which one of the factors is one. -/
theorem zpow_toNat {b : ℚ} (h : b ≠ 0) (t : Int) : b ^ t.toNat = b ^ t * b ^ (-t).toNat := by
  rcases t with n | n
  · simp
  · simp [Int.negSucc_eq, ← zpow_natCast, ← zpow_add₀ h]

theorem div_zpow_toNat {b : ℚ} (h : b ≠ 0) (x y : ℚ) (t : Int) :
    x * b ^ (-t).toNat / (y * b ^ t.toNat) = x / y / b ^ t := by
  have unit : b ^ (-t).toNat ≠ 0 := pow_ne_zero _ h
  have power : b ^ t ≠ 0 := zpow_ne_zero _ h
  rw [zpow_toNat h t]
  rcases eq_or_ne y 0 with rfl | some
  · simp
  · field_simp

namespace Binary64

/-! ## Quotients -/

/-- The quotient rounds to a number at most half away, and only to an even one if it is just
half away. -/
theorem divideToEven_eq {num den q : Nat} (pos : 0 < den) (low : 2 * q * den ≤ 2 * num + den)
    (high : 2 * num ≤ 2 * q * den + den)
    (tie : 2 * q * den = 2 * num + den ∨ 2 * num = 2 * q * den + den → q % 2 = 0) :
    divideToEven num den = q := by
  have whole := Nat.div_add_mod num den
  have part := Nat.mod_lt num pos
  unfold divideToEven
  dsimp only
  generalize num / den = a at *
  generalize num % den = r at *
  subst whole
  have near : a = q ∨ a + 1 = q := by
    have above : a < q + 1 := by
      by_contra far
      have := Nat.mul_le_mul_right den (Nat.le_of_not_lt far)
      nlinarith
    have below : q < a + 2 := by
      by_contra far
      have := Nat.mul_le_mul_right den (Nat.le_of_not_lt far)
      nlinarith
    omega
  rcases near with rfl | rfl
  · have : 2 * r ≤ den := by nlinarith
    have even : den = 2 * r → a % 2 = 0 := fun same => tie (.inr (by rw [same]; ring))
    split <;> grind
  · have : den ≤ 2 * r := by nlinarith
    have even : den = 2 * r → (a + 1) % 2 = 0 := fun same => tie (.inl (by rw [same]; ring))
    split <;> grind

/-- A quotient of positive numbers lies between the power of two of its leading bit and the next
one. -/
theorem leadingExponent_spec {num den : Nat} (num_pos : 0 < num) (den_pos : 0 < den) :
    (2 : ℚ) ^ leadingExponent num den ≤ num / den ∧
      (num / den : ℚ) < 2 ^ (leadingExponent num den + 1) := by
  have two : (2 : ℚ) ≠ 0 := two_ne_zero
  have numLow : (2 : ℚ) ^ num.log2 ≤ num := by
    exact_mod_cast Nat.log2_self_le (Nat.ne_of_gt num_pos)
  have numHigh : (num : ℚ) < 2 ^ (num.log2 + 1) := by exact_mod_cast num.lt_log2_self
  have denLow : (2 : ℚ) ^ den.log2 ≤ den := by
    exact_mod_cast Nat.log2_self_le (Nat.ne_of_gt den_pos)
  have denHigh : (den : ℚ) < 2 ^ (den.log2 + 1) := by exact_mod_cast den.lt_log2_self
  have den' : (0 : ℚ) < den := by exact_mod_cast den_pos
  have power (n : Nat) : (0 : ℚ) < 2 ^ n := by positivity
  set k : Int := (num.log2 : Int) - den.log2 with gap
  have above : (num / den : ℚ) < 2 ^ (k + 1) := by
    rw [gap, show (num.log2 : Int) - den.log2 + 1 = ((num.log2 + 1 : Nat) : Int) - den.log2 by
      push_cast; ring, zpow_sub₀ two, zpow_natCast, zpow_natCast]
    exact div_lt_div₀ numHigh denLow (power _).le (power _)
  have below : (2 : ℚ) ^ (k - 1) ≤ num / den := by
    rw [gap, show (num.log2 : Int) - den.log2 - 1 = (num.log2 : Int) - ((den.log2 + 1 : Nat) : Int)
      by push_cast; ring, zpow_sub₀ two, zpow_natCast, zpow_natCast]
    exact div_le_div₀ (by positivity) numLow den' denHigh.le
  have test : den * Nat.pow 2 k.toNat ≤ num * Nat.pow 2 (-k).toNat ↔ (2 : ℚ) ^ k ≤ num / den := by
    rw [← Nat.cast_le (α := ℚ), le_div_iff₀ den']
    push_cast [Nat.pow_eq]
    rw [zpow_toNat two k]
    have unit := power (-k).toNat
    constructor
    · intro le
      nlinarith
    · intro le
      nlinarith
  unfold leadingExponent
  dsimp only
  split
  next fits => exact ⟨test.1 fits, above⟩
  next misses =>
    refine ⟨below, ?_⟩
    rw [Int.sub_add_cancel]
    exact lt_of_not_ge fun le => misses (test.2 le)

/-! ## The interval of a number -/

/-- A significand and an exponent as a finite number other than zero has them: the top bit is set,
unless the exponent is the least. -/
structure Proper (significand : Nat) (exponent : Int) : Prop where
  pos : 0 < significand
  lt : significand < 2 * fractionSize
  min_le : minExponent ≤ exponent
  le_max : exponent ≤ 971
  normal : minExponent < exponent → fractionSize ≤ significand

/-- Four times the lower end of the interval, counted in units of the last place. -/
def lowEnd (significand : Nat) (exponent : Int) : Nat :=
  if significand = fractionSize ∧ minExponent < exponent then 4 * significand - 1
  else 4 * significand - 2

/-- The rational is rounded to the number; the ends belong to an even significand. -/
structure Near (significand : Nat) (exponent : Int) (q : ℚ) : Prop where
  low : lowEnd significand exponent * 2 ^ exponent ≤ 4 * q
  high : 4 * q ≤ (4 * significand + 2 : Nat) * 2 ^ exponent
  inside : significand % 2 = 1 → lowEnd significand exponent * 2 ^ exponent < 4 * q ∧
    4 * q < (4 * significand + 2 : Nat) * 2 ^ exponent

variable {m : Nat} {e : Int} {q : ℚ}

theorem lowEnd_ge (m : Nat) (e : Int) : 4 * m - 2 ≤ lowEnd m e := by
  unfold lowEnd
  split <;> omega

theorem lowEnd_le (m : Nat) (e : Int) : lowEnd m e ≤ 4 * m := by
  unfold lowEnd
  split <;> omega

/-- The interval goes down by half a unit at most. -/
theorem sub_two_le_lowEnd (m : Nat) (e : Int) : (4 * m - 2 : ℚ) ≤ lowEnd m e := by
  have le : 4 * m ≤ lowEnd m e + 2 := by
    have := lowEnd_ge m e
    omega
  have le : (4 * m : ℚ) ≤ lowEnd m e + 2 := by exact_mod_cast le
  linarith

namespace Proper

theorem two_le_lowEnd (proper : Proper m e) : (2 : ℚ) ≤ lowEnd m e := by
  have := lowEnd_ge m e
  have := proper.pos
  exact_mod_cast (by omega : 2 ≤ lowEnd m e)

theorem highEnd_lt (proper : Proper m e) : ((4 * m + 2 : Nat) : ℚ) < 4 * 2 ^ 53 := by
  have := proper.lt
  rw [show fractionSize = 2 ^ 52 from rfl] at this
  exact_mod_cast (by omega : 4 * m + 2 < 4 * 2 ^ 53)

theorem least_unit_le (proper : Proper m e) : (2 : ℚ) ^ minExponent ≤ 2 ^ e :=
  zpow_le_zpow_right₀ one_le_two proper.min_le

end Proper

namespace Near

/-- What is strictly between the ends is rounded to the number, even or odd. -/
theorem of_lt (low : lowEnd m e * 2 ^ e < 4 * q) (high : 4 * q < (4 * m + 2 : Nat) * 2 ^ e) :
    Near m e q :=
  ⟨low.le, high.le, fun _ => ⟨low, high⟩⟩

/-- A number is rounded to itself. -/
theorem self (proper : Proper m e) : Near m e (m * 2 ^ e) := by
  have unit : (0 : ℚ) < 2 ^ e := by positivity
  have below : lowEnd m e < 4 * m := by
    have := proper.pos
    unfold lowEnd
    split <;> omega
  have below : (lowEnd m e : ℚ) < 4 * m := by exact_mod_cast below
  apply of_lt
  · nlinarith
  · push_cast
    nlinarith

theorem unit_le (h : Near m e q) (proper : Proper m e) : (2 : ℚ) ^ e ≤ 2 * q := by
  have low := h.low
  have unit : (0 : ℚ) < 2 ^ e := by positivity
  have two := proper.two_le_lowEnd
  nlinarith

theorem pos (h : Near m e q) (proper : Proper m e) : 0 < q := by
  have unit : (0 : ℚ) < 2 ^ e := by positivity
  have le := h.unit_le proper
  linarith

theorem lt_bound (h : Near m e q) (proper : Proper m e) : q < 2 ^ (e + 53) := by
  have high := h.high
  have unit : (0 : ℚ) < 2 ^ e := by positivity
  have small := proper.highEnd_lt
  rw [zpow_add₀ two_ne_zero, show ((2 : ℚ) ^ (53 : Int)) = 2 ^ 53 from rfl]
  nlinarith

/-- No number is rounded to from beyond the greatest exponent. -/
theorem lt_top (h : Near m e q) (proper : Proper m e) : q < 2 ^ (1024 : Int) := by
  have top := proper.le_max
  exact (h.lt_bound proper).trans_le (zpow_le_zpow_right₀ one_le_two (by omega))

end Near

/-- What is rounded to a number has its leading bit where the number has, or one place lower, below
a power of two. -/
theorem Near.exponent_cases (h : Near m e q) (proper : Proper m e) {k : Int}
    (below : (2 : ℚ) ^ k ≤ q) (above : q < 2 ^ (k + 1)) :
    max minExponent (k - 52) = e ∨
      (m = fractionSize ∧ minExponent < e ∧ k - 52 = e - 1 ∧ q < 2 ^ (e + 52)) := by
  have unit : (0 : ℚ) < 2 ^ e := by positivity
  have two : (2 : ℚ) ≠ 0 := two_ne_zero
  have one_lt : (1 : ℚ) < 2 := one_lt_two
  have size : fractionSize = 2 ^ 52 := rfl
  have top : k < e + 53 :=
    (zpow_lt_zpow_iff_right₀ one_lt).1 (below.trans_lt (h.lt_bound proper))
  have bottom (c : Int) (le : (2 : ℚ) ^ (e + c) ≤ q) : e + c ≤ k := by
    have := (zpow_lt_zpow_iff_right₀ one_lt).1 (le.trans_lt above)
    omega
  have min := proper.min_le
  rcases min.eq_or_lt with least | more
  · left
    omega
  · have normal := proper.normal more
    have low := h.low
    rcases normal.eq_or_lt with narrow | wide
    · have end_eq : (lowEnd m e : ℚ) = 4 * 2 ^ 52 - 1 := by
        rw [lowEnd, if_pos ⟨narrow.symm, more⟩, ← narrow, size]
        norm_num
      have near := bottom 51 (by
        rw [zpow_add₀ two, show ((2 : ℚ) ^ (51 : Int)) = 2 ^ 51 from rfl]
        rw [end_eq] at low
        nlinarith)
      by_cases carried : k = e + 51
      · refine .inr ⟨narrow.symm, more, by omega, ?_⟩
        rw [carried] at above
        exact (show e + 51 + 1 = e + 52 by ring) ▸ above
      · left
        omega
    · have end_ge : (4 * 2 ^ 52 : ℚ) ≤ lowEnd m e := by
        have := lowEnd_ge m e
        rw [size] at wide
        exact_mod_cast (by omega : 4 * 2 ^ 52 ≤ lowEnd m e)
      have near := bottom 52 (by
        rw [zpow_add₀ two, show ((2 : ℚ) ^ (52 : Int)) = 2 ^ 52 from rfl]
        nlinarith)
      left
      omega

/-- Rounding a scaled quotient, told of rationals. -/
theorem divideToEven_of_near {num den q : Nat} (pos : 0 < den)
    (low : (4 * q - 2 : ℚ) ≤ 4 * (num / den)) (high : 4 * (num / den : ℚ) ≤ 4 * q + 2)
    (inside : q % 2 = 1 → (4 * q - 2 : ℚ) < 4 * (num / den) ∧ 4 * (num / den : ℚ) < 4 * q + 2) :
    divideToEven num den = q := by
  have den' : (0 : ℚ) < den := by exact_mod_cast pos
  have whole : (num / den : ℚ) * den = num := div_mul_cancel₀ _ den'.ne'
  refine divideToEven_eq pos ?_ ?_ fun tie => ?_
  · rw [← Nat.cast_le (α := ℚ)]
    push_cast
    nlinarith
  · rw [← Nat.cast_le (α := ℚ)]
    push_cast
    nlinarith
  · by_contra odd
    obtain ⟨less, more⟩ := inside (by omega)
    rcases tie with tie | tie
    · have tie : (2 * q * den : ℚ) = 2 * num + den := by exact_mod_cast tie
      nlinarith
    · have tie : (2 * num : ℚ) = 2 * q * den + den := by exact_mod_cast tie
      nlinarith

/-- A carry to the next power of two is the same number with the next exponent. -/
theorem pack_carry (h : minExponent < e) : pack (2 * fractionSize) (e - 1) = pack fractionSize e := by
  have bits : (e - 1 - minExponent).toNat * fractionSize + 2 * fractionSize =
      (e - minExponent).toNat * fractionSize + fractionSize := by
    obtain ⟨n, same⟩ : ∃ n : Nat, e - minExponent = n + 1 := ⟨(e - minExponent - 1).toNat, by omega⟩
    rw [show e - 1 - minExponent = n by omega, same, Int.toNat_natCast, show ((n : Int) + 1).toNat =
      n + 1 by omega]
    ring
  have first : ¬ 2 * fractionSize < fractionSize := by decide
  have second : ¬ fractionSize < fractionSize := by decide
  simp only [pack, if_neg first, if_neg second, bits]

section Scaling

variable {num den : Nat}

/-- A quotient counted in units of a power of two. -/
theorem scaled_eq (num den : Nat) (t : Int) :
    ((num * 2 ^ (-t).toNat : Nat) / (den * 2 ^ t.toNat : Nat) : ℚ) = num / den / 2 ^ t := by
  push_cast
  exact div_zpow_toNat two_ne_zero _ _ _

theorem eq_scaled_mul (x : ℚ) (t : Int) : x = x / 2 ^ t * 2 ^ t :=
  (div_mul_cancel₀ x (zpow_ne_zero t two_ne_zero)).symm

/-- In its own unit a number has its own significand. -/
theorem divideToEven_scaled (den_pos : 0 < den) (near : Near m e (num / den)) :
    divideToEven (num * 2 ^ (-e).toNat) (den * 2 ^ e.toNat) = m := by
  have unit : (0 : ℚ) < 2 ^ e := by positivity
  have four := sub_two_le_lowEnd m e
  have low := near.low
  have high := near.high
  have inside := near.inside
  rw [eq_scaled_mul (num / den) e] at low high inside
  push_cast at high inside
  refine divideToEven_of_near (by positivity) ?_ ?_ fun odd => ?_
  · rw [scaled_eq]
    generalize (num / den / 2 ^ e : ℚ) = x at *
    nlinarith
  · rw [scaled_eq]
    generalize (num / den / 2 ^ e : ℚ) = x at *
    nlinarith
  · obtain ⟨less, more⟩ := inside odd
    rw [scaled_eq]
    generalize (num / den / 2 ^ e : ℚ) = x at *
    constructor <;> nlinarith

/-- Just below a power of two the unit is half as large, and the significand is rounded up to twice
its least. -/
theorem divideToEven_carry (den_pos : 0 < den) (more : minExponent < e)
    (near : Near fractionSize e (num / den)) (less : (num / den : ℚ) < 2 ^ (e + 52)) :
    divideToEven (num * 2 ^ (-(e - 1)).toNat) (den * 2 ^ (e - 1).toNat) = 2 * fractionSize := by
  have two : (2 : ℚ) ≠ 0 := two_ne_zero
  have unit : (0 : ℚ) < 2 ^ (e - 1) := by positivity
  have half : (2 : ℚ) ^ e = 2 * 2 ^ (e - 1) := by
    rw [zpow_sub_one₀ two]
    field_simp
  have size : fractionSize = 2 ^ 52 := rfl
  have wide : ((4 * fractionSize - 1 : Nat) : ℚ) = 4 * 2 ^ 52 - 1 := by
    rw [size]
    norm_num
  have low := near.low
  rw [lowEnd, if_pos ⟨rfl, more⟩, eq_scaled_mul (num / den) (e - 1), half, wide] at low
  rw [zpow_add₀ two, half, eq_scaled_mul (num / den) (e - 1),
    show ((2 : ℚ) ^ (52 : Int)) = 2 ^ 52 from rfl] at less
  refine divideToEven_of_near (by positivity) ?_ ?_ fun odd => ?_
  · rw [scaled_eq, size]
    push_cast
    generalize (num / den / 2 ^ (e - 1) : ℚ) = x at *
    nlinarith
  · rw [scaled_eq, size]
    push_cast
    generalize (num / den / 2 ^ (e - 1) : ℚ) = x at *
    nlinarith
  · rw [size] at odd
    omega

end Scaling

/-- **Rounding.**  A quotient in the interval of a number is read as that number. -/
theorem ofQuotient_eq (proper : Proper m e) {num den : Nat} (den_pos : 0 < den)
    (near : Near m e (num / den)) : ofQuotient num den = pack m e := by
  have den' : (0 : ℚ) < den := by exact_mod_cast den_pos
  have num_pos : 0 < num := by
    have := near.pos proper
    rw [div_pos_iff_of_pos_right den'] at this
    exact_mod_cast this
  obtain ⟨below, above⟩ := leadingExponent_spec num_pos den_pos
  unfold ofQuotient
  rw [if_neg (Nat.ne_of_gt num_pos)]
  simp only [Nat.pow_eq]
  rcases near.exponent_cases proper below above with same | ⟨rfl, more, lower, less⟩
  · rw [same, divideToEven_scaled den_pos near]
  · have exponent : max minExponent (leadingExponent num den - 52) = e - 1 := by omega
    rw [exponent, divideToEven_carry den_pos more near less, pack_carry more]

end Binary64

end LuaChunk
