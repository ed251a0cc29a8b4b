import LuaChunk.Proofs.Number.Rounding

/-!
# Shortest decimals read back

The search for a shortest decimal ends at one in the interval of the number.  Seventeen digits are
enough: from the leading digit down, the seventeenth grid is finer than the interval.
-/

set_option autoImplicit false

namespace LuaChunk

open Binary64

namespace Binary64

variable {m : Nat} {e : Int}

/-! ## Decimals in the interval of a number -/

section Decimals

variable {digits : Nat} {exponent : Int}

theorem eight_pow_le (n : Nat) : (2 : ℚ) ^ (3 * n) ≤ 10 ^ n := by
  rw [pow_mul]
  exact pow_le_pow_left₀ (by norm_num) (by norm_num) n

theorem Near.digits_ne_zero (proper : Proper m e) (near : Near m e (digits * 10 ^ exponent)) :
    digits ≠ 0 := by
  rintro rfl
  have positive := near.pos proper
  simp at positive

/-- No number is read from a decimal beyond all numbers. -/
theorem Near.not_huge (proper : Proper m e) (near : Near m e (digits * 10 ^ exponent)) :
    ¬ (1024 ≤ digits.log2 + 3 * exponent ∧ 0 ≤ exponent) := by
  rintro ⟨huge, natural⟩
  obtain ⟨n, rfl⟩ := Int.eq_ofNat_of_zero_le natural
  have below := near.lt_top proper
  rw [zpow_natCast] at below
  have low : (2 : ℚ) ^ digits.log2 ≤ digits := by
    exact_mod_cast Nat.log2_self_le (near.digits_ne_zero proper)
  have above : (2 : ℚ) ^ (1024 : Int) ≤ digits * 10 ^ n := by
    calc (2 : ℚ) ^ (1024 : Int) ≤ 2 ^ ((digits.log2 + 3 * n : Nat) : Int) :=
          zpow_le_zpow_right₀ one_le_two (by push_cast; exact huge)
      _ = 2 ^ digits.log2 * 2 ^ (3 * n) := by rw [zpow_natCast, pow_add]
      _ ≤ digits * 10 ^ n := mul_le_mul low (eight_pow_le n) (by positivity) (Nat.cast_nonneg _)
  exact absurd above (not_le_of_gt below)

/-- Nor from one below half the least number. -/
theorem Near.not_tiny (proper : Proper m e) (near : Near m e (digits * 10 ^ exponent)) :
    ¬ digits.log2 + 1077 ≤ -3 * exponent := by
  intro tiny
  have two : (2 : ℚ) ≠ 0 := two_ne_zero
  obtain ⟨n, rfl⟩ : ∃ n : Nat, exponent = -n := ⟨(-exponent).toNat, by omega⟩
  have power : (0 : ℚ) < 10 ^ n := by positivity
  have above : (2 : ℚ) ^ minExponent * 10 ^ n ≤ 2 * digits := by
    have least := proper.least_unit_le.trans (near.unit_le proper)
    rw [zpow_neg, zpow_natCast, ← div_eq_mul_inv, ← mul_div_assoc, le_div_iff₀ power] at least
    exact least
  have below : (2 * digits : ℚ) < 2 ^ minExponent * 2 ^ (3 * n) := by
    have high : (digits : ℚ) < 2 ^ (digits.log2 + 1) := by exact_mod_cast digits.lt_log2_self
    calc (2 * digits : ℚ) < 2 * 2 ^ (digits.log2 + 1) := by linarith
      _ = 2 ^ ((digits.log2 + 2 : Nat) : Int) := by
        rw [zpow_natCast]
        ring
      _ ≤ 2 ^ (minExponent + (3 * n : Nat)) := by
        refine zpow_le_zpow_right₀ one_le_two ?_
        have : minExponent = -1074 := rfl
        omega
      _ = 2 ^ minExponent * 2 ^ (3 * n) := by rw [zpow_add₀ two, zpow_natCast]
  have unit : (0 : ℚ) < 2 ^ minExponent := by positivity
  nlinarith [eight_pow_le n]

/-- **Rounding of decimals.**  A decimal in the interval of a number is read as that number, in
whichever place its point stands. -/
theorem ofDecimal_eq (proper : Proper m e) (near : Near m e (digits * 10 ^ exponent)) :
    ofDecimal digits exponent = pack m e := by
  have ten : (10 : ℚ) ≠ 0 := by norm_num
  have form : (digits * 10 ^ exponent.toNat / 10 ^ (-exponent).toNat : ℚ) =
      digits * 10 ^ exponent := by
    rw [zpow_toNat ten exponent]
    field_simp
  unfold ofDecimal
  rw [if_neg (near.digits_ne_zero proper), if_neg (near.not_huge proper),
    if_neg (near.not_tiny proper)]
  refine ofQuotient_eq proper (by simp) ?_
  push_cast [Nat.pow_eq]
  rwa [form]

end Decimals

/-! ## Bits -/

theorem pack_subnormal {fraction : Nat} (small : fraction < fractionSize) (e : Int) :
    pack fraction e = ⟨UInt64.ofNat fraction⟩ := by
  have finite : ¬ topField * fractionSize ≤ fraction := by
    rw [show topField = 2047 from rfl]
    omega
  simp only [pack, if_pos small, if_neg finite]

theorem pack_normal {field fraction : Nat} (normal : field ≠ 0) (finite : field < topField)
    (small : fraction < fractionSize) :
    pack (fractionSize + fraction) (field - 1 + minExponent) =
      ⟨UInt64.ofNat (field * fractionSize + fraction)⟩ := by
  obtain ⟨n, rfl⟩ := Nat.exists_eq_add_of_le' (Nat.one_le_iff_ne_zero.2 normal)
  have bits : (((n + 1 : Nat) : Int) - 1 + minExponent - minExponent).toNat * fractionSize +
      (fractionSize + fraction) = (n + 1) * fractionSize + fraction := by
    rw [show (((n + 1 : Nat) : Int) - 1 + minExponent - minExponent).toNat = n by omega]
    ring
  have below : (n + 1) * fractionSize + fraction < topField * fractionSize := by
    have := Nat.mul_le_mul_right fractionSize (show n + 2 ≤ topField from finite)
    rw [Nat.add_mul n 2, Nat.two_mul] at this
    rw [Nat.add_mul n 1, Nat.one_mul]
    omega
  simp only [pack, if_neg (Nat.not_lt_of_le (Nat.le_add_right fractionSize fraction)), bits,
    if_neg (Nat.not_le_of_lt below)]

/-- Finite numbers other than zero are packed from what their bits mean. -/
theorem pack_of_meaning {x : Binary64} (h : x.meaning = .finite false m e) :
    pack m e = x ∧ (m ≠ 0 → Proper m e) := by
  obtain ⟨bits⟩ := x
  have size : fractionSize = 2 ^ 52 := rfl
  have top : topField = 2047 := rfl
  have least : minExponent = -1074 := rfl
  unfold meaning at h
  dsimp only at h
  have positive : bits.toNat < 2 ^ 63 := by
    split at h
    · split at h <;> cases h
    · split at h <;>
        exact Nat.lt_of_not_le (of_decide_eq_false (Meaning.finite.inj h).1)
  have whole := Nat.div_add_mod' bits.toNat fractionSize
  have part := Nat.mod_lt bits.toNat (show fractionSize > 0 by decide)
  have field : bits.toNat / fractionSize < 2048 := by
    rw [size] at *
    omega
  rw [Nat.mod_eq_of_lt field] at h
  have same : UInt64.ofNat bits.toNat = bits := UInt64.ofNat_toNat
  rw [← whole] at same
  generalize bits.toNat / fractionSize = f at *
  generalize bits.toNat % fractionSize = r at *
  split at h
  · split at h <;> cases h
  next finite =>
    split at h
    next subnormal =>
      obtain ⟨-, rfl, rfl⟩ := Meaning.finite.inj h
      subst subnormal
      rw [Nat.zero_mul, Nat.zero_add] at same
      exact ⟨by rw [pack_subnormal part, same],
        fun some => ⟨by omega, by omega, Int.le_refl _, by omega, by omega⟩⟩
    next normal =>
      obtain ⟨-, rfl, rfl⟩ := Meaning.finite.inj h
      exact ⟨by rw [pack_normal normal (by omega) part, same],
        fun _ => ⟨by omega, by omega, by omega, by omega, by omega⟩⟩

end Binary64

namespace Decimal

/-- The rational that a decimal writes. -/
def value (d : Decimal) : ℚ := d.digits * 10 ^ d.exponent

theorem value_trim (d : Decimal) : d.trim.value = d.value := by
  unfold trim
  split
  next last =>
    unfold value
    dsimp only
    obtain ⟨n, same⟩ : ∃ n, d.digits = 10 * n := ⟨d.digits / 10, by omega⟩
    rw [same, Nat.mul_div_cancel_left _ (by decide), zpow_add₀ (by norm_num)]
    push_cast
    ring
  · rfl

namespace Rounding

variable {m : Nat} {e : Int}

/-- The number over the denominator is the number. -/
theorem num_div_den (m : Nat) (e : Int) : ((of m e).num / (of m e).den : ℚ) = m * 2 ^ e := by
  have two : (2 : ℚ) ≠ 0 := two_ne_zero
  simp only [of]
  push_cast [Nat.pow_eq]
  rw [zpow_toNat two e]
  field_simp

theorem den_pos (m : Nat) (e : Int) : 0 < (of m e).den := by simp [of]

/-- What the search admits is what the number's interval holds. -/
theorem admits_iff (m : Nat) (e : Int) (digits : Nat) (exponent : Int) :
    (of m e).admits digits exponent = true ↔ Near m e (digits * 10 ^ exponent) := by
  have ten : (10 : ℚ) ≠ 0 := by norm_num
  have two : (2 : ℚ) ≠ 0 := two_ne_zero
  have closing : (of m e).closed = true ↔ m % 2 = 0 := by simp [of]
  have low_eq : (of m e).low = lowEnd m e * 2 ^ e.toNat := by
    unfold of lowEnd
    simp only [Nat.pow_eq]
  have den_eq : (of m e).den = 4 * 2 ^ (-e).toNat := rfl
  have high_eq : (of m e).high = (4 * m + 2) * 2 ^ e.toNat := rfl
  have unit : (0 : ℚ) < 2 ^ (-e).toNat := by positivity
  have scale : (0 : ℚ) < 10 ^ (-exponent).toNat := by positivity
  have lower (n : Nat) : n * 2 ^ e.toNat * 10 ^ (-exponent).toNat ≤
      digits * 10 ^ exponent.toNat * (4 * 2 ^ (-e).toNat) ↔
        (n * 2 ^ e : ℚ) ≤ 4 * (digits * 10 ^ exponent) := by
    rw [← Nat.cast_le (α := ℚ)]
    push_cast
    rw [zpow_toNat two e, zpow_toNat ten exponent,
      ← mul_le_mul_iff_of_pos_right (b := (n * 2 ^ e : ℚ)) (mul_pos unit scale)]
    ring_nf
  have upper (n : Nat) : digits * 10 ^ exponent.toNat * (4 * 2 ^ (-e).toNat) ≤
      n * 2 ^ e.toNat * 10 ^ (-exponent).toNat ↔
        4 * (digits * 10 ^ exponent : ℚ) ≤ n * 2 ^ e := by
    rw [← Nat.cast_le (α := ℚ)]
    push_cast
    rw [zpow_toNat two e, zpow_toNat ten exponent,
      ← mul_le_mul_iff_of_pos_right (c := (n * 2 ^ e : ℚ)) (mul_pos unit scale)]
    ring_nf
  unfold admits
  simp only [Nat.pow_eq, low_eq, high_eq, den_eq]
  split
  next even =>
    rw [decide_eq_true_iff, lower, upper]
    have even := closing.1 even
    exact ⟨fun ⟨low, high⟩ => ⟨low, high, by omega⟩, fun near => ⟨near.low, near.high⟩⟩
  next odd =>
    rw [closing] at odd
    rw [decide_eq_true_iff, ← Nat.not_le, ← Nat.not_le, upper, lower, not_le, not_le]
    exact ⟨fun ⟨low, high⟩ => ⟨low.le, high.le, fun _ => ⟨low, high⟩⟩,
      fun near => near.inside (by omega)⟩

theorem near_of_neighbour? {exponent : Int} {d : Decimal}
    (h : (of m e).neighbour? exponent = some d) : Near m e d.value := by
  unfold neighbour? at h
  dsimp only at h
  unfold value
  split at h
  next first second =>
    cases h
    rw [← admits_iff]
    dsimp only
    split
    · exact second
    · exact first
  next first _ => cases h; exact (admits_iff ..).1 first
  next _ second => cases h; exact (admits_iff ..).1 second
  · cases h

section Grid

variable {exponent : Int}

/-- The step of a fine grid is less than a unit of the number. -/
theorem step_lt_unit (proper : Proper m e) (fine : (10 : ℚ) ^ exponent * 10 ^ 16 ≤ m * 2 ^ e) :
    (10 : ℚ) ^ exponent < 2 ^ e := by
  have unit : (0 : ℚ) < 2 ^ e := by positivity
  have small : (m : ℚ) < 2 * 2 ^ 52 := by exact_mod_cast proper.lt
  nlinarith

/-- The interval goes further down than half a step of a fine grid. -/
theorem lowEnd_lt_of_fine (proper : Proper m e)
    (fine : (10 : ℚ) ^ exponent * 10 ^ 16 ≤ m * 2 ^ e) :
    lowEnd m e * 2 ^ e < 4 * (m * 2 ^ e) - 2 * (10 : ℚ) ^ exponent := by
  have unit : (0 : ℚ) < 2 ^ e := by positivity
  have positive := proper.pos
  unfold lowEnd
  split
  next narrow =>
    have least : (m : ℚ) = 2 ^ 52 := by
      rw [narrow.1, show fractionSize = 2 ^ 52 from rfl]
      norm_num
    have lower : ((4 * m - 1 : Nat) : ℚ) = 4 * m - 1 := by
      rw [Nat.cast_sub (by omega)]
      push_cast
      ring
    rw [least] at fine lower ⊢
    rw [lower]
    nlinarith
  next =>
    have lower : ((4 * m - 2 : Nat) : ℚ) = 4 * m - 2 := by
      rw [Nat.cast_sub (by omega)]
      push_cast
      ring
    rw [lower]
    nlinarith [step_lt_unit proper fine]

/-- A number lies between two neighbours on a grid, some part of a step above the lower one. -/
theorem exists_part (m : Nat) (e exponent : Int) :
    let below := (of m e).num * 10 ^ (-exponent).toNat / ((of m e).den * 10 ^ exponent.toNat)
    ∃ x : ℚ, (m * 2 ^ e : ℚ) = (below + x) * 10 ^ exponent ∧ 0 ≤ x ∧ x < 1 := by
  have ten : (10 : ℚ) ≠ 0 := by norm_num
  have step : (0 : ℚ) < 10 ^ exponent := by positivity
  set num := (of m e).num * 10 ^ (-exponent).toNat with num_eq
  set den := (of m e).den * 10 ^ exponent.toNat with den_eq
  have den_pos : 0 < den := Nat.mul_pos (den_pos m e) (by positivity)
  have den_pos' : (0 : ℚ) < den := by exact_mod_cast den_pos
  have quotient : (num / den : ℚ) * 10 ^ exponent = m * 2 ^ e := by
    rw [num_eq, den_eq]
    push_cast
    rw [div_zpow_toNat ten, num_div_den, div_mul_cancel₀ _ step.ne']
  have whole : (num : ℚ) = den * (num / den : Nat) + (num % den : Nat) := by
    exact_mod_cast (Nat.div_add_mod num den).symm
  have part : ((num % den : Nat) : ℚ) < den := by exact_mod_cast Nat.mod_lt num den_pos
  refine ⟨(num % den : Nat) / den, ?_, by positivity, by rwa [div_lt_one den_pos']⟩
  rw [← quotient]
  congr 1
  rw [whole]
  field_simp

/-- The nearer of the two neighbours on a fine grid is in the interval. -/
theorem admits_neighbour (proper : Proper m e)
    (fine : (10 : ℚ) ^ exponent * 10 ^ 16 ≤ m * 2 ^ e) {below : Nat} {x : ℚ}
    (between : (m * 2 ^ e : ℚ) = (below + x) * 10 ^ exponent) (nonneg : 0 ≤ x) (lt_one : x < 1) :
    (of m e).admits below exponent = true ∨ (of m e).admits (below + 1) exponent = true := by
  have step : (0 : ℚ) < 10 ^ exponent := by positivity
  have unit : (0 : ℚ) < 2 ^ e := by positivity
  have short := step_lt_unit proper fine
  have low := lowEnd_lt_of_fine proper fine
  rw [admits_iff, admits_iff]
  rcases le_total x (1 / 2) with near | far
  · refine .inl (.of_lt ?_ ?_)
    · nlinarith
    · push_cast
      nlinarith
  · refine .inr (.of_lt ?_ ?_)
    · push_cast
      nlinarith
    · push_cast
      nlinarith

/-- A grid with a step of less than half the interval has a point in it. -/
theorem neighbour?_isSome (proper : Proper m e)
    (fine : (10 : ℚ) ^ exponent * 10 ^ 16 ≤ m * 2 ^ e) :
    ((of m e).neighbour? exponent).isSome = true := by
  obtain ⟨x, between, nonneg, lt_one⟩ := exists_part m e exponent
  unfold neighbour?
  simp only [Nat.pow_eq]
  rcases admits_neighbour proper fine between nonneg lt_one with first | second
  · rw [first]
    cases (of m e).admits (_ / _ + 1) exponent <;> rfl
  · rw [second]
    cases (of m e).admits (_ / _) exponent <;> rfl

end Grid

/-- The search ends in the interval if one of the grids it comes to has a point there. -/
theorem near_search {steps n : Nat} {exponent : Int} (last : n < steps)
    (found : ((of m e).neighbour? (exponent - n)).isSome = true) :
    Near m e ((of m e).search steps exponent).value := by
  induction steps generalizing n exponent with
  | zero => exact absurd last (Nat.not_lt_zero _)
  | succ steps inductionHypothesis =>
    unfold search
    cases here : (of m e).neighbour? exponent with
    | some d => exact near_of_neighbour? here
    | none =>
      cases n with
      | zero => simp [here] at found
      | succ n =>
        refine inductionHypothesis (n := n) (Nat.lt_of_succ_lt_succ last) ?_
        rwa [Int.sub_sub, Int.add_comm 1 n]

/-- Stepping down from a place stops at a power that is no greater, or at the last step. -/
theorem leadingDigit_le {steps : Nat} {exponent : Int}
    (last : (10 : ℚ) ^ (exponent - steps) ≤ m * 2 ^ e) :
    (10 : ℚ) ^ (of m e).leadingDigit steps exponent ≤ m * 2 ^ e := by
  have ten : (10 : ℚ) ≠ 0 := by norm_num
  induction steps generalizing exponent with
  | zero => simpa [leadingDigit] using last
  | succ steps inductionHypothesis =>
    unfold leadingDigit
    split
    next fits =>
      have den' : (0 : ℚ) < (of m e).den := by exact_mod_cast den_pos m e
      rw [← num_div_den, le_div_iff₀ den']
      have fits : (10 ^ exponent.toNat * (of m e).den : ℚ) ≤
          (of m e).num * 10 ^ (-exponent).toNat := by exact_mod_cast fits
      rw [zpow_toNat ten exponent] at fits
      have scale : (0 : ℚ) < 10 ^ (-exponent).toNat := by positivity
      nlinarith
    next =>
      refine inductionHypothesis ?_
      rwa [show exponent - 1 - (steps : Int) = exponent - ((steps + 1 : Nat) : Int) by
        push_cast
        ring]

/-- Powers of ten below powers of two, by `10 ^ 3 ≤ 2 ^ 10`. -/
theorem ten_pow_le_two_pow {i j : Nat} (h : 10 * i ≤ 3 * j) : 10 ^ i ≤ 2 ^ j := by
  refine (Nat.pow_le_pow_iff_left (n := 3) (by decide)).1 ?_
  calc (10 ^ i) ^ 3 = (10 ^ 3) ^ i := by rw [← pow_mul, ← pow_mul, mul_comm]
    _ ≤ (2 ^ 10) ^ i := Nat.pow_le_pow_left (by decide) i
    _ = 2 ^ (10 * i) := (pow_mul 2 10 i).symm
    _ ≤ 2 ^ (j * 3) := Nat.pow_le_pow_right (by decide) (by omega)
    _ = (2 ^ j) ^ 3 := pow_mul 2 j 3

/-- Powers of two below powers of ten, by `2 ^ 93 ≤ 10 ^ 28`. -/
theorem two_pow_le_ten_pow {i j : Nat} (h : 28 * j ≤ 93 * i) : 2 ^ j ≤ 10 ^ i := by
  refine (Nat.pow_le_pow_iff_left (n := 93) (by decide)).1 ?_
  calc (2 ^ j) ^ 93 = (2 ^ 93) ^ j := by rw [← pow_mul, ← pow_mul, mul_comm]
    _ ≤ (10 ^ 28) ^ j := Nat.pow_le_pow_left (by decide) j
    _ = 10 ^ (28 * j) := (pow_mul 10 28 j).symm
    _ ≤ 10 ^ (i * 93) := Nat.pow_le_pow_right (by decide) (by omega)
    _ = (10 ^ i) ^ 93 := pow_mul 10 i 93

/-- The bound for the leading decimal digit is at most four places too high. -/
theorem ten_zpow_bound_le {k : Int} (low : -1074 ≤ k) (high : k ≤ 1024) :
    (10 : ℚ) ^ ((k + 1) * 30103 / 100000 + 1 - 4) ≤ 2 ^ k := by
  generalize bound : (k + 1) * 30103 / 100000 + 1 - 4 = n
  rcases Int.lt_or_le k 0 with negative | natural
  · obtain ⟨j, rfl⟩ : ∃ j : Nat, k = -j := ⟨(-k).toNat, by omega⟩
    obtain ⟨i, rfl⟩ : ∃ i : Nat, n = -i := ⟨(-n).toNat, by omega⟩
    rw [zpow_neg, zpow_neg, zpow_natCast, zpow_natCast]
    refine inv_anti₀ (by positivity) ?_
    exact_mod_cast two_pow_le_ten_pow (i := i) (j := j) (by omega)
  · obtain ⟨j, rfl⟩ : ∃ j : Nat, k = j := ⟨k.toNat, by omega⟩
    rw [zpow_natCast]
    rcases Int.lt_or_le n 0 with less | more
    · calc (10 : ℚ) ^ n ≤ 1 := zpow_le_one_of_nonpos₀ (by norm_num) less.le
        _ ≤ 2 ^ j := one_le_pow₀ one_le_two
    · obtain ⟨i, rfl⟩ : ∃ i : Nat, n = i := ⟨n.toNat, by omega⟩
      rw [zpow_natCast]
      exact_mod_cast ten_pow_le_two_pow (i := i) (j := j) (by omega)

/-- **Shortest decimals read back.**  The decimal found for a number lies in its interval. -/
theorem near_shortest (proper : Proper m e) : Near m e (of m e).shortest.value := by
  have ten : (10 : ℚ) ≠ 0 := by norm_num
  have num_pos : 0 < (of m e).num := by
    have := proper.pos
    simp only [of, Nat.pow_eq]
    positivity
  obtain ⟨below, above⟩ := leadingExponent_spec num_pos (den_pos m e)
  rw [num_div_den] at below above
  have least : -1074 ≤ leadingExponent (of m e).num (of m e).den := by
    have unit := proper.least_unit_le
    have one : (1 : ℚ) ≤ m := by exact_mod_cast proper.pos
    have less : (2 : ℚ) ^ minExponent < 2 ^ (leadingExponent (of m e).num (of m e).den + 1) := by
      refine lt_of_le_of_lt ?_ above
      nlinarith [zpow_pos (two_pos (α := ℚ)) minExponent]
    have := (zpow_lt_zpow_iff_right₀ one_lt_two).1 less
    have : minExponent = -1074 := rfl
    omega
  have most : leadingExponent (of m e).num (of m e).den ≤ 1024 := by
    have less := below.trans_lt ((Near.self proper).lt_top proper)
    exact ((zpow_lt_zpow_iff_right₀ one_lt_two).1 less).le
  have lead := @leadingDigit_le m e 4 _
    ((ten_zpow_bound_le least most).trans below)
  unfold shortest
  rw [value_trim]
  refine near_search (n := 16) (by decide) (neighbour?_isSome proper ?_)
  rw [zpow_sub₀ ten, show ((10 : ℚ) ^ ((16 : Nat) : Int)) = 10 ^ 16 from zpow_natCast _ _]
  rwa [div_mul_cancel₀ _ (by norm_num)]

end Rounding

end Decimal

end LuaChunk
