import LuaChunk.Proofs.Number.ReadBack
import Mathlib.Data.Int.ModEq
import Mathlib.Data.Nat.Digits.Defs

/-!
# Integers of sixty-four bits

The value of digits, however many there are.  Decimal digits are an integer as long as it fits a signed
word, and with a suffix as long as it fits a word; hexadecimal digits are the integer that they are
congruent to.  The three ways in which a numeral is read do not get in each other's way: a suffix keeps
digits from being an integer without one, and from being a float.
-/

set_option autoImplicit false

namespace LuaChunk.Numeral

variable {ds suffix : List Char}

/-! ## Suffixes -/

/-- `LL` or `ULL`, in any letter case. -/
def IsSuffix (cs : List Char) : Prop :=
  cs.map Char.toUpper = "LL".toList ∨ cs.map Char.toUpper = "ULL".toList

/-- A letter of a suffix. -/
def IsSuffixLetter (c : Char) : Prop := c ∈ ['L', 'l', 'U', 'u']

theorem eq_of_toUpper {c upper : Char} (lower : Char) (same : lower.toNat = upper.toNat + 32)
    (h : c.toUpper = upper) : c = upper ∨ c = lower := by
  unfold Char.toUpper at h
  split at h
  next small =>
    refine .inr (Char.toNat_inj.1 ?_)
    have value := congrArg Char.toNat h
    have low : 97 ≤ c.val.toNat ∧ c.val.toNat ≤ 122 := by
      simpa [UInt32.le_iff_toNat_le] using small
    have sum : (c.val + ('A'.val - 'a'.val)).toNat = upper.toNat := value
    rw [UInt32.toNat_add, show ('A'.val - 'a'.val).toNat = 2 ^ 32 - 32 from rfl] at sum
    change c.val.toNat = lower.toNat
    omega
  next => exact .inl h

theorem isSuffixLetter_of_toUpper {c : Char} (h : c.toUpper = 'L' ∨ c.toUpper = 'U') :
    IsSuffixLetter c := by
  rcases h with h | h
  · rcases eq_of_toUpper 'l' rfl h with rfl | rfl <;> simp [IsSuffixLetter]
  · rcases eq_of_toUpper 'u' rfl h with rfl | rfl <;> simp [IsSuffixLetter]

theorem IsSuffix.letter (h : IsSuffix suffix) : ∀ c ∈ suffix, IsSuffixLetter c := by
  intro c among
  have upper : c.toUpper ∈ suffix.map Char.toUpper := List.mem_map_of_mem among
  refine isSuffixLetter_of_toUpper ?_
  rcases h with same | same <;> rw [same] at upper <;> simp at upper <;> tauto

theorem IsSuffixLetter.hexDigit? {c : Char} (h : IsSuffixLetter c) : hexDigit? c = none := by
  simp only [IsSuffixLetter, List.mem_cons, List.not_mem_nil, or_false] at h
  rcases h with rfl | rfl | rfl | rfl <;> decide

theorem IsSuffix.ne_nil (h : IsSuffix suffix) : suffix ≠ [] := by
  rintro rfl
  rcases h with same | same <;> simp at same

/-- What stands before the suffix is found. -/
theorem IsSuffix.before (h : IsSuffix suffix) (other : ∀ c ∈ ds, ¬ IsSuffixLetter c) :
    (beforeSuffix? "ULL" (ds ++ suffix)).or (beforeSuffix? "LL" (ds ++ suffix)) = some ds := by
  have found {written : String} (same : suffix.map Char.toUpper = written.toList) :
      beforeSuffix? written (ds ++ suffix) = some ds := by
    have length : suffix.length = written.length := by
      rw [← String.length_toList, ← same, List.length_map]
    unfold beforeSuffix?
    rw [if_pos (by simp [same]), List.length_append, length, Nat.add_sub_cancel, List.take_left]
  rcases h with short | long
  · have none : beforeSuffix? "ULL" (ds ++ suffix) = Option.none := by
      refine if_neg fun ends => ?_
      rw [List.isSuffixOf_iff_suffix, List.map_append, short] at ends
      have last : ['U'] <:+ ds.map Char.toUpper := List.suffix_append_self_iff.1 ends
      obtain ⟨c, among, upper⟩ := List.mem_map.1 (last.subset (List.mem_singleton_self _))
      exact other c among (isSuffixLetter_of_toUpper (.inr upper))
    rw [none, found short, Option.none_or]
  · rw [found long, Option.some_or]

/-! ## Hexadecimal digits -/

theorem ofDigits_eq (base : Nat) (digits : List Nat) :
    ofDigits base digits = Nat.ofDigits base digits.reverse := by
  rw [ofDigits, Nat.ofDigits_eq_foldr, List.foldr_reverse]
  simp [Nat.add_comm, Nat.mul_comm]

/-- A hexadecimal digit of this value, in either letter case. -/
def IsHexDigit (c : Char) (value : Nat) : Prop :=
  value < 16 ∧ (c = value.digitChar ∨ c = value.digitChar.toUpper)

theorem IsHexDigit.hexDigit? {c : Char} {value : Nat} (h : IsHexDigit c value) :
    hexDigit? c = some value ∧ c.isAlphanum = true := by
  have all : ∀ value < 16, (Numeral.hexDigit? value.digitChar = some value ∧
      Numeral.hexDigit? value.digitChar.toUpper = some value) ∧
      value.digitChar.isAlphanum = true ∧ value.digitChar.toUpper.isAlphanum = true := by
    decide
  obtain ⟨⟨lower, upper⟩, part, part'⟩ := all value h.1
  rcases h.2 with rfl | rfl
  · exact ⟨lower, part⟩
  · exact ⟨upper, part'⟩

section Hexadecimal

variable {values : List Nat} (digits : List.Forall₂ IsHexDigit ds values)

include digits

theorem exists_isHexDigit {c : Char} (among : c ∈ ds) : ∃ value, IsHexDigit c value := by
  obtain ⟨i, inside, rfl⟩ := List.mem_iff_getElem.1 among
  exact ⟨_, digits.get inside (digits.length_eq ▸ inside)⟩

theorem mapM_hexDigit? : ds.mapM hexDigit? = some values := by
  induction digits with
  | nil => rfl
  | cons digit _ inductionHypothesis => simp [digit.hexDigit?.1, inductionHypothesis]

/-- Hexadecimal digits write a number. -/
theorem hexadecimal?_eq (some : ds ≠ []) :
    hexadecimal? ds = .some (Nat.ofDigits 16 values.reverse) := by
  have small : ∀ n ∈ values, n < 16 := ((List.forall₂_and_left values ds).1 digits.flip).1
  rw [hexadecimal?, digits?, if_neg (by simpa using some), mapM_hexDigit? digits]
  change (if _ then _ else _) = _
  rw [if_pos (by simpa using small), ofDigits_eq]

end Hexadecimal

theorem mapM_eq_none {c : Char} {cs : List Char} (among : c ∈ cs) (other : hexDigit? c = none) :
    cs.mapM hexDigit? = none := by
  cases read : cs.mapM hexDigit? with
  | none => rfl
  | some values =>
    obtain ⟨n, -, digit⟩ := exists_of_mapM read among
    rw [other] at digit
    cases digit

theorem digits?_eq_none {base : Nat} {c : Char} {cs : List Char} (among : c ∈ cs)
    (other : hexDigit? c = none) : digits? base cs = none := by
  unfold digits?
  split
  · rfl
  · rw [mapM_eq_none among other]
    rfl

/-! ## Decimal digits -/

/-- A character of decimal digits with a suffix. -/
def IsPlain (c : Char) : Prop := c.isDigit = true ∨ IsSuffixLetter c

theorem IsPlain.ne {c x : Char} (h : IsPlain c) (digit : x.isDigit = false)
    (letter : ¬ IsSuffixLetter x) : c ≠ x := by
  rintro rfl
  rcases h with isDigit | isLetter
  · simp [isDigit] at digit
  · exact letter isLetter

section Plain

variable {cs : List Char} (plain : ∀ c ∈ cs, IsPlain c)

include plain

theorem afterHexMark?_plain : afterHexMark? cs = none := by
  refine afterHexMark?_eq_none fun c among => ?_
  have shape := plain c (List.mem_of_getElem? among)
  exact ⟨shape.ne rfl (by simp [IsSuffixLetter]), shape.ne rfl (by simp [IsSuffixLetter])⟩

/-- Without a point and an exponent only digits are a float. -/
theorem float?_plain : float? cs = (decimal? cs).map fun n => .ofDecimal n 0 := by
  have exponent : splitAtFirst (fun c => c = 'e' || c = 'E') cs = (cs, none) := by
    refine splitAtFirst_eq_self fun c among => ?_
    have first : c ≠ 'e' := (plain c among).ne rfl (by simp [IsSuffixLetter])
    have second : c ≠ 'E' := (plain c among).ne rfl (by simp [IsSuffixLetter])
    simp [first, second]
  have point : splitAtFirst (· = '.') cs = (cs, none) := by
    refine splitAtFirst_eq_self fun c among => ?_
    have other : c ≠ '.' := (plain c among).ne rfl (by simp [IsSuffixLetter])
    simp [other]
  simp only [float?, afterHexMark?_plain plain, decimalFloat?, exponent, point]
  cases h : decimal? cs <;> simp [h]

end Plain

section Decimal

variable (some : ds ≠ []) (digits : ∀ c ∈ ds, c.isDigit = true)

include some digits

/-- Digits are an integer as long as it fits a signed word, and a float beyond that. -/
theorem read?_digits : read? (String.ofList ds) = .some
    (if Nat.ofDigitChars 10 ds 0 < 2 ^ 63 then .integer (Int64.ofNat (Nat.ofDigitChars 10 ds 0))
      else .float (.ofDecimal (Nat.ofDigitChars 10 ds 0) 0)) := by
  have plain : ∀ c ∈ ds, IsPlain c := fun c among => .inl (digits c among)
  rw [read?, String.toList_ofList, float?_plain plain, integer?, afterHexMark?_plain plain]
  dsimp only
  rw [decimal?_eq some digits, Option.bind_some]
  split
  next small =>
    rw [if_pos (show _ < 2 ^ 63 from small)]
    rfl
  next large =>
    rw [if_neg (show ¬ _ < 2 ^ 63 from large)]
    rfl

/-- With a suffix digits are an integer as long as it fits a word, and no number beyond that. -/
theorem read?_suffixed (h : IsSuffix suffix) : read? (String.ofList (ds ++ suffix)) =
    if Nat.ofDigitChars 10 ds 0 < 2 ^ 64 then
      .some (.integer (Int64.ofNat (Nat.ofDigitChars 10 ds 0)))
    else none := by
  have own : ∀ c ∈ ds, IsPlain c := fun c among => .inl (digits c among)
  have plain : ∀ c ∈ ds ++ suffix, IsPlain c :=
    List.forall_mem_append.2 ⟨own, fun c among => .inr (h.letter c among)⟩
  have unread : decimal? (ds ++ suffix) = none := by
    obtain ⟨c, among⟩ := List.exists_mem_of_ne_nil suffix h.ne_nil
    exact digits?_eq_none (List.mem_append_right ds among) (h.letter c among).hexDigit?
  have before : ∀ c ∈ ds, ¬ IsSuffixLetter c := by
    intro c among letter
    have digit := hexDigit?_of_isDigit (digits c among)
    rw [letter.hexDigit?] at digit
    cases digit
  rw [read?, String.toList_ofList, float?_plain plain, integer?, afterHexMark?_plain plain]
  dsimp only
  rw [unread, suffixed?, h.before before]
  dsimp only [Option.bind_eq_bind, Option.bind_some]
  rw [afterHexMark?_plain own]
  dsimp only
  rw [decimal?_eq some digits, Option.bind_some]
  split
  next small =>
    rw [if_pos (show _ < 2 ^ 64 from small)]
    rfl
  next large =>
    rw [if_neg (show ¬ _ < 2 ^ 64 from large)]
    rfl

end Decimal

/-- **Integers read back.**  The text of a number is read as it, or as a float if it does not fit. -/
theorem read?_toString (n : Nat) : read? (toString n) =
    .some (if n < 2 ^ 63 then .integer (Int64.ofNat n) else .float (.ofDecimal n 0)) := by
  have read := read?_digits (Nat.toDigits_ne_nil (n := n)) (digits_toDigits n)
  rw [Nat.ofDigitChars_toDigits (by decide) (by decide)] at read
  rw [Nat.toString_eq_ofList_toDigits, read]

/-! ## Hexadecimal digits with a suffix -/

theorem afterHexMark?_marked {mark : Char} (marked : mark = 'x' ∨ mark = 'X') (rest : List Char) :
    afterHexMark? ('0' :: mark :: rest) = some rest := by
  rcases marked with rfl | rfl <;> rfl

section Marked

variable {mark : Char} {values : List Nat} (marked : mark = 'x' ∨ mark = 'X')
  (digits : List.Forall₂ IsHexDigit ds values)

include digits

theorem hexDigit?_ne_none {c : Char} (among : c ∈ ds) : hexDigit? c ≠ none := by
  obtain ⟨n, isDigit⟩ := exists_isHexDigit digits among
  exact isDigit.hexDigit?.1 ▸ Option.some_ne_none n

/-- Neither digits nor a suffix hold another character. -/
theorem ne_of_mem_suffixed (h : IsSuffix suffix) {x : Char} (noDigit : hexDigit? x = none)
    (noLetter : ¬ IsSuffixLetter x) : ∀ c ∈ ds ++ suffix, c ≠ x := by
  rintro c among rfl
  rcases List.mem_append.1 among with early | late
  · exact hexDigit?_ne_none digits early noDigit
  · exact noLetter (h.letter c late)

include marked

/-- A suffix keeps hexadecimal digits from being a float. -/
theorem float?_hexadecimal (h : IsSuffix suffix) :
    float? ('0' :: mark :: (ds ++ suffix)) = none := by
  obtain ⟨c, among⟩ := List.exists_mem_of_ne_nil suffix h.ne_nil
  have unread := mapM_eq_none (List.mem_append_right ds among) (h.letter c among).hexDigit?
  have exponent : splitAtFirst (fun c => c = 'p' || c = 'P') (ds ++ suffix) =
      (ds ++ suffix, none) := by
    refine splitAtFirst_eq_self fun c among => ?_
    have first : c ≠ 'p' :=
      ne_of_mem_suffixed digits h (by decide) (by simp [IsSuffixLetter]) c among
    have second : c ≠ 'P' :=
      ne_of_mem_suffixed digits h (by decide) (by simp [IsSuffixLetter]) c among
    simp [first, second]
  have point : splitAtFirst (· = '.') (ds ++ suffix) = (ds ++ suffix, none) := by
    refine splitAtFirst_eq_self fun c among => ?_
    have other : c ≠ '.' :=
      ne_of_mem_suffixed digits h (by decide) (by simp [IsSuffixLetter]) c among
    simp [other]
  simp only [float?, afterHexMark?_marked marked, hexFloat?, exponent, point]
  simp [unread]

/-- No letter of a suffix stands before the suffix. -/
theorem not_isSuffixLetter_of_mem : ∀ c ∈ '0' :: mark :: ds, ¬ IsSuffixLetter c := by
  refine List.forall_mem_cons.2 ⟨by simp [IsSuffixLetter], List.forall_mem_cons.2 ⟨?_, ?_⟩⟩
  · rcases marked with rfl | rfl <;> simp [IsSuffixLetter]
  · exact fun c among letter => hexDigit?_ne_none digits among letter.hexDigit?

/-- Hexadecimal digits are an integer, with a suffix or without. -/
theorem read?_hexadecimal (some : ds ≠ []) (h : suffix = [] ∨ IsSuffix suffix) :
    read? (String.ofList ('0' :: mark :: ds ++ suffix)) =
      .some (.integer (Int64.ofNat (Nat.ofDigits 16 values.reverse))) := by
  have after := afterHexMark?_marked marked
  have value := hexadecimal?_eq digits some
  rw [read?, String.toList_ofList, List.cons_append, List.cons_append, integer?, after]
  dsimp only
  rcases h with rfl | h
  · rw [List.append_nil, value]
    rfl
  · obtain ⟨c, among⟩ := List.exists_mem_of_ne_nil suffix h.ne_nil
    have unread : hexadecimal? (ds ++ suffix) = none :=
      digits?_eq_none (List.mem_append_right ds among) (h.letter c among).hexDigit?
    have found := h.before (not_isSuffixLetter_of_mem marked digits)
    rw [List.cons_append, List.cons_append] at found
    rw [unread, float?_hexadecimal marked digits h, suffixed?, found]
    dsimp only [Option.bind_eq_bind, Option.bind_some]
    rw [after]
    dsimp only
    rw [value]
    rfl

end Marked

/-! ## Words -/

/-- The word of a number is congruent to it. -/
theorem toInt_ofNat_modEq (n : Nat) : (Int64.ofNat n).toInt ≡ n [ZMOD 2 ^ 64] := by
  rw [Int64.toInt_ofNat']
  exact Int.bmod_emod

/-- No other word is congruent to it. -/
theorem eq_of_toInt_modEq {i j : Int64} (h : i.toInt ≡ j.toInt [ZMOD 2 ^ 64]) : i = j := by
  have low := i.le_toInt
  have high := i.toInt_lt
  have low' := j.le_toInt
  have high' := j.toInt_lt
  refine Int64.toInt_inj.1 ?_
  unfold Int.ModEq at h
  omega

end LuaChunk.Numeral
