import LuaChunk.Number.Numeral
import LuaChunk.Proofs.Number.Shortest

/-!
# Written numbers read back

The text of a number is a numeral with that number as its value.  A decimal is taken apart into its
digits before and after the point and its exponent; whichever of its forms it is written in, they
make up the same rational.
-/

set_option autoImplicit false

namespace LuaChunk

namespace Numeral

/-! ## Digits -/

theorem hexDigit?_of_isDigit {c : Char} (h : c.isDigit = true) :
    hexDigit? c = some (c.toNat - '0'.toNat) := by
  rw [hexDigit?, if_pos h]

theorem digit_lt {c : Char} (h : c.isDigit = true) : c.toNat - '0'.toNat < 10 := by
  have bounds : '0'.toNat ≤ c.toNat ∧ c.toNat ≤ '9'.toNat := by
    simpa [Char.isDigit, UInt32.le_iff_toNat_le] using h
  have : '0'.toNat = 48 := rfl
  have : '9'.toNat = 57 := rfl
  omega

/-- Decimal digits write a number. -/
theorem decimal?_eq {cs : List Char} (some : cs ≠ []) (digits : ∀ c ∈ cs, c.isDigit = true) :
    decimal? cs = .some (Nat.ofDigitChars 10 cs 0) := by
  have read : cs.mapM hexDigit? = .some (cs.map fun c => c.toNat - '0'.toNat) := by
    clear some
    induction cs with
    | nil => rfl
    | cons c cs inductionHypothesis =>
      rw [List.mapM_cons, hexDigit?_of_isDigit (digits c List.mem_cons_self),
        inductionHypothesis fun d among => digits d (.tail _ among)]
      rfl
  have small : (cs.map fun c => c.toNat - '0'.toNat).all (· < 10) = true := by
    simpa using fun c among => digit_lt (digits c among)
  have value : ofDigits 10 (cs.map fun c => c.toNat - '0'.toNat) = Nat.ofDigitChars 10 cs 0 := by
    rw [ofDigits, List.foldl_map, Nat.ofDigitChars_eq_foldl]
    simp only [Nat.mul_comm]
  rw [decimal?, digits?, if_neg (by simpa using some), read]
  change (if _ then _ else _) = _
  rw [if_pos small, value]

theorem exists_of_mapM {α β : Type} {f : α → Option β} {as : List α} {bs : List β}
    (h : as.mapM f = some bs) {a : α} (among : a ∈ as) : ∃ b ∈ bs, f a = some b := by
  induction as generalizing bs with
  | nil => cases among
  | cons first as inductionHypothesis =>
    simp only [List.mapM_cons, Option.bind_eq_bind, Option.bind_eq_some_iff, Option.pure_def,
      Option.some.injEq] at h
    obtain ⟨b, found, rest, later, rfl⟩ := h
    rcases List.mem_cons.1 among with rfl | among
    · exact ⟨b, List.mem_cons_self, found⟩
    · obtain ⟨c, member, same⟩ := inductionHypothesis later among
      exact ⟨c, .tail _ member, same⟩

/-- A character that is no decimal digit keeps a text from being a decimal number. -/
theorem decimal?_eq_none {cs : List Char} {c : Char} (among : c ∈ cs)
    (other : ∀ n, hexDigit? c = some n → 10 ≤ n) : decimal? cs = none := by
  rw [decimal?, digits?, if_neg (by grind)]
  cases read : cs.mapM hexDigit? with
  | none => rfl
  | some digits =>
    obtain ⟨n, found, reads⟩ := exists_of_mapM read among
    refine if_neg fun all => ?_
    have small : n < 10 := by simpa using List.all_eq_true.1 all n found
    exact absurd (other n reads) (Nat.not_le_of_lt small)

theorem digits_toDigits (n : Nat) : ∀ c ∈ Nat.toDigits 10 n, c.isDigit = true :=
  fun _ among => Nat.isDigit_of_mem_toDigits (by decide) (by decide) among

theorem decimal?_toDigits (n : Nat) : decimal? (Nat.toDigits 10 n) = some n := by
  rw [decimal?_eq Nat.toDigits_ne_nil (digits_toDigits n),
    Nat.ofDigitChars_toDigits (by decide) (by decide)]

theorem toList_toString_nat (n : Nat) : (toString n).toList = Nat.toDigits 10 n := by
  rw [Nat.toString_eq_ofList_toDigits, String.toList_ofList]

theorem toList_toString_int (x : Int) :
    (toString x).toList = (if x < 0 then ['-'] else []) ++ Nat.toDigits 10 x.natAbs := by
  cases x with
  | ofNat n => exact toList_toString_nat n
  | negSucc n =>
    change ("-" ++ toString (n + 1)).toList = _
    rw [String.toList_append, toList_toString_nat, if_pos (Int.negSucc_lt_zero n)]
    rfl

/-- A number with its sign reads back. -/
theorem signed?_toString (x : Int) : signed? (toString x).toList = some x := by
  rw [toList_toString_int]
  split
  next negative =>
    rw [List.singleton_append, signed?, decimal?_toDigits]
    exact congrArg some (show -(x.natAbs : Int) = x by omega)
  next natural =>
    have first : ∀ c ∈ Nat.toDigits 10 x.natAbs, c ≠ '-' ∧ c ≠ '+' := by
      intro c among
      have digit := digits_toDigits _ c among
      constructor <;> (rintro rfl; exact absurd digit (by decide))
    have reads := decimal?_toDigits x.natAbs
    rw [List.nil_append]
    generalize Nat.toDigits 10 x.natAbs = cs at *
    unfold signed?
    split
    · exact absurd rfl (first '-' List.mem_cons_self).1
    · exact absurd rfl (first '+' List.mem_cons_self).2
    · rw [reads]
      exact congrArg some (by simp only [Int.ofNat_eq_natCast]; omega)

/-- What begins with two characters that are no mark is not hexadecimal. -/
theorem afterHexMark?_eq_none {cs : List Char} (h : ∀ c ∈ cs[1]?, c ≠ 'x' ∧ c ≠ 'X') :
    afterHexMark? cs = none := by
  unfold afterHexMark?
  split
  · exact absurd rfl (h 'x' rfl).1
  · exact absurd rfl (h 'X' rfl).2
  · rfl

/-! ## Decimal floats -/

theorem splitAtFirst_append {p : Char → Bool} {before rest : List Char} {c : Char}
    (h : ∀ d ∈ before, p d = false) (k : p c = true) :
    splitAtFirst p (before ++ c :: rest) = (before, some rest) := by
  have all : ∀ d ∈ before, (!p d) = true := by simpa using h
  rw [splitAtFirst, List.dropWhile_append_of_pos all]
  simp [List.takeWhile_append_of_pos all, k]

theorem splitAtFirst_eq_self {p : Char → Bool} {cs : List Char} (h : ∀ d ∈ cs, p d = false) :
    splitAtFirst p cs = (cs, none) := by
  have all : cs.dropWhile (!p ·) = [] := List.dropWhile_eq_nil_iff.2 (by simpa using h)
  rw [splitAtFirst, all]

/-- A decimal float taken apart: the digits before the point, those after it, and the exponent. -/
structure Writing where
  whole : List Char
  part : Option (List Char)
  exponent : Option Int

namespace Writing

def mantissa (w : Writing) : List Char := w.whole ++ w.part.elim [] ('.' :: ·)

def chars (w : Writing) : List Char :=
  w.mantissa ++ w.exponent.elim [] fun x => 'e' :: (toString x).toList

/-- Digits are where digits should be, and the text is not that of an integer. -/
structure Sound (w : Writing) : Prop where
  some : w.whole ≠ []
  whole : ∀ c ∈ w.whole, c.isDigit = true
  part : ∀ cs ∈ w.part, ∀ c ∈ cs, c.isDigit = true
  marked : w.part ≠ none ∨ w.exponent ≠ none

def digits (w : Writing) : Nat := Nat.ofDigitChars 10 (w.whole ++ w.part.getD []) 0

def place (w : Writing) : Int := w.exponent.getD 0 - (w.part.getD []).length

variable {w : Writing}

theorem Sound.digit (h : w.Sound) : ∀ c ∈ w.whole ++ w.part.getD [], c.isDigit = true := by
  intro c among
  rcases List.mem_append.1 among with first | second
  · exact h.whole c first
  · cases same : w.part with
    | none => simp [same] at second
    | some cs => exact h.part cs same c (by simpa [same] using second)

theorem Sound.mantissa (h : w.Sound) : ∀ c ∈ w.mantissa, c.isDigit = true ∨ c = '.' := by
  intro c among
  rcases List.mem_append.1 among with first | second
  · exact .inl (h.whole c first)
  · cases same : w.part with
    | none => simp [same] at second
    | some cs =>
      rw [same] at second
      rcases List.mem_cons.1 second with point | later
      · exact .inr point
      · exact .inl (h.part cs same c later)

theorem decimalFloat?_chars (h : w.Sound) :
    decimalFloat? w.chars = some (.ofDecimal w.digits w.place) := by
  have exponent : splitAtFirst (fun c => c = 'e' || c = 'E') w.chars =
      (w.mantissa, w.exponent.map fun x => (toString x).toList) := by
    have plain : ∀ c ∈ w.mantissa, (decide (c = 'e') || decide (c = 'E')) = false := by
      intro c among
      rcases h.mantissa c among with digit | rfl
      · have first : c ≠ 'e' := by rintro rfl; exact absurd digit (by decide)
        have second : c ≠ 'E' := by rintro rfl; exact absurd digit (by decide)
        simp [first, second]
      · decide
    rw [chars]
    cases w.exponent with
    | none =>
      rw [Option.elim_none, List.append_nil]
      exact splitAtFirst_eq_self plain
    | some x => exact splitAtFirst_append plain (by decide)
  have point : splitAtFirst (fun c => decide (c = '.')) w.mantissa = (w.whole, w.part) := by
    have plain : ∀ c ∈ w.whole, decide (c = '.') = false := by
      intro c among
      have digit := h.whole c among
      have other : c ≠ '.' := by rintro rfl; exact absurd digit (by decide)
      simp [other]
    rw [Writing.mantissa]
    cases w.part with
    | none =>
      rw [Option.elim_none, List.append_nil]
      exact splitAtFirst_eq_self plain
    | some cs => exact splitAtFirst_append plain (by decide)
  have some : w.whole ++ w.part.getD [] ≠ [] := by
    simpa using fun empty => absurd empty h.some
  unfold decimalFloat?
  rw [exponent]
  dsimp only
  rw [point]
  dsimp only
  rw [decimal?_eq some h.digit]
  cases same : w.exponent with
  | none => simp [digits, place, same]
  | some x =>
    simp only [Option.map_some, signed?_toString, digits, place, same, Option.getD_some]
    rfl

theorem Sound.char (h : w.Sound) :
    ∀ c ∈ w.chars, c.isDigit = true ∨ c = '.' ∨ c = 'e' ∨ c = '-' := by
  intro c among
  rcases List.mem_append.1 among with first | second
  · exact (h.mantissa c first).imp_right .inl
  · cases same : w.exponent with
    | none => simp [same] at second
    | some x =>
      rw [same] at second
      rcases List.mem_cons.1 second with mark | later
      · exact .inr (.inr (.inl mark))
      · rw [toList_toString_int] at later
        rcases List.mem_append.1 later with sign | digit
        · split at sign
          · exact .inr (.inr (.inr (List.mem_singleton.1 sign)))
          · cases sign
        · exact .inl (digits_toDigits _ c digit)

theorem Sound.second (h : w.Sound) : ∀ c ∈ w.chars[1]?, c ≠ 'x' ∧ c ≠ 'X' := by
  intro c at_one
  have shape := h.char c (List.mem_of_getElem? at_one)
  constructor
  · rintro rfl
    revert shape
    decide
  · rintro rfl
    revert shape
    decide

theorem read?_chars (h : w.Sound) :
    read? (String.ofList w.chars) = some (.float (.ofDecimal w.digits w.place)) := by
  have none : afterHexMark? w.chars = none := afterHexMark?_eq_none h.second
  have noInteger : integer? w.chars = Option.none := by
    rw [integer?, none]
    have other : ∃ c ∈ w.chars, ∀ n, hexDigit? c = some n → 10 ≤ n := by
      rcases h.marked with point | mark
      · obtain ⟨cs, same⟩ := Option.ne_none_iff_exists'.1 point
        exact ⟨'.', by simp [chars, mantissa, same], by decide⟩
      · obtain ⟨x, same⟩ := Option.ne_none_iff_exists'.1 mark
        refine ⟨'e', by simp [chars, same], ?_⟩
        rintro n reads
        cases reads
        decide
    obtain ⟨c, among, other⟩ := other
    dsimp only
    rw [decimal?_eq_none among other]
    rfl
  rw [read?, String.toList_ofList, noInteger, float?, none]
  dsimp only
  rw [decimalFloat?_chars h]
  rfl

end Writing

end Numeral

namespace Decimal

open Numeral

/-- The form in which a decimal is written. -/
def writing (d : Decimal) : Writing :=
  let digits := Nat.toDigits 10 d.digits
  let point : Int := digits.length + d.exponent
  if -3 ≤ point ∧ point ≤ 0 then
    ⟨['0'], some (List.replicate (-point).toNat '0' ++ digits), none⟩
  else if 0 < point ∧ point ≤ 16 then
    let whole := digits.take point.toNat
    let part := digits.drop point.toNat
    ⟨whole ++ List.replicate (point.toNat - whole.length) '0',
      some (if part.isEmpty then ['0'] else part), none⟩
  else
    ⟨digits.take 1, if (digits.drop 1).isEmpty then none else some (digits.drop 1),
      some (point - 1)⟩

theorem text_eq (d : Decimal) : d.text = String.ofList d.writing.chars := by
  rw [← String.toList_inj, String.toList_ofList]
  unfold text layout writing
  dsimp only
  rw [toList_toString_nat]
  generalize Nat.toDigits 10 d.digits = digits
  generalize (digits.length + d.exponent : Int) = point
  split
  · simp [Writing.chars, Writing.mantissa]
  · split
    · simp [Writing.chars, Writing.mantissa]
      split <;> simp
    · simp [Writing.chars, Writing.mantissa]
      split <;> simp

theorem sound_writing (d : Decimal) : d.writing.Sound := by
  have digit := digits_toDigits d.digits
  have some : Nat.toDigits 10 d.digits ≠ [] := Nat.toDigits_ne_nil
  unfold writing
  dsimp only
  generalize Nat.toDigits 10 d.digits = digits at *
  generalize (digits.length + d.exponent : Int) = point
  have zero : ∀ n, ∀ c ∈ List.replicate n '0', c.isDigit = true := by
    intro n c among
    rw [List.eq_of_mem_replicate among]
    rfl
  split
  · constructor
    · simp
    · simp
    · simp only [Option.mem_def, Option.some.injEq, forall_eq']
      intro c among
      rcases List.mem_append.1 among with first | second
      · exact zero _ c first
      · exact digit c second
    · simp
  split
  next inner =>
    constructor
    · have : digits.take point.toNat ≠ [] := by
        simp only [ne_eq, List.take_eq_nil_iff, not_or]
        exact ⟨by omega, some⟩
      simp [this]
    · intro c among
      rcases List.mem_append.1 among with first | second
      · exact digit c (List.mem_of_mem_take first)
      · exact zero _ c second
    · simp only [Option.mem_def, Option.some.injEq, forall_eq']
      split
      · simp
      · exact fun c among => digit c (List.mem_of_mem_drop among)
    · simp
  next =>
    constructor
    · simpa using some
    · exact fun c among => digit c (List.mem_of_mem_take among)
    · intro cs same c among
      split at same
      · cases same
      · cases same
        exact digit c (List.mem_of_mem_drop among)
    · simp

/-! ### The values of the forms -/

theorem ofDigitChars_leading (n : Nat) (cs : List Char) :
    Nat.ofDigitChars 10 (List.replicate n '0' ++ cs) 0 = Nat.ofDigitChars 10 cs 0 := by
  rw [Nat.ofDigitChars_append, Nat.ofDigitChars_replicate_zero, Nat.mul_zero]

theorem ofDigitChars_padded (cs : List Char) (n : Nat) :
    Nat.ofDigitChars 10 (cs ++ List.replicate n '0') 0 = Nat.ofDigitChars 10 cs 0 * 10 ^ n := by
  rw [Nat.ofDigitChars_append, Nat.ofDigitChars_replicate_zero]
  ring

section Forms

variable (digits : List Char) (point : Nat)

/-- Digits that end before the point, or just there, are followed by zeros up to it and one more. -/
theorem value_whole (short : digits.length ≤ point) :
    let w : Writing := ⟨digits ++ List.replicate (point - digits.length) '0', some ['0'], none⟩
    (w.digits * 10 ^ w.place : ℚ) =
      Nat.ofDigitChars 10 digits 0 * 10 ^ ((point : Int) - digits.length) := by
  have ten : (10 : ℚ) ≠ 0 := by norm_num
  have places : (point : Int) - digits.length =
      (point - digits.length + 1 : Nat) + (0 - ((1 : Nat) : Int)) := by omega
  simp only [Writing.digits, Writing.place, Option.getD_some, Option.getD_none,
    show ['0'] = List.replicate 1 '0' from rfl, List.append_assoc, List.replicate_append_replicate,
    ofDigitChars_padded, List.length_replicate]
  rw [places, zpow_add₀ ten, zpow_natCast]
  push_cast
  ring

/-- Others have the point among them. -/
theorem value_split (long : point ≤ digits.length) :
    let w : Writing := ⟨digits.take point, some (digits.drop point), none⟩
    (w.digits * 10 ^ w.place : ℚ) =
      Nat.ofDigitChars 10 digits 0 * 10 ^ ((point : Int) - digits.length) := by
  simp only [Writing.digits, Writing.place, Option.getD_some, Option.getD_none,
    List.take_append_drop, List.length_drop]
  congr 2
  omega

/-- The point may come after the first digit, with an exponent that moves it to its place. -/
theorem value_scientific (some : digits ≠ []) (exponent : Int) :
    let w : Writing := ⟨digits.take 1,
      if (digits.drop 1).isEmpty then none else .some (digits.drop 1), .some exponent⟩
    (w.digits * 10 ^ w.place : ℚ) =
      Nat.ofDigitChars 10 digits 0 * 10 ^ (exponent + 1 - digits.length) := by
  have length := List.length_pos_iff.2 some
  have part : (if (digits.drop 1).isEmpty then none else Option.some (digits.drop 1)).getD [] =
      digits.drop 1 := by
    split
    next last => simpa using (List.isEmpty_iff.1 last).symm
    next => rfl
  simp only [Writing.digits, Writing.place, part, List.take_append_drop, Option.getD_some,
    List.length_drop]
  congr 2
  omega

end Forms

/-- Each form writes the same rational. -/
theorem value_writing (d : Decimal) :
    (d.writing.digits * 10 ^ d.writing.place : ℚ) = d.value := by
  have reads : Nat.ofDigitChars 10 (Nat.toDigits 10 d.digits) 0 = d.digits :=
    Nat.ofDigitChars_toDigits (by decide) (by decide)
  have some : Nat.toDigits 10 d.digits ≠ [] := Nat.toDigits_ne_nil
  unfold writing value
  dsimp only
  generalize Nat.toDigits 10 d.digits = digits at *
  rw [← reads]
  generalize total : (digits.length + d.exponent : Int) = point
  rw [show d.exponent = point - digits.length by omega]
  split
  next =>
    simp only [Writing.digits, Writing.place, Option.getD_some, Option.getD_none,
      show ['0'] = List.replicate 1 '0' from rfl, ofDigitChars_leading, List.length_append,
      List.length_replicate]
    congr 2
    push_cast
    omega
  split
  next inner =>
    obtain ⟨n, rfl⟩ := Int.eq_ofNat_of_zero_le inner.1.le
    rw [Int.toNat_natCast]
    split
    next last =>
      have short : digits.length ≤ n := by
        simpa only [List.isEmpty_iff, List.drop_eq_nil_iff] using last
      rw [List.take_of_length_le short]
      exact value_whole digits n short
    next more =>
      have long : n ≤ digits.length := by
        simp only [List.isEmpty_iff, List.drop_eq_nil_iff] at more
        omega
      rw [List.length_take_of_le long, Nat.sub_self, List.replicate_zero, List.append_nil]
      exact value_split digits n long
  next => simpa only [Int.sub_add_cancel] using value_scientific digits some (point - 1)

end Decimal

namespace Binary64

open Numeral

/-- How a number that is neither infinite nor negative is written. -/
def writing (m : Nat) (e : Int) : Writing :=
  if m = 0 then ⟨['0'], some ['0'], none⟩ else (Decimal.Rounding.of m e).shortest.writing

theorem sound_writing (m : Nat) (e : Int) : (writing m e).Sound := by
  unfold writing
  split
  · constructor <;> simp
  · exact Decimal.sound_writing _

theorem text_eq {x : Binary64} {m : Nat} {e : Int} (h : x.meaning = .finite false m e) :
    x.text = String.ofList (writing m e).chars := by
  unfold text writing
  rw [h]
  dsimp only
  rw [if_neg Bool.false_ne_true]
  split
  · decide
  · exact Decimal.text_eq _

/-- **Floats read back.**  The text of a number that is neither infinite nor negative is a numeral
with the number as its value. -/
theorem read?_text {x : Binary64} {m : Nat} {e : Int} (h : x.meaning = .finite false m e) :
    read? x.text = some (.float x) := by
  obtain ⟨packed, proper⟩ := pack_of_meaning h
  rw [text_eq h, Writing.read?_chars (sound_writing m e), ← packed]
  congr 2
  unfold writing
  split
  next zero =>
    rw [zero]
    rfl
  next some =>
    refine ofDecimal_eq (proper some) ?_
    rw [Decimal.value_writing]
    exact Decimal.Rounding.near_shortest (proper some)

end Binary64

end LuaChunk
