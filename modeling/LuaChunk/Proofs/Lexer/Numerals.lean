import LuaChunk.Proofs.Lexer.Words
import LuaChunk.Proofs.Number.ReadBack

/-!
# Written numbers as one token

The text of a number that is neither infinite nor negative is taken whole as a numeral.
-/

set_option autoImplicit false

namespace LuaChunk

open Numeral

namespace Lexeme

/-- Digits, points and the exponent mark are ASCII characters. -/
theorem ofChar_of_isDigit {c : Char} (h : c.isDigit = true) :
    Glyph.ofChar c = [.byte (Byte.of c)] ∧ Byte.isDigit (Byte.of c) = true := by
  have ascii : c.toNat < 0x80 := by
    have small := digit_lt h
    have : '0'.toNat = 48 := rfl
    omega
  have lf : c ≠ '\n' := by
    rintro rfl
    exact absurd h (by decide)
  have glyph := Glyph.ofChar_ascii ascii lf
  refine ⟨glyph, ?_⟩
  have byte : Byte.of c ∈ String.utf8EncodeChar c := by
    rw [← Glyph.code_ofChar, glyph]
    exact List.mem_singleton_self _
  rw [isDigit_of_mem _ byte, h]

theorem numeralBody_digit {c : Char} (h : c.isDigit = true) (sign : Bool) (rest : List Glyph) :
    numeralBody false sign (Glyph.ofChar c ++ rest) = numeralBody false false rest + 1 := by
  obtain ⟨glyph, digit⟩ := ofChar_of_isDigit h
  have mark : isExponentMark false (Byte.of c) = false := by
    have other {b : UInt8} (letter : Byte.isDigit b = false) : Byte.of c ≠ b := by
      rintro rfl
      simp [digit] at letter
    simp [isExponentMark, other (b := Byte.of 'e') (by decide), other (b := Byte.of 'E') (by decide)]
  rw [glyph, List.singleton_append, numeralBody, Glyph.code, mark, if_neg Bool.false_ne_true]
  simp [Byte.isHexDigit, digit]

/-- Digits and points belong to a numeral. -/
theorem numeralBody_mantissa {cs : List Char} (h : ∀ c ∈ cs, c.isDigit = true ∨ c = '.')
    (rest : List Glyph) :
    numeralBody false false (Glyph.ofText cs ++ rest) =
      numeralBody false false rest + (Glyph.ofText cs).length := by
  induction cs with
  | nil => rfl
  | cons c cs inductionHypothesis =>
    have later := inductionHypothesis fun d among => h d (.tail _ among)
    rw [Glyph.ofText_cons, List.append_assoc]
    rcases h c List.mem_cons_self with digit | rfl
    · rw [numeralBody_digit digit, later, (ofChar_of_isDigit digit).1, List.length_append,
        List.length_singleton]
      omega
    · change numeralBody false false (Glyph.ofText cs ++ rest) + 1 = _
      rw [later, List.length_append, show (Glyph.ofChar '.').length = 1 from rfl]
      omega

/-- An exponent belongs to the numeral, with the sign after its mark. -/
theorem numeralBody_exponent (x : Int) :
    numeralBody false false (Glyph.ofText ('e' :: (toString x).toList)) =
      (Glyph.ofText ('e' :: (toString x).toList)).length := by
  have digits : ∀ c ∈ Nat.toDigits 10 x.natAbs, c.isDigit = true := digits_toDigits _
  have some : Nat.toDigits 10 x.natAbs ≠ [] := Nat.toDigits_ne_nil
  rw [toList_toString_int]
  change numeralBody false true (Glyph.ofText _) + 1 = _ + 1
  congr 1
  generalize Nat.toDigits 10 x.natAbs = cs at *
  have whole : numeralBody false false (Glyph.ofText cs) = (Glyph.ofText cs).length := by
    have all := numeralBody_mantissa (fun c among => .inl (digits c among)) []
    rw [List.append_nil] at all
    exact all.trans (Nat.zero_add _)
  split
  · change numeralBody false false (Glyph.ofText cs) + 1 = _
    rw [whole]
    rfl
  · rw [List.nil_append]
    cases cs with
    | nil => exact absurd rfl some
    | cons c cs =>
      have digit := digits c List.mem_cons_self
      rw [Glyph.ofText_cons, numeralBody_digit digit] at whole ⊢
      exact whole

end Lexeme

/-- Digits alone, or with a point and an exponent, are one numeral. -/
theorem NumeralText.ofList {cs : List Char} (first : ∃ c ∈ cs.head?, c.isDigit = true)
    (second : ∀ c ∈ cs[1]?, c ≠ 'x' ∧ c ≠ 'X') (plain : '\r' ∉ cs)
    (body : Lexeme.numeralBody false false (Glyph.ofText cs) = (Glyph.ofText cs).length) :
    NumeralText (String.ofList cs) := by
  have list : (String.ofList cs).toList = cs := String.toList_ofList
  have starts : startsNumeral cs = true := by
    obtain ⟨c, head, digit⟩ := first
    obtain ⟨rest, rfl⟩ := List.head?_eq_some_iff.1 head
    simp [startsNumeral, digit]
  refine ⟨by rwa [list], ?_, by rwa [list]⟩
  rw [list]
  have hex {x : Char} (ascii : x.toNat < 0x80) (other : ∀ c ∈ cs[1]?, c ≠ x) :
      (Cursor.code? ⟨Glyph.ofText cs, .start⟩ 1 == some (Byte.of x)) = false := by
    obtain ⟨a, head, digit⟩ := first
    rcases cs with _ | ⟨c, _ | ⟨b, rest⟩⟩
    · cases head
    · cases head
      rw [Cursor.code?, Glyph.ofText_cons, (Lexeme.ofChar_of_isDigit digit).1]
      rfl
    · cases head
      have ahead : Cursor.code? ⟨Glyph.ofText (a :: b :: rest), .start⟩ 1 =
          Cursor.code? ⟨Glyph.ofText (b :: rest), .start⟩ 0 := by
        rw [Cursor.code?, Glyph.ofText_cons, (Lexeme.ofChar_of_isDigit digit).1]
        rfl
      obtain ⟨y, among, code⟩ := code?_append (c := ⟨Glyph.ofText (b :: rest), .start⟩)
        (List.append_nil _).symm
      rw [ahead, code]
      simpa using ne_of_mem_encodeChar ascii (other b rfl) y among
  unfold Lexeme.numeralLength
  rw [hex (by decide) fun c at_one => (second c at_one).1,
    hex (by decide) fun c at_one => (second c at_one).2]
  simp [Cursor.count, body]

theorem numeralText_toString (n : Nat) : NumeralText (toString n) := by
  have digits : ∀ c ∈ Nat.toDigits 10 n, c.isDigit = true := digits_toDigits n
  have some : Nat.toDigits 10 n ≠ [] := Nat.toDigits_ne_nil
  rw [Nat.toString_eq_ofList_toDigits]
  generalize Nat.toDigits 10 n = cs at *
  refine .ofList ⟨cs.head some, List.head_mem_head? some, digits _ (List.head_mem some)⟩ ?_ ?_ ?_
  · intro c at_one
    have digit := digits c (List.mem_of_getElem? at_one)
    constructor <;> (rintro rfl; exact absurd digit (by decide))
  · exact fun among => absurd (digits _ among) (by decide)
  · have all := Lexeme.numeralBody_mantissa (fun c among => .inl (digits c among)) []
    rw [List.append_nil] at all
    exact all.trans (Nat.zero_add _)

theorem Numeral.Writing.Sound.numeralText {w : Writing} (h : w.Sound) :
    NumeralText (String.ofList w.chars) := by
  refine .ofList ?_ h.second ?_ ?_
  · refine ⟨w.whole.head h.some, ?_, h.whole _ (List.head_mem h.some)⟩
    rw [chars, Writing.mantissa, List.append_assoc, List.head?_append_of_ne_nil _ h.some]
    exact List.head_mem_head? h.some
  · exact fun among => absurd (h.char _ among) (by decide)
  · rw [chars, Glyph.ofText_append, Lexeme.numeralBody_mantissa h.mantissa, List.length_append]
    cases w.exponent with
    | none => simp [Lexeme.numeralBody]
    | some x =>
      rw [Option.elim_some, Lexeme.numeralBody_exponent]
      omega

end LuaChunk
