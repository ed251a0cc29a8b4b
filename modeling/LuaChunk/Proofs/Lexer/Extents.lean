import LuaChunk.Proofs.Lexer.Fragments

/-!
# How far tokens go

The glyphs that a numeral takes are known without those after them, and they are all of the kind
that numerals are made of.  A symbol takes the bytes of its spelling, none of which ends a line.
-/

set_option autoImplicit false

namespace LuaChunk

/-! ## Numerals cut off at their end -/

namespace Lexeme

/-- A numeral with a mark of base sixteen begins at the cursor. -/
def hexMarked (c : Cursor) : Bool :=
  c.code? 0 == some (Byte.of '0')
    && (c.code? 1 == some (Byte.of 'x') || c.code? 1 == some (Byte.of 'X'))

/-- The glyphs of the mark, the digits after it, and the letters and digits after these. -/
theorem numeralLength_eq (c : Cursor) : numeralLength c =
    let mark := if hexMarked c then 2 else 0
    let digits := mark + numeralBody (hexMarked c) false (c.rest.drop mark)
    digits + ((c.rest.drop digits).takeWhile (Byte.isAsciiNamePart ·.code)).length := rfl

/-- What can be part of a numeral. -/
def isNumeralPart (b : UInt8) : Bool :=
  Byte.isAsciiNamePart b || b == Byte.of '.' || b == Byte.of '+' || b == Byte.of '-'

theorem isNumeralPart_ascii {b : UInt8} (part : isNumeralPart b = true) :
    b < 0x80 ∧ b ≠ 0x0A ∧ b ≠ 0x0D := by
  revert part
  unfold isNumeralPart Byte.isAsciiNamePart Byte.isLetter Byte.isDigit Byte.isUnderscore
  grind [Byte.of]

/-- What comes after a numeral does not decide how far it goes. -/
theorem numeralBody_take (hex sign : Bool) {gs : List Glyph} {count : Nat}
    (enough : numeralBody hex sign gs ≤ count) :
    numeralBody hex sign (gs.take count) = numeralBody hex sign gs := by
  induction gs generalizing sign count with
  | nil => rw [List.take_nil]
  | cons g gs inductionHypothesis =>
    cases count with
    | zero => exact (Nat.le_zero.1 enough).symm
    | succ count =>
      rw [List.take_succ_cons]
      unfold numeralBody at enough ⊢
      split
      next mark =>
        rw [if_pos mark] at enough
        rw [inductionHypothesis true (Nat.le_of_succ_le_succ enough)]
      next mark =>
        rw [if_neg mark] at enough
        split
        next part =>
          rw [if_pos part] at enough
          rw [inductionHypothesis false (Nat.le_of_succ_le_succ enough)]
        · rfl

/-- A numeral goes on only with what can be part of one. -/
theorem all_numeralBody (hex sign : Bool) (gs : List Glyph) :
    ∀ g ∈ gs.take (numeralBody hex sign gs), isNumeralPart g.code = true := by
  have exponent {b : UInt8} (mark : isExponentMark hex b = true) : isNumeralPart b = true := by
    unfold isExponentMark at mark
    split at mark
    all_goals
      simp only [Bool.or_eq_true, beq_iff_eq] at mark
      rcases mark with rfl | rfl <;> decide
  have digit {sign : Bool} {b : UInt8} (part : (Byte.isHexDigit b || b == Byte.of '.' ||
      (sign && (b == Byte.of '+' || b == Byte.of '-'))) = true) : isNumeralPart b = true := by
    revert part
    unfold isNumeralPart Byte.isAsciiNamePart Byte.isHexDigit Byte.isLetter
    grind
  induction gs generalizing sign with
  | nil => simp
  | cons g gs inductionHypothesis =>
    unfold numeralBody
    split
    next mark => exact List.forall_mem_cons.2 ⟨exponent mark, inductionHypothesis true⟩
    split
    next part => exact List.forall_mem_cons.2 ⟨digit part, inductionHypothesis false⟩
    · simp

theorem two_le_of_hexMarked {c : Cursor} (marked : hexMarked c = true) :
    2 ≤ numeralLength c := by
  rw [numeralLength_eq, marked]
  simp only [if_true]
  omega

/-- A mark lies within any beginning that is long enough. -/
theorem hexMarked_take {c : Cursor} {count : Nat} (enough : hexMarked c = true → 2 ≤ count)
    (p : Position) : hexMarked ⟨c.rest.take count, p⟩ = hexMarked c := by
  have within (n : Nat) (b : UInt8) (same : Cursor.code? ⟨c.rest.take count, p⟩ n = some b) :
      c.code? n = some b := by
    rw [Cursor.code?, List.getElem?_take] at same
    split at same
    · exact same
    · cases same
  rw [Bool.eq_iff_iff]
  constructor
  · unfold hexMarked
    simp only [Bool.and_eq_true, Bool.or_eq_true, beq_iff_eq]
    rintro ⟨zero, x⟩
    exact ⟨within _ _ zero, x.imp (within _ _) (within _ _)⟩
  · intro marked
    have long := enough marked
    have same (n : Nat) (small : n < 2) : Cursor.code? ⟨c.rest.take count, p⟩ n = c.code? n := by
      rw [Cursor.code?, Cursor.code?, List.getElem?_take_of_lt (by omega)]
    rw [← marked, hexMarked, hexMarked, same 0 (by decide), same 1 (by decide)]

/-- **Numerals.**  Cut off where it ends, a numeral is still taken whole. -/
theorem numeralLength_take (c : Cursor) (p : Position) :
    numeralLength ⟨c.rest.take (numeralLength c), p⟩ = numeralLength c := by
  have marked := hexMarked_take (c := c) two_le_of_hexMarked p
  have length := numeralLength_eq c
  rw [numeralLength_eq ⟨_, p⟩, marked]
  dsimp only at length ⊢
  generalize (if hexMarked c then 2 else 0) = mark at length ⊢
  generalize numeralLength c = count at length ⊢
  have body : numeralBody (hexMarked c) false ((c.rest.take count).drop mark) =
      numeralBody (hexMarked c) false (c.rest.drop mark) := by
    rw [List.drop_take]
    exact numeralBody_take _ _ (by omega)
  rw [body]
  generalize mark + numeralBody (hexMarked c) false (c.rest.drop mark) = digits at length ⊢
  rw [List.drop_take, ← List.take_takeWhile, List.length_take]
  omega

theorem hexMarked_cases {c : Cursor} (marked : hexMarked c = true) : ∃ g g' rest,
    c.rest = g :: g' :: rest ∧ isNumeralPart g.code = true ∧ isNumeralPart g'.code = true := by
  obtain ⟨glyphs, position⟩ := c
  rcases glyphs with _ | ⟨g, _ | ⟨g', rest⟩⟩
  · simp [hexMarked, Cursor.code?] at marked
  · simp [hexMarked, Cursor.code?] at marked
  · simp only [hexMarked, Cursor.code?, List.getElem?_cons_zero, List.getElem?_cons_succ,
      Option.map_some, Bool.and_eq_true, Bool.or_eq_true, beq_iff_eq, Option.some.injEq] at marked
    obtain ⟨zero, x⟩ := marked
    refine ⟨g, g', rest, rfl, by rw [zero]; decide, ?_⟩
    rcases x with x | x <;> (rw [x]; decide)

/-- A numeral holds only what can be part of one. -/
theorem all_numeral (c : Cursor) :
    ∀ g ∈ c.rest.take (numeralLength c), isNumeralPart g.code = true := by
  rw [numeralLength_eq]
  dsimp only
  rw [List.take_add, List.take_add]
  refine List.forall_mem_append.2 ⟨List.forall_mem_append.2 ⟨?mark, ?digits⟩, ?tail⟩
  case mark =>
    split
    next marked =>
      obtain ⟨g, g', rest, ahead, first, second⟩ := hexMarked_cases marked
      rw [ahead]
      exact List.forall_mem_cons.2 ⟨first, List.forall_mem_singleton.2 second⟩
    · simp
  case digits => exact all_numeralBody _ _ _
  case tail =>
    intro g among
    rw [← List.prefix_iff_eq_take.1 (List.takeWhile_prefix _)] at among
    have named := List.mem_takeWhile_imp among
    simp [isNumeralPart, named]

theorem numeralLength_le (c : Cursor) : numeralLength c ≤ c.rest.length := by
  have within : (if hexMarked c then 2 else 0) ≤ c.rest.length := by
    split
    next marked =>
      obtain ⟨g, g', rest, ahead, -⟩ := hexMarked_cases marked
      rw [ahead]
      exact Nat.le_add_left _ _
    · exact Nat.zero_le _
  rw [numeralLength_eq]
  dsimp only
  have body := Word.numeralBody_le (hexMarked c) false
    (c.rest.drop (if hexMarked c then 2 else 0))
  rw [List.length_drop] at body
  generalize (if hexMarked c then 2 else 0) = mark at *
  generalize numeralBody (hexMarked c) false (c.rest.drop mark) = digits at *
  have tail := (List.takeWhile_prefix (l := c.rest.drop (mark + digits))
    (Byte.isAsciiNamePart ·.code)).length_le
  rw [List.length_drop] at tail
  omega

/-- Glyphs of a numeral are those of a text. -/
theorem glyphs_ofText {gs : List Glyph} (all : ∀ g ∈ gs, isNumeralPart g.code = true) :
    gs = Glyph.ofText (gs.map fun g => Byte.toChar g.code) := by
  induction gs with
  | nil => rfl
  | cons g gs inductionHypothesis =>
    obtain ⟨first, all⟩ := List.forall_mem_cons.1 all
    obtain ⟨ascii, lf, cr⟩ := isNumeralPart_ascii first
    have lf' : Byte.toChar g.code ≠ '\n' := by
      intro same
      exact lf ((Byte.of_toChar g.code).symm.trans (congrArg Byte.of same))
    have own : g = .byte g.code := by
      match g with
      | .byte _ => rfl
      | .lineBreak .lf => exact absurd rfl lf
      | .lineBreak .cr | .lineBreak .crlf => exact absurd rfl cr
    rw [List.map_cons, Glyph.ofText_cons, ← inductionHypothesis all,
      Glyph.ofChar_ascii (by rw [Byte.toNat_toChar]; exact UInt8.lt_iff_toNat_lt.1 ascii) lf',
      Byte.of_toChar, ← own, List.singleton_append]

variable {b : UInt8} {c : Cursor}

/-- A numeral takes what it begins with: a digit, or a point and the digit after it. -/
theorem numeralLength_pos (first : c.code? 0 = some b)
    (starts : Byte.isDigit b = true ∨ (b == Byte.of '.') = true) : 0 < numeralLength c := by
  have shorter := (passes_numeral first starts).length_lt
  rw [numeral_eq] at shorter
  refine Nat.pos_of_ne_zero fun zero => ?_
  simp [verbatim, zero] at shorter

theorem two_le_of_point (first : c.code? 0 = some (Byte.of '.'))
    (second : (c.code? 1).any Byte.isDigit = true) : 2 ≤ numeralLength c := by
  obtain ⟨glyphs, position⟩ := c
  rcases glyphs with _ | ⟨g, _ | ⟨g', rest⟩⟩
  · cases first
  · cases second
  · have point : g.code = Byte.of '.' := by simpa [Cursor.code?] using first
    have digit : Byte.isDigit g'.code = true := by simpa [Cursor.code?] using second
    have unmarked : hexMarked ⟨g :: g' :: rest, position⟩ = false := by
      rw [hexMarked, first]
      rfl
    have onward : numeralBody false false (g :: g' :: rest) =
        numeralBody false false (g' :: rest) + 1 := by
      rw [numeralBody, point]
      rfl
    have more := numeralBody_pos false false g' rest (.inl digit)
    rw [numeralLength_eq, unmarked]
    dsimp only
    rw [if_neg Bool.false_ne_true, List.drop_zero, onward]
    omega

theorem startsNumeral_take (first : c.code? 0 = some b)
    (starts : (Byte.isDigit b || (b == Byte.of '.' && (c.code? 1).any Byte.isDigit)) = true) :
    startsNumeral ((c.rest.take (numeralLength c)).map fun g => Byte.toChar g.code) = true := by
  obtain ⟨glyphs, position⟩ := c
  cases glyphs with
  | nil => cases first
  | cons g rest =>
    obtain rfl : g.code = b := by simpa [Cursor.code?] using first
    simp only [Bool.or_eq_true, Bool.and_eq_true] at starts
    have pos := numeralLength_pos first (starts.imp_right And.left)
    obtain ⟨more, length⟩ := Nat.exists_eq_add_of_le' pos
    rw [length, List.take_succ_cons, List.map_cons, startsNumeral, Byte.isDigit_toChar,
      Bool.or_eq_true]
    refine starts.imp_right fun both => ?_
    obtain ⟨point, second⟩ := both
    have point : g.code = Byte.of '.' := by simpa using point
    have two := two_le_of_point (point ▸ first) second
    obtain ⟨still, rfl⟩ : ∃ still, more = still + 1 := Nat.exists_eq_add_of_le' (by omega)
    cases rest with
    | nil => cases second
    | cons g' rest =>
      have digit : Byte.isDigit g'.code = true := by simpa [Cursor.code?] using second
      rw [point, List.take_succ_cons, List.map_cons, List.head?_cons, Option.any_some,
        Byte.isDigit_toChar, digit]
      rfl

end Lexeme

/-! ## Symbols -/

theorem Glyph.Canonical.plain {bytes : List UInt8} (h : Canonical (bytes.map .byte)) :
    ∀ b ∈ bytes, Byte.isLineEnd b = false := by
  induction bytes with
  | nil => simp
  | cons b bytes inductionHypothesis =>
    cases h with
    | byte plain rest => exact List.forall_mem_cons.2 ⟨plain, inductionHypothesis rest⟩

namespace Lexeme

theorem length_symbolBytes (kind : TokenKind) :
    (symbolBytes kind).length = kind.spelling.length := by
  rw [symbolBytes, List.length_map, String.length_toList]

theorem symbolBytes_plain {kind : TokenKind} (among : kind ∈ TokenKind.symbols) :
    ∀ b ∈ symbolBytes kind, Byte.isLineEnd b = false := by
  have plain := (Word.Legible.symbol (d := .lua) among).plain
  have other : ∀ kind ∈ TokenKind.symbols, kind ≠ .string := by decide
  rw [Word.chars, if_neg (other kind among)] at plain
  have canonical := Glyph.canonical_ofBytes (Utf8.encode kind.spelling.toList)
  rw [Glyph.ofBytes_encode plain, Word.ofText_spelling kind among] at canonical
  exact canonical.plain

/-- The symbol that is found stands ahead. -/
theorem symbolBytes_isPrefix {c : Cursor} {kind : TokenKind}
    (found : (TokenKind.symbols.find? fun kind => c.startsWith (symbolBytes kind)) = some kind) :
    symbolBytes kind <+: c.rest.map Glyph.code := by
  have starts : c.startsWith (symbolBytes kind) = true := by simpa using List.find?_some found
  rw [Cursor.startsWith, List.isPrefixOf_iff_prefix, List.map_take, List.prefix_take_iff] at starts
  exact starts.1

end Lexeme

end LuaChunk
