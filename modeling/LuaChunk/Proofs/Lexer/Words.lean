import LuaChunk.Proofs.Lexer.Escapes
import LuaChunk.Text.Quoted

/-!
# Words

A word is a token without its place.  Written out and followed by a character that does not join
it, it is read as the token it stands for, and nothing is wrong with it.
-/

set_option autoImplicit false

namespace LuaChunk

open Utf8

/-! ## Words and their text -/

/-- A character that a name may hold. -/
def isNameChar (c : Char) : Bool := 0x80 ≤ c.toNat || Byte.isNamePart (Byte.of c)

/-- The token without its place. -/
structure Word where
  kind : TokenKind
  text : String
  deriving DecidableEq

def Token.word (t : Token) : Word := ⟨t.kind, t.text⟩

/-- Strings are written in double quotes, and all other words as they are. -/
def Word.chars (w : Word) : List Char :=
  if w.kind = .string then (Quoted.encode w.text).toList else w.text.toList

/-- The character, right after a word of this kind, would be read as part of it, or the two as the
beginning of something else. -/
def TokenKind.joins : TokenKind → Char → Bool
  | .string, _ => false
  | .dot, c => c = '.' || c.isDigit
  | .concat, c => c = '.'
  | .colon, c => c = ':'
  | .assign, c | .tilde, c => c = '='
  | .less, c => c = '=' || c = '<'
  | .greater, c => c = '=' || c = '>'
  | .slash, c => c = '/'
  | .minus, c => c = '-'
  | .lbracket, c => c = '[' || c = '='
  | .vararg, _ | .semi, _ | .comma, _ | .doubleColon, _ | .lparen, _ | .rparen, _ | .rbracket, _
  | .lbrace, _ | .rbrace, _ | .plus, _ | .star, _ | .doubleSlash, _ | .caret, _ | .percent, _
  | .ampersand, _ | .pipe, _ | .shiftRight, _ | .shiftLeft, _ | .lessEqual, _ | .greaterEqual, _
  | .equal, _ | .notEqual, _ | .hash, _ => false
  | .number, c => isNameChar c || c = '.' || c = '+' || c = '-'
  | _, c => isNameChar c

theorem TokenKind.joins_space (kind : TokenKind) : kind.joins ' ' = false := by
  cases kind <;> decide

theorem TokenKind.joins_newline (kind : TokenKind) : kind.joins '\n' = false := by
  cases kind <;> decide

/-- A name of the dialect: no digit comes first, and it is not reserved. -/
structure Identifier (d : Dialect) (text : String) : Prop where
  first : ∃ c ∈ text.toList.head?, c.isDigit = false
  all : ∀ c ∈ text.toList, isNameChar c = true
  free : d.keyword? text = none

namespace Lexeme

/-- The glyphs that a numeral takes. -/
def numeralLength (c : Cursor) : Nat :=
  let hex := c.code? 0 == some (Byte.of '0')
    && (c.code? 1 == some (Byte.of 'x') || c.code? 1 == some (Byte.of 'X'))
  let mark := if hex then 2 else 0
  let digits := mark + numeralBody hex false (c.forward mark).rest
  digits + (c.forward digits).count Byte.isAsciiNamePart

theorem numeral_eq (c : Cursor) : numeral c = .verbatim .number c (numeralLength c) := rfl

end Lexeme

/-- A digit comes first, or a point with a digit after it. -/
def startsNumeral : List Char → Bool
  | [] => false
  | c :: cs => c.isDigit || c == '.' && cs.head?.any Char.isDigit

/-- The whole text is one numeral. -/
structure NumeralText (text : String) : Prop where
  first : startsNumeral text.toList = true
  whole : Lexeme.numeralLength ⟨Glyph.ofText text.toList, .start⟩ =
    (Glyph.ofText text.toList).length
  plain : '\r' ∉ text.toList

theorem NumeralText.head {text : String} (h : NumeralText text) :
    ∃ c ∈ text.toList.head?, c.isDigit = true ∨ c = '.' := by
  have first := h.first
  cases chars : text.toList with
  | nil => simp [chars, startsNumeral] at first
  | cons c cs =>
    rw [chars] at first
    simp only [startsNumeral, Bool.or_eq_true, Bool.and_eq_true, beq_iff_eq] at first
    exact ⟨c, rfl, first.imp_right And.left⟩

/-- What a text of the dialect may hold. -/
inductive Word.Legible (d : Dialect) : Word → Prop
  | symbol {kind : TokenKind} : kind ∈ TokenKind.symbols → Legible d ⟨kind, kind.spelling⟩
  | keyword {kind : TokenKind} : kind ∈ d.keywords → Legible d ⟨kind, kind.spelling⟩
  | name {text : String} : Identifier d text → Legible d ⟨.identifier, text⟩
  | number {text : String} : NumeralText text → Legible d ⟨.number, text⟩
  | string (text : String) : Legible d ⟨.string, text⟩

/-! ## Reading the words -/

namespace Cursor

variable {c : Cursor} {w after : List Char}

/-- Past a text that is ahead. -/
theorem rest_past (h : c.rest = Glyph.ofText w ++ Glyph.ofText after) :
    (c.forward (Glyph.ofText w).length).rest = Glyph.ofText after := by
  rw [rest_forward, h, List.drop_left]

theorem decode_bytes (h : c.rest = Glyph.ofText w ++ Glyph.ofText after) :
    Utf8.decode (c.bytes (Glyph.ofText w).length) = String.ofList w := by
  rw [Cursor.bytes, h, List.take_left, Glyph.bytes_ofText, Utf8.decode_encode]

end Cursor

/-- A byte that a name may hold is one of a character that it may hold. -/
theorem isNamePart_of_mem {c : Char} (h : isNameChar c = true) :
    ∀ b ∈ String.utf8EncodeChar c, Byte.isNamePart b = true := by
  intro b among
  rcases mem_encodeChar among with ⟨ascii, same⟩ | ⟨-, beyond⟩
  · have own : Byte.of c = b := UInt8.toNat_inj.1 (by rw [Byte.of, toNat_ofNat (by omega), same])
    rw [← own]
    simpa [isNameChar, Nat.not_le_of_lt ascii] using h
  · have : 0x80 ≤ b := UInt8.le_iff_toNat_le.2 beyond
    simp [Byte.isNamePart, Byte.isNameStart, this]

theorem not_isNamePart_of_mem {c : Char} (h : isNameChar c = false) :
    ∀ b ∈ String.utf8EncodeChar c, Byte.isNamePart b = false := by
  intro b among
  simp only [isNameChar, Bool.or_eq_false_iff, decide_eq_false_iff_not, not_le] at h
  rcases mem_encodeChar among with ⟨ascii, same⟩ | ⟨other, -⟩
  · have own : Byte.of c = b := UInt8.toNat_inj.1 (by rw [Byte.of, toNat_ofNat (by omega), same])
    rw [← own]
    exact h.2
  · omega

variable {d : Dialect} {c : Cursor} {w after : List Char}

namespace Word

theorem head_after {p : UInt8 → Bool}
    (stops : ∀ a ∈ after.head?, ∀ b ∈ String.utf8EncodeChar a, p b = false) :
    ∀ g ∈ (Glyph.ofText after).head?, p g.code = false := by
  intro g first
  obtain ⟨a, head, among⟩ := Glyph.head?_ofText first
  exact stops a head _ among

/-- Characters of a name, as many as there are. -/
theorem read_name {a : Char} {cs : List Char} (digit : a.isDigit = false)
    (all : ∀ x ∈ a :: cs, isNameChar x = true)
    (apart : ∀ x ∈ after.head?, isNameChar x = false)
    (h : c.rest = Glyph.ofText (a :: cs) ++ Glyph.ofText after) :
    ∃ b, c.code? 0 = some b ∧ Byte.isNameStart b = true ∧ Lexeme.read d b c =
      ⟨(d.keyword? (String.ofList (a :: cs))).getD .identifier, String.ofList (a :: cs), [],
        c.forward (Glyph.ofText (a :: cs)).length⟩ := by
  obtain ⟨b, among, first⟩ := code?_append h
  have part : Byte.isNamePart b = true := isNamePart_of_mem (all a List.mem_cons_self) b among
  have noDigit : Byte.isDigit b = false := (isDigit_of_mem b among).trans digit
  have start : Byte.isNameStart b = true := by simpa [Byte.isNamePart, noDigit] using part
  have count : c.count Byte.isNamePart = (Glyph.ofText (a :: cs)).length := by
    rw [Cursor.count, h, takeWhile_append_of_head? (head_after fun x head =>
      not_isNamePart_of_mem (apart x head)), List.takeWhile_eq_self_iff.2]
    intro g member
    have code : g.code ∈ encode (a :: cs) := Glyph.code_ofText _ ▸ List.mem_map_of_mem member
    obtain ⟨x, inside, byte⟩ := List.mem_flatMap.1 code
    exact isNamePart_of_mem (all x inside) _ byte
  refine ⟨b, first, start, ?_⟩
  have plain : b ≠ 0x22 ∧ b ≠ 0x27 ∧ b ≠ Byte.of '[' ∧ b ≠ Byte.of '.' := by
    refine ⟨?_, ?_, ?_, ?_⟩ <;> (rintro rfl; exact absurd start (by decide))
  unfold Lexeme.read
  rw [if_neg (by simp [plain]), if_neg (by simp [plain]), if_neg (by simp [plain, noDigit]),
    if_pos start, Lexeme.name, count]
  simp only [Lexeme.verbatim, Cursor.decode_bytes h]

/-! Numerals -/

/-- No numeral goes on with the glyph. -/
def EndsNumeral (g : Glyph) : Prop :=
  Byte.isAsciiNamePart g.code = false ∧ g.code ≠ Byte.of '.' ∧ g.code ≠ Byte.of '+' ∧
    g.code ≠ Byte.of '-'

theorem numeralBody_append (hex : Bool) {rest : List Glyph} (stops : ∀ g ∈ rest.head?, EndsNumeral g)
    (sign : Bool) (gs : List Glyph) :
    Lexeme.numeralBody hex sign (gs ++ rest) = Lexeme.numeralBody hex sign gs := by
  induction gs generalizing sign with
  | nil =>
    cases rest with
    | nil => rfl
    | cons g rest =>
      obtain ⟨name, point, plus, minus⟩ := stops g rfl
      have mark : Lexeme.isExponentMark hex g.code = false := by
        have other {b : UInt8} (letter : Byte.isAsciiNamePart b = true) : g.code ≠ b := by
          rintro rfl
          simp [letter] at name
        unfold Lexeme.isExponentMark
        split
        · simp [other (b := Byte.of 'p') (by decide), other (b := Byte.of 'P') (by decide)]
        · simp [other (b := Byte.of 'e') (by decide), other (b := Byte.of 'E') (by decide)]
      have digit : Byte.isHexDigit g.code = false := by
        revert name
        unfold Byte.isAsciiNamePart Byte.isHexDigit Byte.isLetter
        grind
      simp [Lexeme.numeralBody, mark, digit, point, plus, minus]
  | cons g gs inductionHypothesis =>
    simp only [List.cons_append, Lexeme.numeralBody, inductionHypothesis]

theorem numeralBody_le (hex sign : Bool) (gs : List Glyph) :
    Lexeme.numeralBody hex sign gs ≤ gs.length := by
  induction gs generalizing sign with
  | nil => exact Nat.le_refl _
  | cons g gs inductionHypothesis =>
    unfold Lexeme.numeralBody
    split
    · exact Nat.succ_le_succ (inductionHypothesis _)
    split
    · exact Nat.succ_le_succ (inductionHypothesis _)
    · exact Nat.zero_le _

theorem numeralLength_append {gs rest : List Glyph} (some : gs ≠ [])
    (stops : ∀ g ∈ rest.head?, EndsNumeral g) (p q : Position) :
    Lexeme.numeralLength ⟨gs ++ rest, p⟩ = Lexeme.numeralLength ⟨gs, q⟩ := by
  have first : Cursor.code? ⟨gs ++ rest, p⟩ 0 = Cursor.code? ⟨gs, q⟩ 0 := by
    cases gs with
    | nil => exact absurd rfl some
    | cons g gs => rfl
  have second (b : UInt8) (letter : Byte.isAsciiNamePart b = true) :
      (Cursor.code? ⟨gs ++ rest, p⟩ 1 == .some b) = (Cursor.code? ⟨gs, q⟩ 1 == .some b) := by
    rcases gs with _ | ⟨g, _ | ⟨_, _⟩⟩
    · exact absurd rfl some
    · cases rest with
      | nil => rfl
      | cons g' rest =>
        have other : g'.code ≠ b := by
          rintro rfl
          have := (stops g' rfl).1
          simp [letter] at this
        simp [Cursor.code?, other]
    · rfl
  unfold Lexeme.numeralLength
  dsimp only
  rw [first, second _ (by decide), second _ (by decide)]
  generalize found : (Cursor.code? ⟨gs, q⟩ 0 == .some (Byte.of '0') &&
    (Cursor.code? ⟨gs, q⟩ 1 == .some (Byte.of 'x') ||
      Cursor.code? ⟨gs, q⟩ 1 == .some (Byte.of 'X'))) = hex
  have long : (if hex then 2 else 0) ≤ gs.length := by
    split
    next marked =>
      rw [marked] at found
      rcases gs with _ | ⟨g, _ | ⟨_, _⟩⟩
      · exact absurd rfl some
      · simp [Cursor.code?] at found
      · exact Nat.le_add_left _ _
    · exact Nat.zero_le _
  simp only [Cursor.rest_forward, Cursor.count]
  rw [List.drop_append_of_le_length long, numeralBody_append hex stops]
  have digits := numeralBody_le hex false (gs.drop (if hex then 2 else 0))
  rw [List.length_drop] at digits
  rw [List.drop_append_of_le_length (by omega), takeWhile_append_of_head? fun g head =>
    (stops g head).1]

/-- What begins like a numeral is read as one. -/
theorem starts_number {a : Char} {cs : List Char} {rest : List Glyph}
    (starts : startsNumeral (a :: cs) = true) (h : c.rest = Glyph.ofText (a :: cs) ++ rest) :
    ∃ b, c.code? 0 = some b ∧
      (Byte.isDigit b || (b == Byte.of '.' && (c.code? 1).any Byte.isDigit)) = true := by
  obtain ⟨b, among, first⟩ := code?_append h
  refine ⟨b, first, ?_⟩
  simp only [startsNumeral, Bool.or_eq_true, Bool.and_eq_true, beq_iff_eq] at starts
  rcases starts with digit | ⟨rfl, digit⟩
  · rw [isDigit_of_mem b among, digit, Bool.true_or]
  · obtain ⟨x, head, isDigit⟩ := (Option.any_eq_true _ _).1 digit
    obtain ⟨more, rfl⟩ := List.head?_eq_some_iff.1 head
    have ahead : (c.forward 1).rest = Glyph.ofText (x :: more) ++ rest := by
      rw [Cursor.rest_forward, h]
      rfl
    obtain ⟨y, inside, second⟩ := code?_append ahead
    have next : c.code? 1 = some y := by simpa [Cursor.code?] using second
    have point : b = Byte.of '.' := List.mem_singleton.1 among
    rw [next, point, Option.any_some, isDigit_of_mem y inside, isDigit]
    rfl

theorem read_number {text : String} (numeral : NumeralText text)
    (apart : ∀ x ∈ after.head?, TokenKind.joins .number x = false)
    (h : c.rest = Glyph.ofText text.toList ++ Glyph.ofText after) :
    ∃ b, c.code? 0 = some b ∧ (Byte.isDigit b = true ∨ b = Byte.of '.') ∧ Lexeme.read d b c =
      ⟨.number, text, [], c.forward (Glyph.ofText text.toList).length⟩ := by
  obtain ⟨a, cs, same⟩ : ∃ a cs, text.toList = a :: cs := by
    obtain ⟨a, head, -⟩ := numeral.head
    exact ⟨a, List.head?_eq_some_iff.1 head⟩
  obtain ⟨b, first, starts⟩ := starts_number (same ▸ numeral.first) (same ▸ h)
  have begins : Byte.isDigit b = true ∨ b = Byte.of '.' := by
    simp only [Bool.or_eq_true, Bool.and_eq_true, beq_iff_eq] at starts
    exact starts.imp_right And.left
  have stops : ∀ g ∈ (Glyph.ofText after).head?, EndsNumeral g := by
    intro g member
    obtain ⟨x, head, byte⟩ := Glyph.head?_ofText member
    have apart := apart x head
    simp only [TokenKind.joins, Bool.or_eq_false_iff, decide_eq_false_iff_not] at apart
    obtain ⟨⟨⟨name, point⟩, plus⟩, minus⟩ := apart
    have part := not_isNamePart_of_mem name _ byte
    refine ⟨?_, ne_of_mem_encodeChar (by decide) point _ byte,
      ne_of_mem_encodeChar (by decide) plus _ byte, ne_of_mem_encodeChar (by decide) minus _ byte⟩
    revert part
    unfold Byte.isNamePart Byte.isNameStart Byte.isAsciiNamePart
    grind
  have some : Glyph.ofText text.toList ≠ [] := by
    intro none
    have := congrArg (List.map Glyph.code) none
    rw [Glyph.code_ofText, same, encode_cons] at this
    exact String.utf8EncodeChar_ne_nil (List.append_eq_nil_iff.1 this).1
  have length : Lexeme.numeralLength c = (Glyph.ofText text.toList).length := by
    have same := numeralLength_append some stops c.position .start
    rw [← h] at same
    exact same.trans numeral.whole
  have plain : b ≠ 0x22 ∧ b ≠ 0x27 ∧ b ≠ Byte.of '[' := by
    refine ⟨?_, ?_, ?_⟩ <;> (rintro rfl; exact absurd begins (by decide))
  refine ⟨b, first, begins, ?_⟩
  unfold Lexeme.read
  rw [if_neg (by simp [plain]), if_neg (by simp [plain]), if_pos starts, Lexeme.numeral_eq,
    length, Lexeme.verbatim, Cursor.decode_bytes h, String.ofList_toList]

/-! Strings -/

theorem read_string (text : String)
    (h : c.rest = Glyph.ofText (Quoted.encode text).toList ++ Glyph.ofText after) :
    c.code? 0 = some 0x22 ∧ ∃ past, Lexeme.read d 0x22 c = ⟨.string, text, [], past⟩ ∧
      past.rest = Glyph.ofText after := by
  have escapes (c : Char) : '\r' ∉ Quoted.escape c := by
    unfold Quoted.escape
    split
    all_goals simp
    next other _ => exact fun same => other same.symm
  have plain : '\r' ∉ text.toList.flatMap Quoted.escape := by simp [escapes]
  have ahead : c.rest = .byte 0x22 ::
      (Glyph.ofBytes (encode (text.toList.flatMap Quoted.escape)) ++
        .byte 0x22 :: Glyph.ofText after) := by
    rw [h, Quoted.toList_encode, Glyph.ofBytes_encode plain, List.cons_append, Glyph.ofText_cons,
      Glyph.ofText_append]
    simp [Glyph.ofChar]
    rfl
  obtain ⟨past, read, rest⟩ :=
    QuotedLiteral.read_writes d (by decide) (QuotedLiteral.writes_quoted text.toList) ahead
  rw [decode_encode, String.ofList_toList] at read
  exact ⟨Cursor.code?_zero ahead, past, read, rest⟩

/-! Symbols -/

theorem ofText_spelling : ∀ kind ∈ TokenKind.symbols,
    Glyph.ofText kind.spelling.toList = (Lexeme.symbolBytes kind).map .byte := by
  decide +kernel

/-- Of two symbols, the one that stands first is not the beginning of the other. -/
theorem symbols_ordered : TokenKind.symbols.Pairwise fun a b =>
    ¬ Lexeme.symbolBytes a <+: Lexeme.symbolBytes b := by
  decide +kernel

/-- A symbol that begins with another goes on with a character that joins it. -/
theorem symbols_joined : ∀ a ∈ TokenKind.symbols, ∀ b ∈ TokenKind.symbols, a = b ∨
    ¬ Lexeme.symbolBytes a <+: Lexeme.symbolBytes b ∨
    ((Lexeme.symbolBytes b).drop (Lexeme.symbolBytes a).length).head?.any fun x =>
      a.joins (Byte.toChar x) && decide (x < 0x80) := by
  decide +kernel

/-- The first byte of a symbol starts nothing else, but for three symbols of one character. -/
structure StartsSymbol (kind : TokenKind) (b : UInt8) (more : List UInt8) : Prop where
  quotes : b ≠ 0x22 ∧ b ≠ 0x27
  digit : Byte.isDigit b = false
  name : Byte.isNameStart b = false
  blank : Byte.isBlank b = false
  bracket : b = Byte.of '[' → kind = .lbracket ∧ more = []
  minus : b = Byte.of '-' → kind = .minus ∧ more = []
  point : b = Byte.of '.' → kind = .dot ∧ more = [] ∨ more.head? = some (Byte.of '.')

theorem symbolBytes_cases : ∀ kind ∈ TokenKind.symbols,
    ∃ b more, Lexeme.symbolBytes kind = b :: more ∧ StartsSymbol kind b more := by
  intro kind among
  fin_cases among
  all_goals exact ⟨_, _, rfl, by decide, by decide, by decide, by decide, by decide, by decide,
    by decide⟩

theorem startsWith_iff {kind : TokenKind} {rest : List Glyph}
    (h : c.rest = (Lexeme.symbolBytes kind).map .byte ++ rest) (other : TokenKind) :
    c.startsWith (Lexeme.symbolBytes other) = true ↔
      Lexeme.symbolBytes other <+: Lexeme.symbolBytes kind ++ rest.map Glyph.code := by
  have codes : c.rest.map Glyph.code = Lexeme.symbolBytes kind ++ rest.map Glyph.code := by
    rw [h, List.map_append, List.map_map]
    exact congrArg (· ++ _) (List.map_id _)
  rw [Cursor.startsWith, List.isPrefixOf_iff_prefix, List.map_take, codes]
  constructor
  · exact fun pre => pre.trans (List.take_prefix _ _)
  · exact fun pre => List.prefix_take_iff.2 ⟨pre, Nat.le_refl _⟩

/-- An ASCII byte that a text begins with is its first character. -/
theorem head?_of_prefix {x : UInt8} {more : List UInt8} (ascii : x < 0x80)
    (starts : x :: more <+: encode after) : after.head? = some (Byte.toChar x) := by
  cases after with
  | nil => simp at starts
  | cons a after =>
    have byte : x ∈ String.utf8EncodeChar a := by
      obtain ⟨tail, same⟩ := starts
      rw [encode_cons] at same
      cases own : String.utf8EncodeChar a with
      | nil => exact absurd own String.utf8EncodeChar_ne_nil
      | cons y ys =>
        rw [own, List.cons_append, List.cons_append] at same
        rw [(List.cons.inj same).1]
        exact List.mem_cons_self
    rcases mem_encodeChar byte with ⟨-, same⟩ | ⟨-, beyond⟩
    · rw [Byte.toChar, same, Char.ofNat_toNat, List.head?_cons]
    · have := UInt8.lt_iff_toNat_lt.1 ascii
      simp at this
      omega

/-- Where nothing joins the symbol, no other one stands that begins with it. -/
theorem not_longer {kind other : TokenKind} (among : kind ∈ TokenKind.symbols)
    (member : other ∈ TokenKind.symbols) (differ : other ≠ kind)
    (apart : ∀ x ∈ after.head?, kind.joins x = false)
    (starts : Lexeme.symbolBytes other <+: Lexeme.symbolBytes kind ++ encode after) :
    ¬ Lexeme.symbolBytes kind <+: Lexeme.symbolBytes other := by
  intro longer
  rcases symbols_joined kind among other member with same | short | joined
  · exact differ same.symm
  · exact short longer
  · obtain ⟨more, bytes⟩ := longer
    rw [← bytes, List.drop_left] at joined
    rw [← bytes, List.prefix_append_right_inj] at starts
    obtain ⟨x, first, joins⟩ := (Option.any_eq_true _ _).1 joined
    obtain ⟨rest, rfl⟩ := List.head?_eq_some_iff.1 first
    simp only [Bool.and_eq_true, decide_eq_true_eq] at joins
    have head := head?_of_prefix joins.2 starts
    simp [apart _ head] at joins

/-- The longest symbol is the one written. -/
theorem find_symbol {kind : TokenKind} (among : kind ∈ TokenKind.symbols)
    (apart : ∀ x ∈ after.head?, kind.joins x = false)
    (h : c.rest = (Lexeme.symbolBytes kind).map .byte ++ Glyph.ofText after) :
    (TokenKind.symbols.find? fun kind => c.startsWith (Lexeme.symbolBytes kind)) = some kind := by
  have own : c.startsWith (Lexeme.symbolBytes kind) = true :=
    (startsWith_iff h kind).2 (List.prefix_append _ _)
  cases found : TokenKind.symbols.find? fun kind => c.startsWith (Lexeme.symbolBytes kind) with
  | none => exact absurd own (by simpa using List.find?_eq_none.1 found kind among)
  | some other =>
    obtain ⟨starts, before, later, split, misses⟩ := List.find?_eq_some_iff_append.1 found
    by_contra differ
    have differ : other ≠ kind := fun same => differ (congrArg some same)
    have member : other ∈ TokenKind.symbols := List.mem_of_find?_eq_some found
    have behind : kind ∈ later := by
      rw [split] at among
      rcases List.mem_append.1 among with first | last
      · exact absurd own (by simpa using misses kind first)
      · exact (List.mem_cons.1 last).resolve_left (Ne.symm differ)
    -- The one found stands first, so it is no beginning of the one written.
    have ordered := symbols_ordered
    rw [split, List.pairwise_append] at ordered
    have notShorter := (List.pairwise_cons.1 ordered.2.1).1 kind behind
    have starts := (startsWith_iff h other).1 starts
    have longer := (List.prefix_or_prefix_of_prefix starts (List.prefix_append _ _)).resolve_left
      notShorter
    rw [Glyph.code_ofText] at starts
    exact not_longer among member differ apart starts longer

section Single

variable {b : UInt8} (h : c.rest = .byte b :: Glyph.ofText after)

include h

/-- After a symbol of one byte stands a byte of the next character. -/
theorem code?_one_of_single {y : UInt8} (next : c.code? 1 = some y) :
    ∃ a, after.head? = some a ∧ y ∈ String.utf8EncodeChar a := by
  have ahead : (Glyph.ofText after).head?.map Glyph.code = some y := by
    rw [← next, Cursor.code?, h, List.head?_eq_getElem?]
    rfl
  obtain ⟨g, head, code⟩ := Option.map_eq_some_iff.1 ahead
  obtain ⟨a, first, byte⟩ := Glyph.head?_ofText head
  exact ⟨a, first, code ▸ byte⟩

theorem code?_one_ne {kind : TokenKind} (apart : ∀ x ∈ after.head?, kind.joins x = false)
    {x : Char} (ascii : x.toNat < 0x80) (joins : kind.joins x = true) :
    c.code? 1 ≠ some (Byte.of x) := by
  intro same
  obtain ⟨a, first, byte⟩ := code?_one_of_single h same
  refine ne_of_mem_encodeChar ascii ?_ _ byte rfl
  rintro rfl
  simp [apart a first] at joins

/-- After a single point stands no digit. -/
theorem not_digit_of_point (apart : ∀ x ∈ after.head?, TokenKind.dot.joins x = false) :
    (c.code? 1).any Byte.isDigit = false := by
  cases next : c.code? 1 with
  | none => rfl
  | some y =>
    obtain ⟨a, first, byte⟩ := code?_one_of_single h next
    have apart := apart a first
    simp only [TokenKind.joins, Bool.or_eq_false_iff] at apart
    exact (isDigit_of_mem y byte).trans apart.2

end Single

/-- A long bracket goes on with a bracket or an equals sign. -/
theorem level?_eq_none (bracket : c.code? 1 ≠ some (Byte.of '['))
    (equals : c.code? 1 ≠ some (Byte.of '=')) : LongBracket.level? c = none := by
  have count : (c.forward 1).count (· == Byte.of '=') = 0 := by
    have ahead : (c.forward 1).code? 0 = c.code? 1 := by
      simp [Cursor.code?]
    rw [Cursor.count, List.length_eq_zero_iff]
    cases rest : (c.forward 1).rest with
    | nil => rfl
    | cons g rest' =>
      rw [← ahead, Cursor.code?, rest] at equals
      exact List.takeWhile_cons_of_neg (by simpa using equals)
  rw [LongBracket.level?, count, if_neg bracket]

theorem read_symbol {kind : TokenKind} (among : kind ∈ TokenKind.symbols)
    (apart : ∀ x ∈ after.head?, kind.joins x = false)
    (h : c.rest = Glyph.ofText kind.spelling.toList ++ Glyph.ofText after) :
    ∃ b, c.code? 0 = some b ∧ Byte.isBlank b = false ∧
      ¬ (b = Byte.of '-' ∧ c.code? 1 = some (Byte.of '-')) ∧ Lexeme.read d b c =
        ⟨kind, kind.spelling, [], c.forward (Glyph.ofText kind.spelling.toList).length⟩ := by
  have glyphs := ofText_spelling kind among
  have decoded := Cursor.decode_bytes h
  rw [glyphs] at h decoded
  obtain ⟨b, more, bytes, starts⟩ := symbolBytes_cases kind among
  have first : c.code? 0 = some b := by simp [Cursor.code?, h, bytes, Glyph.code]
  have single (alone : more = []) : c.rest = .byte b :: Glyph.ofText after := by
    rw [h, bytes, alone]
    rfl
  have symbol : Lexeme.symbol b c =
      ⟨kind, kind.spelling, [], c.forward (Glyph.ofText kind.spelling.toList).length⟩ := by
    have length : kind.spelling.length = (Glyph.ofText kind.spelling.toList).length := by
      rw [glyphs, List.length_map, Lexeme.symbolBytes, List.length_map, String.length_toList]
    rw [Lexeme.symbol, find_symbol among apart h]
    dsimp only
    rw [Lexeme.verbatim, length, glyphs, decoded, String.ofList_toList]
  have quotes : (b == 0x22 || b == 0x27) = false := by simp [starts.quotes]
  have numeral : (Byte.isDigit b || (b == Byte.of '.' && (c.code? 1).any Byte.isDigit)) = false := by
    rw [starts.digit, Bool.false_or, Bool.and_eq_false_imp]
    intro dot
    rcases starts.point (by simpa using dot) with ⟨rfl, alone⟩ | point
    · exact not_digit_of_point (single alone) apart
    · obtain ⟨ys, rfl⟩ := List.head?_eq_some_iff.1 point
      have next : c.code? 1 = some (Byte.of '.') := by simp [Cursor.code?, h, bytes, Glyph.code]
      rw [next]
      decide
  refine ⟨b, first, starts.blank, ?_, ?_⟩
  · rintro ⟨dash, again⟩
    obtain ⟨rfl, alone⟩ := starts.minus dash
    exact code?_one_ne (single alone) apart (by decide) rfl again
  · unfold Lexeme.read
    rw [quotes, if_neg Bool.false_ne_true, numeral, if_neg Bool.false_ne_true, starts.name,
      if_neg Bool.false_ne_true, symbol]
    split
    next bracket =>
      obtain ⟨rfl, alone⟩ := starts.bracket (by simpa using bracket)
      rw [level?_eq_none (code?_one_ne (single alone) apart (by decide) rfl)
        (code?_one_ne (single alone) apart (by decide) rfl)]
    · rfl

/-- A blank begins neither a name nor a numeral. -/
theorem not_isBlank {b : UInt8} (h : Byte.isNameStart b = true ∨ Byte.isDigit b = true) :
    Byte.isBlank b = false := by
  by_contra blank
  rw [Bool.not_eq_false] at blank
  have among : b ∈ [0x20, 0x09, 0x0A, 0x0D, 0x0C, 0x0B] := by
    simp only [Byte.isBlank, Byte.isSpace, Byte.isLineEnd, Bool.or_eq_true, beq_iff_eq] at blank
    simp only [List.mem_cons, List.not_mem_nil, or_false]
    tauto
  have all : ∀ b ∈ [0x20, 0x09, 0x0A, 0x0D, 0x0C, 0x0B],
      Byte.isNameStart b = false ∧ Byte.isDigit b = false := by decide +kernel
  obtain ⟨name, digit⟩ := all b among
  rcases h with start | start
  · simp [name] at start
  · simp [digit] at start

/-- A reserved word is spelled like a name. -/
theorem keyword_spelling : ∀ d : Dialect, ∀ kind ∈ d.keywords, kind ≠ .string ∧
    (kind.spelling.toList.head?.any fun c => !c.isDigit) ∧
    kind.spelling.toList.all isNameChar = true ∧ d.keyword? kind.spelling = some kind
  | .lua => by decide +kernel
  | .mooc => by decide +kernel

theorem joins_keyword {kind : TokenKind} (h : kind ∈ d.keywords) (x : Char) :
    kind.joins x = isNameChar x := by
  have word : kind ∈ Dialect.mooc.keywords := by
    cases d with
    | lua => exact List.mem_append_left _ h
    | mooc => exact h
  clear h
  fin_cases word <;> rfl

/-- A text of name characters is read as the keyword it is, or as an identifier. -/
theorem read_named {text : String} (first : ∃ c ∈ text.toList.head?, c.isDigit = false)
    (all : ∀ c ∈ text.toList, isNameChar c = true)
    (apart : ∀ x ∈ after.head?, isNameChar x = false)
    (h : c.rest = Glyph.ofText text.toList ++ Glyph.ofText after) :
    ∃ b, c.code? 0 = some b ∧ Byte.isBlank b = false ∧
      ¬ (b = Byte.of '-' ∧ c.code? 1 = some (Byte.of '-')) ∧
      ∃ past, Lexeme.read d b c = ⟨(d.keyword? text).getD .identifier, text, [], past⟩ ∧
        past.rest = Glyph.ofText after := by
  obtain ⟨a, head, digit⟩ := first
  obtain ⟨cs, chars⟩ := List.head?_eq_some_iff.1 head
  rw [chars] at h all
  obtain ⟨b, first, start, read⟩ := read_name (d := d) digit all apart h
  rw [← chars, String.ofList_toList, chars] at read
  refine ⟨b, first, not_isBlank (.inl start), ?_, _, read, Cursor.rest_past h⟩
  rintro ⟨rfl, -⟩
  exact absurd start (by decide)

/-- **Words.**  A word is read whole as the token it stands for, whatever follows that does not join
it; it is no blank and begins no comment. -/
theorem Legible.read {w : Word} (legible : w.Legible d)
    (apart : ∀ x ∈ after.head?, w.kind.joins x = false)
    (h : c.rest = Glyph.ofText w.chars ++ Glyph.ofText after) :
    ∃ b, c.code? 0 = some b ∧ Byte.isBlank b = false ∧
      ¬ (b = Byte.of '-' ∧ c.code? 1 = some (Byte.of '-')) ∧
      ∃ past, Lexeme.read d b c = ⟨w.kind, w.text, [], past⟩ ∧ past.rest = Glyph.ofText after := by
  have plain {text : String} {kind : TokenKind} (other : kind ≠ .string)
      (h : c.rest = Glyph.ofText (Word.chars ⟨kind, text⟩) ++ Glyph.ofText after) :
      c.rest = Glyph.ofText text.toList ++ Glyph.ofText after := by
    rwa [Word.chars, if_neg other] at h
  cases legible with
  | symbol among =>
    have other : ∀ kind ∈ TokenKind.symbols, kind ≠ .string := by decide
    have h := plain (other _ among) h
    obtain ⟨b, first, blank, comment, read⟩ := read_symbol (d := d) among apart h
    exact ⟨b, first, blank, comment, _, read, Cursor.rest_past h⟩
  | @keyword kind among =>
    obtain ⟨other, first, all, own⟩ := keyword_spelling d kind among
    have first : ∃ c ∈ kind.spelling.toList.head?, c.isDigit = false := by
      simpa using (Option.any_eq_true _ _).1 first
    have read := read_named (d := d) first (List.all_eq_true.1 all)
      (fun x head => (joins_keyword among x).symm.trans (apart x head)) (plain other h)
    rwa [own] at read
  | name identifier =>
    have read := read_named (d := d) identifier.first identifier.all apart (plain (by decide) h)
    rwa [identifier.free] at read
  | number numeral =>
    have h := plain (by decide) h
    obtain ⟨b, first, begins, read⟩ := read_number (d := d) numeral apart h
    have blank : Byte.isBlank b = false := by
      rcases begins with digit | rfl
      · exact not_isBlank (.inr digit)
      · decide
    refine ⟨b, first, blank, ?_, _, read, Cursor.rest_past h⟩
    rintro ⟨rfl, -⟩
    exact absurd begins (by decide)
  | string text =>
    obtain ⟨first, past, read, rest⟩ := read_string (d := d) text h
    exact ⟨0x22, first, by decide, fun dash => absurd dash.1 (by decide), past, read, rest⟩

end Word

end LuaChunk
