import LuaChunk.Lexer.Byte
import LuaChunk.Lexer.Cursor
import LuaChunk.Lexer.Error
import LuaChunk.Number.Numeral
import LuaChunk.Text.Utf8

/-!
Quoted string literals. Escapes write bytes; the bytes are decoded once the literal is complete,
so a character may be written in pieces. A line break that no backslash precedes ends the literal
with an error.
-/

set_option autoImplicit false

namespace LuaChunk.QuotedLiteral

/-- What an escape writes, what is wrong with it, and the cursor after it. -/
structure Escape where
  bytes : List UInt8
  fault : Option LexicalFault
  after : Cursor
  deriving DecidableEq, Repr

/-- Escapes that one letter or mark names. -/
def named? (b : UInt8) : Option UInt8 :=
  if b == Byte.of 'n' then some 0x0A
  else if b == Byte.of 't' then some 0x09
  else if b == Byte.of 'r' then some 0x0D
  else if b == Byte.of 'a' then some 0x07
  else if b == Byte.of 'b' then some 0x08
  else if b == Byte.of 'f' then some 0x0C
  else if b == Byte.of 'v' then some 0x0B
  else if b == 0x5C || b == 0x22 || b == 0x27 then some b
  else none

/-- The number that the next digits write in a base. -/
def value (base : Nat) (digits : List UInt8) : Nat :=
  Numeral.ofDigits base ((digits.map Byte.toChar).filterMap Numeral.hexDigit?)

/-- `\x` takes exactly two digits. -/
def hexEscape (digits : Cursor) : Escape :=
  let count := digits.countUpTo 2 Byte.isHexDigit
  let written := digits.bytes count
  if count = 2 then ⟨[UInt8.ofNat (value 16 written)], none, digits.forward count⟩
  else ⟨[], some (.invalidEscape ("x" ++ Byte.text written)), digits.forward count⟩

/-- A backslash and a digit take up to three digits, and no more than 255. -/
def decimalEscape (digits : Cursor) : Escape :=
  let count := digits.countUpTo 3 Byte.isDigit
  let number := value 10 (digits.bytes count)
  if number < 256 then ⟨[UInt8.ofNat number], none, digits.forward count⟩
  else ⟨[], some .escapeTooLarge, digits.forward count⟩

/-- A code point in braces, of one to eight digits. A bad one leaves the closing brace unread. -/
def unicodeEscape (digits : Cursor) : Escape :=
  let count := digits.countUpTo 8 Byte.isHexDigit
  let written := digits.bytes count
  let number := value 16 written
  if 0 < count ∧ number.isValidChar ∧ digits.code? count = some 0x7D then
    ⟨String.utf8EncodeChar (Char.ofNat number), none, digits.forward (count + 1)⟩
  else ⟨[], some (.invalidEscape ("u\x7b" ++ Byte.text written)), digits.forward count⟩

/-- Reads the escape whose backslash is at the cursor. -/
def escape (c : Cursor) : Escape :=
  let mark := c.forward 1
  match mark.code? 0 with
  | none => ⟨[], none, mark⟩
  | some b =>
    match named? b with
    | some byte => ⟨[byte], none, mark.forward 1⟩
    | none =>
      if Byte.isLineEnd b then ⟨[0x0A], none, mark.forward 1⟩
      else if b == Byte.of 'z' then
        let blank := mark.forward 1
        ⟨[], none, blank.forward (blank.count Byte.isSpace)⟩
      else if b == Byte.of 'x' then hexEscape (mark.forward 1)
      else if Byte.isDigit b then decimalEscape mark
      else if b == Byte.of 'u' ∧ mark.code? 1 = some 0x7B then unicodeEscape (mark.forward 2)
      else ⟨[b], some (.invalidEscape (Byte.toChar b).toString), mark.forward 1⟩

/-- A literal in progress: bytes and errors, the latest first, and the cursor. -/
structure Progress where
  bytes : List UInt8
  errors : List LexicalError
  cursor : Cursor
  deriving DecidableEq, Repr

namespace Progress

/-- Takes the escape at the cursor. -/
def takeEscape (p : Progress) : Progress :=
  let e := escape p.cursor
  { bytes := e.bytes.reverse ++ p.bytes
    errors := match e.fault with
      | some fault => ⟨fault, e.after.spanFrom p.cursor.position⟩ :: p.errors
      | none => p.errors
    cursor := e.after }

/-- The literal that began at `start` is cut short at the cursor. -/
def cut (p : Progress) (start : Position) : Progress :=
  { p with errors := ⟨.unterminatedString, p.cursor.spanFrom start⟩ :: p.errors }

end Progress

/-- Reads up to the closing quote. Every round takes at least one glyph, so the unread glyphs
bound the rounds. -/
def finish (quote : UInt8) (start : Position) : List Glyph → Progress → Progress
  | [], p => p.cut start
  | _ :: clock, p =>
    match p.cursor.rest with
    | [] => p.cut start
    | g :: _ =>
      if g.isLineBreak then p.cut start
      else if g.code == 0x5C then finish quote start clock p.takeEscape
      else if g.code == quote then { p with cursor := p.cursor.forward 1 }
      else finish quote start clock
        { p with bytes := g.code :: p.bytes, cursor := p.cursor.forward 1 }

structure Reading where
  text : String
  errors : List LexicalError
  after : Cursor
  deriving DecidableEq, Repr

/-- Reads the literal whose opening quote is at the cursor. -/
def read (quote : UInt8) (c : Cursor) : Reading :=
  let body := c.forward 1
  let p := finish quote c.position body.rest ⟨[], [], body⟩
  ⟨Utf8.decode p.bytes.reverse, p.errors.reverse, p.cursor⟩

end LuaChunk.QuotedLiteral
