import LuaChunk.Lexer.Comment
import LuaChunk.Lexer.LongBracket
import LuaChunk.Lexer.QuotedLiteral
import LuaChunk.Token

/-!
From glyphs to tokens. Blanks and comments are skipped and comments noted; a token is then read
by its first byte, and the longest symbol wins. What is wrong is listed with the token and never
stops the reading. `Scanner.run` reads a whole text.
-/

set_option autoImplicit false

namespace LuaChunk

structure Scanner where
  cursor : Cursor
  comments : CommentLog := {}
  /-- The line on which the latest token ends; zero before the first. -/
  codeLine : Nat := 0
  deriving DecidableEq, Repr, Inhabited

/-- A token with the errors met on the way to it and in it, and the scanner after it. -/
structure Scanned where
  token : Token
  errors : List LexicalError
  after : Scanner
  deriving DecidableEq, Repr, Inhabited

/-- What the reader of one token found. -/
structure Lexeme where
  kind : TokenKind
  text : String
  errors : List LexicalError
  after : Cursor
  deriving DecidableEq, Repr

namespace Lexeme

/-- The next glyphs as they stand. -/
def verbatim (kind : TokenKind) (c : Cursor) (count : Nat) : Lexeme :=
  ⟨kind, Utf8.decode (c.bytes count), [], c.forward count⟩

/-- Marks that begin an exponent: `p` in hexadecimal, where `e` is a digit. -/
def isExponentMark (hex : Bool) (b : UInt8) : Bool :=
  if hex then b == Byte.of 'p' || b == Byte.of 'P' else b == Byte.of 'e' || b == Byte.of 'E'

/-- Digits of either base, points, and exponent marks with a sign right after them. -/
def numeralBody (hex : Bool) : Bool → List Glyph → Nat
  | _, [] => 0
  | signAllowed, g :: rest =>
    if isExponentMark hex g.code then numeralBody hex true rest + 1
    else if Byte.isHexDigit g.code || g.code == Byte.of '.'
        || (signAllowed && (g.code == Byte.of '+' || g.code == Byte.of '-')) then
      numeralBody hex false rest + 1
    else 0

/-- Letters and digits right after a numeral belong to it; whether it has a value is not asked
here. -/
def numeral (c : Cursor) : Lexeme :=
  let hex := c.code? 0 == some (Byte.of '0')
    && (c.code? 1 == some (Byte.of 'x') || c.code? 1 == some (Byte.of 'X'))
  let mark := if hex then 2 else 0
  let digits := mark + numeralBody hex false (c.forward mark).rest
  let tail := (c.forward digits).count Byte.isAsciiNamePart
  verbatim .number c (digits + tail)

def name (d : Dialect) (c : Cursor) : Lexeme :=
  let count := c.count Byte.isNamePart
  let word := verbatim .identifier c count
  { word with kind := (d.keyword? word.text).getD .identifier }

def quoted (quote : UInt8) (c : Cursor) : Lexeme :=
  let r := QuotedLiteral.read quote c
  ⟨.string, r.text, r.errors, r.after⟩

def longString (level : Nat) (c : Cursor) : Lexeme :=
  let r := LongBracket.read level c
  let errors := if r.closed then [] else [⟨.unfinishedLongString, r.after.spanFrom c.position⟩]
  ⟨.string, r.text, errors, r.after⟩

/-- A byte that no token starts with is a token of its own. -/
def unexpected (b : UInt8) (c : Cursor) : Lexeme :=
  let after := c.forward 1
  let char := Byte.toChar b
  ⟨.illegal, char.toString, [⟨.unexpectedCharacter char, after.spanFrom c.position⟩], after⟩

/-- The bytes of a symbol. -/
def symbolBytes (kind : TokenKind) : List UInt8 := kind.spelling.toList.map Byte.of

def symbol (b : UInt8) (c : Cursor) : Lexeme :=
  match TokenKind.symbols.find? fun kind => c.startsWith (symbolBytes kind) with
  | some kind => verbatim kind c kind.spelling.length
  | none => unexpected b c

/-- Reads the token at the cursor, of which `b` is the first byte. -/
def read (d : Dialect) (b : UInt8) (c : Cursor) : Lexeme :=
  if b == 0x22 || b == 0x27 then quoted b c
  else if b == Byte.of '[' then
    match LongBracket.level? c with
    | some level => longString level c
    | none => symbol b c
  else if Byte.isDigit b || (b == Byte.of '.' && (c.code? 1).any Byte.isDigit) then numeral c
  else if Byte.isNameStart b then name d c
  else symbol b c

end Lexeme

namespace Scanner

def ofBytes (bytes : List UInt8) : Scanner := { cursor := .ofBytes bytes }

/-- Notes a comment that began at `start` and ends at the cursor `after`. -/
def note (s : Scanner) (start : Position) (text : String) (after : Cursor) (single : Bool) :
    Scanner :=
  let head := s.codeLine != start.line
  { s with
    cursor := after
    comments := s.comments.record ⟨text, start⟩ (after.spanFrom start) head (single && head) }

/-- Reads the comment at the cursor: a long bracket, or the rest of the line. -/
def comment (s : Scanner) : Scanner × List LexicalError :=
  let start := s.cursor.position
  let body := s.cursor.forward 2
  let level := if body.code? 0 = some (Byte.of '[') then LongBracket.level? body else none
  match level with
  | some level =>
    let r := LongBracket.read level body
    (s.note start r.text r.after false,
      if r.closed then [] else [⟨.unfinishedLongComment, r.after.spanFrom body.position⟩])
  | none =>
    let count := body.count (!Byte.isLineEnd ·)
    (s.note start (Utf8.decode (body.bytes count)) (body.forward count) true, [])

/-- Skips blanks and comments. Every round takes at least one glyph, so the unread glyphs bound
the rounds. Errors are listed from the earliest. -/
def skipTrivia : List Glyph → Scanner → List LexicalError → Scanner × List LexicalError
  | [], s, errors => (s, errors)
  | _ :: clock, s, errors =>
    match s.cursor.code? 0 with
    | none => (s, errors)
    | some b =>
      if Byte.isBlank b then skipTrivia clock { s with cursor := s.cursor.forward 1 } errors
      else if b == Byte.of '-' && s.cursor.code? 1 == some (Byte.of '-') then
        let (s, more) := s.comment
        skipTrivia clock s (errors ++ more)
      else (s, errors)

/-- The end of input is a token without text, at one place for ever. -/
def scan (d : Dialect) (s : Scanner) : Scanned :=
  let (s, errors) := skipTrivia s.cursor.rest s []
  let start := s.cursor.position
  match s.cursor.code? 0 with
  | none => ⟨⟨.eof, "", s.cursor.spanFrom start⟩, errors, s⟩
  | some b =>
    let l := Lexeme.read d b s.cursor
    let span := l.after.spanFrom start
    ⟨⟨l.kind, l.text, span⟩, errors ++ l.errors,
      { s with cursor := l.after, codeLine := span.stop.line }⟩

/-- Skips to the end of a line that begins with `#`, as the first line of a script may. -/
def skipShebang (s : Scanner) : Scanner :=
  if s.cursor.code? 0 = some (Byte.of '#') then
    { s with cursor := s.cursor.forward (s.cursor.count (!Byte.isLineEnd ·)) }
  else s

/-- Tokens up to the end of input, the latest first, and the end of input. A token takes at least
one glyph, so the unread glyphs bound the tokens. -/
def runFrom (d : Dialect) : List Glyph → Scanner → List Scanned → List Scanned × Scanned
  | [], s, done => (done, s.scan d)
  | _ :: clock, s, done =>
    let next := s.scan d
    if next.token.kind = .eof then (done, next) else runFrom d clock next.after (next :: done)

/-- All tokens ahead, and the end of input after them. -/
def run (d : Dialect) (s : Scanner) : List Scanned × Scanned :=
  let (done, final) := runFrom d s.cursor.rest s []
  (done.reverse, final)

end Scanner

end LuaChunk
