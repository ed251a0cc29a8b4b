import LuaChunk.Lexer.Byte
import LuaChunk.Lexer.Cursor
import LuaChunk.Text.Utf8

/-!
Long brackets: `[`, any number of `=`, `[`, a text taken as it stands, and the closing bracket of
the same level. A line break right after the opening bracket is not part of the text.
-/

set_option autoImplicit false

namespace LuaChunk.LongBracket

/-- The level of a long bracket that opens at the cursor, which stands on `[`. -/
def level? (c : Cursor) : Option Nat :=
  let level := (c.forward 1).count (· == Byte.of '=')
  if c.code? (level + 1) = some (Byte.of '[') then some level else none

/-- The closing bracket of a level. -/
def closing (level : Nat) : List UInt8 :=
  Byte.of ']' :: (List.replicate level (Byte.of '=') ++ [Byte.of ']'])

/-- A closing bracket of the level stands first among the glyphs. -/
def closesAt (level : Nat) (glyphs : List Glyph) : Bool :=
  (closing level).isPrefixOf ((glyphs.take (level + 2)).map Glyph.code)

/-- The glyphs before the first closing bracket, counted on from a number, and whether there is
one. -/
def contentLength (level : Nat) : Nat → List Glyph → Nat × Bool
  | count, [] => (count, false)
  | count, g :: rest =>
    if g.code == Byte.of ']' && closesAt level (g :: rest) then (count, true)
    else contentLength level (count + 1) rest

structure Reading where
  text : String
  closed : Bool
  after : Cursor
  deriving DecidableEq, Repr

/-- Reads the bracket that opens at the cursor. Without a closing bracket, everything up to the
end is its text. -/
def read (level : Nat) (c : Cursor) : Reading :=
  let body := c.forward (level + 2)
  let body := if body.atLineBreak then body.forward 1 else body
  let (count, closed) := contentLength level 0 body.rest
  { text := Utf8.decode (body.bytes count)
    closed := closed
    after := body.forward (if closed then count + (level + 2) else count) }

end LuaChunk.LongBracket
