import LuaChunk.Span

/-!
A source text as the reader meets it. Reading moves one glyph at a time: a byte, or a line break,
which is one glyph whether it is LF, CR or both. A cursor is the glyphs still unread and the
position of the first of them; columns count bytes.
-/

set_option autoImplicit false

namespace LuaChunk

inductive LineBreak where
  | lf
  | cr
  | crlf
  deriving DecidableEq, Repr, Inhabited

inductive Glyph where
  | byte (b : UInt8)
  | lineBreak (ending : LineBreak)
  deriving DecidableEq, Repr, Inhabited

namespace Glyph

/-- The first byte. -/
def code : Glyph → UInt8
  | byte b => b
  | lineBreak .lf => 0x0A
  | lineBreak .cr => 0x0D
  | lineBreak .crlf => 0x0D

def bytes : Glyph → List UInt8
  | byte b => [b]
  | lineBreak .lf => [0x0A]
  | lineBreak .cr => [0x0D]
  | lineBreak .crlf => [0x0D, 0x0A]

def isLineBreak : Glyph → Bool
  | byte _ => false
  | lineBreak _ => true

/-- Puts a byte before glyphs; a CR takes a following LF into its line break. -/
def cons (b : UInt8) (rest : List Glyph) : List Glyph :=
  if b = 0x0A then lineBreak .lf :: rest
  else if b = 0x0D then
    match rest with
    | lineBreak .lf :: rest => lineBreak .crlf :: rest
    | rest => lineBreak .cr :: rest
  else byte b :: rest

def ofBytes (bytes : List UInt8) : List Glyph := bytes.foldr cons []

theorem bytes_ne_nil (g : Glyph) : g.bytes ≠ [] := by
  match g with
  | byte _ | lineBreak .lf | lineBreak .cr | lineBreak .crlf => simp [bytes]

theorem flatMap_bytes_cons (b : UInt8) (rest : List Glyph) :
    (cons b rest).flatMap bytes = b :: rest.flatMap bytes := by
  unfold cons
  split
  · simp_all [bytes]
  · split
    · split <;> simp_all [bytes]
    · simp [bytes]

/-- No byte is lost, and none is moved. -/
theorem flatMap_bytes_ofBytes (bs : List UInt8) : (ofBytes bs).flatMap bytes = bs := by
  induction bs with
  | nil => rfl
  | cons b rest ih =>
    show (cons b (ofBytes rest)).flatMap bytes = b :: rest
    rw [flatMap_bytes_cons, ih]

end Glyph

/-- Where the glyph after this one stands. -/
def Position.after (p : Position) (g : Glyph) : Position :=
  if g.isLineBreak then p.nextLine else p.nextColumn

theorem Position.lt_after (p : Position) (g : Glyph) : p < p.after g := by
  unfold after
  split
  · exact p.lt_nextLine
  · exact p.lt_nextColumn

structure Cursor where
  rest : List Glyph
  position : Position
  deriving DecidableEq, Repr, Inhabited

namespace Cursor

/-- The start of a text; a byte order mark is not part of it. -/
def ofBytes (bytes : List UInt8) : Cursor :=
  match bytes with
  | 0xEF :: 0xBB :: 0xBF :: rest => ⟨Glyph.ofBytes rest, .start⟩
  | bytes => ⟨Glyph.ofBytes bytes, .start⟩

/-- The first byte of the glyph some places ahead. -/
def code? (c : Cursor) (ahead : Nat) : Option UInt8 := c.rest[ahead]?.map Glyph.code

/-- Past the next glyphs. -/
def forward (c : Cursor) (count : Nat) : Cursor :=
  ⟨c.rest.drop count, (c.rest.take count).foldl Position.after c.position⟩

@[simp]
theorem forward_zero (c : Cursor) : c.forward 0 = c := by simp [forward]

@[simp]
theorem rest_forward (c : Cursor) (count : Nat) : (c.forward count).rest = c.rest.drop count := rfl

theorem forward_forward (c : Cursor) (m n : Nat) :
    (c.forward m).forward n = c.forward (m + n) := by
  simp [forward, List.take_add, List.drop_drop]

/-- A cursor never moves back. -/
theorem position_le_forward (c : Cursor) (count : Nat) :
    c.position ≤ (c.forward count).position := by
  have along (glyphs : List Glyph) (p : Position) : p ≤ glyphs.foldl Position.after p := by
    induction glyphs generalizing p with
    | nil => exact Position.le_refl p
    | cons g rest ih => exact Position.le_trans (Position.le_of_lt (p.lt_after g)) (ih _)
  exact along _ _

/-- The bytes of the next glyphs. -/
def bytes (c : Cursor) (count : Nat) : List UInt8 := (c.rest.take count).flatMap Glyph.bytes

/-- How many glyphs ahead are of a kind without a break. -/
def count (c : Cursor) (p : UInt8 → Bool) : Nat := (c.rest.takeWhile (p ·.code)).length

/-- The same, looking at no more than a number of glyphs. -/
def countUpTo (c : Cursor) (limit : Nat) (p : UInt8 → Bool) : Nat :=
  ((c.rest.take limit).takeWhile (p ·.code)).length

def atLineBreak (c : Cursor) : Bool :=
  match c.rest with
  | g :: _ => g.isLineBreak
  | [] => false

/-- The text ahead begins with these bytes. -/
def startsWith (c : Cursor) (bytes : List UInt8) : Bool :=
  bytes.isPrefixOf ((c.rest.take bytes.length).map Glyph.code)

/-- From an earlier place to here. -/
def spanFrom (c : Cursor) (start : Position) : Span := ⟨start, c.position⟩

end Cursor

end LuaChunk
