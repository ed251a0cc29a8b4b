/-!
Reading UTF-8 that may be broken. Every byte sequence has a text: a stretch that begins like a
character and stops being one becomes a single replacement character, and reading goes on at the
byte that broke it.
-/

set_option autoImplicit false

namespace LuaChunk.Utf8

/-- Stands for bytes that are not part of any character. -/
def replacement : Char := '\ufffd'

/-- A character that has begun: the bytes it still needs, the bounds of the next one, and the
bits read so far. -/
structure Unfinished where
  missing : Nat
  low : UInt8
  high : UInt8
  bits : Nat
  deriving DecidableEq, Repr

/-- What a byte means where a character may begin. -/
inductive Lead where
  | character (c : Char)
  | begins (u : Unfinished)
  | invalid
  deriving DecidableEq, Repr

/-- The second byte of a character is bounded so that no character has two encodings and none is
a surrogate or beyond the last code point. -/
def lead (b : UInt8) : Lead :=
  if b < 0x80 then .character (Char.ofNat b.toNat)
  else if b < 0xC2 then .invalid
  else if b < 0xE0 then .begins ⟨1, 0x80, 0xBF, b.toNat % 0x20⟩
  else if b < 0xF0 then
    .begins ⟨2, if b = 0xE0 then 0xA0 else 0x80, if b = 0xED then 0x9F else 0xBF, b.toNat % 0x10⟩
  else if b < 0xF5 then
    .begins ⟨3, if b = 0xF0 then 0x90 else 0x80, if b = 0xF4 then 0x8F else 0xBF, b.toNat % 0x08⟩
  else .invalid

/-- The text read so far, and the character that has begun. -/
structure Decoder where
  text : String
  unfinished : Option Unfinished
  deriving DecidableEq, Repr

namespace Decoder

/-- Reads a byte that no character has claimed. -/
def begin (text : String) (b : UInt8) : Decoder :=
  match lead b with
  | .character c => ⟨text.push c, none⟩
  | .begins u => ⟨text, some u⟩
  | .invalid => ⟨text.push replacement, none⟩

def step (d : Decoder) (b : UInt8) : Decoder :=
  match d.unfinished with
  | none => begin d.text b
  | some u =>
    if u.low ≤ b ∧ b ≤ u.high then
      let bits := u.bits * 0x40 + b.toNat % 0x40
      if u.missing ≤ 1 then ⟨d.text.push (Char.ofNat bits), none⟩
      else ⟨d.text, some ⟨u.missing - 1, 0x80, 0xBF, bits⟩⟩
    else begin (d.text.push replacement) b

/-- A character cut by the end of the text is replaced too. -/
def finish (d : Decoder) : String :=
  match d.unfinished with
  | none => d.text
  | some _ => d.text.push replacement

end Decoder

def decode (bytes : List UInt8) : String :=
  (bytes.foldl Decoder.step ⟨"", none⟩).finish

end LuaChunk.Utf8
