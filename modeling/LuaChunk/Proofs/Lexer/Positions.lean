import LuaChunk.Proofs.Lexer.Order

/-!
# Positions of bytes

A cursor goes from glyph to glyph, a position is counted in bytes.  Both agree: a cursor that has
passed some glyphs of a text stands at the position after their bytes.
-/

set_option autoImplicit false

namespace LuaChunk

/-! ## Counting lines and columns -/

/-- The position after some bytes.  LF, CR and CR LF each end one line, and any other byte takes
one column. -/
def Position.past (p : Position) : List UInt8 → Position
  | [] => p
  | 0x0D :: 0x0A :: rest => p.nextLine.past rest
  | b :: rest => (if Byte.isLineEnd b then p.nextLine else p.nextColumn).past rest

/-- Where the byte of a text stands that some number of bytes come before. -/
def Position.ofOffset (text : List UInt8) (offset : Nat) : Position :=
  Position.start.past (text.take offset)

theorem Position.past_cons (p : Position) {b : UInt8} {rest : List UInt8}
    (apart : b = 0x0D → rest.head? ≠ some 0x0A) :
    p.past (b :: rest) = (if Byte.isLineEnd b then p.nextLine else p.nextColumn).past rest := by
  rw [past]
  intro tail carriage same
  exact apart carriage (congrArg List.head? same)

/-! ## Glyphs of bytes -/

namespace Glyph

/-- Glyphs as bytes are read into them: a byte that ends a line is never a glyph of its own kind,
and no CR stands apart from an LF after it. -/
inductive Canonical : List Glyph → Prop
  | nil : Canonical []
  | byte {b : UInt8} {rest : List Glyph} :
      Byte.isLineEnd b = false → Canonical rest → Canonical (byte b :: rest)
  | lf {rest : List Glyph} : Canonical rest → Canonical (lineBreak .lf :: rest)
  | crlf {rest : List Glyph} : Canonical rest → Canonical (lineBreak .crlf :: rest)
  | cr {rest : List Glyph} :
      rest.head? ≠ some (lineBreak .lf) → Canonical rest → Canonical (lineBreak .cr :: rest)

theorem Canonical.cons (b : UInt8) {rest : List Glyph} (h : Canonical rest) :
    Canonical (Glyph.cons b rest) := by
  unfold Glyph.cons
  by_cases lineFeed : b = 0x0A
  · rw [if_pos lineFeed]
    exact .lf h
  · rw [if_neg lineFeed]
    by_cases carriage : b = 0x0D
    · rw [if_pos carriage]
      split
      · cases h with
        | lf rest => exact .crlf rest
      next other =>
        apply Canonical.cr _ h
        intro first
        obtain ⟨tail, equality⟩ := List.head?_eq_some_iff.1 first
        exact other tail equality
    · rw [if_neg carriage]
      apply Canonical.byte _ h
      simp [Byte.isLineEnd, lineFeed, carriage]

theorem canonical_ofBytes (bytes : List UInt8) : Canonical (ofBytes bytes) := by
  induction bytes with
  | nil => exact .nil
  | cons b rest inductionHypothesis => exact inductionHypothesis.cons b

theorem Canonical.of_append {before rest : List Glyph} (h : Canonical (before ++ rest)) :
    Canonical before := by
  induction before with
  | nil => exact .nil
  | cons g before inductionHypothesis =>
    cases h with
    | byte plain tail => exact .byte plain (inductionHypothesis tail)
    | lf tail => exact .lf (inductionHypothesis tail)
    | crlf tail => exact .crlf (inductionHypothesis tail)
    | cr apart tail =>
      apply Canonical.cr _ (inductionHypothesis tail)
      intro first
      obtain ⟨more, rfl⟩ := List.head?_eq_some_iff.1 first
      exact apart rfl

theorem Canonical.of_append_right {before rest : List Glyph} (h : Canonical (before ++ rest)) :
    Canonical rest := by
  induction before with
  | nil => exact h
  | cons g before inductionHypothesis =>
    cases h with
    | byte _ tail | lf tail | crlf tail | cr _ tail => exact inductionHypothesis tail

/-- Only the glyph of an LF begins with one. -/
theorem Canonical.head?_bytes {glyphs : List Glyph} (h : Canonical glyphs)
    (apart : glyphs.head? ≠ some (lineBreak .lf)) :
    (glyphs.flatMap bytes).head? ≠ some 0x0A := by
  cases h with
  | nil => simp
  | @byte b rest plain tail =>
    intro first
    have same : b = 0x0A := by simpa [bytes] using first
    rw [same] at plain
    cases plain
  | lf => exact absurd rfl apart
  | crlf => simp [bytes]
  | cr => simp [bytes]

/-- Glyphs that have been passed count for the position like their bytes. -/
theorem Canonical.past_bytes {glyphs : List Glyph} (h : Canonical glyphs) (p : Position) :
    p.past (glyphs.flatMap bytes) = glyphs.foldl Position.after p := by
  induction h generalizing p with
  | nil => rfl
  | @byte b rest plain tail inductionHypothesis =>
    have apart : b = 0x0D → (rest.flatMap bytes).head? ≠ some 0x0A := by
      intro carriage
      rw [carriage] at plain
      cases plain
    rw [List.flatMap_cons, bytes, List.singleton_append, Position.past_cons p apart, plain,
      List.foldl_cons, ← inductionHypothesis]
    rfl
  | @lf rest tail inductionHypothesis =>
    have apart : (0x0A : UInt8) = 0x0D → (rest.flatMap bytes).head? ≠ some 0x0A :=
      fun carriage => absurd carriage (by decide)
    rw [List.flatMap_cons, bytes, List.singleton_append, Position.past_cons p apart,
      List.foldl_cons, ← inductionHypothesis]
    rfl
  | crlf tail inductionHypothesis =>
    rw [List.foldl_cons, ← inductionHypothesis]
    rfl
  | cr apart tail inductionHypothesis =>
    rw [List.flatMap_cons, bytes, List.singleton_append,
      Position.past_cons p fun _ => tail.head?_bytes apart, List.foldl_cons, ← inductionHypothesis]
    rfl

end Glyph

/-! ## Cursors in a text -/

/-- The bytes of a source without its byte order mark. -/
def withoutMark (source : List UInt8) : List UInt8 :=
  match source with
  | 0xEF :: 0xBB :: 0xBF :: rest => rest
  | source => source

namespace Cursor

/-- The bytes from the cursor on. -/
def unread (c : Cursor) : List UInt8 := c.rest.flatMap Glyph.bytes

/-- The cursor stands in a text after some of its glyphs. -/
structure Follows (text : List UInt8) (before : List Glyph) (c : Cursor) : Prop where
  glyphs : Glyph.ofBytes text = before ++ c.rest
  position : c.position = before.foldl Position.after .start

/-- How many bytes come before a cursor that follows some glyphs. -/
def offset (before : List Glyph) : Nat := (before.flatMap Glyph.bytes).length

variable {text : List UInt8} {before : List Glyph} {c : Cursor}

theorem ofBytes_eq (source : List UInt8) :
    ofBytes source = ⟨Glyph.ofBytes (withoutMark source), .start⟩ := by
  unfold ofBytes withoutMark
  split <;> simp_all

theorem follows_ofBytes (source : List UInt8) :
    (ofBytes source).Follows (withoutMark source) [] := by
  rw [ofBytes_eq]
  exact ⟨rfl, rfl⟩

namespace Follows

theorem forward (h : c.Follows text before) (count : Nat) :
    (c.forward count).Follows text (before ++ c.rest.take count) where
  glyphs := by
    rw [h.glyphs, rest_forward, List.append_assoc, List.take_append_drop]
  position := by
    rw [List.foldl_append, ← h.position]
    rfl

theorem text_eq (h : c.Follows text before) :
    text = before.flatMap Glyph.bytes ++ c.unread := by
  rw [unread, ← List.flatMap_append, ← h.glyphs, Glyph.flatMap_bytes_ofBytes]

theorem drop_offset (h : c.Follows text before) :
    text.drop (offset before) = c.unread := by
  conv => lhs; rw [h.text_eq]
  exact List.drop_left

theorem offset_le (h : c.Follows text before) : offset before ≤ text.length := by
  rw [h.text_eq, List.length_append]
  exact Nat.le_add_right _ _

theorem position_eq (h : c.Follows text before) :
    c.position = .ofOffset text (offset before) := by
  have canonical : Glyph.Canonical before := by
    have whole : Glyph.Canonical (before ++ c.rest) := h.glyphs ▸ Glyph.canonical_ofBytes text
    exact whole.of_append
  have read : text.take (offset before) = before.flatMap Glyph.bytes := by
    conv => lhs; rw [h.text_eq]
    exact List.take_left
  rw [h.position, Position.ofOffset, read, canonical.past_bytes]

/-- The offset grows by the bytes of the glyphs passed. -/
theorem offset_forward (before : List Glyph) (c : Cursor) (count : Nat) :
    offset (before ++ c.rest.take count) = offset before + (c.bytes count).length := by
  simp [offset, Cursor.bytes]

end Follows

end Cursor

end LuaChunk
