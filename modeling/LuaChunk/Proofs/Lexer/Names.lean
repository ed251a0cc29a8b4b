import LuaChunk.Proofs.Lexer.Glyphs

/-!
# Texts that begin with an underscore

A token whose text begins with an underscore is a name or a string: no word that a dialect reserves
begins so, and neither does a numeral, a symbol or a stray byte.
-/

set_option autoImplicit false

namespace LuaChunk

namespace Utf8

/-- The text read so far is never changed. -/
theorem Decoder.text_isPrefix_step (d : Decoder) (b : UInt8) :
    d.text.toList <+: (d.step b).text.toList := by
  have begins (text : String) (b : UInt8) : text.toList <+: (begin text b).text.toList := by
    unfold begin
    split <;> simp
  unfold step
  split
  · exact begins d.text b
  · split
    · dsimp only
      split <;> simp
    · exact List.IsPrefix.trans (by simp) (begins (d.text.push replacement) b)

theorem Decoder.text_isPrefix_finish (bytes : List UInt8) (d : Decoder) :
    d.text.toList <+: (bytes.foldl step d).finish.toList := by
  induction bytes generalizing d with
  | nil =>
    rw [List.foldl_nil, finish]
    split <;> simp
  | cons b rest inductionHypothesis =>
    exact (d.text_isPrefix_step b).trans (inductionHypothesis (d.step b))

/-- An ASCII byte where a character may begin is that character. -/
theorem head?_decode_cons {b : UInt8} (ascii : b < 0x80) (rest : List UInt8) :
    (decode (b :: rest)).toList.head? = some (Byte.toChar b) := by
  have first : Decoder.step ⟨"", none⟩ b = ⟨String.singleton (Byte.toChar b), none⟩ := by
    simp [Decoder.step, Decoder.begin, lead, ascii, Byte.toChar]
  obtain ⟨more, same⟩ := Decoder.text_isPrefix_finish rest ⟨String.singleton (Byte.toChar b), none⟩
  rw [decode, List.foldl_cons, first, ← same]
  simp

end Utf8

/-- The bytes ahead begin with the first. -/
theorem Cursor.bytes_of_code? {b : UInt8} {c : Cursor} (first : c.code? 0 = some b) (count : Nat) :
    ∃ more, c.bytes (count + 1) = b :: more := by
  obtain ⟨glyphs, position⟩ := c
  cases glyphs with
  | nil => simp [code?] at first
  | cons g rest =>
    have same : g.code = b := by simpa [code?] using first
    rw [← same]
    cases g with
    | byte _ => simp [Cursor.bytes, Glyph.bytes, Glyph.code]
    | lineBreak e => cases e <;> simp [Cursor.bytes, Glyph.bytes, Glyph.code]

namespace Lexeme

open Cursor Utf8

/-- A byte that starts no name is another character than the underscore. -/
theorem toChar_ne_underscore {b : UInt8} (plain : Byte.isNameStart b = false) :
    Byte.toChar b ≠ '_' := by
  intro same
  rw [← Byte.of_toChar b, same] at plain
  exact absurd plain (by decide)

/-- Bytes that stand for themselves, of which the first starts no name. -/
theorem head?_verbatim {b : UInt8} {c : Cursor} (first : c.code? 0 = some b)
    (plain : Byte.isNameStart b = false) (kind : TokenKind) (count : Nat) :
    (verbatim kind c count).text.toList.head? ≠ some '_' := by
  cases count with
  | zero => simp [verbatim, Cursor.bytes, Utf8.decode, Decoder.finish]
  | succ count =>
    obtain ⟨more, bytes⟩ := bytes_of_code? first count
    have ascii : b < 0x80 := by simp_all [Byte.isNameStart]
    rw [verbatim, bytes, Utf8.head?_decode_cons ascii]
    simpa using toChar_ne_underscore plain

theorem head?_symbol {b : UInt8} {c : Cursor} (first : c.code? 0 = some b)
    (plain : Byte.isNameStart b = false) : (symbol b c).text.toList.head? ≠ some '_' := by
  unfold symbol
  split
  · exact head?_verbatim first plain _ _
  · simpa [unexpected] using toChar_ne_underscore plain

theorem name_underscore (d : Dialect) (c : Cursor)
    (underscore : (name d c).text.toList.head? = some '_') : (name d c).kind = .identifier := by
  unfold name at *
  dsimp only at *
  cases found : d.keyword? (verbatim .identifier c (c.count Byte.isNamePart)).text with
  | none => rfl
  | some kind =>
    obtain ⟨among, spelled⟩ := Dialect.mem_keywords_of_keyword? found
    have all : ∀ kind ∈ d.keywords, kind.spelling.toList.head? ≠ some '_' := by
      cases d <;> decide +kernel
    exact absurd (spelled ▸ underscore) (all kind among)

theorem read_underscore (d : Dialect) {b : UInt8} {c : Cursor} (first : c.code? 0 = some b)
    (underscore : (read d b c).text.toList.head? = some '_') :
    (read d b c).kind = .identifier ∨ (read d b c).kind = .string := by
  revert underscore
  unfold read
  split
  · exact fun _ => .inr rfl
  split
  next bracket =>
    split
    · exact fun _ => .inr rfl
    · exact fun underscore => absurd underscore (head?_symbol first (by simp_all; decide))
  split
  next numeral =>
    have plain : Byte.isNameStart b = false := by
      grind [Byte.isDigit, Byte.isNameStart, Byte.isLetter, Byte.isUnderscore, Byte.of]
    exact fun underscore => absurd underscore (head?_verbatim first plain _ _)
  split
  · exact fun underscore => .inl (name_underscore d c underscore)
  next other =>
    exact fun underscore => absurd underscore (head?_symbol first (by simpa using other))

end Lexeme

/-- Only the text of a name or a string begins with an underscore. -/
theorem Scanner.scan_underscore (d : Dialect) (s : Scanner)
    (underscore : (s.scan d).token.text.toList.head? = some '_') :
    (s.scan d).token.kind = .identifier ∨ (s.scan d).token.kind = .string := by
  revert underscore
  unfold scan
  split
  dsimp only
  split
  · exact nofun
  next b first => exact Lexeme.read_underscore d first

end LuaChunk
