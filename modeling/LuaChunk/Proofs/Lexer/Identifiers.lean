import LuaChunk.Analysis
import LuaChunk.Proofs.Lexer.Names
import LuaChunk.Proofs.Lexer.Numerals
import LuaChunk.Proofs.Text.Decoding

/-!
# Names that are read

The text of a name that is read, whatever bytes it is read from, is a name of its dialect: it holds
only what a name may hold, it begins with no digit, and it is not reserved.
-/

set_option autoImplicit false

namespace LuaChunk

namespace Utf8

/-- A text that does not begin with an ASCII character, whatever comes next. -/
def Decoder.Beyond (d : Decoder) : Prop :=
  (d.text = "" ∧ ∃ u ∈ d.unfinished, u.Wide) ∨ ∃ c ∈ d.text.toList.head?, 0x80 ≤ c.toNat

theorem beyond_of_isPrefix {text longer : String} (h : text.toList <+: longer.toList)
    (beyond : ∃ c ∈ text.toList.head?, 0x80 ≤ c.toNat) :
    ∃ c ∈ longer.toList.head?, 0x80 ≤ c.toNat := by
  obtain ⟨c, first, large⟩ := beyond
  obtain ⟨more, whole⟩ := h
  exact ⟨c, by rw [← whole, List.head?_append, Option.mem_def.1 first]; rfl, large⟩

theorem Decoder.Beyond.step {d : Decoder} (h : d.Beyond) (b : UInt8) : (d.step b).Beyond := by
  rcases h with ⟨empty, u, unfinished, wide⟩ | beyond
  · obtain ⟨text, v⟩ := d
    obtain rfl : text = "" := empty
    obtain rfl : v = some u := unfinished
    unfold Decoder.step
    dsimp only
    split
    next bounds =>
      obtain ⟨completes, goesOn⟩ := wide.step bounds.1 bounds.2
      split
      next last => exact .inr ⟨_, by simp, completes last⟩
      next more => exact .inl ⟨rfl, _, rfl, goesOn more⟩
    · have large : ∃ c ∈ (String.singleton replacement).toList.head?, 0x80 ≤ c.toNat :=
        ⟨replacement, by simp [replacement]⟩
      refine .inr (beyond_of_isPrefix ?_ large)
      unfold begin
      split <;> simp
  · exact .inr (beyond_of_isPrefix (d.text_isPrefix_step b) beyond)

theorem Decoder.Beyond.finish {d : Decoder} (h : d.Beyond) :
    ∃ c ∈ d.finish.toList.head?, 0x80 ≤ c.toNat := by
  rcases h with ⟨empty, u, unfinished, -⟩ | beyond
  · refine ⟨replacement, ?_, by decide⟩
    simp [Decoder.finish, Option.mem_def.1 unfinished, empty]
  · refine beyond_of_isPrefix ?_ beyond
    unfold Decoder.finish
    split <;> simp

/-- A byte that is not ASCII begins no text with an ASCII character. -/
theorem head?_decode_beyond {b : UInt8} (other : 0x80 ≤ b.toNat) (rest : List UInt8) :
    ∃ c ∈ (decode (b :: rest)).toList.head?, 0x80 ≤ c.toNat := by
  have begins : (Decoder.step ⟨"", none⟩ b).Beyond := by
    have wide := lead_wide b.toNat_lt
    rw [UInt8.ofNat_toNat] at wide
    rw [show Decoder.step ⟨"", none⟩ b = Decoder.begin "" b from rfl, Decoder.begin]
    cases first : lead b with
    | character c =>
      rw [first] at wide
      exact absurd wide.2 (by omega)
    | begins u =>
      rw [first] at wide
      exact .inl ⟨rfl, u, rfl, wide⟩
    | invalid => exact .inr ⟨replacement, by simp, by decide⟩
  have along (bytes : List UInt8) (d : Decoder) (h : d.Beyond) :
      (bytes.foldl Decoder.step d).Beyond := by
    induction bytes generalizing d with
    | nil => exact h
    | cons b rest inductionHypothesis => exact inductionHypothesis _ (h.step b)
  exact (along rest _ begins).finish

end Utf8

namespace Cursor

/-- The bytes of glyphs that are counted, none of which is a line break. -/
theorem all_bytes_count {p : UInt8 → Bool} (lf : p 0x0A = false) (cr : p 0x0D = false)
    (c : Cursor) : ∀ b ∈ c.bytes (c.count p), p b = true := by
  intro b among
  have taken : c.rest.take (c.count p) = c.rest.takeWhile (p ·.code) :=
    (List.prefix_iff_eq_take.1 (List.takeWhile_prefix _)).symm
  rw [Cursor.bytes, taken, List.mem_flatMap] at among
  obtain ⟨g, counted, among⟩ := among
  have code : p g.code = true := by simpa using List.mem_takeWhile_imp counted
  cases g with
  | byte x =>
    obtain rfl : b = x := by simpa [Glyph.bytes] using among
    exact code
  | lineBreak ending => cases ending <;> simp [Glyph.code, lf, cr] at code

end Cursor

namespace Lexeme

variable {d : Dialect} {b : UInt8} {c : Cursor}

/-- What is read as a name, and is not reserved, is a name. -/
theorem identifier_name (first : c.code? 0 = some b) (start : Byte.isNameStart b = true)
    (kind : (name d c).kind = .identifier) : Identifier d (name d c).text := by
  have text : (name d c).text = Utf8.decode (c.bytes (c.count Byte.isNamePart)) := rfl
  have named := c.all_bytes_count (p := Byte.isNamePart) (by decide) (by decide)
  rw [text]
  refine ⟨?first, ?all, ?free⟩
  case first =>
    have some : 0 < c.count Byte.isNamePart :=
      Cursor.count_pos first (by simp [Byte.isNamePart, start])
    obtain ⟨more, bytes⟩ := Cursor.bytes_of_code? first (c.count Byte.isNamePart - 1)
    rw [Nat.sub_add_cancel some] at bytes
    rw [bytes]
    rcases Nat.lt_or_ge b.toNat 0x80 with ascii | beyond
    · refine ⟨Byte.toChar b, Utf8.head?_decode_cons (UInt8.lt_iff_toNat_lt.2 ascii) more, ?_⟩
      have plain : Byte.isDigit b = false := by
        grind [Byte.isDigit, Byte.isNameStart, Byte.isLetter, Byte.isUnderscore]
      refine Bool.eq_false_iff.2 fun digit => ?_
      rw [← Byte.of_toChar b, (ofChar_of_isDigit digit).2] at plain
      cases plain
    · obtain ⟨x, head, large⟩ := Utf8.head?_decode_beyond beyond more
      refine ⟨x, head, Bool.eq_false_iff.2 fun digit => ?_⟩
      have small := Numeral.digit_lt digit
      have zero : '0'.toNat = 0x30 := rfl
      omega
  case all =>
    intro x among
    rcases Utf8.comesOf_decode _ x among with beyond | ⟨byte, inside, small, same⟩
    · simp [isNameChar, beyond]
    · have own : Byte.of x = byte := by
        rw [Byte.of, same, UInt8.ofNat_toNat]
      simp [isNameChar, own, named byte inside]
  case free =>
    cases found : d.keyword? (Utf8.decode (c.bytes (c.count Byte.isNamePart))) with
    | none => rfl
    | some keyword =>
      have all : ∀ kind ∈ d.keywords, kind ≠ .identifier := by cases d <;> decide
      refine absurd ?_ (all keyword (Dialect.mem_keywords_of_keyword? found).1)
      simpa [name, verbatim, found] using kind

theorem symbol_kind_ne {kind : TokenKind} (other : kind ∉ TokenKind.illegal :: TokenKind.symbols)
    (b : UInt8) (c : Cursor) : (symbol b c).kind ≠ kind := by
  rw [List.mem_cons, not_or] at other
  unfold symbol
  split
  next found =>
    rintro rfl
    exact other.2 (List.mem_of_find?_eq_some found)
  · exact Ne.symm other.1

theorem name_kind_ne {kind : TokenKind} (other : kind ∉ TokenKind.identifier :: d.keywords)
    (c : Cursor) : (name d c).kind ≠ kind := by
  rw [List.mem_cons, not_or] at other
  unfold name
  dsimp only
  cases found : d.keyword? (verbatim .identifier c (c.count Byte.isNamePart)).text with
  | none => exact Ne.symm other.1
  | some keyword =>
    rintro rfl
    exact other.2 (Dialect.mem_keywords_of_keyword? found).1

theorem identifier_read (first : c.code? 0 = some b) (kind : (read d b c).kind = .identifier) :
    Identifier d (read d b c).text := by
  revert kind
  unfold read
  split
  · exact nofun
  split
  · split
    · exact nofun
    · exact fun kind => absurd kind (symbol_kind_ne (by decide) b c)
  split
  · exact nofun
  split
  next start => exact identifier_name first start
  · exact fun kind => absurd kind (symbol_kind_ne (by decide) b c)

end Lexeme

/-- **Names.**  A token that is a name has the text of one. -/
theorem Scanner.scan_identifier (d : Dialect) (s : Scanner)
    (kind : (s.scan d).token.kind = .identifier) : Identifier d (s.scan d).token.text := by
  revert kind
  unfold scan
  split
  dsimp only
  split
  · exact nofun
  next b first => exact Lexeme.identifier_read first

/-- All names that a scanner finds are names of the dialect. -/
theorem Scanner.run_identifier (d : Dialect) (s : Scanner) :
    ∀ t ∈ (s.run d).1.map (·.token), t.kind = .identifier → Identifier d t.text :=
  List.forall_mem_map.2 ((run_finds d s).all (P := fun r => r.token.kind = .identifier →
    Identifier d r.token.text) fun s _ => s.scan_identifier d)

theorem identifier_of_tokenize {source : List UInt8} {d : Dialect} {tokens : List Token}
    (h : tokenize source d = .ok tokens) :
    ∀ t ∈ tokens, t.kind = .identifier → Identifier d t.text := by
  have found := Scanner.run_identifier d (Scanner.ofBytes source).skipShebang
  unfold tokenize at h
  split at h
  next read =>
    split at h
    · obtain rfl : _ = tokens := Except.ok.inj h
      rwa [read] at found
    · cases h

end LuaChunk
