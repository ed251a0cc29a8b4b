import LuaChunk.Proofs.Lexer.Extents
import LuaChunk.Proofs.Lexer.Identifiers

/-!
# Tokens written out again

What is read as a token, with nothing wrong in it, is legible: written out, it is the same token.
So the tokens of a source, written out with single spaces between them, are read again.
-/

set_option autoImplicit false

namespace LuaChunk

/-! ## Tokens on their own -/

/-- The text of a numeral is one numeral. -/
theorem numeralText_read {b : UInt8} {c : Cursor} (first : c.code? 0 = some b)
    (starts : (Byte.isDigit b || (b == Byte.of '.' && (c.code? 1).any Byte.isDigit)) = true) :
    NumeralText (Lexeme.numeral c).text := by
  have all := Lexeme.all_numeral c
  have glyphs := Lexeme.glyphs_ofText all
  have long : (c.rest.take (Lexeme.numeralLength c)).length = Lexeme.numeralLength c := by
    rw [List.length_take, Nat.min_eq_left (Lexeme.numeralLength_le c)]
  have whole := Lexeme.numeralLength_take c .start
  have text : (Lexeme.numeral c).text.toList =
      (c.rest.take (Lexeme.numeralLength c)).map fun g => Byte.toChar g.code := by
    rw [Lexeme.numeral_eq, Lexeme.verbatim, Cursor.bytes, glyphs, Glyph.bytes_ofText,
      Utf8.decode_encode, String.toList_ofList, ← glyphs]
  refine ⟨?first, ?whole, ?plain⟩
  case first =>
    rw [text]
    exact Lexeme.startsNumeral_take first starts
  case whole => rw [text, ← glyphs, whole, long]
  case plain =>
    rw [text, List.mem_map]
    rintro ⟨g, among, same⟩
    refine (Lexeme.isNumeralPart_ascii (all g among)).2.2 ?_
    rw [← Byte.of_toChar g.code, same]
    rfl

namespace Lexeme

/-- A token without its place. -/
def word (l : Lexeme) : Word := ⟨l.kind, l.text⟩

variable {d : Dialect} {b : UInt8} {c : Cursor}

theorem symbol_legible (clean : (symbol b c).errors = []) : (symbol b c).word.Legible d := by
  unfold symbol at *
  split at clean
  next kind found =>
    have among := List.mem_of_find?_eq_some found
    have bytes : c.bytes kind.spelling.length = Utf8.encode kind.spelling.toList := by
      rw [← length_symbolBytes, Cursor.bytes,
        Glyph.bytes_take_of_isPrefix (symbolBytes_plain among) (symbolBytes_isPrefix found),
        ← Glyph.code_ofText, Word.ofText_spelling kind among, List.map_map]
      exact (List.map_id _).symm
    dsimp only [word, verbatim]
    rw [bytes, Utf8.decode_encode, String.ofList_toList]
    exact .symbol among
  · cases clean

theorem name_legible (first : c.code? 0 = some b) (start : Byte.isNameStart b = true) :
    (name d c).word.Legible d := by
  cases found : d.keyword? (name d c).text with
  | none =>
    have kind : (name d c).kind = .identifier := congrArg (·.getD .identifier) found
    rw [word, kind]
    exact .name (identifier_name first start kind)
  | some keyword =>
    have kind : (name d c).kind = keyword := congrArg (·.getD .identifier) found
    obtain ⟨among, spelled⟩ := Dialect.mem_keywords_of_keyword? found
    rw [word, kind, ← spelled]
    exact .keyword among

theorem read_legible (first : c.code? 0 = some b) (clean : (read d b c).errors = []) :
    (read d b c).word.Legible d := by
  revert clean
  unfold read
  split
  · exact fun _ => .string _
  split
  · split
    · exact fun _ => .string _
    · exact symbol_legible
  split
  next starts => exact fun _ => .number (numeralText_read first starts)
  split
  next start => exact fun _ => name_legible first start
  · exact symbol_legible

end Lexeme

namespace Scanner

variable {d : Dialect} {s : Scanner}

theorem scan_legible (s : Scanner) (clean : (s.scan d).errors = [])
    (more : (s.scan d).token.kind ≠ .eof) : (s.scan d).token.word.Legible d := by
  revert clean more
  unfold scan
  split
  dsimp only
  split
  · exact fun _ more => absurd rfl more
  next b first => exact fun clean _ => Lexeme.read_legible first (List.append_eq_nil_iff.1 clean).2

/-- Tokens of a text with nothing wrong in it are legible. -/
theorem lexed_legible (clean : (s.lexed d).errors = []) :
    ∀ w ∈ (s.lexed d).tokens.map Token.word, w.Legible d := by
  have found := s.run_finds d
  rw [found.lexed] at clean ⊢
  have clean := List.flatMap_eq_nil_iff.1 (List.append_eq_nil_iff.1 clean).1
  have legible := found.all (P := fun r => r.errors = [] → r.token.word.Legible d)
    fun s more clean => s.scan_legible clean more
  rw [List.map_map]
  exact List.forall_mem_map.2 fun r among => legible r among (clean r among)

end Scanner

/-! ## Words with single spaces between them -/

/-- Words and the spaces between them. -/
def spacedOut (ws : List Word) : List Fragment :=
  (ws.map Fragment.word).intersperse (.gap [' '])

theorem fragmentChars_spacedOut (ws : List Word) :
    fragmentChars (spacedOut ws) = [' '].intercalate (ws.map Word.chars) := by
  induction ws with
  | nil => rfl
  | cons w ws inductionHypothesis =>
    cases ws with
    | nil => simp [spacedOut, List.intercalate, Fragment.chars]
    | cons v ws =>
      simp only [spacedOut, List.map_cons, List.intercalate, List.intersperse_cons_cons,
        fragmentChars_cons, List.flatten_cons] at inductionHypothesis ⊢
      rw [inductionHypothesis]
      rfl

theorem fragmentWords_spacedOut (ws : List Word) : fragmentWords (spacedOut ws) = ws := by
  induction ws with
  | nil => rfl
  | cons w ws inductionHypothesis =>
    cases ws with
    | nil => rfl
    | cons v ws =>
      simp only [spacedOut, List.map_cons, List.intersperse_cons_cons, fragmentWords_word,
        fragmentWords_gap] at inductionHypothesis ⊢
      rw [inductionHypothesis]

/-- A space joins no word. -/
theorem spaced_spacedOut {d : Dialect} {ws : List Word} (legible : ∀ w ∈ ws, w.Legible d) :
    Spaced d (spacedOut ws) none := by
  induction ws with
  | nil => trivial
  | cons w ws inductionHypothesis =>
    obtain ⟨first, legible⟩ := List.forall_mem_cons.1 legible
    cases ws with
    | nil => exact ⟨first, nofun, trivial⟩
    | cons v ws =>
      refine ⟨first, ?_, by simp [isGapChar], inductionHypothesis legible⟩
      rintro _ ⟨⟩
      exact w.kind.joins_space

/-- Spaced fragments are the tokens of their text. -/
theorem tokenize_fragments {d : Dialect} {fs : List Fragment} (spaced : Spaced d fs none)
    (mark : (fragmentChars fs).head? ≠ some '\ufeff')
    (shebang : (fragmentChars fs).head? ≠ some '#') :
    ∃ tokens, tokenize (Utf8.encode (fragmentChars fs)) d = .ok tokens ∧
      tokens.map Token.word = fragmentWords fs := by
  have start : Cursor.ofBytes (Utf8.encode (fragmentChars fs)) =
      ⟨Glyph.ofText (fragmentChars fs), .start⟩ := Cursor.ofBytes_encode spaced.plain mark
  have plain : (Scanner.ofBytes (Utf8.encode (fragmentChars fs))).skipShebang =
      Scanner.ofBytes (Utf8.encode (fragmentChars fs)) := by
    refine if_neg ?_
    rw [Scanner.ofBytes, start]
    intro hash
    obtain ⟨g, first, code⟩ := Option.map_eq_some_iff.1 hash
    obtain ⟨c, head, among⟩ := Glyph.head?_ofText (List.head?_eq_getElem? ▸ first)
    refine ne_of_mem_encodeChar (c := c) (d := '#') (by decide) ?_ _ among code
    rintro rfl
    exact shebang head
  obtain ⟨tokens, final, found, words, clean, last⟩ := Scanner.finds_fragments fs spaced
    (s := Scanner.ofBytes (Utf8.encode (fragmentChars fs))) (congrArg Cursor.rest start)
  refine ⟨tokens.map (·.token), tokenize_eq_ok.2 ?_, by rw [← words, List.map_map]; rfl⟩
  rw [plain, found.lexed]
  exact ⟨List.append_eq_nil_iff.2 ⟨List.flatMap_eq_nil_iff.2 clean, last⟩, rfl⟩

/-- A token as it is written out: a string in double quotes, any other as it is. -/
def Token.written (t : Token) : String :=
  if t.kind = .string then Quoted.encode t.text else t.text

/-- One space, then the tokens with single spaces between them. -/
def respelled (tokens : List Token) : String := " " ++ " ".intercalate (tokens.map Token.written)

theorem Token.toList_written (t : Token) : t.written.toList = t.word.chars :=
  apply_ite String.toList (t.kind = .string) (Quoted.encode t.text) t.text

theorem toList_respelled (tokens : List Token) :
    (respelled tokens).toList =
      fragmentChars (.gap [' '] :: spacedOut (tokens.map Token.word)) := by
  have written : (tokens.map Token.written).map String.toList =
      (tokens.map Token.word).map Word.chars := by
    simp [Token.toList_written]
  rw [respelled, String.toList_append, String.toList_intercalate, written, fragmentChars_cons,
    fragmentChars_spacedOut]
  rfl

/-- **Re-lexing.**  The tokens of a source, written out with single spaces, are read again: there is
nothing wrong with the text, and its tokens have the same kinds and texts. -/
theorem tokenize_respelled {source : List UInt8} {d : Dialect} {tokens : List Token}
    (lexed : tokenize source d = .ok tokens) :
    ∃ again, tokenize (respelled tokens).toUTF8.toList d = .ok again ∧
      again.map Token.word = tokens.map Token.word := by
  obtain ⟨clean, rfl⟩ := tokenize_eq_ok.1 lexed
  have legible := Scanner.lexed_legible clean
  generalize ((Scanner.ofBytes source).skipShebang.lexed d).tokens = tokens at legible ⊢
  have spaced : Spaced d (.gap [' '] :: spacedOut (tokens.map Token.word)) none :=
    ⟨by simp [isGapChar], spaced_spacedOut legible⟩
  have space : (fragmentChars (.gap [' '] :: spacedOut (tokens.map Token.word))).head? =
      some ' ' := rfl
  obtain ⟨again, read, words⟩ := tokenize_fragments spaced (by rw [space]; decide)
    (by rw [space]; decide)
  rw [fragmentWords_gap, fragmentWords_spacedOut] at words
  refine ⟨again, ?_, words⟩
  rw [Utf8.toList_toUTF8, toList_respelled]
  exact read

/-- A script with a point before digits, a dangling exponent, a bracket that opens nothing and a
string of two lines. -/
theorem tokenize_respelled_script :
    let source := "#!lua\nx=.5 ..0x1p+[==1]--[[\n]]~=[=[\n\ty\n]=]".toUTF8.toList
    ∃ tokens again, tokenize source .lua = .ok tokens ∧
      tokens.map Token.written =
        ["x", "=", ".5", "..", "0x1p+", "[", "==", "1", "]", "~=", "\"\\ty\\n\""] ∧
      tokenize (respelled tokens).toUTF8.toList .lua = .ok again ∧
      again.map Token.word = tokens.map Token.word := by
  intro source
  have lexed : tokenize source .lua =
      .ok ((Scanner.ofBytes source).skipShebang.lexed .lua).tokens :=
    tokenize_eq_ok.2 ⟨by decide +kernel, rfl⟩
  obtain ⟨again, read, same⟩ := tokenize_respelled lexed
  exact ⟨_, again, lexed, by decide +kernel, read, same⟩

end LuaChunk
