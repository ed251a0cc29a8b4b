import LuaChunk.Proofs.Lexer.Trivia
import LuaChunk.Proofs.Lexer.Waiting

/-!
# A source is cut into tokens and gaps

Tokens taken one after the other stand for stretches of the source that follow one another, and
what lies between them is blanks and comments.  No byte is lost, none is read twice, and every
span is the place of its stretch.
-/

set_option autoImplicit false

namespace LuaChunk

/-! ## Stretches of a source -/

/-- A token and the bytes it was read from: those from `start` up to `stop`. -/
structure Piece where
  token : Token
  start : Nat
  stop : Nat

/-- What the token says agrees with its bytes in the text. -/
structure Piece.Fits (text : List UInt8) (p : Piece) : Prop where
  nonempty : p.start < p.stop
  within : p.stop ≤ text.length
  kind : p.token.kind ≠ .eof
  span : p.token.span = ⟨.ofOffset text p.start, .ofOffset text p.stop⟩
  verbatim : p.token.kind ≠ .string → p.token.kind ≠ .illegal →
    p.token.text = Utf8.decode (text.extract p.start p.stop)
  solid : ¬ StartsGap (text.drop p.start)

/-- Pieces one after the other from an offset to the end of the text, with a gap before each of
them and a gap after the last. -/
inductive Partition (text : List UInt8) : Nat → List Piece → Prop
  | last {low : Nat} : Gap (text.drop low) [] → Partition text low []
  | piece {low : Nat} {p : Piece} {rest : List Piece} : low ≤ p.start →
      Gap (text.extract low p.start) (text.drop p.start) → p.Fits text →
      Partition text p.stop rest → Partition text low (p :: rest)

namespace Partition

variable {text : List UInt8} {low : Nat} {pieces : List Piece}

theorem low_le (h : Partition text low pieces) : ∀ p ∈ pieces, low ≤ p.start := by
  induction h with
  | last => simp
  | piece before _ fits _ inductionHypothesis =>
    refine List.forall_mem_cons.2 ⟨before, fun p membership => ?_⟩
    exact Nat.le_trans before
      (Nat.le_trans (Nat.le_of_lt fits.nonempty) (inductionHypothesis p membership))

theorem fits (h : Partition text low pieces) : ∀ p ∈ pieces, p.Fits text := by
  induction h with
  | last => simp
  | piece _ _ fits _ inductionHypothesis => exact List.forall_mem_cons.2 ⟨fits, inductionHypothesis⟩

/-- No two pieces share a byte, and they stand in the order of their tokens. -/
theorem ordered (h : Partition text low pieces) :
    pieces.Pairwise fun a b => a.stop ≤ b.start := by
  induction h with
  | last => exact .nil
  | piece _ _ _ rest inductionHypothesis => exact .cons rest.low_le inductionHypothesis

end Partition

namespace Cursor.Follows

variable {text : List UInt8} {before : List Glyph} {c : Cursor}

/-- The bytes of the next glyphs, by their offsets. -/
theorem extract_eq (h : c.Follows text before) (count : Nat) :
    text.extract (offset before) (offset (before ++ c.rest.take count)) = c.bytes count := by
  rw [offset_forward, List.extract_eq_take_drop, h.drop_offset, Nat.add_sub_cancel_left,
    ← c.bytes_append_unread count]
  exact List.take_left

theorem offset_of_rest_eq_nil (h : c.Follows text before) (finished : c.rest = []) :
    offset before = text.length := by
  rw [h.text_eq, unread, finished, List.flatMap_nil, List.append_nil, offset]

/-- A reader that passes a glyph passes at least one byte. -/
theorem offset_lt (before : List Glyph) {c : Cursor} {count : Nat}
    (passes : c.Passes (c.forward count)) : offset before < offset (before ++ c.rest.take count) := by
  have shorter := passes.length_lt
  rw [rest_forward, List.length_drop] at shorter
  rw [offset_forward, bytes]
  apply Nat.lt_add_of_pos_right
  apply List.length_pos_iff.2
  obtain ⟨glyphs, position⟩ := c
  cases glyphs with
  | nil => exact absurd rfl passes.1
  | cons g glyphs =>
    cases count with
    | zero => exact absurd shorter (Nat.lt_irrefl _)
    | succ count => simp [g.bytes_ne_nil]

end Cursor.Follows

/-! ## One token -/

namespace Lexeme

/-- The lexeme was read at the cursor from glyphs that its text shows, unless it is a string or a
stray byte. -/
def Shows (c : Cursor) (l : Lexeme) : Prop := ∃ count, l.after = c.forward count ∧ l.kind ≠ .eof ∧
  (l.kind ≠ .string → l.kind ≠ .illegal → l.text = Utf8.decode (c.bytes count))

theorem shows_verbatim {kind : TokenKind} (h : kind ≠ .eof) (c : Cursor) (count : Nat) :
    (verbatim kind c count).Shows c := ⟨count, rfl, h, fun _ _ => rfl⟩

theorem shows_string {c : Cursor} {l : Lexeme} (h : c.Passes l.after) (string : l.kind = .string) :
    l.Shows c := by
  obtain ⟨_, count, after⟩ := h
  refine ⟨1 + count, ?_, ?_, fun other => absurd string other⟩
  · rw [after, Cursor.forward_forward]
  · rw [string]
    exact nofun

theorem shows_symbol (b : UInt8) (c : Cursor) : (symbol b c).Shows c := by
  unfold symbol
  split
  next kind found =>
    have table : ∀ kind ∈ TokenKind.symbols, kind ≠ .eof := by decide
    exact shows_verbatim (table kind (List.mem_of_find?_eq_some found)) c _
  · exact ⟨1, rfl, nofun, fun _ other => absurd rfl other⟩

theorem shows_name (d : Dialect) (c : Cursor) : (name d c).Shows c := by
  refine ⟨c.count Byte.isNamePart, rfl, ?_, fun _ _ => rfl⟩
  unfold name
  dsimp only
  cases found : d.keyword? (verbatim .identifier c (c.count Byte.isNamePart)).text with
  | none => exact nofun
  | some kind =>
    have table : ∀ d : Dialect, ∀ kind ∈ d.keywords, kind ≠ .eof := by
      intro d
      cases d <;> decide
    exact table d kind (Dialect.mem_keywords_of_keyword? found).1

theorem shows_read (d : Dialect) {b : UInt8} {c : Cursor} (first : c.code? 0 = some b) :
    (read d b c).Shows c := by
  have some := Cursor.rest_ne_nil_of_code? first
  unfold read
  split
  · exact shows_string (QuotedLiteral.passes_read b some) rfl
  split
  · split
    next level _ => exact shows_string (LongBracket.passes_read level some) rfl
    · exact shows_symbol b c
  split
  · exact shows_verbatim (by decide) c _
  split
  · exact shows_name d c
  · exact shows_symbol b c

end Lexeme

/-! ## All tokens -/

namespace Scanner

variable {d : Dialect} {text : List UInt8} {before : List Glyph} {s : Scanner}

/-- Where no gap goes on, one scan reads a token, unless the text ends there. -/
theorem scan_fits {skipped : List Glyph}
    (reached : (skipTrivia s.cursor.rest s []).1.cursor.Follows text skipped)
    (solid : ¬ StartsGap (text.drop (Cursor.offset skipped))) :
    (Cursor.offset skipped = text.length ∧ (s.scan d).token =
        ⟨.eof, "", ⟨.ofOffset text text.length, .ofOffset text text.length⟩⟩ ∧
      (s.scan d).after = (skipTrivia s.cursor.rest s []).1) ∨
    ∃ taken, (s.scan d).after.cursor.Follows text taken ∧
      Piece.Fits text ⟨(s.scan d).token, Cursor.offset skipped, Cursor.offset taken⟩ ∧
      (s.scan d).after.comments = (skipTrivia s.cursor.rest s []).1.comments ∧
      (s.scan d).after.codeLine = (s.scan d).token.span.stop.line := by
  have advances := scan_advances d s
  revert advances
  unfold scan
  generalize skipTrivia s.cursor.rest s [] = trivia at reached solid
  obtain ⟨⟨there, comments, codeLine⟩, errors⟩ := trivia
  dsimp only at reached solid ⊢
  split
  next last =>
    intro _
    have finished : there.rest = [] := by simpa [Cursor.code?] using last
    have length := reached.offset_of_rest_eq_nil finished
    refine .inl ⟨length, ?_, rfl⟩
    rw [← length, ← reached.position_eq]
    rfl
  next b first =>
    intro advances
    obtain ⟨taken, after, kind, verbatim⟩ := Lexeme.shows_read d first
    have passes := Lexeme.passes_read d first
    have finished := reached.forward taken
    rw [after] at passes
    rw [← after] at finished
    refine .inr ⟨_, finished, ?_, rfl, rfl⟩
    exact {
      nonempty := Cursor.Follows.offset_lt _ passes
      within := finished.offset_le
      kind := kind
      span := by rw [← reached.position_eq, ← finished.position_eq]; rfl
      verbatim := by rw [reached.extract_eq]; exact verbatim
      solid := solid }

/-- One scan takes a gap and then a token, or a gap up to the end of the text. -/
theorem scan_follows (h : s.cursor.Follows text before) : ∃ skipped,
    (skipTrivia s.cursor.rest s []).1.cursor.Follows text skipped ∧
    Gap (text.extract (Cursor.offset before) (Cursor.offset skipped))
      (text.drop (Cursor.offset skipped)) ∧
    Cursor.offset before ≤ Cursor.offset skipped ∧
    ((Cursor.offset skipped = text.length ∧ (s.scan d).token =
        ⟨.eof, "", ⟨.ofOffset text text.length, .ofOffset text text.length⟩⟩) ∨
      ∃ taken, (s.scan d).after.cursor.Follows text taken ∧
        Piece.Fits text ⟨(s.scan d).token, Cursor.offset skipped, Cursor.offset taken⟩) := by
  obtain ⟨count, cursor, gap, solid⟩ :=
    (skipTrivia_skipping s.cursor.rest s [] (Nat.le_refl _)).gap
  have reached := h.forward count
  rw [← reached.drop_offset] at gap solid
  rw [← cursor] at reached
  refine ⟨before ++ s.cursor.rest.take count, reached, ?_, ?_, ?_⟩
  · rw [h.extract_eq]
    exact gap
  · rw [Cursor.Follows.offset_forward]
    exact Nat.le_add_right _ _
  rcases scan_fits (d := d) reached solid with ⟨length, token, -⟩ | ⟨taken, follows, fits, -⟩
  · exact .inl ⟨length, token⟩
  · exact .inr ⟨taken, follows, fits⟩

/-- The tokens found cut the text from the cursor on, and the end of input stands at its end. -/
theorem Finds.partition {tokens : List Scanned} {final : Scanned} (h : Finds d s tokens final)
    (follows : s.cursor.Follows text before) :
    (∃ pieces, pieces.map (·.token) = tokens.map (·.token) ∧
      Partition text (Cursor.offset before) pieces) ∧
    final.token = ⟨.eof, "", ⟨.ofOffset text text.length, .ofOffset text text.length⟩⟩ := by
  induction h generalizing before with
  | eof kind =>
    obtain ⟨skipped, -, gap, _, ⟨finished, token⟩ | ⟨taken, _, fits⟩⟩ :=
      scan_follows (d := d) follows
    · rw [finished, List.drop_length] at gap
      refine ⟨⟨[], rfl, .last ?_⟩, token⟩
      rw [List.extract_eq_take_drop, List.take_of_length_le (by simp)] at gap
      exact gap
    · exact absurd kind fits.kind
  | @token s rest final kind _ inductionHypothesis =>
    obtain ⟨skipped, -, gap, order, ⟨_, token⟩ | ⟨taken, onward, fits⟩⟩ :=
      scan_follows (d := d) follows
    · exact absurd (token ▸ rfl) kind
    · obtain ⟨⟨pieces, same, partition⟩, last⟩ := inductionHypothesis onward
      refine ⟨⟨_, ?_, .piece order gap fits partition⟩, last⟩
      rw [List.map_cons, List.map_cons, same]

end Scanner

namespace TokenStream

/-- The stream after a number of tokens have been taken from it. -/
def after (s : TokenStream) : Nat → TokenStream
  | 0 => s
  | n + 1 => s.next.2.after n

theorem ahead_after (s : TokenStream) (n : Nat) : (s.after n).ahead = s.ahead.drop n := by
  induction n generalizing s with
  | zero => rfl
  | succ n inductionHypothesis => rw [after, inductionHypothesis, ahead_next, List.drop_tail]

theorem final_after (s : TokenStream) (n : Nat) : (s.after n).final = s.final := by
  induction n generalizing s with
  | zero => rfl
  | succ n inductionHypothesis => rw [after, inductionHypothesis, final_next]

/-- The token that is taken after a number of others. -/
theorem next_after (s : TokenStream) (n : Nat) : (s.after n).next.1 = (s.upcoming n).token := by
  have tokens : ((s.after n).look 1).ahead = s.ahead.drop n := by rw [ahead_look, ahead_after]
  have first : s.ahead[n]? = (s.ahead.drop n).head? := by
    rw [List.head?_drop]
  unfold next upcoming
  dsimp only
  rw [first, tokens]
  cases s.ahead.drop n with
  | nil => rw [final_look, final_after]; rfl
  | cons r rest => rfl

/-- Taking tokens again and again gives finitely many of them, which cut the source into stretches
with only blanks and comments between, and then the end of input for ever. -/
theorem ofBytes_partition (d : Dialect) (source : List UInt8) :
    ∃ pieces : List Piece, Partition (withoutMark source) 0 pieces ∧
      ∀ n, ((ofBytes d source).after n).next.1 =
        (pieces[n]?.map (·.token)).getD
          ⟨.eof, "", ⟨.ofOffset (withoutMark source) (withoutMark source).length,
            .ofOffset (withoutMark source) (withoutMark source).length⟩⟩ := by
  obtain ⟨⟨pieces, same, partition⟩, final⟩ :=
    ((Scanner.ofBytes source).run_finds d).partition (Cursor.follows_ofBytes source)
  refine ⟨pieces, partition, fun n => ?_⟩
  rw [next_after, upcoming, ← List.getElem?_map, same, List.getElem?_map, ← final]
  unfold ofBytes
  dsimp only
  cases ((Scanner.ofBytes source).run d).1[n]? <;> rfl

end TokenStream

end LuaChunk
