import LuaChunk.Proofs.Lexer.CommentLog
import LuaChunk.Proofs.Lexer.OnDemand

/-!
# The comments of a source

What a comment says is told from its bytes, and where it stands from the bytes before it.  The
reader of tokens notes the comments of a source one after the other, each as it stands there.
-/

set_option autoImplicit false

namespace LuaChunk

/-! ## Positions along a text -/

namespace Position

theorem lt_turn (p : Position) (b : UInt8) :
    p < if Byte.isLineEnd b then p.nextLine else p.nextColumn := by
  split
  · exact p.lt_nextLine
  · exact p.lt_nextColumn

theorem le_past (p : Position) (bs : List UInt8) : p ≤ p.past bs := by
  fun_induction past p bs with
  | case1 => exact le_refl _
  | case2 p rest inductionHypothesis => exact le_trans (le_of_lt p.lt_nextLine) inductionHypothesis
  | case3 p b rest _ inductionHypothesis =>
    exact le_trans (le_of_lt (p.lt_turn b)) inductionHypothesis

/-- Two stretches of a text count like both together, unless a CR LF is cut in two. -/
theorem past_append (p : Position) {bs more : List UInt8}
    (apart : bs.getLast? = some 0x0D → more.head? ≠ some 0x0A) :
    p.past (bs ++ more) = (p.past bs).past more := by
  fun_induction past p bs with
  | case1 => rfl
  | case2 p rest inductionHypothesis =>
    refine inductionHypothesis fun last => apart ?_
    simp [List.getLast?_cons, last]
  | case3 p b rest other inductionHypothesis =>
    have later : rest.getLast? = some 0x0D → more.head? ≠ some 0x0A :=
      fun last => apart (by simp [List.getLast?_cons, last])
    rw [List.cons_append, past_cons, inductionHypothesis later]
    intro carriage
    cases rest with
    | nil => exact apart (by rw [carriage]; rfl)
    | cons c rest =>
      intro lineFeed
      rw [List.cons_append, List.head?_cons, Option.some.injEq] at lineFeed
      exact other rest carriage (lineFeed ▸ rfl)

/-- What cuts a CR LF in two counts its line end early. -/
theorem past_le_append (p : Position) (bs more : List UInt8) : p.past bs ≤ p.past (bs ++ more) := by
  by_cases cut : bs.getLast? = some 0x0D ∧ more.head? = some 0x0A
  · obtain ⟨before, rfl⟩ := List.getLast?_eq_some_iff.1 cut.1
    obtain ⟨after, rfl⟩ := List.head?_eq_some_iff.1 cut.2
    have split (more : List UInt8) (plain : more.head? ≠ some 0x0A) :
        p.past (before ++ more) = (p.past before).past more := past_append p fun _ => plain
    rw [List.append_assoc, split [0x0D] (by simp), split ([0x0D] ++ 0x0A :: after) (by simp)]
    exact le_past _ after
  · rw [past_append p fun last head => cut ⟨last, head⟩]
    exact le_past _ more

theorem line_past_eq (p : Position) {bs : List UInt8} (plain : ∀ b ∈ bs, Byte.isLineEnd b = false) :
    (p.past bs).line = p.line := by
  induction bs generalizing p with
  | nil => rfl
  | cons b rest inductionHypothesis =>
    obtain ⟨first, plain⟩ := List.forall_mem_cons.1 plain
    have apart : b = 0x0D → rest.head? ≠ some 0x0A := by
      rintro rfl
      cases first
    rw [past_cons p apart, inductionHypothesis _ plain, first]
    rfl

theorem line_lt_past (p : Position) {bs : List UInt8}
    (ending : ∃ b ∈ bs.head?, Byte.isLineEnd b = true) : p.line < (p.past bs).line := by
  obtain ⟨b, head, ending⟩ := ending
  obtain ⟨rest, rfl⟩ := List.head?_eq_some_iff.1 head
  have onward (rest : List UInt8) : p.line < (p.nextLine.past rest).line := by
    have le := p.nextLine.le_past rest
    rw [le_def] at le
    simp only [nextLine] at *
    omega
  unfold past
  split
  next nothing => cases nothing
  next => exact onward _
  next same =>
    cases same
    rw [ending]
    exact onward _

variable {text : List UInt8} {low high : Nat}

theorem extract_append_drop (h : low ≤ high) :
    text.take high = text.take low ++ text.extract low high := by
  rw [List.extract_eq_take_drop, List.take_drop, Nat.add_sub_cancel' h]
  conv => lhs; rw [← List.take_append_drop low (text.take high)]
  rw [List.take_take, Nat.min_eq_left h]

theorem ofOffset_le (h : low ≤ high) : ofOffset text low ≤ ofOffset text high := by
  rw [ofOffset, ofOffset, extract_append_drop h]
  exact past_le_append _ _ _

end Position

/-! ## What comments say -/

/-- A text without the line break that it begins with. -/
def withoutBreak : List UInt8 → List UInt8
  | 0x0D :: 0x0A :: rest => rest
  | 0x0A :: rest => rest
  | 0x0D :: rest => rest
  | text => text

theorem withoutBreak_of_plain {b : UInt8} {rest : List UInt8} (plain : Byte.isLineEnd b = false) :
    withoutBreak (b :: rest) = b :: rest := by
  have carriage : b ≠ 0x0D := by
    rintro rfl
    cases plain
  have lineFeed : b ≠ 0x0A := by
    rintro rfl
    cases plain
  unfold withoutBreak
  split <;> simp_all

theorem withoutBreak_of_cr {rest : List UInt8} (apart : rest.head? ≠ some 0x0A) :
    withoutBreak (0x0D :: rest) = rest := by
  unfold withoutBreak
  split <;> simp_all

open LongBracket in
/-- The bytes of a comment before other bytes, what it says, and whether it is a line comment: a
long bracket, closed or not, or the rest of the line when no bracket opens there. -/
inductive Comment.Tells : List UInt8 → List UInt8 → String → Bool → Prop
  | closed {level : Nat} {content after : List UInt8} :
      Unclosed level (closing level ++ after) content →
      Tells (dashes ++ (opening level ++ content ++ closing level)) after
        (Utf8.decode (withoutBreak content)) false
  | unfinished {level : Nat} {content : List UInt8} : Unclosed level [] content →
      Tells (dashes ++ (opening level ++ content)) [] (Utf8.decode (withoutBreak content)) false
  | line {body after : List UInt8} : (∀ b ∈ body, Byte.isLineEnd b = false) →
      (∀ b ∈ after.head?, Byte.isLineEnd b = true) →
      (∀ level, ¬ opening level <+: body ++ after) →
      Tells (dashes ++ body) after (Utf8.decode body) true

namespace Cursor

/-- The glyphs ahead are read from bytes. -/
theorem Follows.canonical {text : List UInt8} {before : List Glyph} {c : Cursor}
    (h : c.Follows text before) : Glyph.Canonical c.rest := by
  have whole : Glyph.Canonical (before ++ c.rest) := h.glyphs ▸ Glyph.canonical_ofBytes text
  exact whole.of_append_right

theorem withoutBreak_bytes {opened : Cursor} (canonical : Glyph.Canonical opened.rest)
    (length : Nat) : withoutBreak (opened.bytes (LongBracket.broken opened + length)) =
      (opened.forward (LongBracket.broken opened)).bytes length := by
  obtain ⟨glyphs, position⟩ := opened
  cases canonical with
  | nil => simp [bytes, withoutBreak]
  | @byte b rest plain =>
    have none : LongBracket.broken ⟨.byte b :: rest, position⟩ = 0 := rfl
    rw [none, Nat.zero_add, forward_zero]
    cases length with
    | zero => rfl
    | succ length => exact withoutBreak_of_plain plain
  | @lf rest | @crlf rest =>
    have one (e : LineBreak) : LongBracket.broken ⟨.lineBreak e :: rest, position⟩ = 1 := rfl
    rw [one, Nat.add_comm]
    rfl
  | @cr rest apart canonical =>
    have one : LongBracket.broken ⟨.lineBreak .cr :: rest, position⟩ = 1 := rfl
    rw [one, Nat.add_comm]
    rw [← List.take_append_drop length rest] at canonical apart
    refine withoutBreak_of_cr (canonical.of_append.head?_bytes fun first => apart ?_)
    rw [List.head?_append, first]
    rfl

end Cursor

/-- A bracket says what stands between it and the first bracket that closes it, or the end of the
text, without a line break that comes first. -/
theorem LongBracket.read_says {level : Nat} {c : Cursor} (canonical : Glyph.Canonical c.rest)
    (opens : c.Faces (opening level)) : ∃ count content, (read level c).after = c.forward count ∧
      (read level c).text = Utf8.decode (withoutBreak content) ∧
      (((read level c).closed = true ∧
          c.bytes count = opening level ++ content ++ closing level ∧
          Unclosed level (closing level ++ (c.forward count).unread) content) ∨
        ((read level c).closed = false ∧ c.bytes count = opening level ++ content ∧
          (c.forward count).unread = [] ∧ Unclosed level [] content)) := by
  have rest : Glyph.Canonical (c.forward (level + 2)).rest := by
    rw [Cursor.rest_forward]
    rw [← List.take_append_drop (level + 2) c.rest] at canonical
    exact canonical.of_append_right
  obtain ⟨count, length, after, text, reading⟩ := read_contents opens
  rw [← Cursor.withoutBreak_bytes rest] at text
  exact ⟨count, _, after, text, reading⟩

namespace Scanner

/-- What is noted of a comment is what its bytes say. -/
theorem comment_tells {s : Scanner} (canonical : Glyph.Canonical s.cursor.rest)
    (dashed : s.cursor.Faces dashes) : ∃ count said single, 0 < count ∧
      Comment.Tells (s.cursor.bytes count) (s.cursor.forward count).unread said single ∧
      s.comment.1 = { s with
        cursor := s.cursor.forward count
        comments := s.comments.add ⟨said, (s.cursor.forward count).spanFrom s.cursor.position,
          single, s.codeLine != s.cursor.position.line⟩ } := by
  by_cases opens : ∃ level, (s.cursor.forward 2).Faces (LongBracket.opening level)
  · obtain ⟨level, faces⟩ := opens
    have rest : Glyph.Canonical (s.cursor.forward 2).rest := by
      rw [Cursor.rest_forward]
      rw [← List.take_append_drop 2 s.cursor.rest] at canonical
      exact canonical.of_append_right
    obtain ⟨count, content, after, text, reading⟩ := LongBracket.read_says rest faces
    rw [Cursor.forward_forward s.cursor 2 count] at after reading
    refine ⟨2 + count, (LongBracket.read level (s.cursor.forward 2)).text, false, by omega, ?_, ?_⟩
    · rw [text, Cursor.bytes_of_dashed dashed]
      rcases reading with ⟨-, whole, unclosed⟩ | ⟨-, whole, finished, unclosed⟩
      · exact whole ▸ .closed unclosed
      · exact whole ▸ finished ▸ .unfinished unclosed
    · rw [comment_of_opening faces, after]
      rfl
  · have plain := not_exists.1 opens
    obtain ⟨text, last⟩ := (s.cursor.forward 2).count_line
    have comment := comment_of_line plain
    dsimp only at comment
    generalize (s.cursor.forward 2).count (!Byte.isLineEnd ·) = count at text last comment
    refine ⟨2 + count, Utf8.decode ((s.cursor.forward 2).bytes count), true, by omega, ?_, ?_⟩
    · rw [Cursor.bytes_of_dashed dashed, ← Cursor.forward_forward]
      refine .line text last fun level opens => plain level ?_
      rwa [Cursor.bytes_append_unread] at opens
    · rw [comment, ← Cursor.forward_forward]
      rfl

end Scanner

/-! ## Comments between tokens -/

/-- The comments of a gap from one offset to another, after a token that ends on a line. -/
inductive Noted (text : List UInt8) (line : Nat) : Nat → Nat → List Remark → Prop
  | nil {low : Nat} : Noted text line low low []
  | blank {low high : Nat} {b : UInt8} {rs : List Remark} : b ∈ text[low]? →
      Byte.isBlank b = true → Noted text line (low + 1) high rs → Noted text line low high rs
  | comment {low middle high : Nat} {said : String} {single : Bool} {rs : List Remark} :
      Comment.Tells (text.extract low middle) (text.drop middle) said single →
      Noted text line middle high rs →
      Noted text line low high
        (⟨said, ⟨.ofOffset text low, .ofOffset text middle⟩, single,
          line != (Position.ofOffset text low).line⟩ :: rs)

/-- The comments of a text from an offset to its end, before, between and after tokens. -/
inductive Annotated (text : List UInt8) : Nat → Nat → List Piece → List Remark → Prop
  | last {low line : Nat} {rs : List Remark} : Noted text line low text.length rs →
      Annotated text low line [] rs
  | piece {low line : Nat} {p : Piece} {rest : List Piece} {rs more : List Remark} :
      Noted text line low p.start rs → p.Fits text →
      Annotated text p.stop p.token.span.stop.line rest more →
      Annotated text low line (p :: rest) (rs ++ more)

theorem Noted.blanks {text : List UInt8} {line high : Nat} {rs : List Remark} {blanks : List UInt8}
    {low : Nat} (all : ∀ b ∈ blanks, Byte.isBlank b = true) (here : blanks <+: text.drop low)
    (h : Noted text line (low + blanks.length) high rs) : Noted text line low high rs := by
  induction blanks generalizing low with
  | nil => exact h
  | cons b blanks inductionHypothesis =>
    obtain ⟨blank, all⟩ := List.forall_mem_cons.1 all
    obtain ⟨rest, here⟩ := here
    refine .blank (b := b) ?_ blank (inductionHypothesis all ⟨rest, ?_⟩ ?_)
    · rw [← List.head?_drop, ← here]
      rfl
    · rw [← List.drop_drop, ← here]
      rfl
    · rwa [Nat.add_assoc, Nat.add_comm 1]

namespace Scanner

variable {text : List UInt8} {before : List Glyph} {s : Scanner}

/-- One scanner has skipped the gap from another on, and has noted its comments. -/
structure Skips (text : List UInt8) (before : List Glyph) (s there : Scanner)
    (skipped : List Glyph) (rs : List Remark) : Prop where
  follows : there.cursor.Follows text skipped
  comments : there.comments = rs.foldl CommentLog.add s.comments
  codeLine : there.codeLine = s.codeLine
  noted : Noted text s.codeLine (Cursor.offset before) (Cursor.offset skipped) rs
  solid : ¬ StartsGap (text.drop (Cursor.offset skipped))

/-- Round after round, a scanner notes the comments of the gap it skips. -/
theorem Skipping.skips {errors : List LexicalError} {there : Scanner × List LexicalError}
    (skipping : Skipping s errors there) (h : s.cursor.Follows text before) :
    ∃ skipped rs, Skips text before s there.1 skipped rs := by
  induction skipping generalizing before with
  | stop solid => exact ⟨before, [], h, rfl, rfl, .nil, h.drop_offset ▸ solid⟩
  | @blank s errors b there first blank _ inductionHypothesis =>
    obtain ⟨skipped, rs, skips⟩ := inductionHypothesis (h.forward 1)
    refine ⟨skipped, rs, skips.follows, skips.comments, skips.codeLine, ?_, skips.solid⟩
    refine .blanks (Cursor.blank_bytes first blank) ?_ ?_
    · rw [h.drop_offset, ← s.cursor.bytes_append_unread 1]
      exact List.prefix_append _ _
    · rw [← Cursor.Follows.offset_forward]
      exact skips.noted
  | @comment s errors there dashed _ inductionHypothesis =>
    obtain ⟨count, said, single, pos, tells, comment⟩ := comment_tells h.canonical dashed
    have reached := h.forward count
    rw [comment] at inductionHypothesis
    obtain ⟨skipped, rs, skips⟩ := inductionHypothesis reached
    rw [← h.extract_eq, ← reached.drop_offset] at tells
    have noted := Noted.comment tells skips.noted
    rw [← h.position_eq, ← reached.position_eq] at noted
    exact ⟨skipped, ⟨said, _, single, _⟩ :: rs, skips.follows, skips.comments, skips.codeLine,
      noted, skips.solid⟩

/-- The comments met with the tokens of a source are those between them, and each scanner on the
way has noted the first of them. -/
theorem Finds.annotated {d : Dialect} {tokens : List Scanned} {final : Scanned}
    (h : Finds d s tokens final) (follows : s.cursor.Follows text before) : ∃ pieces rs,
      pieces.map (·.token) = tokens.map (·.token) ∧
      Annotated text (Cursor.offset before) s.codeLine pieces rs ∧
      final.after.comments = rs.foldl CommentLog.add s.comments ∧
      ∀ n, ∃ k, (scannerAt s tokens final n).comments =
        (rs.take k).foldl CommentLog.add s.comments := by
  induction h generalizing before with
  | @eof s kind =>
    obtain ⟨skipped, rs, skips⟩ :=
      (skipTrivia_skipping s.cursor.rest s [] (Nat.le_refl _)).skips follows
    obtain ⟨finished, -, after⟩ | ⟨taken, -, fits, -⟩ := scan_fits (d := d) skips.follows skips.solid
    · have noted := skips.noted
      have comments := skips.comments
      rw [finished] at noted
      rw [← after] at comments
      refine ⟨[], rs, rfl, .last noted, comments, fun n => ?_⟩
      cases n with
      | zero => exact ⟨0, rfl⟩
      | succ n => exact ⟨rs.length, by rw [List.take_length]; exact comments⟩
    · exact absurd kind fits.kind
  | @token s rest final kind found inductionHypothesis =>
    obtain ⟨skipped, rs, skips⟩ :=
      (skipTrivia_skipping s.cursor.rest s [] (Nat.le_refl _)).skips follows
    obtain ⟨-, token, -⟩ | ⟨taken, onward, fits, same, line⟩ :=
      scan_fits (d := d) skips.follows skips.solid
    · exact absurd (token ▸ rfl) kind
    · obtain ⟨pieces, more, tokens, annotated, last, each⟩ := inductionHypothesis onward
      rw [same, skips.comments] at last each
      rw [line] at annotated
      refine ⟨_, _, ?_, .piece skips.noted fits annotated, ?_, fun n => ?_⟩
      · rw [List.map_cons, List.map_cons, tokens]
      · rw [last, List.foldl_append]
      · cases n with
        | zero => exact ⟨0, rfl⟩
        | succ n =>
          obtain ⟨k, taken⟩ := each n
          refine ⟨rs.length + k, ?_⟩
          rw [List.take_length_add_append, List.foldl_append, ← taken]
          cases n <;> rfl

end Scanner

end LuaChunk
