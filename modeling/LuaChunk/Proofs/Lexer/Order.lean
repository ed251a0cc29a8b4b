import LuaChunk.Lexer.TokenStream

/-!
# Tokens in source order

A reader of glyphs only ever moves its cursor forward, and the reader of a token moves it by at
least one glyph.  So the tokens of a text stand one after the other, each begins before it ends,
and the end of input is found when the glyphs are used up.
-/

set_option autoImplicit false

namespace LuaChunk

theorem Position.lt_of_lt_of_le {a b c : Position} (h : a < b) (k : b ≤ c) : a < c := by
  simp only [Position.lt_def, Position.le_def] at *
  omega

namespace Cursor

/-- The second cursor is the first one moved forward, or the same. -/
def Reaches (c after : Cursor) : Prop := ∃ count, after = c.forward count

theorem Reaches.refl (c : Cursor) : c.Reaches c := ⟨0, by simp⟩

theorem Reaches.trans {a b c : Cursor} (h : a.Reaches b) (k : b.Reaches c) : a.Reaches c := by
  obtain ⟨m, rfl⟩ := h
  obtain ⟨n, rfl⟩ := k
  exact ⟨m + n, forward_forward a m n⟩

theorem reaches_forward (c : Cursor) (count : Nat) : c.Reaches (c.forward count) := ⟨count, rfl⟩

theorem Reaches.position_le {a b : Cursor} (h : a.Reaches b) : a.position ≤ b.position := by
  obtain ⟨n, rfl⟩ := h
  exact a.position_le_forward n

theorem Reaches.length_le {a b : Cursor} (h : a.Reaches b) : b.rest.length ≤ a.rest.length := by
  obtain ⟨n, rfl⟩ := h
  simp

/-- The second cursor lies past the glyph at the first. -/
def Passes (c after : Cursor) : Prop := c.rest ≠ [] ∧ (c.forward 1).Reaches after

theorem Passes.trans {a b c : Cursor} (h : a.Passes b) (k : b.Reaches c) : a.Passes c :=
  ⟨h.1, h.2.trans k⟩

theorem passes_forward {c : Cursor} (some : c.rest ≠ []) {count : Nat} (pos : 0 < count) :
    c.Passes (c.forward count) := by
  refine ⟨some, count - 1, ?_⟩
  rw [forward_forward]
  congr 1
  omega

theorem Passes.position_lt {a b : Cursor} (h : a.Passes b) : a.position < b.position := by
  refine Position.lt_of_lt_of_le ?_ h.2.position_le
  obtain ⟨rest, position⟩ := a
  cases rest with
  | nil => exact absurd rfl h.1
  | cons g rest => simpa [forward] using position.lt_after g

theorem Passes.length_lt {a b : Cursor} (h : a.Passes b) : b.rest.length < a.rest.length := by
  have le := h.2.length_le
  have pos := List.length_pos_iff.2 h.1
  simp only [rest_forward, List.length_drop] at le
  omega

theorem rest_ne_nil_of_code? {c : Cursor} {b : UInt8} (h : c.code? 0 = some b) : c.rest ≠ [] := by
  intro empty
  simp [code?, empty] at h

theorem count_pos {c : Cursor} {b : UInt8} {p : UInt8 → Bool} (h : c.code? 0 = some b)
    (kind : p b = true) : 0 < c.count p := by
  obtain ⟨rest, position⟩ := c
  cases rest with
  | nil => simp [code?] at h
  | cons g rest =>
    have same : g.code = b := by simpa [code?] using h
    simp [count, same, kind]

end Cursor

/-! ## Readers of one token -/

namespace QuotedLiteral

open Cursor

theorem reaches_escape (c : Cursor) : c.Reaches (escape c).after := by
  unfold escape hexEscape decimalEscape unicodeEscape
  dsimp only
  repeat' split
  all_goals
    simp only [forward_forward]
    exact reaches_forward _ _

theorem reaches_finish (quote : UInt8) (start : Position) (clock : List Glyph) (p : Progress) :
    p.cursor.Reaches (finish quote start clock p).cursor := by
  induction clock generalizing p with
  | nil => exact .refl _
  | cons _ clock inductionHypothesis =>
    unfold finish
    split
    · exact .refl _
    · split
      · exact .refl _
      split
      · exact (reaches_escape p.cursor).trans (inductionHypothesis _)
      split
      · exact reaches_forward _ _
      · exact (reaches_forward _ 1).trans (inductionHypothesis _)

theorem passes_read (quote : UInt8) {c : Cursor} (some : c.rest ≠ []) :
    c.Passes (read quote c).after :=
  ⟨some, reaches_finish quote c.position _ ⟨[], [], c.forward 1⟩⟩

end QuotedLiteral

namespace LongBracket

open Cursor

theorem passes_read (level : Nat) {c : Cursor} (some : c.rest ≠ []) :
    c.Passes (read level c).after := by
  have opening : c.Passes (c.forward (level + 2)) := passes_forward some (by omega)
  refine opening.trans ?_
  unfold read
  dsimp only
  split
  · exact (reaches_forward _ 1).trans (reaches_forward _ _)
  · exact reaches_forward _ _

end LongBracket

namespace Lexeme

open Cursor

theorem spelling_pos_of_mem_symbols {kind : TokenKind} (h : kind ∈ TokenKind.symbols) :
    0 < kind.spelling.length := by
  have all : ∀ kind ∈ TokenKind.symbols, 0 < kind.spelling.length := by decide
  exact all kind h

theorem passes_symbol (b : UInt8) {c : Cursor} (some : c.rest ≠ []) :
    c.Passes (symbol b c).after := by
  unfold symbol
  split
  next kind found =>
    exact passes_forward some (spelling_pos_of_mem_symbols (List.mem_of_find?_eq_some found))
  · exact passes_forward some Nat.one_pos

/-- A numeral holds at least the digit or the point that it begins with. -/
theorem numeralBody_pos (hex signAllowed : Bool) (g : Glyph) (rest : List Glyph)
    (h : Byte.isDigit g.code = true ∨ (g.code == Byte.of '.') = true) :
    0 < numeralBody hex signAllowed (g :: rest) := by
  have accepted : Byte.isHexDigit g.code || g.code == Byte.of '.' := by
    rcases h with digit | point
    · simp [Byte.isHexDigit, digit]
    · simp [point]
  unfold numeralBody
  split
  · omega
  · simp [accepted]

theorem passes_numeral {b : UInt8} {c : Cursor} (first : c.code? 0 = some b)
    (h : Byte.isDigit b = true ∨ (b == Byte.of '.') = true) : c.Passes (numeral c).after := by
  refine passes_forward (rest_ne_nil_of_code? first) ?_
  split
  · omega
  · obtain ⟨rest, position⟩ := c
    cases rest with
    | nil => simp [code?] at first
    | cons g rest =>
      have same : g.code = b := by simpa [code?] using first
      have pos (hex : Bool) := numeralBody_pos hex false g rest (same ▸ h)
      simp only [forward_zero, Nat.zero_add]
      exact Nat.lt_of_lt_of_le (pos _) (Nat.le_add_right _ _)

theorem passes_read (d : Dialect) {b : UInt8} {c : Cursor} (first : c.code? 0 = some b) :
    c.Passes (read d b c).after := by
  have some := rest_ne_nil_of_code? first
  unfold read
  split
  · exact QuotedLiteral.passes_read b some
  split
  · split
    · exact LongBracket.passes_read _ some
    · exact passes_symbol b some
  split
  next numeral =>
    refine passes_numeral first ?_
    simp only [Bool.or_eq_true, Bool.and_eq_true] at numeral
    exact numeral.imp_right And.left
  split
  next nameStart =>
    exact passes_forward some (count_pos first (by simp [Byte.isNamePart, nameStart]))
  · exact passes_symbol b some

end Lexeme

/-! ## Whole texts -/

namespace Scanner

open Cursor

theorem reaches_comment (s : Scanner) : s.cursor.Reaches s.comment.1.cursor := by
  unfold comment note
  dsimp only
  split
  · unfold LongBracket.read
    dsimp only
    split <;> simp only [forward_forward] <;> exact reaches_forward _ _
  · simp only [forward_forward]
    exact reaches_forward _ _

theorem reaches_skipTrivia (clock : List Glyph) (s : Scanner) (errors : List LexicalError) :
    s.cursor.Reaches (skipTrivia clock s errors).1.cursor := by
  induction clock generalizing s errors with
  | nil => exact .refl _
  | cons _ clock inductionHypothesis =>
    unfold skipTrivia
    split
    · exact .refl _
    · split
      · exact (reaches_forward s.cursor 1).trans (inductionHypothesis _ _)
      split
      · exact (reaches_comment s).trans (inductionHypothesis _ _)
      · exact .refl _

/-- What scanning a token does to the cursor: blanks and comments are skipped, and the token
takes at least one glyph unless it is the end of input. -/
structure Advances (s : Scanner) (r : Scanned) : Prop where
  start_le : s.cursor.position ≤ r.token.span.start
  start_lt : r.token.kind ≠ .eof → r.token.span.start < r.token.span.stop
  stop : r.token.span.stop = r.after.cursor.position
  shorter : r.token.kind ≠ .eof → r.after.cursor.rest.length < s.cursor.rest.length

theorem scan_advances (d : Dialect) (s : Scanner) : s.Advances (s.scan d) := by
  have skipped := reaches_skipTrivia s.cursor.rest s []
  unfold scan
  split
  next s' errors trivia =>
    rw [trivia] at skipped
    dsimp only
    split
    · exact ⟨skipped.position_le, fun h => absurd rfl h, rfl, fun h => absurd rfl h⟩
    next b first =>
      have passes := Lexeme.passes_read d first
      exact ⟨skipped.position_le, fun _ => passes.position_lt, rfl,
        fun _ => Nat.lt_of_lt_of_le passes.length_lt skipped.length_le⟩

/-- The tokens that scanning finds one after the other, and the end of input after them. -/
inductive Finds (d : Dialect) : Scanner → List Scanned → Scanned → Prop
  | eof {s} : (s.scan d).token.kind = .eof → Finds d s [] (s.scan d)
  | token {s rest final} : (s.scan d).token.kind ≠ .eof →
      Finds d (s.scan d).after rest final → Finds d s (s.scan d :: rest) final

theorem scan_kind_of_rest_eq_nil (d : Dialect) {s : Scanner} (h : s.cursor.rest = []) :
    (s.scan d).token.kind = .eof := by
  simp [scan, h, skipTrivia, code?]

/-- The unread glyphs are enough of a bound: the run ends at the end of input. -/
theorem runFrom_finds (d : Dialect) (clock : List Glyph) (s : Scanner) (done : List Scanned)
    (enough : s.cursor.rest.length ≤ clock.length) :
    ∃ rest, runFrom d clock s done = (rest.reverse ++ done, (runFrom d clock s done).2) ∧
      Finds d s rest (runFrom d clock s done).2 := by
  induction clock generalizing s done with
  | nil =>
    have empty : s.cursor.rest = [] := List.length_eq_zero_iff.1 (Nat.le_zero.1 enough)
    exact ⟨[], by simp [runFrom], .eof (scan_kind_of_rest_eq_nil d empty)⟩
  | cons _ clock inductionHypothesis =>
    unfold runFrom
    dsimp only
    split
    next last => exact ⟨[], by simp, .eof last⟩
    next more =>
      have shorter := (scan_advances d s).shorter more
      obtain ⟨rest, equal, found⟩ := inductionHypothesis (s.scan d).after (s.scan d :: done)
        (by simp only [List.length_cons] at enough; omega)
      refine ⟨s.scan d :: rest, ?_, .token more found⟩
      rw [equal]
      simp

theorem run_finds (d : Dialect) (s : Scanner) : Finds d s (s.run d).1 (s.run d).2 := by
  obtain ⟨rest, equal, found⟩ := runFrom_finds d s.cursor.rest s [] (Nat.le_refl _)
  unfold run
  rw [equal]
  simpa using found

namespace Finds

variable {d : Dialect} {s : Scanner} {tokens : List Scanned} {final : Scanned}

theorem final_kind (h : Finds d s tokens final) : final.token.kind = .eof := by
  induction h with
  | eof last => exact last
  | token _ _ inductionHypothesis => exact inductionHypothesis

/-- What holds of every token scanned holds of all tokens found. -/
theorem all {P : Scanned → Prop} (scanned : ∀ s : Scanner, (s.scan d).token.kind ≠ .eof →
    P (s.scan d)) (h : Finds d s tokens final) : ∀ r ∈ tokens, P r := by
  induction h with
  | eof => simp
  | token more _ inductionHypothesis =>
    exact List.forall_mem_cons.2 ⟨scanned _ more, inductionHypothesis⟩

/-- Nothing is found but what is scanned. -/
theorem scanned (h : Finds d s tokens final) :
    ∀ r ∈ tokens ++ [final], ∃ s : Scanner, r = s.scan d := by
  induction h with
  | eof => exact List.forall_mem_singleton.2 ⟨_, rfl⟩
  | token _ _ inductionHypothesis => exact List.forall_mem_cons.2 ⟨⟨_, rfl⟩, inductionHypothesis⟩

/-- Tokens stand at or after the place where scanning began. -/
theorem start_le (h : Finds d s tokens final) :
    ∀ r ∈ tokens ++ [final], s.cursor.position ≤ r.token.span.start := by
  induction h with
  | eof => simpa using (scan_advances d _).start_le
  | token more _ inductionHypothesis =>
    have step := scan_advances d
    refine List.forall_mem_cons.2 ⟨(step _).start_le, fun r membership => ?_⟩
    refine Position.le_trans (step _).start_le (Position.le_trans ?_
      (inductionHypothesis r membership))
    exact (step _).stop ▸ Position.le_of_lt ((step _).start_lt more)

/-- Tokens stand one after the other, and the end of input after them all. -/
theorem ordered (h : Finds d s tokens final) :
    (tokens ++ [final]).Pairwise fun a b => a.token.span.stop ≤ b.token.span.start := by
  induction h with
  | eof => simp
  | token more found inductionHypothesis =>
    refine List.pairwise_cons.2 ⟨fun r membership => ?_, inductionHypothesis⟩
    exact (scan_advances d _).stop ▸ found.start_le r membership

theorem not_eof (h : Finds d s tokens final) : ∀ t ∈ tokens.map (·.token), t.kind ≠ .eof :=
  List.forall_mem_map.2 (h.all (P := fun r => r.token.kind ≠ .eof) fun _ more => more)

theorem start_lt (h : Finds d s tokens final) :
    ∀ t ∈ tokens.map (·.token), t.span.start < t.span.stop :=
  List.forall_mem_map.2 (h.all (P := fun r => r.token.span.start < r.token.span.stop)
    fun s more => (s.scan_advances d).start_lt more)

theorem ordered_tokens (h : Finds d s tokens final) :
    (tokens.map (·.token) ++ [final.token]).Pairwise fun a b => a.span.stop ≤ b.span.start := by
  rw [← List.map_singleton, ← List.map_append, List.pairwise_map]
  exact h.ordered

end Finds

end Scanner

/-- Of tokens that stand one after the other, each is known by where it starts. -/
theorem Token.eq_of_start_eq {ts : List Token} (width : ∀ t ∈ ts, t.span.start < t.span.stop)
    (ordered : ts.Pairwise fun a b => a.span.stop ≤ b.span.start) {t u : Token} (h : t ∈ ts)
    (k : u ∈ ts) (same : t.span.start = u.span.start) : t = u := by
  have apart {a b : Token} (h : a ∈ ts) (same : a.span.start = b.span.start) :
      ¬ a.span.stop ≤ b.span.start := by
    rw [Position.not_le, ← same]
    exact width a h
  refine List.Pairwise.forall_of_forall_of_flip
    (R := fun a b => a.span.start = b.span.start → a = b) ?_ ?_ ?_ h k same
  · exact fun _ _ _ => rfl
  · refine ordered.imp_of_mem fun first _ before same => ?_
    exact absurd before (apart first same)
  · refine ordered.imp_of_mem fun first _ before same => ?_
    exact absurd before (apart first same.symm)

end LuaChunk
