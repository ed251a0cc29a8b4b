import LuaChunk.Proofs.Lexer.Trivia

/-!
# Rounds of the token reader

The loops of the token reader are given the unread glyphs as a bound on their rounds.  Every round
takes a glyph, so any other bound that is long enough gives the same: the loops end by themselves.
-/

set_option autoImplicit false

namespace LuaChunk

namespace QuotedLiteral

open Cursor

/-- An escape takes at least its backslash. -/
theorem passes_escape {c : Cursor} (some : c.rest ≠ []) : c.Passes (escape c).after := by
  refine ⟨some, ?_⟩
  unfold escape hexEscape decimalEscape unicodeEscape
  dsimp only
  generalize c.forward 1 = mark
  split
  · exact .refl mark
  repeat' split
  all_goals
    simp only [forward_forward]
    exact reaches_forward mark _

/-- With no glyph left, a literal is cut short. -/
theorem finish_of_rest_eq_nil (quote : UInt8) (start : Position) (clock : List Glyph) {p : Progress}
    (last : p.cursor.rest = []) : finish quote start clock p = p.cut start := by
  cases clock with
  | nil => rfl
  | cons _ clock =>
    unfold finish
    rw [last]

theorem finish_clock (quote : UInt8) (start : Position) {clock clock' : List Glyph} (p : Progress)
    (enough : p.cursor.rest.length ≤ clock.length)
    (enough' : p.cursor.rest.length ≤ clock'.length) :
    finish quote start clock p = finish quote start clock' p := by
  induction clock generalizing clock' p with
  | nil =>
    have last : p.cursor.rest = [] := List.length_eq_zero_iff.1 (Nat.le_zero.1 enough)
    rw [finish_of_rest_eq_nil quote start _ last, finish_of_rest_eq_nil quote start _ last]
  | cons _ clock inductionHypothesis =>
    cases clock' with
    | nil =>
      have last : p.cursor.rest = [] := List.length_eq_zero_iff.1 (Nat.le_zero.1 enough')
      rw [finish_of_rest_eq_nil quote start _ last, finish_of_rest_eq_nil quote start _ last]
    | cons _ clock' =>
      have onward (q : Progress) (passes : p.cursor.Passes q.cursor) :
          finish quote start clock q = finish quote start clock' q := by
        have shorter := passes.length_lt
        rw [List.length_cons] at enough enough'
        apply inductionHypothesis q
        · omega
        · omega
      unfold finish
      split
      · rfl
      next g rest glyphs =>
        have some : p.cursor.rest ≠ [] := by
          rw [glyphs]
          exact nofun
        split
        · rfl
        split
        · exact onward _ (passes_escape some)
        split
        · rfl
        · exact onward _ (passes_forward some Nat.one_pos)

end QuotedLiteral

namespace Scanner

open Cursor

theorem skipTrivia_clock {clock clock' : List Glyph} (s : Scanner) (errors : List LexicalError)
    (enough : s.cursor.rest.length ≤ clock.length)
    (enough' : s.cursor.rest.length ≤ clock'.length) :
    skipTrivia clock s errors = skipTrivia clock' s errors :=
  (skipTrivia_skipping clock s errors enough).unique (skipTrivia_skipping clock' s errors enough')

theorem Finds.unique {d : Dialect} {s : Scanner} {tokens tokens' : List Scanned}
    {final final' : Scanned} (h : Finds d s tokens final) (k : Finds d s tokens' final') :
    tokens = tokens' ∧ final = final' := by
  induction h generalizing tokens' final' with
  | eof last =>
    cases k with
    | eof => exact ⟨rfl, rfl⟩
    | token more => exact absurd last more
  | token more _ inductionHypothesis =>
    cases k with
    | eof last => exact absurd last more
    | token _ found =>
      obtain ⟨same, last⟩ := inductionHypothesis found
      exact ⟨congrArg _ same, last⟩

/-- Scanning finds one sequence of tokens, and it is the one that a run lays out. -/
theorem finds_iff_run (d : Dialect) (s : Scanner) (tokens : List Scanned) (final : Scanned) :
    Finds d s tokens final ↔ s.run d = (tokens, final) := by
  constructor
  · intro found
    obtain ⟨same, last⟩ := (s.run_finds d).unique found
    exact Prod.ext same last
  · intro same
    have found := s.run_finds d
    rw [same] at found
    exact found

end Scanner

end LuaChunk
