import LuaChunk.Proofs.Lexer.Rounds

/-!
# Where lexical errors stand

What is wrong with a token is found on the way to it or in it, so its errors stand between the token
before it and its own end.  They begin after the token does, except for at most one error of the
token as a whole, which is listed last.  Only strings, stray bytes and the end of input have any.
-/

set_option autoImplicit false

namespace LuaChunk

/-- Something is wrong with an escape of a quoted literal. -/
def LexicalFault.isEscape : LexicalFault → Bool
  | .invalidEscape _ | .escapeTooLarge => true
  | .unterminatedString | .unfinishedLongString | .unfinishedLongComment | .unexpectedCharacter _ =>
    false

/-- The error takes up some text between two positions. -/
structure LexicalError.Lies (low high : Position) (e : LexicalError) : Prop where
  low_le : low ≤ e.span.start
  start_lt : e.span.start < e.span.stop
  stop_le : e.span.stop ≤ high

theorem LexicalError.Lies.mono {low high low' high' : Position} {e : LexicalError}
    (h : e.Lies low high) (lower : low' ≤ low) (higher : high ≤ high') : e.Lies low' high' :=
  ⟨Position.le_trans lower h.low_le, h.start_lt, Position.le_trans h.stop_le higher⟩

/-- The errors of a token: those of its escapes, and after them at most one of the whole token. -/
structure Token.Faults (t : Token) (errors : List LexicalError) : Prop where
  split : ∃ escapes whole, errors = escapes ++ whole ∧
    (∀ e ∈ escapes, e.fault.isEscape = true ∧ t.span.start < e.span.start) ∧
    (whole = [] ∨ ∃ e, whole = [e] ∧ e.span.start ≤ t.span.start ∧
      (escapes = [] ∨ e.fault = .unterminatedString ∧ e.span = t.span))
  kind : errors ≠ [] → t.kind ∈ [.string, .illegal, .eof]

namespace Token.Faults

variable {t : Token}

theorem none (t : Token) : t.Faults [] :=
  ⟨⟨[], [], rfl, nofun, .inl rfl⟩, fun some => absurd rfl some⟩

theorem single {e : LexicalError} (kind : t.kind ∈ [.string, .illegal, .eof])
    (start : e.span.start ≤ t.span.start) : t.Faults [e] :=
  ⟨⟨[], [e], rfl, nofun, .inr ⟨e, rfl, start, .inl rfl⟩⟩, fun _ => kind⟩

end Token.Faults

/-! ## Quoted literals -/

namespace QuotedLiteral

theorem isEscape_of_escape {c : Cursor} {fault : LexicalFault} (h : (escape c).fault = some fault) :
    fault.isEscape = true := by
  revert h
  unfold escape hexEscape decimalEscape unicodeEscape
  dsimp only
  repeat' split
  all_goals
    intro h
    cases h
    first | rfl | skip

/-- What a literal adds to the errors before it: those of its escapes from a place on, and at last
that it is cut short, if it is. -/
structure Adds (start low : Position) (before : List LexicalError) (done : Progress) : Prop where
  split : ∃ escapes cut, done.errors = cut ++ escapes ++ before ∧
    (∀ e ∈ escapes, e.fault.isEscape = true ∧ e.Lies low done.cursor.position) ∧
    (cut = [] ∨ cut = [⟨.unterminatedString, done.cursor.spanFrom start⟩])

namespace Adds

variable {start low low' : Position} {before : List LexicalError} {done : Progress}

theorem none (same : done.errors = before) : Adds start low before done :=
  ⟨[], [], same, nofun, .inl rfl⟩

theorem cut (p : Progress) : Adds start low p.errors (p.cut start) :=
  ⟨[], _, rfl, nofun, .inr rfl⟩

theorem mono (h : Adds start low before done) (lower : low' ≤ low) :
    Adds start low' before done := by
  obtain ⟨escapes, cut, errors, lie, last⟩ := h.split
  exact ⟨escapes, cut, errors, fun e among =>
    (lie e among).imp_right (·.mono lower (Position.le_refl _)), last⟩

/-- The error of an escape is the first of those from its place on. -/
theorem escape {e : LexicalError} (h : Adds start low (e :: before) done)
    (isEscape : e.fault.isEscape = true) (lies : e.Lies low' done.cursor.position)
    (lower : low' ≤ low) : Adds start low' before done := by
  obtain ⟨escapes, cut, errors, lie, last⟩ := (h.mono lower).split
  refine ⟨escapes ++ [e], cut, by simp [errors], fun other among => ?_, last⟩
  rcases List.mem_append.1 among with later | own
  · exact lie other later
  · obtain rfl := List.mem_singleton.1 own
    exact ⟨isEscape, lies⟩

end Adds

/-- Errors come up in source order, each at an escape; a literal that is cut short is complained of
at last. -/
theorem finish_errors (quote : UInt8) (start : Position) (clock : List Glyph) (p : Progress) :
    Adds start p.cursor.position p.errors (finish quote start clock p) := by
  induction clock generalizing p with
  | nil => exact .cut p
  | cons _ clock inductionHypothesis =>
    unfold finish
    split
    · exact .cut p
    next g rest glyphs =>
      split
      · exact .cut p
      split
      · have passes : p.cursor.Passes p.takeEscape.cursor := passes_escape (by simp [glyphs])
        have lower := Position.le_of_lt passes.position_lt
        have later := inductionHypothesis p.takeEscape
        cases fault : (escape p.cursor).fault with
        | none =>
          have same : p.takeEscape.errors = p.errors := by simp [Progress.takeEscape, fault]
          exact (same ▸ later).mono lower
        | some fault' =>
          have own : p.takeEscape.errors =
              ⟨fault', p.takeEscape.cursor.spanFrom p.cursor.position⟩ :: p.errors := by
            simp [Progress.takeEscape, fault]
          refine (own ▸ later).escape (isEscape_of_escape fault) ?_ lower
          exact ⟨Position.le_refl _, passes.position_lt,
            (reaches_finish quote start clock p.takeEscape).position_le⟩
      split
      · exact .none rfl
      · have later := inductionHypothesis ⟨g.code :: p.bytes, p.errors, p.cursor.forward 1⟩
        exact later.mono (p.cursor.position_le_forward 1)

end QuotedLiteral

/-! ## Tokens -/

namespace Lexeme

/-- The token that a lexeme read at a cursor becomes. -/
def token (l : Lexeme) (c : Cursor) : Token := ⟨l.kind, l.text, l.after.spanFrom c.position⟩

/-- The errors of a lexeme are in their places. -/
structure Errs (l : Lexeme) (c : Cursor) : Prop where
  faults : (l.token c).Faults l.errors
  lie : ∀ e ∈ l.errors, e.Lies c.position l.after.position

theorem errs_of_none {l : Lexeme} (c : Cursor) (none : l.errors = []) : l.Errs c :=
  ⟨none ▸ .none _, by simp [none]⟩

/-- A single error takes up the whole token. -/
theorem errs_of_whole {l : Lexeme} {c : Cursor} (fault : LexicalFault) (passes : c.Passes l.after)
    (kind : l.kind ∈ [.string, .illegal, .eof])
    (whole : l.errors = [⟨fault, l.after.spanFrom c.position⟩]) : l.Errs c := by
  constructor
  · rw [whole]
    exact .single kind (Position.le_refl _)
  · rw [whole]
    exact List.forall_mem_singleton.2 ⟨Position.le_refl _, passes.position_lt, Position.le_refl _⟩

theorem errs_symbol (b : UInt8) {c : Cursor} (some : c.rest ≠ []) : (symbol b c).Errs c := by
  have passes := passes_symbol b some
  revert passes
  unfold symbol
  split
  · exact fun _ => errs_of_none c rfl
  · exact fun passes => errs_of_whole _ passes (by simp [unexpected]) rfl

theorem errs_quoted (quote : UInt8) {c : Cursor} (some : c.rest ≠ []) : (quoted quote c).Errs c := by
  have opened : c.Passes (c.forward 1) := ⟨some, .refl _⟩
  have passes : c.Passes (quoted quote c).after := QuotedLiteral.passes_read quote some
  obtain ⟨escapes, cut, errors, lie, last⟩ := (QuotedLiteral.finish_errors quote c.position
    (c.forward 1).rest ⟨[], [], c.forward 1⟩).split
  have all : (quoted quote c).errors = escapes.reverse ++ cut.reverse := by
    rw [← List.reverse_append, ← List.append_nil (cut ++ escapes)]
    exact congrArg List.reverse errors
  have escaped (e : LexicalError) (among : e ∈ escapes.reverse) : e.fault.isEscape = true ∧
      e.Lies (c.forward 1).position (quoted quote c).after.position :=
    lie e (List.mem_reverse.1 among)
  have whole : cut.reverse = [] ∨
      cut.reverse = [⟨.unterminatedString, (quoted quote c).after.spanFrom c.position⟩] := by
    rcases last with rfl | rfl
    · exact .inl rfl
    · exact .inr rfl
  constructor
  · refine ⟨⟨_, _, all, fun e among => ?_, ?_⟩, fun _ => by simp [token, quoted]⟩
    · obtain ⟨fault, lies⟩ := escaped e among
      exact ⟨fault, Position.lt_of_lt_of_le opened.position_lt lies.low_le⟩
    · rcases whole with none | cut
      · exact .inl none
      · exact .inr ⟨_, cut, Position.le_refl _, .inr ⟨rfl, rfl⟩⟩
  · rw [all, List.forall_mem_append]
    constructor
    · exact fun e among =>
        (escaped e among).2.mono (Position.le_of_lt opened.position_lt) (Position.le_refl _)
    · rcases whole with none | cut
      · simp [none]
      · rw [cut]
        exact List.forall_mem_singleton.2
          ⟨Position.le_refl _, passes.position_lt, Position.le_refl _⟩

theorem errs_longString (level : Nat) {c : Cursor} (some : c.rest ≠ []) :
    (longString level c).Errs c := by
  have passes : c.Passes (longString level c).after := LongBracket.passes_read level some
  cases closed : (LongBracket.read level c).closed with
  | true => exact errs_of_none c (by simp [longString, closed])
  | false =>
    refine errs_of_whole .unfinishedLongString passes (by simp [longString]) ?_
    simp [longString, closed]

theorem errs_read (d : Dialect) {b : UInt8} {c : Cursor} (first : c.code? 0 = some b) :
    (read d b c).Errs c := by
  have some := Cursor.rest_ne_nil_of_code? first
  unfold read
  split
  · exact errs_quoted b some
  split
  · split
    · exact errs_longString _ some
    · exact errs_symbol b some
  split
  · exact errs_of_none c rfl
  split
  · exact errs_of_none c rfl
  · exact errs_symbol b some

end Lexeme

/-! ## Comments -/

namespace Scanner

/-- A comment with an error goes on to the end of the text. -/
theorem comment_errors (s : Scanner) : s.comment.2 = [] ∨ ∃ e, s.comment.2 = [e] ∧
    e.Lies s.cursor.position s.comment.1.cursor.position ∧ s.comment.1.cursor.rest = [] := by
  unfold comment
  dsimp only
  split
  next level opens =>
    have bracket : (s.cursor.forward 2).code? 0 = some (Byte.of '[') := by
      revert opens
      split
      · exact fun _ => ‹_›
      · exact nofun
    have passes := LongBracket.passes_read level (Cursor.rest_ne_nil_of_code? bracket)
    cases closed : (LongBracket.read level (s.cursor.forward 2)).closed with
    | true => exact .inl rfl
    | false =>
      refine .inr ⟨_, rfl, ⟨s.cursor.position_le_forward 2, passes.position_lt,
        Position.le_refl _⟩, ?_⟩
      revert closed
      unfold LongBracket.read note
      dsimp only
      generalize (if ((s.cursor.forward 2).forward (level + 2)).atLineBreak = true then
        ((s.cursor.forward 2).forward (level + 2)).forward 1
        else (s.cursor.forward 2).forward (level + 2)) = body
      obtain ⟨length, closed, equality, _, _, missing⟩ :=
        LongBracket.contentLength_eq level 0 body.rest
      rw [equality]
      rintro rfl
      simpa using missing rfl
  · exact .inl rfl

/-- On the way to a token at most one error is found, and then there is no token any more. -/
theorem Skipping.errors_cases {s : Scanner} {errors : List LexicalError}
    {there : Scanner × List LexicalError} (h : Skipping s errors there) :
    there.2 = errors ∨ ∃ e, there.2 = errors ++ [e] ∧
      e.Lies s.cursor.position there.1.cursor.position ∧ there.1.cursor.rest = [] := by
  induction h with
  | stop _ => exact .inl rfl
  | @blank s errors b there _ _ _ inductionHypothesis =>
    refine inductionHypothesis.imp_right fun ⟨e, same, lies, last⟩ => ?_
    exact ⟨e, same, lies.mono (s.cursor.position_le_forward 1) (Position.le_refl _), last⟩
  | @comment s errors there _ skipping inductionHypothesis =>
    rcases comment_errors s with none | ⟨e, own, lies, last⟩
    · rw [none, List.append_nil] at inductionHypothesis
      refine inductionHypothesis.imp_right fun ⟨e, same, lies, last⟩ => ?_
      exact ⟨e, same, lies.mono (reaches_comment s).position_le (Position.le_refl _), last⟩
    · rw [skipping.unique (.of_rest_eq_nil _ last), own]
      exact .inr ⟨e, rfl, lies, last⟩

/-- What is wrong with a token stands between the token before it and its own end. -/
structure Errs (s : Scanner) (r : Scanned) : Prop where
  faults : r.token.Faults r.errors
  lie : ∀ e ∈ r.errors, e.Lies s.cursor.position r.token.span.stop

theorem scan_errs (d : Dialect) (s : Scanner) : s.Errs (s.scan d) := by
  have skipped := reaches_skipTrivia s.cursor.rest s []
  have found := (skipTrivia_skipping s.cursor.rest s [] (Nat.le_refl _)).errors_cases
  unfold scan
  generalize skipTrivia s.cursor.rest s [] = trivia at skipped found
  obtain ⟨there, errors⟩ := trivia
  dsimp only at skipped found ⊢
  split
  next last =>
    rcases found with rfl | ⟨e, rfl, lies, _⟩
    · exact ⟨.none _, nofun⟩
    · refine ⟨.single (by simp) (Position.le_trans ?_ lies.stop_le), ?_⟩
      · exact Position.le_of_lt lies.start_lt
      · exact List.forall_mem_singleton.2 lies
  next b first =>
    have none : errors = [] := by
      rcases found with none | ⟨_, _, _, last⟩
      · exact none
      · exact absurd last (Cursor.rest_ne_nil_of_code? first)
    subst none
    have own := Lexeme.errs_read d first
    exact ⟨own.faults, fun e among => (own.lie e among).mono skipped.position_le (Position.le_refl _)⟩

end Scanner

end LuaChunk
