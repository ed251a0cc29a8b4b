import LuaChunk.Proofs.Levels.Spilling
import LuaChunk.Proofs.Parser.Primitives

/-!
# Reading with more levels

The same text is read twice, and the second reading may nest deeper.  As long as the first one does
not ask for a level that it has not, the second does what the first does: `Tracks`, with one rule for
each way in which parsers are put together.
-/

set_option autoImplicit false

namespace LuaChunk

namespace Session

/-- The same session with another limit on levels. -/
def allowing (n : Nat) (s : Session) : Session :=
  { s with settings := { s.settings with maxNesting := n } }

/-- The reading was stopped as it would have nested too deep. -/
def TooDeep (s : Session) : Prop := ∃ d ∈ s.errors, d.cause = .tooManyLevels

end Session

namespace Parser

open Session

variable {α β σ : Type} {n : Nat}

/-! ## Parsers that count no levels -/

/-- The same end of a run with another limit on levels. -/
def allowingEnd (n : Nat) : EStateM.Result Abort Session α → EStateM.Result Abort Session α
  | .ok a s => .ok a (s.allowing n)
  | .error abort s => .error abort (s.allowing n)

/-- The limit on levels makes no difference. -/
def Unlimited (p : Parser α) : Prop := ∀ n s, p (s.allowing n) = allowingEnd n (p s)

namespace Unlimited

variable {p : Parser α} {f : α → Parser β}

theorem bind (h : Unlimited p) (g : ∀ a, Unlimited (f a)) : Unlimited (p >>= f) := by
  intro n s
  have same := h n s
  cases result : p s with
  | ok a t =>
    rw [result] at same
    rw [bind_of_ok result, bind_of_ok same]
    exact g a n t
  | error abort t =>
    rw [result] at same
    rw [bind_of_error result, bind_of_error same]
    rfl

theorem pure (a : α) : Unlimited (Pure.pure a : Parser α) := fun _ _ => rfl

theorem ite {c : Prop} [Decidable c] {q : Parser α} (h : Unlimited p) (g : Unlimited q) :
    Unlimited (if c then p else q) := by
  split
  · exact h
  · exact g

theorem onTokens (q : TokenStream → α × TokenStream) : Unlimited (onTokens q) := fun _ _ => rfl

theorem record (x : Diagnostic) : Unlimited (record x) := by
  intro n s
  unfold Parser.record
  rw [show (s.allowing n).log = s.log from rfl]
  by_cases hasRoom : s.log.HasRoom
  · rw [ErrorLog.report_of_hasRoom hasRoom]
    rfl
  · rw [ErrorLog.report_of_not_hasRoom hasRoom]
    rfl

theorem recordAll (errors : List LexicalError) : Unlimited (recordAll errors) := by
  induction errors with
  | nil => exact .pure ()
  | cons e rest inductionHypothesis => exact .bind (.record _) fun _ => inductionHypothesis

theorem syncBefore (p : Position) : Unlimited (syncBefore p) := .bind (.onTokens _) .recordAll

theorem complain (cause : Cause) (span : Span) : Unlimited (complain cause span) :=
  .bind (.syncBefore _) fun _ => .record _

theorem next : Unlimited next :=
  .bind (.onTokens _) fun _ => .ite
    (.bind (.onTokens _) fun _ => .bind (.recordAll _) fun _ => .pure _)
    (.bind (.syncBefore _) fun _ => .pure _)

end Unlimited

theorem complain_tidy (cause : Cause) (span : Span) {s : Session} (tidy : s.tokens.Tidy) :
    Ends (complain cause span s) fun _ t => t.tokens.Tidy := by
  obtain ⟨taken, left, queue, cut, -⟩ := s.tokens.takeErrorsBefore_cases span.start.nextColumn
  refine Ends.bind (Q := fun _ t => t.tokens = { s.tokens with pending := left }) ?_ ?_
  · rw [syncBefore_of_cut cut]
    exact recordAll_tokens taken { s with tokens := { s.tokens with pending := left } }
  · intro _ u tokens
    refine (record_ends _ u).mono ?_
    rintro _ _ ⟨_, rfl⟩
    exact tokens ▸ tidy.drop queue

theorem next_tidy {s : Session} (tidy : s.tokens.Tidy) :
    Ends (next s) fun _ t => t.tokens.Tidy := by
  refine Ends.bind (Q := fun token t => token = s.tokens.next.1 ∧
    t = { s with tokens := s.tokens.next.2 }) ⟨rfl, rfl⟩ ?_
  rintro _ _ ⟨rfl, rfl⟩
  cases ahead : s.tokens.ahead with
  | nil =>
    obtain ⟨token, -⟩ := TokenStream.next_of_ahead_eq_nil ahead
    rw [if_pos (token ▸ tidy.found.final_kind)]
    refine Ends.bind (Q := fun _ t =>
      t = { s with tokens := { s.tokens.next.2 with pending := [] } }) rfl ?_
    rintro errors _ rfl
    refine (recordAll_tokens errors _).bind fun _ t tokens => ?_
    exact (congrArg TokenStream.Tidy tokens).mpr (tidy.finish ahead).1
  | cons r rest =>
    obtain ⟨token, -, -⟩ := TokenStream.next_of_ahead_eq_cons ahead
    obtain ⟨-, taken, left, queue, cut, tidy'⟩ := tidy.next ahead
    rw [← token] at cut
    rw [if_neg (token ▸ tidy.found.not_eof _ (by simp [ahead]))]
    refine Ends.bind (Q := fun _ t => t.tokens = { s.tokens.next.2 with pending := left }) ?_
      fun _ t tokens => (congrArg TokenStream.Tidy tokens).mpr tidy'
    rw [syncBefore_of_cut cut]
    exact recordAll_tokens taken _

/-! ## The judgement -/

/-- The second parser, allowed more levels, does what the first does unless that one nests too deep.
Where a log spills that may be found out later. -/
def Tracks (n : Nat) (mayEnd : Prop) (p q : Parser α) : Prop :=
  ∀ s, s.tokens.Tidy →
    match p s with
    | .ok a t => t.tokens.Tidy ∧ q (s.allowing n) = .ok a (t.allowing n)
    | .error _ t => t.TooDeep ∨
      match q (s.allowing n) with
      | .ok _ u => mayEnd ∧ u.Spills t.errors t.tokens.comments
      | .error _ u => u.errors = t.errors ∧ u.tokens.comments = t.tokens.comments

namespace Tracks

variable {Q Q' : Prop} {p q : Parser α} {f g : α → Parser β}

theorem mono (h : Tracks n Q p q) (sub : Q → Q') : Tracks n Q' p q := by
  intro s tidy
  have run := h s tidy
  cases first : p s with
  | ok a t => rwa [first] at run
  | error abort t =>
    rw [first] at run
    refine run.imp_right fun run => ?_
    cases second : q (s.allowing n) with
    | ok b u =>
      rw [second] at run
      exact run.imp_left sub
    | error abort u => rwa [second] at run

/-- What follows may rely on a run of the first parser that returned. -/
theorem bind (h : Tracks n False p q)
    (k : ∀ a, (∃ s t, p s = .ok a t) → Tracks n Q (f a) (g a)) :
    Tracks n Q (p >>= f) (q >>= g) := by
  intro s tidy
  have run := h s tidy
  cases first : p s with
  | ok a t =>
    rw [first] at run
    rw [bind_of_ok first, bind_of_ok run.2]
    exact k a ⟨s, t, first⟩ t run.1
  | error abort t =>
    rw [first] at run
    rw [bind_of_error first]
    refine run.imp_right fun run => ?_
    cases second : q (s.allowing n) with
    | ok b u =>
      rw [second] at run
      exact run.1.elim
    | error abort u =>
      rw [second] at run
      rw [bind_of_error second]
      exact run

/-- Where the second parser may end although the log spills, what follows finds that out. -/
theorem recover (h : Tracks n True p q) (k : ∀ a, Tracks n Q (f a) (g a))
    (sinks : ∀ a, Sinks Q (g a)) : Tracks n Q (p >>= f) (q >>= g) := by
  intro s tidy
  have run := h s tidy
  cases first : p s with
  | ok a t =>
    rw [first] at run
    rw [bind_of_ok first, bind_of_ok run.2]
    exact k a t run.1
  | error abort t =>
    rw [first] at run
    rw [bind_of_error first]
    refine run.imp_right fun run => ?_
    cases second : q (s.allowing n) with
    | ok b u =>
      rw [second] at run
      rw [bind_of_ok second]
      exact sinks b u _ _ run.2
    | error abort u =>
      rw [second] at run
      rw [bind_of_error second]
      exact run

theorem andThen (h : Tracks n False p q) (k : ∀ a, Tracks n Q (f a) (g a)) :
    Tracks n Q (p >>= f) (q >>= g) :=
  h.bind fun a _ => k a

theorem ite {c : Prop} [Decidable c] {p' q' : Parser α} (h : Tracks n Q p q)
    (g : Tracks n Q p' q') : Tracks n Q (if c then p else p') (if c then q else q') := by
  split
  · exact h
  · exact g

/-- A parser that no limit on levels matters to. -/
theorem act {p : Parser α} (unlimited : Unlimited p)
    (keeps : ∀ s, s.tokens.Tidy → Ends (p s) fun _ t => t.tokens.Tidy) : Tracks n Q p p := by
  intro s tidy
  have same := unlimited n s
  have kept := keeps s tidy
  cases result : p s with
  | ok a t =>
    rw [result] at same kept
    exact ⟨kept, same⟩
  | error abort t =>
    rw [result] at same
    simp only [same, allowingEnd]
    exact .inr ⟨rfl, rfl⟩

theorem pure (a : α) : Tracks n Q (Pure.pure a) (Pure.pure a) := fun _ tidy => ⟨tidy, rfl⟩

theorem throw (abort : Abort) : Tracks n Q (throw abort : Parser α) (throw abort) :=
  fun _ _ => .inr ⟨rfl, rfl⟩

theorem get {f g : Session → Parser α} (h : ∀ s, Tracks n Q (f s) (g (s.allowing n))) :
    Tracks n Q (MonadState.get >>= f) (MonadState.get >>= g) :=
  fun s tidy => h s s tidy

/-- What is asked does not depend on the limit. -/
theorem ask (f : Session → α) (h : ∀ s, f (s.allowing n) = f s) :
    Tracks n Q (do return f (← MonadState.get)) (do return f (← MonadState.get)) :=
  .get fun s => h s ▸ .pure _

theorem onScopes (g : ScopeStack → ScopeStack) :
    Tracks n Q (Parser.onScopes g) (Parser.onScopes g) :=
  fun _ tidy => ⟨tidy, rfl⟩

theorem look {q : TokenStream → α × TokenStream} (looks : ∀ t, ∃ count, (q t).2 = t.look count) :
    Tracks n Q (Parser.onTokens q) (Parser.onTokens q) :=
  .act (.onTokens q) fun s tidy => by
    obtain ⟨count, looked⟩ := looks s.tokens
    change (q s.tokens).2.Tidy
    exact looked ▸ tidy.look count

theorem peekToken (i : Nat) : Tracks n Q (Parser.peekToken i) (Parser.peekToken i) :=
  .look fun _ => ⟨i + 1, rfl⟩

theorem peek : Tracks n Q Parser.peek Parser.peek := .andThen (.peekToken 0) fun _ => .pure _

theorem head : Tracks n Q Parser.head Parser.head := .andThen (.peekToken 0) fun _ => .pure _

theorem peekWhile (start : TokenKind) (ask : TokenKind → Verdict) :
    Tracks n Q (Parser.onTokens (·.peekWhile start ask)) (Parser.onTokens (·.peekWhile start ask)) := by
  refine look fun t => ?_
  unfold TokenStream.peekWhile
  split <;> exact ⟨_, rfl⟩

theorem peekPair (first second : TokenKind) :
    Tracks n Q (Parser.onTokens (·.peekPair first second))
      (Parser.onTokens (·.peekPair first second)) := by
  refine look fun t => ?_
  unfold TokenStream.peekPair
  split <;> exact ⟨_, rfl⟩

theorem dialect : Tracks n Q Parser.dialect Parser.dialect := .ask _ fun _ => rfl

theorem isMooc : Tracks n Q Parser.isMooc Parser.isMooc := .andThen .dialect fun _ => .pure _

theorem now : Tracks n Q Parser.now Parser.now := .ask _ fun _ => rfl

theorem since (start : Span) : Tracks n Q (Parser.since start) (Parser.since start) :=
  .andThen .now fun _ => .pure _

theorem scopes : Tracks n Q Parser.scopes Parser.scopes := .ask _ fun _ => rfl

theorem insideLoop : Tracks n Q Parser.insideLoop Parser.insideLoop :=
  .andThen .scopes fun _ => .pure _

theorem complain (cause : Cause) (span : Span) :
    Tracks n Q (Parser.complain cause span) (Parser.complain cause span) :=
  .act (.complain cause span) fun _ => complain_tidy cause span

theorem next : Tracks n Q Parser.next Parser.next := .act .next fun _ => next_tidy

theorem expect (kind : TokenKind) : Tracks n Q (Parser.expect kind) (Parser.expect kind) :=
  .andThen .next fun _ => .ite (.andThen (.complain _ _) fun _ => .pure _) (.pure _)

theorem expectName : Tracks n Q Parser.expectName Parser.expectName :=
  .andThen .next fun _ => .ite (.andThen (.complain _ _) fun _ => .pure _) (.pure _)

theorem accept (kind : TokenKind) : Tracks n Q (Parser.accept kind) (Parser.accept kind) :=
  .andThen .peek fun _ => .ite (.andThen .next fun _ => .pure _) (.pure _)

theorem accepts (kind : TokenKind) : Tracks n Q (Parser.accepts kind) (Parser.accepts kind) :=
  .andThen (.accept kind) fun _ => .pure _

/-! ### Repetition, constructs and levels -/

theorem within (kind : ScopeKind) (name : String) (h : Tracks n False p q) :
    Tracks n Q (within kind name p) (within kind name q) :=
  .andThen (.onScopes _) fun _ => .andThen h fun _ => .andThen (.onScopes _) fun _ => .pure _

/-- A construct around a parser that may end where the log spills. -/
theorem around (kind : ScopeKind) (name : String) (h : Tracks n True p q) :
    Tracks n True (Parser.within kind name p) (Parser.within kind name q) :=
  .andThen (.onScopes _) fun _ => .recover h (fun _ => .andThen (.onScopes _) fun _ => .pure _)
    fun _ => (Sinks.onScopes _).bind fun _ => .pure

theorem iterate {start : σ} {step step' : σ → Parser (ForInStep σ)}
    (h : ∀ x, Tracks n False (step x) (step' x)) :
    Tracks n Q (iterate start step) (iterate start step') := by
  have rounds (clock : List Scanned) (x : σ) :
      Tracks n Q (iterateFor step clock x) (iterateFor step' clock x) := by
    induction clock generalizing x with
    | nil =>
      refine .andThen (h x) fun next => ?_
      cases next <;> exact .pure _
    | cons _ clock inductionHypothesis =>
      refine .andThen (h x) fun next => ?_
      cases next with
      | done y => exact .pure _
      | yield y => exact inductionHypothesis y
  exact fun s => rounds s.tokens.ahead start s

theorem nested (h : Tracks n Q p q) : Tracks n Q (nested p) (nested q) := by
  intro s tidy
  have run := h { s with depth := s.depth + 1 } tidy
  rw [nested_eq, nested_eq]
  cases first : p { s with depth := s.depth + 1 } with
  | ok a t =>
    rw [first] at run
    exact ⟨run.1, congrArg leave run.2⟩
  | error abort t =>
    rw [first] at run
    refine run.imp_right fun run => ?_
    change match leave (q (Session.allowing n { s with depth := s.depth + 1 })) with
      | .ok _ u => _
      | .error _ u => _
    cases second : q (Session.allowing n { s with depth := s.depth + 1 }) with
    | ok b u =>
      rw [second] at run
      exact ⟨run.1, run.2.congr _ rfl rfl⟩
    | error abort u =>
      rw [second] at run
      exact run

/-- The first parser has no level left, and the second one finds out about the token ahead. -/
theorem tooDeep (sinks : Sinks Q q) : Tracks n Q tooDeep q := by
  intro s tidy
  rcases tooDeep_cases (α := α) tidy with ⟨abort, t, stops, told⟩ | ⟨errors, comments, spills⟩
  · rw [stops]
    exact .inl told
  have low := Sinks.tooDeep (α := α) s errors comments spills
  have high := sinks (s.allowing n) errors comments (spills.congr _ rfl rfl)
  cases first : (Parser.tooDeep : Parser α) s with
  | ok a t =>
    rw [first] at low
    exact low.1.elim
  | error abort t =>
    rw [first] at low
    obtain ⟨rfl, rfl⟩ := low
    exact .inr high

end Tracks

end Parser

end LuaChunk
