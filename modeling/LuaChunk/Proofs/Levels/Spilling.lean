import LuaChunk.Proofs.Diagnostics.Cap
import LuaChunk.Proofs.Diagnostics.Growth
import LuaChunk.Proofs.Lexer.OnDemand
import LuaChunk.Proofs.Lexer.Queue
import LuaChunk.Proofs.Parser.Results

/-!
# Logs that spill

Before a complaint about the token ahead, the errors of that token are recorded, and these may be more
than the log has room for.  Then it does not matter who comes next: whoever takes the token, or
complains of it, stops the analysis with the same diagnostics.
-/

set_option autoImplicit false

namespace LuaChunk

namespace ErrorLog

/-- How many more diagnostics are kept without ending the analysis. -/
def room (log : ErrorLog) : Nat := log.cap - log.diagnostics.size

/-- All that is kept when lexical errors are recorded for which there is no room. -/
def spilled (log : ErrorLog) (errors : List LexicalError) : List Diagnostic :=
  log.diagnostics.toList ++ (errors.take log.room).map (·.diagnostic) ++
    (errors[log.room]?.map (·.diagnostic.overflowing)).toList

theorem spilled_of_isPrefix {log : ErrorLog} {first errors : List LexicalError}
    (h : first <+: errors) (exceeds : log.room < first.length) :
    log.spilled first = log.spilled errors := by
  obtain ⟨rest, rfl⟩ := h
  simp [spilled, List.take_append_of_le_length (Nat.le_of_lt exceeds),
    List.getElem?_append_left exceeds]

end ErrorLog

namespace TokenStream

theorem comments_next (s : TokenStream) : s.next.2.comments = (s.look 1).comments := by
  have seen : 1 ≤ (s.look 1).seen := by
    rw [seen_look]
    exact Nat.le_max_right _ _
  unfold next
  dsimp only
  generalize s.look 1 = looked at seen
  obtain ⟨dialect, taken, ahead, final, seen', pending, now, previous⟩ := looked
  obtain ⟨n, rfl⟩ := Nat.exists_eq_add_of_le' seen
  cases ahead with
  | nil => rfl
  | cons r rest => cases n <;> rfl

end TokenStream

namespace Parser

open Session

/-! ## Recording more than fits -/

theorem recordAll_fits {errors : List LexicalError} {s : Session}
    (enough : errors.length ≤ s.log.room) : ∃ t, recordAll errors s = .ok () t := by
  induction errors generalizing s with
  | nil => exact ⟨s, rfl⟩
  | cons e rest inductionHypothesis =>
    have hasRoom : s.log.HasRoom := by
      simp only [List.length_cons, ErrorLog.room] at enough
      unfold ErrorLog.HasRoom
      omega
    have one : record e.diagnostic s = .ok () { s with log := s.log.push e.diagnostic } := by
      unfold record
      rw [ErrorLog.report_of_hasRoom hasRoom]
    obtain ⟨t, run⟩ := inductionHypothesis (s := { s with log := s.log.push e.diagnostic }) (by
      simp only [List.length_cons, ErrorLog.room, ErrorLog.push, Array.size_push] at enough ⊢
      omega)
    exact ⟨t, bind_eq_ok.2 ⟨_, _, one, run⟩⟩

theorem recordAll_spills {errors : List LexicalError} {s : Session}
    (exceeds : s.log.room < errors.length) : ∃ abort t, recordAll errors s = .error abort t ∧
      t.tokens = s.tokens ∧ t.errors = s.log.spilled errors := by
  induction errors generalizing s with
  | nil => exact absurd exceeds (Nat.not_lt_zero _)
  | cons e rest inductionHypothesis =>
    change ∃ abort t, EStateM.bind (record e.diagnostic) _ s = _ ∧ _
    unfold EStateM.bind record
    by_cases hasRoom : s.log.HasRoom
    · have one : s.log.room = (s.log.push e.diagnostic).room + 1 := by
        simp only [ErrorLog.HasRoom, ErrorLog.room, ErrorLog.push, Array.size_push] at hasRoom ⊢
        omega
      rw [ErrorLog.report_of_hasRoom hasRoom]
      obtain ⟨abort, t, run, tokens, errors⟩ := inductionHypothesis
        (s := { s with log := s.log.push e.diagnostic }) (by simp at exceeds ⊢; omega)
      refine ⟨abort, t, run, tokens, errors.trans ?_⟩
      simp [ErrorLog.spilled, one, ErrorLog.push]
    · have none : s.log.room = 0 := by
        simp only [ErrorLog.HasRoom, ErrorLog.room] at hasRoom ⊢
        omega
      rw [ErrorLog.report_of_not_hasRoom hasRoom]
      refine ⟨_, _, rfl, rfl, ?_⟩
      simp [ErrorLog.spilled, none, Session.errors, ErrorLog.push, Diagnostic.overflowing]

end Parser

/-- The errors that a complaint about the token ahead would bring up do not fit into the log, which
would then hold these diagnostics. -/
structure Session.Spills (errors : List Diagnostic) (comments : CommentLog) (s : Session) : Prop where
  tidy : s.tokens.Tidy
  full : s.log.room < ((s.tokens.look 1).takeErrorsBefore s.front.nextColumn).1.length
  errors : s.log.spilled s.tokens.waiting = errors
  comments : (s.tokens.look 1).comments = comments

namespace Session.Spills

variable {errors : List Diagnostic} {comments : CommentLog} {s : Session}

theorem congr (h : s.Spills errors comments) (s' : Session) (tokens : s'.tokens = s.tokens)
    (log : s'.log = s.log) : s'.Spills errors comments := by
  obtain ⟨settings', tokens', scopes', log', depth'⟩ := s'
  obtain rfl : tokens' = s.tokens := tokens
  obtain rfl : log' = s.log := log
  exact ⟨h.tidy, h.full, h.errors, h.comments⟩

theorem look (h : s.Spills errors comments) :
    Spills errors comments { s with tokens := s.tokens.look 1 } := by
  have twice := s.tokens.look_look (Nat.le_refl 1)
  refine ⟨h.tidy.look 1, ?_, by simpa using h.errors, by simpa [twice] using h.comments⟩
  simpa [twice, Session.front] using h.full

/-- What stands before the errors of later tokens does not fit into the log. -/
theorem exceeds (h : s.Spills errors comments) {taken left : List LexicalError}
    (split : s.tokens.waiting = taken ++ left) (later : ∀ e ∈ left, s.front < e.span.start) :
    s.log.room < taken.length := by
  have full := h.full
  obtain ⟨first, rest, queue, cut, last⟩ :=
    (s.tokens.look 1).takeErrorsBefore_cases s.front.nextColumn
  rw [cut] at full
  have waiting : s.tokens.waiting = first ++ (rest ++
      ((TokenStream.errorLists s.tokens.final s.tokens.ahead).drop (s.tokens.look 1).seen).flatten) := by
    rw [← s.tokens.waiting_look 1, TokenStream.waiting, queue]
    simp
  rw [split] at waiting
  rcases List.append_eq_append_iff.1 waiting with ⟨more, rfl, same⟩ | ⟨more, rfl, _⟩
  · rcases last with none | ⟨before, e, ends, early⟩
    · simp_all
    · rcases more.eq_nil_or_concat with rfl | ⟨front, e', rfl⟩
      · simpa using full
      · rw [List.concat_eq_append, ← List.append_assoc] at ends
        obtain ⟨-, tail⟩ := List.append_inj' ends rfl
        cases tail
        have late := later e (by rw [same]; simp)
        exact absurd (Position.lt_nextColumn_iff.1 early) (Position.not_le.2 late)
  · simp at full ⊢
    omega

/-- Only some tokens have errors. -/
theorem kind (h : s.Spills errors comments) :
    (s.tokens.upcoming 0).token.kind ∈ [.string, .illegal, .eof] := by
  obtain ⟨own, later, split, suffix, after, -⟩ := h.tidy.own_errors
  have some : own ≠ [] := List.length_pos_iff.1 (Nat.zero_lt_of_lt (h.exceeds split after))
  have errs := Scanner.scan_errs s.tokens.dialect s.tokens.taken
  rw [← h.tidy.upcoming_eq] at errs
  refine errs.faults.kind fun none => some ?_
  rw [none] at suffix
  exact List.suffix_nil.1 suffix

end Session.Spills

namespace Parser

open Session

variable {α β σ : Type}

/-- Where the log spills, the parser stops the analysis with what spills, or it ends where the log
still spills, which may not be allowed. -/
def Sinks (mayEnd : Prop) (p : Parser α) : Prop :=
  ∀ s errors comments, s.Spills errors comments →
    match p s with
    | .ok _ t => mayEnd ∧ t.Spills errors comments
    | .error _ t => t.errors = errors ∧ t.tokens.comments = comments

namespace Sinks

variable {Q Q' : Prop} {p : Parser α} {f : α → Parser β}

theorem mono (h : Sinks Q p) (sub : Q → Q') : Sinks Q' p := by
  intro s errors comments spills
  have run := h s errors comments spills
  cases result : p s with
  | ok a t =>
    rw [result] at run
    exact run.imp_left sub
  | error abort t => rwa [result] at run

theorem pure {a : α} : Sinks True (Pure.pure a : Parser α) :=
  fun _ _ _ spills => ⟨trivial, spills⟩

theorem bind (h : Sinks True p) (g : ∀ a, Sinks Q (f a)) : Sinks Q (p >>= f) := by
  intro s errors comments spills
  have run := h s errors comments spills
  cases result : p s with
  | ok a t =>
    rw [result] at run
    rw [bind_of_ok result]
    exact g a t errors comments run.2
  | error abort t =>
    rw [bind_of_error result]
    rwa [result] at run

/-- What comes after a parser that never ends well does not matter. -/
theorem stop (h : Sinks False p) : Sinks Q (p >>= f) := by
  intro s errors comments spills
  have run := h s errors comments spills
  cases result : p s with
  | ok a t =>
    rw [result] at run
    exact run.1.elim
  | error abort t =>
    rw [bind_of_error result]
    rwa [result] at run

theorem ite {c : Prop} [Decidable c] {q : Parser α} (h : c → Sinks Q p) (g : ¬ c → Sinks Q q) :
    Sinks Q (if c then p else q) := by
  split
  next holds => exact h holds
  next fails => exact g fails

/-- A parser that changes neither tokens nor log. -/
theorem still {p : Parser α} (h : ∀ s, ∃ a t, p s = .ok a t ∧ t.tokens = s.tokens ∧ t.log = s.log) :
    Sinks True p := by
  intro s errors comments spills
  obtain ⟨a, t, result, tokens, log⟩ := h s
  rw [result]
  exact ⟨trivial, spills.congr t tokens log⟩

theorem now : Sinks True now := still fun _ => ⟨_, _, rfl, rfl, rfl⟩

theorem scopes : Sinks True scopes := still fun _ => ⟨_, _, rfl, rfl, rfl⟩

theorem dialect : Sinks True dialect := still fun _ => ⟨_, _, rfl, rfl, rfl⟩

theorem isMooc : Sinks True isMooc := still fun _ => ⟨_, _, rfl, rfl, rfl⟩

theorem onScopes (g : ScopeStack → ScopeStack) : Sinks True (onScopes g) :=
  still fun _ => ⟨_, _, rfl, rfl, rfl⟩

theorem nested (h : Sinks Q p) : Sinks Q (nested p) := by
  intro s errors comments spills
  have run := h { s with depth := s.depth + 1 } errors comments (spills.congr _ rfl rfl)
  rw [nested_eq]
  cases result : p { s with depth := s.depth + 1 } with
  | ok a t =>
    rw [result] at run
    exact ⟨run.1, run.2.congr _ rfl rfl⟩
  | error abort t =>
    rw [result] at run
    exact run

theorem iterate {start : σ} {step : σ → Parser (ForInStep σ)} (h : ∀ x, Sinks True (step x)) :
    Sinks True (iterate start step) := by
  have rounds (clock : List Scanned) (x : σ) : Sinks True (iterateFor step clock x) := by
    induction clock generalizing x with
    | nil => exact (h x).bind fun next => by cases next <;> exact pure
    | cons _ clock inductionHypothesis =>
      refine (h x).bind fun next => ?_
      cases next with
      | done y => exact pure
      | yield y => exact inductionHypothesis y
  exact fun s => rounds s.tokens.ahead start s

/-! ### The token ahead -/

theorem head : Sinks True head := fun _ _ _ spills => ⟨trivial, spills.look⟩

theorem peek {f : TokenKind → Parser α} (string : Sinks Q (f .string))
    (illegal : Sinks Q (f .illegal)) (eof : Sinks Q (f .eof)) : Sinks Q (Parser.peek >>= f) := by
  intro s errors comments spills
  have each : Sinks Q (f (s.tokens.upcoming 0).token.kind) := by
    have kind := spills.kind
    simp only [List.mem_cons, List.not_mem_nil, or_false] at kind
    rcases kind with kind | kind | kind <;> rw [kind] <;> assumption
  exact each _ errors comments spills.look

/-- Recording the errors of the token ahead. -/
theorem recordAll_ends {s : Session} {errors : List Diagnostic} {comments : CommentLog}
    (spills : s.Spills errors comments) {taken left : List LexicalError}
    (split : s.tokens.waiting = taken ++ left) (later : ∀ e ∈ left, s.front < e.span.start)
    (tokens : TokenStream) (same : tokens.comments = comments) :
    ∃ abort t, recordAll taken { s with tokens := tokens } = .error abort t ∧
      t.errors = errors ∧ t.tokens.comments = comments := by
  have exceeds := spills.exceeds split later
  obtain ⟨abort, t, run, kept, told⟩ := recordAll_spills (s := { s with tokens := tokens }) exceeds
  have all := ErrorLog.spilled_of_isPrefix ⟨left, split.symm⟩ exceeds
  exact ⟨abort, t, run, told.trans (all.trans spills.errors), kept ▸ same⟩

theorem next : Sinks False next := by
  intro s errors comments spills
  have queue := s.tokens.waiting_next
  have seen := s.tokens.comments_next.trans spills.comments
  have took : onTokens (·.next) s = .ok s.tokens.next.1 { s with tokens := s.tokens.next.2 } := rfl
  obtain ⟨abort, t, run, ends⟩ : ∃ abort t, Parser.next s = .error abort t ∧
      t.errors = errors ∧ t.tokens.comments = comments := by
    unfold Parser.next
    rw [bind_of_ok took]
    cases ahead : s.tokens.ahead with
    | nil =>
      obtain ⟨token, last⟩ := TokenStream.next_of_ahead_eq_nil ahead
      rw [if_pos (token ▸ spills.tidy.found.final_kind)]
      have all : s.tokens.waiting = s.tokens.next.2.pending ++ [] := by
        rw [List.append_nil, ← queue, (TokenStream.Exhausted.next ahead).waiting]
      have drained : onTokens (·.takeErrors) { s with tokens := s.tokens.next.2 } =
        .ok s.tokens.next.2.pending
          { s with tokens := { s.tokens.next.2 with pending := [] } } := rfl
      obtain ⟨abort, t, run, ends⟩ := recordAll_ends spills all nofun
        { s.tokens.next.2 with pending := [] } seen
      exact ⟨abort, t, (bind_of_ok drained _).trans (bind_of_error run _), ends⟩
    | cons r rest =>
      obtain ⟨token, -, -⟩ := TokenStream.next_of_ahead_eq_cons ahead
      obtain ⟨-, taken, left, pending, cut, tidy⟩ := spills.tidy.next ahead
      obtain ⟨_, _, _, _, _, unseen⟩ := spills.tidy.own_errors
      rw [if_neg (token ▸ spills.tidy.found.not_eof _ (by simp [ahead]))]
      have all : s.tokens.waiting =
          taken ++ TokenStream.waiting { s.tokens.next.2 with pending := left } := by
        rw [← queue, TokenStream.waiting, TokenStream.waiting, pending, List.append_assoc]
      have later : ∀ e ∈ TokenStream.waiting { s.tokens.next.2 with pending := left },
          s.front < e.span.start := fun e waits => unseen e (by
        have among := tidy.waiting.mem waits
        rw [TokenStream.final_next, TokenStream.ahead_next, ahead, List.tail_cons] at among
        rw [ahead]
        exact among)
      obtain ⟨abort, t, run, ends⟩ := recordAll_ends spills all later
        { s.tokens.next.2 with pending := left } seen
      rw [← token] at cut
      have synced : syncBefore s.tokens.next.1.span.stop { s with tokens := s.tokens.next.2 } = _ :=
        (syncBefore_of_cut cut).trans run
      exact ⟨abort, t, bind_of_error synced _, ends⟩
  rw [run]
  exact ends

/-- A complaint about the token ahead is not recorded any more. -/
theorem tooDeep : Sinks False (tooDeep : Parser α) := by
  intro s errors comments spills
  obtain ⟨taken, left, queue, cut, -⟩ :=
    (s.tokens.look 1).takeErrorsBefore_cases s.front.nextColumn
  have exceeds := spills.full
  rw [cut] at exceeds
  let s₁ : Session := { s with depth := s.depth + 1, tokens := s.tokens.look 1 }
  obtain ⟨abort, t, run, tokens, told⟩ := recordAll_spills
    (s := { s₁ with tokens := { s.tokens.look 1 with pending := left } }) exceeds
  have synced : syncBefore s.front.nextColumn s₁ = .error abort t :=
    (syncBefore_of_cut cut).trans run
  have stops : (Parser.tooDeep : Parser α) s = .error abort t :=
    bind_of_error (bind_of_error synced fun _ => record _) _
  have first : taken <+: s.tokens.waiting := by
    rw [← s.tokens.waiting_look 1, TokenStream.waiting, queue, List.append_assoc]
    exact List.prefix_append _ _
  rw [stops]
  exact ⟨told.trans ((ErrorLog.spilled_of_isPrefix first exceeds).trans spills.errors),
    tokens ▸ spills.comments⟩

end Sinks

/-- Where there are no levels left, this is told of, or the log spills. -/
theorem tooDeep_cases {s : Session} (tidy : s.tokens.Tidy) :
    (∃ abort t, (tooDeep : Parser α) s = .error abort t ∧
      ∃ d ∈ t.errors, d.cause = .tooManyLevels) ∨
    ∃ errors comments, s.Spills errors comments := by
  obtain ⟨taken, left, queue, cut, -⟩ :=
    (s.tokens.look 1).takeErrorsBefore_cases s.front.nextColumn
  by_cases exceeds : s.log.room < taken.length
  · exact .inr ⟨_, _, tidy, by rwa [cut], rfl, rfl⟩
  let s₁ : Session := { s with depth := s.depth + 1, tokens := s.tokens.look 1 }
  obtain ⟨t, run⟩ := recordAll_fits
    (s := { s₁ with tokens := { s.tokens.look 1 with pending := left } }) (Nat.le_of_not_lt exceeds)
  have synced : syncBefore s.front.nextColumn s₁ = .ok () t := (syncBefore_of_cut cut).trans run
  let level : Diagnostic := { cause := .tooManyLevels, span := (s.tokens.upcoming 0).token.span }
  have complained : complain level.cause level.span s₁ = record level t := bind_of_ok synced _
  have told (d : Diagnostic) : d ∈ Session.errors { t with log := t.log.push d } := by
    simp [Session.errors, ErrorLog.push]
  have stops : (tooDeep : Parser α) s =
      (complain level.cause level.span >>= fun _ => throw .tooDeep) s₁ := rfl
  rw [stops]
  left
  by_cases hasRoom : t.log.HasRoom
  · have recorded : record level t = .ok () { t with log := t.log.push level } := by
      unfold record
      rw [ErrorLog.report_of_hasRoom hasRoom]
    exact ⟨.tooDeep, _, bind_of_ok (complained.trans recorded) _, level, told _, rfl⟩
  · let last : Diagnostic := { level with overflow := true }
    have recorded : record level t =
        .error (.tooManyErrors t.log.cap) { t with log := t.log.push last } := by
      unfold record
      rw [ErrorLog.report_of_not_hasRoom hasRoom]
    exact ⟨_, _, bind_of_error (complained.trans recorded) _, last, told _, rfl⟩

end Parser

end LuaChunk
