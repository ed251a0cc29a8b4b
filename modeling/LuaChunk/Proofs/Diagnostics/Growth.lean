import LuaChunk.Analysis
import LuaChunk.Proofs.Contents.Basic
import LuaChunk.Proofs.Parser.Primitives

/-!
# How the log grows

Reading goes forward in the tokens and only adds to the log.  A complaint about the place of a
statement is made at a token that has just been taken, so none is ever added at an earlier token.
-/

set_option autoImplicit false

namespace LuaChunk

/-- The tokens of a source, whether or not it has lexical errors. -/
structure Scan where
  tokens : List Token
  final : Token
  final_eof : final.kind = .eof
  not_eof : ∀ t ∈ tokens, t.kind ≠ .eof
  start_lt : ∀ t ∈ tokens, t.span.start < t.span.stop
  ordered : (tokens ++ [final]).Pairwise fun a b => a.span.stop ≤ b.span.start

/-- A verdict on the place of a statement. -/
def Cause.isMisplaced : Cause → Bool
  | .breakOutsideLoop | .continueOutsideLoop | .deferOutsideFunction => true
  | _ => false

namespace Session

variable (scan : Scan)

/-- Where the next token starts. -/
def front (s : Session) : Position := (s.tokens.upcoming 0).token.span.start

/-- A diagnostic that can be recorded while reading goes from one position to another. -/
structure Fits (low high : Position) (d : Diagnostic) : Prop where
  unmarked : d.overflow = false
  place : d.cause.isUsual = true ∨ d.cause.isMisplaced = true ∧
    ∃ t ∈ scan.tokens, d.span = t.span ∧ low ≤ t.span.start ∧ t.span.stop ≤ high

structure Stands (s : Session) : Prop where
  ahead : s.tokens.ahead.map (·.token) <:+ scan.tokens
  final : s.tokens.final.token = scan.final
  errors : ∀ d ∈ s.errors, Fits scan ⟨0, 0⟩ s.front d

/-- Reading has gone from one session to another. -/
structure Grows (s s' : Session) : Prop where
  ahead : s'.tokens.ahead <:+ s.tokens.ahead
  final : s'.tokens.final = s.tokens.final
  front : s.front ≤ s'.front
  errors : ∃ added, s'.errors = s.errors ++ added ∧ ∀ d ∈ added, Fits scan s.front s'.front d

variable {scan} {s s' s'' : Session}

theorem Fits.mono {low high low' high' : Position} {d : Diagnostic} (h : Fits scan low high d)
    (lower : low' ≤ low) (higher : high ≤ high') : Fits scan low' high' d := by
  refine ⟨h.unmarked, h.place.imp_right ?_⟩
  rintro ⟨misplaced, t, taken, span, after, before⟩
  exact ⟨misplaced, t, taken, span, Position.le_trans lower after,
    Position.le_trans before higher⟩

namespace Grows

theorem refl (s : Session) : Grows scan s s :=
  ⟨List.suffix_rfl, rfl, Position.le_refl _, [], by simp, nofun⟩

theorem of_eq (tokens : s'.tokens = s.tokens) (log : s'.log = s.log) : Grows scan s s' := by
  refine ⟨tokens ▸ List.suffix_rfl, by rw [tokens], ?_, [], by simp [Session.errors, log], nofun⟩
  unfold Session.front
  rw [tokens]
  exact Position.le_refl _

theorem trans (h : Grows scan s s') (g : Grows scan s' s'') : Grows scan s s'' := by
  obtain ⟨first, same, each⟩ := h.errors
  obtain ⟨second, same', each'⟩ := g.errors
  refine ⟨g.ahead.trans h.ahead, g.final.trans h.final, Position.le_trans h.front g.front,
    first ++ second, by rw [same', same, List.append_assoc], fun d membership => ?_⟩
  rcases List.mem_append.1 membership with before | after
  · exact (each d before).mono (Position.le_refl _) g.front
  · exact (each' d after).mono h.front (Position.le_refl _)

theorem stands (h : Grows scan s s') (standing : s.Stands scan) : s'.Stands scan where
  ahead := (h.ahead.map _).trans standing.ahead
  final := (congrArg Scanned.token h.final).trans standing.final
  errors := by
    obtain ⟨added, same, each⟩ := h.errors
    intro d membership
    rcases List.mem_append.1 (same ▸ membership) with before | after
    · exact (standing.errors d before).mono (Position.le_refl _) h.front
    · exact (each d after).mono (by simp only [Position.le_def]; omega) (Position.le_refl _)

end Grows

/-- Reading has gone on without a verdict and without a change of the constructs open. -/
structure Passes (s s' : Session) : Prop where
  ahead : s'.tokens.ahead <:+ s.tokens.ahead
  final : s'.tokens.final = s.tokens.final
  front : s.front ≤ s'.front
  errors : ∃ added, s'.errors = s.errors ++ added ∧
    ∀ d ∈ added, d.overflow = false ∧ d.cause.isUsual = true
  scopes : s'.scopes = s.scopes

namespace Passes

theorem refl (s : Session) : Passes s s :=
  ⟨List.suffix_rfl, rfl, Position.le_refl _, ⟨[], by simp, nofun⟩, rfl⟩

theorem trans (h : Passes s s') (g : Passes s' s'') : Passes s s'' := by
  obtain ⟨first, same, each⟩ := h.errors
  obtain ⟨second, same', each'⟩ := g.errors
  refine ⟨g.ahead.trans h.ahead, g.final.trans h.final, Position.le_trans h.front g.front,
    ⟨first ++ second, by rw [same', same, List.append_assoc], fun d membership => ?_⟩,
    g.scopes.trans h.scopes⟩
  exact (List.mem_append.1 membership).elim (each d) (each' d)

theorem grows (h : Passes s s') : Grows scan s s' where
  ahead := h.ahead
  final := h.final
  front := h.front
  errors := by
    obtain ⟨added, same, each⟩ := h.errors
    exact ⟨added, same, fun d membership => ⟨(each d membership).1, .inl (each d membership).2⟩⟩

theorem look (s : Session) (count : Nat) : Passes s { s with tokens := s.tokens.look count } where
  ahead := by simp
  final := by simp
  front := by
    unfold Session.front
    rw [TokenStream.upcoming_look]
    exact Position.le_refl _
  errors := ⟨[], by simp [Session.errors], nofun⟩
  scopes := rfl

theorem record {d : Diagnostic} (unmarked : d.overflow = false) (usual : d.cause.isUsual = true)
    (s : Session) : Passes s { s with log := s.log.push d } where
  ahead := List.suffix_rfl
  final := rfl
  front := Position.le_refl _
  errors := ⟨[d], by simp [Session.errors, ErrorLog.push], by simpa using ⟨unmarked, usual⟩⟩
  scopes := rfl

end Passes

/-- The token after the front has been taken. -/
structure Took (scan : Scan) (s : Session) (t : Token) (s' : Session) : Prop
    extends Passes s s' where
  token : (s.tokens.upcoming 0).token = t
  among : t ∈ scan.tokens ∨ t = scan.final
  stop_le : t ∈ scan.tokens → t.span.stop ≤ s'.front

theorem Took.take (standing : s.Stands scan) :
    Took scan s s.tokens.next.1 { s with tokens := s.tokens.next.2 } := by
  have token : (s.tokens.upcoming 0).token = s.tokens.next.1 := by
    unfold TokenStream.next TokenStream.upcoming
    cases tokens : s.tokens.ahead <;> simp [tokens]
  have front' : Session.front { s with tokens := s.tokens.next.2 } =
      (s.tokens.ahead.tail[0]?.getD s.tokens.final).token.span.start := by
    simp [front, TokenStream.upcoming, TokenStream.ahead_next, TokenStream.final_next]
  have after : (s.tokens.ahead.map (·.token) ++ [s.tokens.final.token]).Pairwise
      fun a b => a.span.stop ≤ b.span.start := by
    rw [standing.final]
    exact scan.ordered.sublist (standing.ahead.sublist.append_right _)
  have goesOn (front : s.front ≤ Session.front { s with tokens := s.tokens.next.2 }) :
      Passes s { s with tokens := s.tokens.next.2 } :=
    { ahead := s.tokens.ahead_next ▸ List.tail_suffix _, final := s.tokens.final_next,
      front, errors := ⟨[], by simp [Session.errors], List.forall_mem_nil _⟩, scopes := rfl }
  rw [front'] at goesOn
  cases tokens : s.tokens.ahead with
  | nil =>
    have final : s.tokens.next.1 = scan.final := by
      rw [← token, ← standing.final]
      simp [TokenStream.upcoming, tokens]
    refine ⟨goesOn ?_, token, .inr final, fun among => ?_⟩
    · simp only [front, TokenStream.upcoming, tokens, List.tail_nil]
      exact Position.le_refl _
    · exact absurd (final ▸ scan.final_eof) (scan.not_eof _ among)
  | cons r rest =>
    have first : s.tokens.next.1 = r.token := by
      rw [← token]
      simp [TokenStream.upcoming, tokens]
    have among : r.token ∈ scan.tokens := standing.ahead.mem (by simp [tokens])
    have stop_le : r.token.span.stop ≤ (rest[0]?.getD s.tokens.final).token.span.start := by
      simp only [tokens, List.map_cons, List.cons_append, List.pairwise_cons] at after
      refine after.1 _ ?_
      cases rest <;> simp
    rw [tokens, List.tail_cons] at goesOn front'
    refine ⟨goesOn ?_, token, .inl (first ▸ among), fun _ => ?_⟩
    · refine Position.le_trans (Position.le_of_lt ?_) stop_le
      simpa [front, TokenStream.upcoming, tokens] using scan.start_lt _ among
    · rw [front', first]
      exact stop_le

theorem Took.bind_passes {t : Token} (h : Took scan s t s') (g : Passes s' s'') :
    Took scan s t s'' :=
  ⟨h.toPasses.trans g, h.token, h.among, fun among => Position.le_trans (h.stop_le among) g.front⟩

end Session

namespace Parser

open Session

variable {α β : Type} {scan : Scan} {s : Session}

/-- The parser goes on without a change of the constructs open and without a verdict. -/
def Passing (p : Parser α) : Prop :=
  ∀ s, Ends (p s) fun _ s' => Passes s s'

namespace Passing

theorem pure (a : α) : Passing (Pure.pure a) := fun s => Passes.refl s

theorem bind {p : Parser α} {f : α → Parser β} (h : Passing p)
    (g : ∀ a, Passing (f a)) : Passing (p >>= f) := fun s =>
  (h s).bind fun a s' first => (g a s').mono fun _ _ second => first.trans second

theorem look {f : TokenStream → α × TokenStream} (looks : ∀ t, ∃ count, (f t).2 = t.look count) :
    Passing (onTokens f) := by
  intro s
  obtain ⟨count, looked⟩ := looks s.tokens
  simp only [Ends, onTokens, looked]
  exact .look s count

theorem recordAll (errors : List LexicalError) : Passing (recordAll errors) := by
  induction errors with
  | nil => exact .pure ()
  | cons e rest inductionHypothesis =>
    refine .bind (fun s => (record_ends _ s).mono ?_) fun _ => inductionHypothesis
    rintro _ _ ⟨_, rfl⟩
    exact .record rfl rfl s

/-- Recording some of the pending errors. -/
theorem drain {f : TokenStream → List LexicalError × TokenStream}
    (drains : ∀ t, ∃ rest, (f t).2 = { t with pending := rest }) :
    Passing (do Parser.recordAll (← onTokens f)) := by
  refine .bind (fun s => ?_) recordAll
  obtain ⟨rest, drained⟩ := drains s.tokens
  simp only [Ends, onTokens, drained]
  exact ⟨List.suffix_rfl, rfl, Position.le_refl _,
    ⟨[], by simp [Session.errors], List.forall_mem_nil _⟩, rfl⟩

theorem syncBefore (p : Position) : Passing (syncBefore p) := drain fun _ => ⟨_, rfl⟩

theorem complain {cause : Cause} (usual : cause.isUsual = true) (span : Span) :
    Passing (complain cause span) := by
  refine .bind (.syncBefore _) fun _ s => (record_ends _ s).mono ?_
  rintro _ _ ⟨_, rfl⟩
  exact .record rfl usual s

end Passing

theorem next_took (standing : s.Stands scan) : Ends (next s) fun t s' => Took scan s t s' := by
  have taken : Ends (onTokens (·.next) s) fun t s' => Took scan s t s' := .take standing
  unfold next
  simp only [← bind_assoc]
  refine taken.bind fun t s' took => ?_
  split
  · exact (Passing.drain (fun _ => ⟨_, rfl⟩) s').bind fun _ _ after => took.bind_passes after
  · exact (Passing.syncBefore _ s').bind fun _ _ after => took.bind_passes after

theorem expectName_took (standing : s.Stands scan) :
    Ends (expectName s) fun t s' => Took scan s t s' := by
  refine (next_took standing).bind fun t s' took => ?_
  split
  · exact (Passing.complain rfl _ s').bind fun _ _ after => took.bind_passes after
  · exact took

theorem expect_took (kind : TokenKind) (standing : s.Stands scan) :
    Ends (expect kind s) fun t s' => Took scan s t s' := by
  refine (next_took standing).bind fun t s' took => ?_
  split
  · exact (Passing.complain rfl _ s').bind fun _ _ after => took.bind_passes after
  · exact took

end Parser

/-! ## Verdicts -/

theorem Cause.isUsual_eq_false_of_isMisplaced {cause : Cause} (h : cause.isMisplaced = true) :
    cause.isUsual = false := by
  cases cause <;> first | rfl | cases h

namespace Session

variable {scan : Scan} {s s' : Session} {cause : Cause} {t : Token} {wrong : Prop}

/-- The log has this verdict at the token if the statement there is wrong. -/
def Judges (s : Session) (cause : Cause) (t : Token) (wrong : Prop) : Prop :=
  (∃ d ∈ s.errors, d.cause = cause ∧ d.span = t.span) ↔ wrong

/-- No verdict at a token is added any more once reading has gone on. -/
theorem Judges.grows (h : s.Judges cause t wrong) (misplaced : cause.isMisplaced = true)
    (among : t ∈ scan.tokens) (taken : t.span.stop ≤ s.front) (grows : Grows scan s s') :
    s'.Judges cause t wrong := by
  obtain ⟨added, same, each⟩ := grows.errors
  refine Iff.trans ⟨?_, ?_⟩ h
  · rintro ⟨d, membership, rfl, span⟩
    rcases List.mem_append.1 (same ▸ membership) with before | after
    · exact ⟨d, before, rfl, span⟩
    · rcases (each d after).place with usual | ⟨_, u, _, span', later, _⟩
      · simp [Cause.isUsual_eq_false_of_isMisplaced misplaced] at usual
      · have back := Position.le_trans taken later
        rw [← span', span] at back
        exact absurd (scan.start_lt t among) (by simpa [← Position.not_le] using back)
  · rintro ⟨d, membership, found⟩
    exact ⟨d, same ▸ List.mem_append_left _ membership, found⟩

/-- No verdict at a token has been given when it has just been taken. -/
theorem Took.judges (h : Took scan s t s') (standing : s.Stands scan) (among : t ∈ scan.tokens)
    (misplaced : cause.isMisplaced = true) : s'.Judges cause t False := by
  obtain ⟨added, same, each⟩ := h.errors
  refine ⟨?_, False.elim⟩
  rintro ⟨d, membership, rfl, span⟩
  have unusual := Cause.isUsual_eq_false_of_isMisplaced misplaced
  rcases List.mem_append.1 (same ▸ membership) with before | after
  · rcases (standing.errors d before).place with usual | ⟨_, u, _, span', _, earlier⟩
    · simp [unusual] at usual
    · have front : s.front = t.span.start := congrArg (·.span.start) h.token
      rw [← span', span, front] at earlier
      exact absurd (scan.start_lt t among) (by simpa [← Position.not_le] using earlier)
  · exact absurd ((each d after).2.symm.trans unusual) (by decide)

end Session

end LuaChunk
