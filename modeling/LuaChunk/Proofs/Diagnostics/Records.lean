import LuaChunk.Proofs.Diagnostics.Cap
import LuaChunk.Proofs.Replay.Fragment

/-!
# Runs that record something

A run takes nothing back from the log, and one that is stopped has recorded why.  So of a run that
records nothing it can be told what it returns, and a run that could only return what is impossible
does record something, whatever is read in it.
-/

set_option autoImplicit false

namespace LuaChunk.Parser

variable {α β σ : Type}

/-- How many diagnostics have been recorded. -/
abbrev noted (s : Session) : Nat := s.log.diagnostics.size

/-- From a session of the one kind a run records something or returns in a session of the other
kind.  From any session it takes nothing back. -/
def Records (P : Session → Prop) (p : Parser α) (Q : α → Session → Prop) : Prop :=
  ∀ s, noted s ≤ noted (last (p s)) ∧
    (P s → noted s < noted (last (p s)) ∨ ∃ a t, p s = .ok a t ∧ Q a t)

/-- A run takes nothing back, and has recorded something if it is stopped. -/
def Grows (p : Parser α) : Prop := Records (fun _ => True) p fun _ _ => True

namespace Records

variable {P P' : Session → Prop} {Q Q' : α → Session → Prop} {p : Parser α}

theorem of (h : Records P' p Q) (stronger : ∀ s, P s → P' s) : Records P p Q :=
  fun s => ⟨(h s).1, fun holds => (h s).2 (stronger s holds)⟩

/-- What is not reached. -/
theorem never (h : Grows p) (not : ∀ s, ¬ P s) : Records P p Q :=
  fun s => ⟨(h s).1, fun holds => absurd holds (not s)⟩

/-- A run is told by what it does where it records nothing. -/
theorem quietly (h : Grows p)
    (known : ∀ s a t, P s → p s = .ok a t → Quiet s t → Q a t) : Records P p Q := by
  intro s
  refine ⟨(h s).1, fun holds => ?_⟩
  by_cases more : noted s < noted (last (p s))
  · exact .inl more
  · obtain ⟨a, t, run, -⟩ := ((h s).2 trivial).resolve_left more
    have same : noted t = noted s := by
      have least := (h s).1
      rw [run] at more least
      exact Nat.le_antisymm (Nat.not_lt.1 more) least
    exact .inr ⟨a, t, run, known s a t holds run same⟩

theorem pure (a : α) : Records (Q a) (Pure.pure a) Q :=
  fun s => ⟨Nat.le_refl _, fun holds => .inr ⟨a, s, rfl, holds⟩⟩

theorem keep (a : α) : Records P (Pure.pure a) fun _ => P := pure (Q := fun _ => P) a

theorem done (a : α) (known : ∀ s, P s → Q a s) : Records P (Pure.pure a) Q := (pure a).of known

theorem bind {f : α → Parser β} {R : β → Session → Prop} (h : Records P p Q)
    (k : ∀ a, Records (Q a) (f a) R) : Records P (p >>= f) R := by
  intro s
  have first := h s
  cases run : p s with
  | error abort t =>
    rw [run] at first
    rw [bind_of_error run]
    refine ⟨first.1, fun holds => (first.2 holds).imp_right ?_⟩
    rintro ⟨_, _, ⟨⟩, _⟩
  | ok a t =>
    have second := k a t
    rw [run] at first
    rw [bind_of_ok run]
    refine ⟨Nat.le_trans first.1 second.1, fun holds => ?_⟩
    rcases first.2 holds with more | ⟨_, _, ⟨⟩, known⟩
    · exact .inl (Nat.lt_of_lt_of_le more second.1)
    · exact (second.2 known).imp_left (Nat.lt_of_le_of_lt first.1)

theorem ite {c : Prop} [Decidable c] {q : Parser α} (h : Records (fun s => P s ∧ c) p Q)
    (k : Records (fun s => P s ∧ ¬ c) q Q) : Records P (if c then p else q) Q := by
  split
  next holds => exact h.of fun _ known => ⟨known, holds⟩
  next fails => exact k.of fun _ known => ⟨known, fails⟩

/-- The first way is not gone. -/
theorem second {b : Bool} {q : Parser α} (h : Grows p) (k : Records P q Q) :
    Records (fun s => P s ∧ b = false) (if b = true then p else q) Q := by
  cases b with
  | false => exact k.of fun _ => And.left
  | true => exact .never h fun _ holds => Bool.noConfusion holds.2

/-- A parser that leaves the log alone. -/
theorem act {f : Session → α} {g : Session → Session} (runs : ∀ s, p s = .ok (f s) (g s))
    (silent : ∀ s, (g s).log = s.log) (known : ∀ s, P s → Q (f s) (g s)) : Records P p Q := by
  intro s
  rw [runs]
  refine ⟨?_, fun holds => .inr ⟨_, _, rfl, known s holds⟩⟩
  simp [last, noted, silent]

theorem record (d : Diagnostic) {Q : Unit → Session → Prop} : Records P (record d) Q := by
  intro s
  have more : noted s < noted (last (Parser.record d s)) := by
    have size := s.log.size_report d
    unfold Parser.record
    cases reported : s.log.report d with
    | mk log abort =>
      rw [reported] at size
      cases abort <;> exact Nat.lt_of_lt_of_eq (Nat.lt_succ_self _) size.symm
  exact ⟨Nat.le_of_lt more, fun _ => .inl more⟩

/-- What every round of a loop keeps holds at its end. -/
theorem iterate {start : σ} {step : σ → Parser (ForInStep σ)} {I : σ → Session → Prop}
    (round : ∀ x, Records (I x) (step x) fun next => I next.value) :
    Records (I start) (iterate start step) I := by
  have rounds (clock : List Scanned) (x : σ) : Records (I x) (iterateFor step clock x) I := by
    induction clock generalizing x with
    | nil =>
      refine .bind (round x) fun next => ?_
      cases next with
      | done y | yield y => exact pure y
    | cons _ clock inductionHypothesis =>
      refine .bind (round x) fun next => ?_
      cases next with
      | done y => exact pure y
      | yield y => exact inductionHypothesis y
  exact fun s => rounds s.tokens.ahead start s

theorem nested (h : Records P p Q) (init : ∀ s depth, P s → P { s with depth := depth })
    (final : ∀ a s depth, Q a s → Q a { s with depth := depth }) : Records P (nested p) Q := by
  intro s
  have inner := h { s with depth := s.depth + 1 }
  rw [nested_eq]
  cases run : p { s with depth := s.depth + 1 } with
  | error abort t =>
    rw [run] at inner
    refine ⟨inner.1, fun holds => (inner.2 (init s _ holds)).imp_right ?_⟩
    rintro ⟨_, _, ⟨⟩, _⟩
  | ok a t =>
    rw [run] at inner
    refine ⟨inner.1, fun holds => (inner.2 (init s _ holds)).imp_right ?_⟩
    rintro ⟨_, _, ⟨⟩, known⟩
    exact ⟨a, _, rfl, final a t _ known⟩

end Records

/-! ## The whole grammar -/

namespace Grows

variable {p : Parser α}

theorem pure (a : α) : Grows (Pure.pure a) := Records.pure (Q := fun _ _ => True) a

theorem bind {f : α → Parser β} (h : Grows p) (k : ∀ a, Grows (f a)) : Grows (p >>= f) :=
  Records.bind h k

theorem act {f : Session → α} {g : Session → Session} (runs : ∀ s, p s = .ok (f s) (g s))
    (silent : ∀ s, (g s).log = s.log) : Grows p :=
  Records.act runs silent fun _ _ => trivial

theorem onScopes (f : ScopeStack → ScopeStack) : Grows (onScopes f) :=
  act (f := fun _ => ()) (fun _ => rfl) fun _ => rfl

theorem steps : Steps Grows where
  pure := pure
  bind := bind
  ask _ _ := act (g := id) (fun _ => rfl) fun _ => rfl
  onTokens _ := act (fun _ => rfl) fun _ => rfl
  record d _ := Records.record d

end Grows

namespace Records

variable {P P' : Session → Prop} {Q Q' : α → Session → Prop} {p : Parser α}

theorem complain (cause : Cause) (span : Span) {Q : Unit → Session → Prop} :
    Records P (complain cause span) Q :=
  .bind (Q := fun _ _ => True) (.of (Grows.steps.syncBefore _) fun _ _ => trivial) fun _ =>
    .record _

/-- Who complains before it is stopped has recorded something. -/
theorem stop {cause : Cause} {span : Span} {f : Unit → Parser α}
    (keeps : ∀ s, noted s ≤ noted (last (f () s))) :
    Records P (Parser.complain cause span >>= f) Q := by
  intro s
  have more : noted s < noted (last (Parser.complain cause span s)) :=
    ((complain (P := fun _ => True) (Q := fun _ _ => False) cause span s).2 trivial).resolve_right
      fun ⟨_, _, _, no⟩ => no
  suffices noted s < noted (last ((Parser.complain cause span >>= f) s)) from
    ⟨Nat.le_of_lt this, fun _ => .inl this⟩
  cases run : Parser.complain cause span s with
  | error abort t =>
    rw [run] at more
    rwa [bind_of_error run]
  | ok u t =>
    rw [run] at more
    rw [bind_of_ok run]
    exact Nat.lt_of_lt_of_le more (keeps t)

theorem tooDeep : Records P (tooDeep : Parser α) Q := by
  have counted : Grows (modify fun s : Session => { s with depth := s.depth + 1 } : Parser Unit) :=
    .act (f := fun _ => ()) (fun _ => rfl) fun _ => rfl
  exact Records.bind (Q := fun _ _ => True) (.of counted fun _ _ => trivial) fun _ =>
    .bind Grows.steps.head fun _ => .stop fun _ => Nat.le_refl _

end Records

/-- Whatever is read, a run takes nothing back, and one that is stopped has recorded why. -/
theorem Grows.closed : Closed Grows where
  toSteps := steps
  stop _ _ _ _ _ := Records.stop fun _ => Nat.le_refl _
  tooDeep := Records.tooDeep
  iterate round := Records.iterate round
  nested h := Records.nested h (fun _ _ _ => trivial) fun _ _ _ _ => trivial
  within _ _ h := steps.bind (.onScopes _) fun _ => steps.bind h fun _ =>
    steps.map (.onScopes _) _
  continued := .onScopes _
  returned := .onScopes _

theorem Gathers.grows {w : Site} {k : Known} {p : Parser α} {l : α → Known}
    (h : Gathers w k p l) : Grows p := h.closed Grows.closed

/-! ## Looking and taking -/

namespace Records

variable {P : Session → Prop}

theorem peek {Q : TokenKind → Session → Prop} (known : ∀ s, P s →
      Q (s.tokens.upcoming 0).token.kind { s with tokens := s.tokens.look 1 }) :
    Records P peek Q :=
  act (fun _ => rfl) (fun _ => rfl) known

theorem isMooc {Q : Bool → Session → Prop}
    (known : ∀ s, P s → Q (s.settings.dialect == .mooc) s) : Records P isMooc Q :=
  act (g := id) (fun _ => rfl) (fun _ => rfl) known

theorem peekPair {first second : TokenKind} {Q : Bool → Session → Prop}
    (known : ∀ s count, P s →
      Q (s.tokens.peekPair first second).1 { s with tokens := s.tokens.look count }) :
    Records P (onTokens (·.peekPair first second)) Q := by
  refine act (f := fun s => (s.tokens.peekPair first second).1)
    (g := fun s => { s with tokens := (s.tokens.peekPair first second).2 })
    (fun _ => rfl) (fun _ => rfl) fun s holds => ?_
  obtain ⟨count, looked⟩ : ∃ count, (s.tokens.peekPair first second).2 = s.tokens.look count := by
    unfold TokenStream.peekPair
    split <;> exact ⟨_, rfl⟩
  rw [looked]
  exact known s count holds

theorem next {Q : Token → Session → Prop}
    (known : ∀ s, P s → Q s.tokens.next.1 { s with tokens := s.tokens.next.2 }) :
    Records P next Q := by
  refine .quietly Grows.steps.next fun s a t holds run quiet => ?_
  obtain ⟨rfl, rfl⟩ := next_of_quiet run quiet
  exact known s holds

theorem checked {kind : TokenKind} (cause : Token → Cause) {Q : Token → Session → Prop}
    (known : ∀ s, P s → (s.tokens.upcoming 0).token.kind = kind →
      Q s.tokens.next.1 { s with tokens := s.tokens.next.2 }) :
    Records P (checked kind cause) Q := by
  refine .bind (Q := fun token t => token.kind = kind → Q token t) (.next fun s holds right => ?_)
    fun token => .ite (.bind (complain _ _) fun _ => .pure token) (.done token fun _ known => ?_)
  · exact known s holds (s.tokens.next_fst ▸ right)
  · exact known.1 (Decidable.not_not.1 known.2)

theorem expect {kind : TokenKind} {Q : Token → Session → Prop}
    (known : ∀ s, P s → (s.tokens.upcoming 0).token.kind = kind →
      Q s.tokens.next.1 { s with tokens := s.tokens.next.2 }) : Records P (expect kind) Q :=
  checked (fun token => .expected kind token.near) known

theorem expectName {Q : Token → Session → Prop}
    (known : ∀ s, P s → (s.tokens.upcoming 0).token.kind = .identifier →
      Q s.tokens.next.1 { s with tokens := s.tokens.next.2 }) : Records P expectName Q :=
  checked (fun token => .nameExpected token.near) known

theorem accepts {kind : TokenKind} {Q : Bool → Session → Prop}
    (looks : ∀ s, P s → P { s with tokens := s.tokens.look 1 })
    (taken : ∀ s, P s → (s.tokens.upcoming 0).token.kind = kind →
      Q true { s with tokens := s.tokens.next.2 })
    (left : ∀ s, P s → (s.tokens.upcoming 0).token.kind ≠ kind → Q false s) :
    Records P (accepts kind) Q := by
  refine .bind (Q := fun token => Q token.isSome) ?_ fun token => .pure token.isSome
  refine .bind (Q := fun found s => P s ∧ (s.tokens.upcoming 0).token.kind = found)
    (.peek fun s holds => ⟨looks s holds, by simp⟩) fun found => .ite ?_ ?_
  · refine .bind (Q := fun _ => Q true) (.next fun s holds => ?_) fun token =>
      .pure (Q := fun token => Q token.isSome) (some token)
    exact taken s holds.1.1 (holds.1.2.trans holds.2)
  · exact .done none fun s holds => left s holds.1.1 fun same => holds.2 (holds.1.2.symm.trans same)

/-- Only the kinds that may be ahead are to be gone through. -/
theorem facing {α : Type} {f : TokenKind → Parser α} {Q : α → Session → Prop}
    (grows : Grows (Parser.peek >>= f)) (looks : ∀ s, P s → P { s with tokens := s.tokens.look 1 })
    (each : ∀ kind, (∃ s, P s ∧ (s.tokens.upcoming 0).token.kind = kind) →
      Records (fun s => P s ∧ (s.tokens.upcoming 0).token.kind = kind) (f kind) Q) :
    Records P (Parser.peek >>= f) Q := by
  intro s
  refine ⟨(grows s).1, fun holds => ?_⟩
  rw [peek_bind]
  exact (each _ ⟨s, holds, rfl⟩ _).2 ⟨looks s holds, by simp⟩

end Records

end LuaChunk.Parser
