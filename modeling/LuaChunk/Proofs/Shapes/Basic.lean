import LuaChunk.Proofs.Parser.Results

/-!
# What a reading returns

Whether or not the source is right, what a parser returns has the shape that its text gives it.
`Yields` says so for readings under given settings, with one rule for each way in which parsers are
put together; what a parser does to the session is of no account here.
-/

set_option autoImplicit false

namespace LuaChunk.Parser

variable {α β σ : Type} {c : Settings} {P : α → Prop} {Q : β → Prop}

/-- Whatever the parser returns under these settings satisfies a predicate. -/
def Yields (c : Settings) (p : Parser α) (P : α → Prop) : Prop :=
  ∀ s a t, s.settings = c → p s = .ok a t → t.settings = c ∧ P a

/-- A parser of which only the effect matters. -/
abbrev Runs (c : Settings) (p : Parser α) : Prop := Yields c p fun _ => True

namespace Yields

theorem pure {a : α} (h : P a) : Yields c (Pure.pure a) P := by
  intro s b t settings run
  obtain ⟨rfl, rfl⟩ := pure_eq_ok.1 run
  exact ⟨settings, h⟩

theorem done (a : α) : Runs c (Pure.pure a) := pure trivial

theorem bind {p : Parser α} {f : α → Parser β} (h : Yields c p P)
    (g : ∀ a, P a → Yields c (f a) Q) : Yields c (p >>= f) Q := by
  intro s b t settings run
  obtain ⟨a, u, first, rest⟩ := bind_eq_ok.1 run
  obtain ⟨settings, holds⟩ := h s a u settings first
  exact g a holds u b t settings rest

/-- What comes first gives nothing to what follows. -/
theorem andThen {p : Parser α} {f : α → Parser β} (h : Runs c p) (g : ∀ a, Yields c (f a) Q) :
    Yields c (p >>= f) Q :=
  bind h fun a _ => g a

theorem map {p : Parser α} {f : α → β} (h : Yields c p P) (image : ∀ a, P a → Q (f a)) :
    Yields c (do return f (← p)) Q :=
  bind h fun a holds => pure (image a holds)

/-- What is returned besides is of no account. -/
theorem ending {p : Parser α} {f : α → β} (h : Runs c p) (image : ∀ a, Q (f a)) :
    Yields c (do return f (← p)) Q :=
  map h fun a _ => image a

theorem mono {p : Parser α} {P' : α → Prop} (h : Yields c p P) (sub : ∀ a, P a → P' a) :
    Yields c p P' := fun s a t settings run =>
  (h s a t settings run).imp_right (sub a)

theorem ite {q : Prop} [Decidable q] {p p' : Parser α} (h : q → Yields c p P)
    (g : ¬ q → Yields c p' P) : Yields c (if q then p else p') P := by
  split
  next holds => exact h holds
  next fails => exact g fails

theorem loop {start : σ} {step : σ → Parser (ForInStep σ)} (I : σ → Prop) (init : I start)
    (round : ∀ x, I x → Yields c (step x) fun next => I next.value) :
    Yields c (iterate start step) I := by
  intro s x t settings run
  exact iterate_keeps (I := fun x u => u.settings = c ∧ I x)
    (fun x u next v ⟨settings, holds⟩ once => round x holds u next v settings once)
    ⟨settings, init⟩ run

theorem nested {p : Parser α} (h : Yields c p P) : Yields c (nested p) P := by
  intro s a t settings run
  obtain ⟨u, inside, rfl⟩ := nested_eq_ok.1 run
  exact h { s with depth := s.depth + 1 } a u settings inside

theorem throw (abort : Abort) : Yields c (throw abort : Parser α) P := fun _ _ _ _ => nofun

theorem get : Yields c get fun s => s.settings = c := by
  intro s a t settings run
  cases run
  exact ⟨settings, settings⟩

theorem ask (f : Session → α) : Runs c (do return f (← MonadState.get)) := ending (.mono get
  fun _ _ => trivial) fun _ => trivial

theorem onTokens (f : TokenStream → α × TokenStream) : Runs c (onTokens f) := by
  intro s a t settings run
  cases run
  exact ⟨settings, trivial⟩

theorem onScopes (f : ScopeStack → ScopeStack) : Runs c (onScopes f) := by
  intro s a t settings run
  cases run
  exact ⟨settings, trivial⟩

theorem within (kind : ScopeKind) (name : String) {p : Parser α} (h : Yields c p P) :
    Yields c (within kind name p) P :=
  .andThen (.onScopes _) fun _ => .bind h fun _ holds => .andThen (.onScopes _) fun _ => .pure holds

theorem record (d : Diagnostic) : Runs c (record d) := by
  intro s a t settings run
  unfold Parser.record at run
  split at run
  · cases run
    exact ⟨settings, trivial⟩
  · cases run

/-! ## Steps that read no tree -/

theorem recordAll (errors : List LexicalError) : Runs c (recordAll errors) := by
  induction errors with
  | nil => exact .done ()
  | cons e rest inductionHypothesis => exact .andThen (.record _) fun _ => inductionHypothesis

theorem syncBefore (p : Position) : Runs c (syncBefore p) := .andThen (.onTokens _) .recordAll

theorem complain (cause : Cause) (span : Span) : Runs c (complain cause span) :=
  .andThen (.syncBefore _) fun _ => .record _

theorem tooDeep : Yields c (tooDeep : Parser α) P := by
  intro s a t _ run
  obtain ⟨_, _, -, run⟩ := bind_eq_ok.1 run
  obtain ⟨_, _, -, run⟩ := bind_eq_ok.1 run
  obtain ⟨_, _, -, stops⟩ := bind_eq_ok.1 run
  cases stops

theorem next : Runs c next :=
  .andThen (.onTokens _) fun _ => .ite
    (fun _ => .andThen (.onTokens _) fun _ => .andThen (.recordAll _) fun _ => .done _)
    fun _ => .andThen (.syncBefore _) fun _ => .done _

theorem expectName : Runs c expectName :=
  .andThen .next fun _ => .ite (fun _ => .andThen (.complain _ _) fun _ => .done _) fun _ => .done _

theorem expect (kind : TokenKind) : Runs c (expect kind) :=
  .andThen .next fun _ => .ite (fun _ => .andThen (.complain _ _) fun _ => .done _) fun _ => .done _

theorem peekToken (n : Nat) : Runs c (peekToken n) := .onTokens _

theorem peek : Runs c peek := .ending (.peekToken 0) fun _ => trivial

theorem head : Runs c head := .ending (.peekToken 0) fun _ => trivial

theorem isMooc : Runs c isMooc := .ending (.ask _) fun _ => trivial

theorem now : Runs c now := .ask _

theorem since (start : Span) : Runs c (since start) := .ending .now fun _ => trivial

theorem accept (kind : TokenKind) : Runs c (accept kind) :=
  .andThen .peek fun _ => .ite (fun _ => .ending .next fun _ => trivial) fun _ => .done _

theorem accepts (kind : TokenKind) : Runs c (accepts kind) :=
  .ending (.accept kind) fun _ => trivial

theorem scopes : Runs c scopes := .ask _

theorem insideLoop : Runs c insideLoop := .ending .scopes fun _ => trivial

end Yields

end LuaChunk.Parser
