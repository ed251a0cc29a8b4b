import LuaChunk.Proofs.Diagnostics.Growth
import LuaChunk.Proofs.Diagnostics.Report
import LuaChunk.Proofs.Lexer.Queue
import LuaChunk.Proofs.Parser.Results

/-!
# Reading and its places

Where the source is broken, a parser reads on, and yet everything it tells has a place between the
start of the text and its end: the spans of what it returns, and those of the diagnostics.  `Anchors`
says so of a parser that begins at a mark, with one rule for each way in which parsers are put
together.
-/

set_option autoImplicit false

namespace LuaChunk

/-- A place in a reading: the last token taken, and where the next one starts. -/
structure Mark where
  now : Span
  front : Position

namespace Mark

/-- Nothing has been taken, or the last token taken stands in the text. -/
def Known (m : Mark) : Prop := m.now = .synthetic ∨ .start ≤ m.now.start

/-- What has been taken, if anything has, stands before what is ahead. -/
@[grind =]
def Fair (stop : Position) (m : Mark) : Prop :=
  m.Known ∧ m.now.start ≤ m.now.stop ∧ m.now.stop ≤ m.front ∧ .start ≤ m.front ∧ m.front ≤ stop

/-- No token has been taken between the marks, or one from the first mark on. -/
def Steps (m m' : Mark) : Prop := m'.now = m.now ∨ m.front ≤ m'.now.start

/-- Reading goes from the first mark to the second. -/
@[grind =]
def Leads (stop : Position) (m m' : Mark) : Prop :=
  m.Fair stop ∧ m'.Fair stop ∧ m.Steps m' ∧ m.front ≤ m'.front ∧ m.now.start ≤ m'.now.start ∧
    m.now.stop ≤ m'.now.stop

variable {stop : Position} {m m' m'' : Mark}

@[grind .]
theorem not_start_le_synthetic : ¬ Position.start ≤ Span.synthetic.start := by decide

theorem Leads.refl (h : m.Fair stop) : m.Leads stop m :=
  ⟨h, h, .inl rfl, Position.le_refl _, Position.le_refl _, Position.le_refl _⟩

theorem Leads.trans (h : m.Leads stop m') (g : m'.Leads stop m'') : m.Leads stop m'' := by
  grind [Steps]

end Mark

namespace Session

def mark (s : Session) : Mark := ⟨s.tokens.now, s.front⟩

/-- A session of which everything that has been told, or waits to be told, has its place. -/
structure Grounded (d : Dialect) (stop : Position) (s : Session) : Prop where
  dialect : s.settings.dialect = d
  tidy : s.tokens.Tidy
  final : s.tokens.final.token.span = ⟨stop, stop⟩
  fair : s.mark.Fair stop
  passed : ∀ e ∈ s.tokens.waiting, s.tokens.now.start < e.span.start
  report : Report d stop s.account

namespace Grounded

variable {d : Dialect} {stop : Position} {s : Session}

theorem errors (h : s.Grounded d stop) : Report d stop s.errors := h.report.append_left

/-- Constructs may be opened and closed. -/
theorem congr (h : s.Grounded d stop) (s' : Session) (settings : s'.settings = s.settings)
    (tokens : s'.tokens = s.tokens) (log : s'.log = s.log) :
    s'.Grounded d stop ∧ s'.mark = s.mark := by
  obtain ⟨settings', tokens', scopes', log', depth'⟩ := s'
  obtain rfl : settings' = s.settings := settings
  obtain rfl : tokens' = s.tokens := tokens
  obtain rfl : log' = s.log := log
  exact ⟨⟨h.dialect, h.tidy, h.final, h.fair, h.passed, h.report⟩, rfl⟩

theorem look (h : s.Grounded d stop) (count : Nat) :
    Grounded d stop { s with tokens := s.tokens.look count } ∧
      mark { s with tokens := s.tokens.look count } = s.mark := by
  have same : mark { s with tokens := s.tokens.look count } = s.mark := by
    simp [mark, front]
  refine ⟨⟨h.dialect, h.tidy.look count, by simpa using h.final, same ▸ h.fair,
    by simpa using h.passed, ?_⟩, same⟩
  simpa [account] using h.report

end Grounded

end Session

namespace Parser

open Session

variable {α β σ : Type} {d : Dialect} {stop : Position}

/-- A run that returns ends as the predicate says; of one that is stopped only the diagnostics
count. -/
def Reports (d : Dialect) (stop : Position) (result : EStateM.Result Abort Session α)
    (Q : α → Session → Prop) : Prop :=
  match result with
  | .ok a t => Q a t
  | .error _ t => Report d stop t.errors

namespace Reports

variable {result : EStateM.Result Abort Session α} {Q Q' : α → Session → Prop} {s : Session}

theorem mono (h : Reports d stop result Q) (sub : ∀ a t, Q a t → Q' a t) :
    Reports d stop result Q' := by
  cases result with
  | ok a t => exact sub a t h
  | error _ t => exact h

theorem bind {p : Parser α} {f : α → Parser β} {T : β → Session → Prop}
    (h : Reports d stop (p s) Q) (g : ∀ a t, Q a t → Reports d stop (f a t) T) :
    Reports d stop ((p >>= f) s) T := by
  change Reports d stop (EStateM.bind p f s) T
  unfold EStateM.bind
  cases result : p s with
  | ok a t => exact g a t (by rwa [result] at h)
  | error _ t => rwa [result] at h

end Reports

/-! ## Recording -/

theorem record_reports {s : Session} {x : Diagnostic} (h : Report d stop (s.errors ++ [x])) :
    Reports d stop (record x s) fun _ t => t = { s with log := s.log.push x } := by
  unfold record
  by_cases room : s.log.HasRoom
  · rw [ErrorLog.report_of_hasRoom room]
    exact rfl
  · rw [ErrorLog.report_of_not_hasRoom room]
    simpa [Reports, Session.errors, ErrorLog.push] using h.overflow

/-- Recording the first pending errors keeps the account. -/
theorem recordAll_reports {s : Session} {taken left : List LexicalError}
    (queue : s.tokens.pending = taken ++ left) (h : Report d stop s.account) :
    Reports d stop (recordAll taken { s with tokens := { s.tokens with pending := left } })
      fun _ t => t.settings = s.settings ∧ t.tokens = { s.tokens with pending := left } ∧
        t.errors = s.errors ++ taken.map (·.diagnostic) := by
  induction taken generalizing s with
  | nil => exact ⟨rfl, rfl, by simp [Session.errors]⟩
  | cons e rest inductionHypothesis =>
    have account : s.account = (s.errors ++ [e.diagnostic]) ++ (rest ++ left ++
        ((TokenStream.errorLists s.tokens.final s.tokens.ahead).drop s.tokens.seen).flatten).map
          (·.diagnostic) := by
      simp [Session.account, TokenStream.waiting, queue, Session.errors]
    rw [account] at h
    refine Reports.bind (record_reports (s := { s with tokens := { s.tokens with pending := left } })
      (x := e.diagnostic) h.append_left) ?_
    rintro _ _ rfl
    let s₁ : Session :=
      { s with tokens := { s.tokens with pending := rest ++ left }, log := s.log.push e.diagnostic }
    refine (inductionHypothesis (s := s₁) rfl ?_).mono fun _ t kept =>
      ⟨kept.1, kept.2.1, kept.2.2.trans (by simp [s₁, Session.errors, ErrorLog.push])⟩
    simpa [s₁, Session.account, TokenStream.waiting, ErrorLog.push, Session.errors] using h

/-! ## The judgement -/

/-- The parser, begun at a mark, keeps everything in its place and returns as the predicate says of
the mark where it ends. -/
def Anchors (d : Dialect) (stop : Position) (m : Mark) (p : Parser α) (P : Mark → α → Prop) : Prop :=
  ∀ s, s.Grounded d stop → s.mark = m →
    Reports d stop (p s) fun a t => t.Grounded d stop ∧ m.Leads stop t.mark ∧ P t.mark a

/-- A parser of which only the effect matters. -/
abbrev Stays (d : Dialect) (stop : Position) (m : Mark) (p : Parser α) : Prop :=
  Anchors d stop m p fun _ _ => True

namespace Anchors

variable {m : Mark} {p : Parser α} {f : α → Parser β} {P P' : Mark → α → Prop}
  {Q : Mark → β → Prop}

theorem mono (h : Anchors d stop m p P)
    (sub : ∀ m' a, m.Leads stop m' → P m' a → P' m' a) : Anchors d stop m p P' :=
  fun s grounded same => (h s grounded same).mono fun _ _ ⟨kept, leads, holds⟩ =>
    ⟨kept, leads, sub _ _ leads holds⟩

theorem pure {a : α} (h : m.Fair stop → P m a) : Anchors d stop m (Pure.pure a) P := by
  rintro s grounded rfl
  exact ⟨grounded, .refl grounded.fair, h grounded.fair⟩

theorem done (a : α) : Stays d stop m (Pure.pure a) := pure fun _ => trivial

theorem bind (h : Anchors d stop m p P)
    (g : ∀ m' a, m.Leads stop m' → P m' a → Anchors d stop m' (f a) Q) :
    Anchors d stop m (p >>= f) Q := by
  intro s grounded same
  refine (h s grounded same).bind fun a t ⟨kept, leads, holds⟩ => ?_
  refine (g _ a leads holds t kept rfl).mono fun b u ⟨kept', leads', holds'⟩ => ?_
  exact ⟨kept', leads.trans leads', holds'⟩

/-- What comes first gives nothing to what follows. -/
theorem andThen (h : Anchors d stop m p P) (g : ∀ m' a, m.Leads stop m' → Anchors d stop m' (f a) Q) :
    Anchors d stop m (p >>= f) Q :=
  bind h fun m' a leads _ => g m' a leads

theorem map {f : α → β} (h : Anchors d stop m p P)
    (image : ∀ m' a, m.Leads stop m' → P m' a → Q m' (f a)) :
    Anchors d stop m (do return f (← p)) Q :=
  bind h fun m' a leads holds => pure fun _ => image m' a leads holds

theorem ite {c : Prop} [Decidable c] {p p' : Parser α} (h : c → Anchors d stop m p P)
    (g : ¬ c → Anchors d stop m p' P) : Anchors d stop m (if c then p else p') P := by
  split
  next holds => exact h holds
  next fails => exact g fails

/-- A step that moves no mark, after which its result is used. -/
theorem still {p : Parser α} {T : α → Prop} {f : α → Parser β}
    (h : ∀ s, s.Grounded d stop → s.mark = m → Reports d stop (p s) fun a t =>
      (t.Grounded d stop ∧ t.mark = m) ∧ T a)
    (g : ∀ a, T a → Anchors d stop m (f a) Q) : Anchors d stop m (p >>= f) Q := by
  intro s grounded same
  exact (h s grounded same).bind fun a t ⟨⟨kept, same⟩, holds⟩ => g a holds t kept same

theorem iterate {start : σ} {step : σ → Parser (ForInStep σ)} (I : Mark → σ → Prop)
    (init : m.Fair stop → I m start)
    (round : ∀ m' x, m.Leads stop m' → I m' x →
      Anchors d stop m' (step x) fun m'' next => I m'' next.value) :
    Anchors d stop m (iterate start step) I := by
  have rounds (clock : List Scanned) (m' : Mark) (x : σ) (leads : m.Leads stop m') (holds : I m' x) :
      Anchors d stop m' (iterateFor step clock x) I := by
    induction clock generalizing m' x with
    | nil =>
      refine bind (round m' x leads holds) fun m'' next _ holds => ?_
      cases next <;> exact pure fun _ => holds
    | cons _ clock inductionHypothesis =>
      refine bind (round m' x leads holds) fun m'' next leads' holds => ?_
      cases next with
      | done y => exact pure fun _ => holds
      | yield y => exact inductionHypothesis m'' y (leads.trans leads') holds
  rintro s grounded rfl
  exact rounds s.tokens.ahead _ start (.refl grounded.fair) (init grounded.fair) s grounded rfl

theorem nested {p : Parser α} (h : Anchors d stop m p P) : Anchors d stop m (nested p) P := by
  rintro s grounded rfl
  obtain ⟨inside, same⟩ := grounded.congr { s with depth := s.depth + 1 } rfl rfl rfl
  have run := h _ inside same
  unfold Parser.nested
  cases result : p { s with depth := s.depth + 1 } with
  | ok a t =>
    rw [result] at run
    obtain ⟨kept, leads, holds⟩ := run
    obtain ⟨kept, same⟩ := kept.congr { t with depth := t.depth - 1 } rfl rfl rfl
    exact ⟨kept, same ▸ leads, same ▸ holds⟩
  | error abort t =>
    rw [result] at run
    exact run

/-! ### What is only asked for -/

variable {k : β → Parser α}

theorem onScopes (g : ScopeStack → ScopeStack) {f : Unit → Parser α}
    (h : Anchors d stop m (f ()) P) : Anchors d stop m (Parser.onScopes g >>= f) P :=
  still (T := fun _ => True) (fun s grounded same =>
    have ⟨kept, same'⟩ := grounded.congr { s with scopes := g s.scopes } rfl rfl rfl
    ⟨⟨kept, same'.trans same⟩, trivial⟩) fun _ _ => h

theorem within (kind : ScopeKind) (name : String) {p : Parser α} (h : Anchors d stop m p P) :
    Anchors d stop m (within kind name p) P :=
  onScopes _ (bind h fun _ _ _ holds => onScopes _ (pure fun _ => holds))

theorem get {f : Session → Parser α}
    (h : ∀ s : Session, s.settings.dialect = d → s.mark = m → Anchors d stop m (f s) P) :
    Anchors d stop m (MonadState.get >>= f) P :=
  still (T := fun s => s.settings.dialect = d ∧ s.mark = m)
    (fun _ grounded same => ⟨⟨grounded, same⟩, grounded.dialect, same⟩) fun s holds =>
      h s holds.1 holds.2

theorem isMooc {f : Bool → Parser α} (h : Anchors d stop m (f (d == .mooc)) P) :
    Anchors d stop m (Parser.isMooc >>= f) P := by
  refine still (T := fun b => b = (d == .mooc)) (fun s grounded same => ?_) fun _ same => same ▸ h
  exact ⟨⟨grounded, same⟩, congrArg (· == Dialect.mooc) grounded.dialect⟩

theorem now {f : Span → Parser α} (h : Anchors d stop m (f m.now) P) :
    Anchors d stop m (Parser.now >>= f) P := by
  refine still (T := fun s => s = m.now) (fun s grounded same => ?_) fun _ same => same ▸ h
  exact ⟨⟨grounded, same⟩, congrArg Mark.now same⟩

theorem since (start : Span) {f : Span → Parser α} (h : Anchors d stop m (f (start.merge m.now)) P) :
    Anchors d stop m (Parser.since start >>= f) P := by
  refine still (T := fun s => s = start.merge m.now) (fun s grounded same => ?_)
    fun _ same => same ▸ h
  exact ⟨⟨grounded, same⟩, congrArg (fun m => start.merge m.now) same⟩

theorem scopes {f : ScopeStack → Parser α} (h : ∀ s, Anchors d stop m (f s) P) :
    Anchors d stop m (Parser.scopes >>= f) P :=
  still (T := fun _ => True) (fun _ grounded same => ⟨⟨grounded, same⟩, trivial⟩) fun s _ => h s

theorem insideLoop {f : Bool → Parser α} (h : ∀ b, Anchors d stop m (f b) P) :
    Anchors d stop m (Parser.insideLoop >>= f) P :=
  still (T := fun _ => True) (fun _ grounded same => ⟨⟨grounded, same⟩, trivial⟩) fun b _ => h b

/-- A question that only looks ahead. -/
theorem look {q : TokenStream → β × TokenStream} {f : β → Parser α}
    (looks : ∀ t, ∃ count, (q t).2 = t.look count) (h : ∀ b, Anchors d stop m (f b) P) :
    Anchors d stop m (Parser.onTokens q >>= f) P := by
  refine still (T := fun _ => True) (fun s grounded same => ?_) fun b _ => h b
  obtain ⟨count, looked⟩ := looks s.tokens
  obtain ⟨kept, same'⟩ := grounded.look count
  simp only [Reports, onTokens, looked]
  exact ⟨⟨kept, same'.trans same⟩, trivial⟩

theorem glance {q : TokenStream → β × TokenStream} (looks : ∀ t, ∃ count, (q t).2 = t.look count) :
    Stays d stop m (Parser.onTokens q) := by
  have asked : Stays d stop m (Parser.onTokens q >>= Pure.pure) := look looks done
  rwa [bind_pure] at asked

theorem peekToken (n : Nat) {f : Token → Parser α} (h : ∀ t, Anchors d stop m (f t) P) :
    Anchors d stop m (Parser.peekToken n >>= f) P :=
  look (fun _ => ⟨n + 1, rfl⟩) h

theorem peek {f : TokenKind → Parser α} (h : ∀ kind, Anchors d stop m (f kind) P) :
    Anchors d stop m (Parser.peek >>= f) P :=
  still (T := fun _ => True) (fun _ grounded same =>
    have ⟨kept, same'⟩ := grounded.look 1
    ⟨⟨kept, same'.trans same⟩, trivial⟩) fun kind _ => h kind

theorem peekWhile (start : TokenKind) (ask : TokenKind → Verdict) :
    Stays d stop m (Parser.onTokens (·.peekWhile start ask)) := by
  refine glance fun t => ?_
  unfold TokenStream.peekWhile
  split <;> exact ⟨_, rfl⟩

theorem peekPair (first second : TokenKind) :
    Stays d stop m (Parser.onTokens (·.peekPair first second)) := by
  refine glance fun t => ?_
  unfold TokenStream.peekPair
  split <;> exact ⟨_, rfl⟩

end Anchors

end Parser

end LuaChunk
