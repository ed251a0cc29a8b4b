import LuaChunk.Proofs.Contents.Closure
import LuaChunk.Proofs.Contents.Mooc
import LuaChunk.Proofs.Parser.Moves
import LuaChunk.Proofs.Spelling.Chunk

/-!
# The limit on diagnostics

A reading without a limit would end in some session, with some diagnostics.  Under a limit that
these do not exceed the reading is the same; under any other it stops, and the log is what the
limit leaves of these diagnostics.
-/

set_option autoImplicit false

namespace LuaChunk

/-- The one that a log had no room for. -/
def Diagnostic.overflowing (d : Diagnostic) : Diagnostic := { d with overflow := true }

/-- What a log keeps of these diagnostics: as many as its limit, and one more that is marked. -/
def cutAt (cap : Nat) (ds : List Diagnostic) : List Diagnostic :=
  ds.take cap ++ (ds[cap]?.map (·.overflowing)).toList

theorem cutAt_of_isPrefix {ds es : List Diagnostic} {cap : Nat} (h : ds <+: es)
    (exceeds : cap < ds.length) : cutAt cap ds = cutAt cap es := by
  obtain ⟨rest, rfl⟩ := h
  simp [cutAt, List.take_append_of_le_length (Nat.le_of_lt exceeds),
    List.getElem?_append_left exceeds]

/-- A reading without a limit adds diagnostics and marks none of them. -/
structure Session.Adds (s s' : Session) : Prop where
  errors : s.errors <+: s'.errors
  unmarked : ∀ d ∈ s'.errors, d ∈ s.errors ∨ d.overflow = false

namespace Session.Adds

theorem of_eq {s s' : Session} (h : s'.log = s.log) : s.Adds s' := by
  have same : s'.errors = s.errors := congrArg (·.diagnostics.toList) h
  exact ⟨same ▸ List.prefix_rfl, fun d membership => .inl (same ▸ membership)⟩

theorem trans {a b c : Session} (h : a.Adds b) (g : b.Adds c) : a.Adds c where
  errors := h.errors.trans g.errors
  unmarked d membership := (g.unmarked d membership).elim (h.unmarked d) .inr

theorem length_le {s s' : Session} (h : s.Adds s') : s.errors.length ≤ s'.errors.length :=
  h.errors.length_le

end Session.Adds

namespace Parser

variable {α β σ : Type}

/-- The session that a run ends in. -/
def last : EStateM.Result Abort Session α → Session
  | .ok _ s | .error _ s => s

/-- The same end of a run under another limit. -/
def cappedEnd (cap : Nat) : EStateM.Result Abort Session α → EStateM.Result Abort Session α
  | .ok a s => .ok a (s.capped cap)
  | .error abort s => .error abort (s.capped cap)

/-- The same end of a run, one level further out. -/
def leave : EStateM.Result Abort Session α → EStateM.Result Abort Session α
  | .ok a s => .ok a { s with depth := s.depth - 1 }
  | .error abort s => .error abort { s with depth := s.depth - 1 }

theorem nested_eq (p : Parser α) (s : Session) :
    nested p s = leave (p { s with depth := s.depth + 1 }) := by
  unfold nested leave
  split <;> simp_all

/-- A run under a limit ends as one without a limit does, unless that one exceeds the limit. -/
structure Agrees (cap : Nat) (run free : EStateM.Result Abort Session α) : Prop where
  within : (last free).errors.length ≤ cap → run = cappedEnd cap free
  beyond : cap < (last free).errors.length →
    ∃ s, run = .error (.tooManyErrors cap) s ∧ s.errors = cutAt cap (last free).errors

/-- From every session the parser has a run without a limit, and under any limit that is not
exceeded yet it agrees with that run. -/
def Limitless (p : Parser α) : Prop :=
  ∀ s : Session, ∃ free, s.Adds (last free) ∧
    ∀ cap, s.errors.length ≤ cap → Agrees cap (p (s.capped cap)) free

namespace Limitless

/-- A parser that does not touch the log. -/
theorem act {p : Parser α} (free : Session → EStateM.Result Abort Session α)
    (quiet : ∀ s, (last (free s)).log = s.log)
    (runs : ∀ s cap, p (s.capped cap) = cappedEnd cap (free s)) : Limitless p := by
  intro s
  refine ⟨free s, .of_eq (quiet s), fun cap room => ⟨fun _ => runs s cap, fun exceeds => ?_⟩⟩
  have same : (last (free s)).errors = s.errors := congrArg (·.diagnostics.toList) (quiet s)
  exact absurd (same ▸ exceeds) (Nat.not_lt.2 room)

theorem pure (a : α) : Limitless (Pure.pure a) := act (.ok a) (fun _ => rfl) fun _ _ => rfl

theorem bind {p : Parser α} {f : α → Parser β} (h : Limitless p) (g : ∀ a, Limitless (f a)) :
    Limitless (p >>= f) := by
  intro s
  obtain ⟨first, adds, agrees⟩ := h s
  cases first with
  | error abort s' =>
    refine ⟨.error abort s', adds, fun cap room => ⟨fun enough => ?_, fun exceeds => ?_⟩⟩
    · change EStateM.bind p f _ = _
      simp only [EStateM.bind, (agrees cap room).within enough, cappedEnd]
    · obtain ⟨t, stops, kept⟩ := (agrees cap room).beyond exceeds
      refine ⟨t, ?_, kept⟩
      change EStateM.bind p f _ = _
      simp only [EStateM.bind, stops]
  | ok a s' =>
    obtain ⟨second, adds', agrees'⟩ := g a s'
    refine ⟨second, adds.trans adds', fun cap room => ?_⟩
    by_cases enough : s'.errors.length ≤ cap
    · have goesOn : (p >>= f) (s.capped cap) = f a (s'.capped cap) := by
        change EStateM.bind p f _ = _
        simp only [EStateM.bind, (agrees cap room).within enough, cappedEnd]
      exact goesOn ▸ agrees' cap enough
    · have exceeds : cap < s'.errors.length := Nat.not_le.1 enough
      obtain ⟨t, stops, kept⟩ := (agrees cap room).beyond exceeds
      refine ⟨fun enough' => absurd (Nat.le_trans adds'.length_le enough') enough,
        fun _ => ⟨t, ?_, ?_⟩⟩
      · change EStateM.bind p f _ = _
        simp only [EStateM.bind, stops]
      · exact kept.trans (cutAt_of_isPrefix adds'.errors exceeds)

theorem throw (abort : Abort) : Limitless (throw abort : Parser α) :=
  act (.error abort) (fun _ => rfl) fun _ _ => rfl

theorem onTokens (f : TokenStream → α × TokenStream) : Limitless (onTokens f) :=
  act (fun s => .ok (f s.tokens).1 { s with tokens := (f s.tokens).2 }) (fun _ => rfl)
    fun _ _ => rfl

theorem onScopes (f : ScopeStack → ScopeStack) : Limitless (onScopes f) :=
  act (fun s => .ok () { s with scopes := f s.scopes }) (fun _ => rfl) fun _ _ => rfl

theorem ask {f : Session → α} (h : ∀ s cap, f (s.capped cap) = f s) :
    Limitless (do return f (← get)) :=
  act (fun s => .ok (f s) s) (fun _ => rfl) fun s cap =>
    congrArg (EStateM.Result.ok · (s.capped cap)) (h s cap)

/-- Only here the limit is asked for. -/
theorem record {d : Diagnostic} (unmarked : d.overflow = false) : Limitless (record d) := by
  intro s
  have errors (e : Diagnostic) :
      Session.errors { s with log := s.log.push e } = s.errors ++ [e] := by
    simp [Session.errors, ErrorLog.push]
  refine ⟨.ok () { s with log := s.log.push d }, ⟨⟨[d], (errors d).symm⟩, fun e membership => ?_⟩,
    fun cap room => ⟨fun enough => ?_, fun exceeds => ?_⟩⟩
  · rw [last, errors d] at membership
    rcases List.mem_append.1 membership with before | new
    · exact .inl before
    · exact .inr (List.mem_singleton.1 new ▸ unmarked)
  · have hasRoom : (s.capped cap).log.HasRoom := by
      rw [last, errors d, List.length_append] at enough
      simpa [Session.errors, ErrorLog.HasRoom, Session.capped, Nat.succ_le_iff] using enough
    unfold Parser.record
    rw [ErrorLog.report_of_hasRoom hasRoom]
    rfl
  · rw [last, errors d] at exceeds ⊢
    have full : s.errors.length = cap := by
      simp only [List.length_append, List.length_singleton] at exceeds
      omega
    have noRoom : ¬ (s.capped cap).log.HasRoom := by
      simpa [Session.errors, ErrorLog.HasRoom, Session.capped] using Nat.le_of_eq full.symm
    refine ⟨{ s.capped cap with log := (s.capped cap).log.push d.overflowing }, ?_, ?_⟩
    · unfold Parser.record
      rw [ErrorLog.report_of_not_hasRoom noRoom]
      rfl
    · subst full
      simp [cutAt, Session.errors, ErrorLog.push, Session.capped]

theorem steps : Steps Limitless := ⟨.pure, .bind, fun _ => .ask, .onTokens, fun _ => .record⟩

theorem tooDeep : Limitless (tooDeep : Parser α) := by
  refine .bind ?_ fun _ => .bind steps.head fun _ => .bind (steps.complain _ _) fun _ => .throw _
  exact act (fun s => .ok () { s with depth := s.depth + 1 }) (fun _ => rfl) fun _ _ => rfl

theorem within {p : Parser α} (kind : ScopeKind) (name : String) (h : Limitless p) :
    Limitless (within kind name p) :=
  .bind (.onScopes _) fun _ => .bind h fun _ => .bind (.onScopes _) fun _ => .pure _

theorem nested {p : Parser α} (h : Limitless p) : Limitless (nested p) := by
  intro s
  obtain ⟨free, adds, agrees⟩ := h { s with depth := s.depth + 1 }
  have errors : (last (leave free)).errors = (last free).errors := by cases free <;> rfl
  refine ⟨leave free, ⟨errors ▸ adds.errors, errors ▸ adds.unmarked⟩,
    fun cap room => ⟨fun enough => ?_, fun exceeds => ?_⟩⟩
  · rw [nested_eq]
    refine (congrArg leave ((agrees cap room).within (errors ▸ enough))).trans ?_
    cases free <;> rfl
  · obtain ⟨t, stops, kept⟩ := (agrees cap room).beyond (errors ▸ exceeds)
    refine ⟨{ t with depth := t.depth - 1 }, ?_, errors ▸ kept⟩
    rw [nested_eq]
    exact congrArg leave stops

theorem iterateFor {step : σ → Parser (ForInStep σ)} (h : ∀ x, Limitless (step x))
    (clock : List Scanned) (x : σ) : Limitless (iterateFor step clock x) := by
  induction clock generalizing x with
  | nil =>
    refine .bind (h x) fun next => ?_
    cases next <;> exact .pure _
  | cons _ clock inductionHypothesis =>
    refine .bind (h x) fun next => ?_
    cases next with
    | done b => exact .pure b
    | yield y => exact inductionHypothesis y

theorem iterate {start : σ} {step : σ → Parser (ForInStep σ)} (h : ∀ x, Limitless (step x)) :
    Limitless (iterate start step) :=
  fun s => iterateFor h s.tokens.ahead start s

theorem closed : Closed Limitless where
  toSteps := steps
  stop _ _ abort _ _ := .bind (steps.complain _ _) fun _ =>
    .act (.error abort) (fun _ => rfl) fun _ _ => rfl
  tooDeep := tooDeep
  iterate := iterate
  nested := nested
  within := within
  continued := onScopes _
  returned := onScopes _

end Limitless

end Parser

namespace Session

open LuaChunk.Parser

variable (source : List UInt8) (name : String) (settings : Settings)

/-- What an analysis gives of a chunk whose reading ends so. -/
def analysisOf : EStateM.Result Abort Session Block → Analysis
  | .ok block s => ⟨block, s.tokens.comments, s.errors⟩
  | .error _ s => ⟨.empty, s.tokens.comments, s.errors⟩

theorem errors_analysisOf (end' : EStateM.Result Abort Session Block) :
    (analysisOf end').errors = (last end').errors := by
  cases end' <;> rfl

/-- A limit that was not exceeded leaves no trace. -/
theorem analysisOf_cappedEnd (cap : Nat) (end' : EStateM.Result Abort Session Block) :
    analysisOf (cappedEnd cap end') = analysisOf end' := by
  cases end' <;> rfl

theorem analyze_capped (cap : Nat) :
    (start source name { settings with maxErrors := cap }).analyze.1 = analysisOf
      (chunk (.level settings.maxNesting) ((opened source name settings).capped cap)) :=
  analyze_start

/-- All analyses of a chunk follow one reading without a limit. -/
theorem analyze_follows : ∃ free : EStateM.Result Abort Session Block,
    (∀ d ∈ (last free).errors, d.overflow = false) ∧ ∀ cap,
      Agrees cap (chunk (.level settings.maxNesting) ((opened source name settings).capped cap))
        free := by
  obtain ⟨free, adds, agrees⟩ := (chunk_gathers settings.maxNesting).closed Limitless.closed
    (opened source name settings)
  exact ⟨free, fun d membership => (adds.unmarked d membership).resolve_left nofun,
    fun cap => agrees cap (Nat.zero_le cap)⟩

/-- There is a limit that the diagnostics of a chunk do not reach. -/
theorem exists_unreached_cap : ∃ cap,
    (start source name { settings with maxErrors := cap }).analyze.1.errors.length < cap := by
  obtain ⟨free, _, agrees⟩ := analyze_follows source name settings
  refine ⟨(last free).errors.length + 1, ?_⟩
  rw [analyze_capped, (agrees _).within (Nat.le_succ _), errors_analysisOf]
  cases free <;> exact Nat.lt_succ_self _

/-- The limit on diagnostics cuts an analysis off and changes nothing else: one under a limit that
it does not reach tells what the analysis is under any other. -/
theorem analyze_maxErrors (source : List UInt8) (name : String) (settings : Settings) (cap : Nat)
    (unreached :
      (start source name { settings with maxErrors := cap }).analyze.1.errors.length < cap) :
    let whole := (start source name { settings with maxErrors := cap }).analyze.1
    let cut := (start source name settings).analyze.1
    (whole.errors.length ≤ settings.maxErrors → cut = whole) ∧
    (settings.maxErrors < whole.errors.length → cut.block = .empty ∧ ∃ d final,
      whole.errors[settings.maxErrors]? = some d ∧
      cut.errors = whole.errors.take settings.maxErrors ++ [final] ∧
      final.message = d.message ++ "(too many errors...)" ∧ final.span = d.span) := by
  intro whole cut
  obtain ⟨free, unmarked, agrees⟩ := analyze_follows source name settings
  have underCap (cap : Nat) := analyze_capped source name settings cap
  have enough : (last free).errors.length ≤ cap := Nat.le_of_not_lt fun exceeds => by
    obtain ⟨s, stops, kept⟩ := (agrees cap).beyond exceeds
    have full : s.errors.length = cap + 1 := by
      simp [kept, cutAt, exceeds, Nat.min_eq_left (Nat.le_of_lt exceeds)]
    rw [underCap, stops, errors_analysisOf, last, full] at unreached
    omega
  have whole_eq : whole = analysisOf free := by
    rw [← analysisOf_cappedEnd cap, ← (agrees cap).within enough]
    exact underCap cap
  have errors : whole.errors = (last free).errors := whole_eq ▸ errors_analysisOf free
  have cut_eq : cut = analysisOf (chunk (.level settings.maxNesting)
    ((opened source name settings).capped settings.maxErrors)) := underCap settings.maxErrors
  refine ⟨fun room => ?_, fun exceeds => ?_⟩
  · rw [cut_eq, (agrees _).within (errors ▸ room), analysisOf_cappedEnd, whole_eq]
  · obtain ⟨s, stops, kept⟩ := (agrees settings.maxErrors).beyond (errors ▸ exceeds)
    have unmarked : whole.errors[settings.maxErrors].overflow = false :=
      unmarked _ (errors ▸ List.getElem_mem exceeds)
    rw [stops] at cut_eq
    refine ⟨congrArg Analysis.block cut_eq, _, whole.errors[settings.maxErrors].overflowing,
      List.getElem?_eq_getElem exceeds, ?_, ?_, rfl⟩
    · rw [cut_eq, analysisOf, kept, ← errors]
      simp [cutAt, exceeds]
    · simp [Diagnostic.message, Diagnostic.overflowing, Diagnostic.overflowMark, unmarked]

/-- Two stray brackets under a limit of one. -/
theorem analyze_maxErrors_brackets :
    let source := ") )".toUTF8.toList
    let whole := (start source "" { maxErrors := 30 }).analyze.1
    let cut := (start source "" { maxErrors := 1 }).analyze.1
    whole.errors.length = 2 ∧ cut.block = .empty ∧ ∃ d final, whole.errors[1]? = some d ∧
      cut.errors = whole.errors.take 1 ++ [final] ∧
      final.message = d.message ++ "(too many errors...)" ∧ final.span = d.span := by
  intro source whole cut
  have two : whole.errors.length = 2 := by decide +kernel
  have limit := analyze_maxErrors source "" { maxErrors := 1 } 30 (two ▸ by decide)
  exact ⟨two, limit.2 (two ▸ by decide)⟩

end Session

end LuaChunk
