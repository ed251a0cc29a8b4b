import LuaChunk.Proofs.Control.Balance

/-!
# What a reading that stops leaves behind

A reading that stops passes by whatever would close the constructs that it is in, and a level that
is not there is counted and never given back.  `Session.Leaves` says how one session differs from
another by that, and every parser leaves a session so when it stops (`Built.unwinds`).  A session
may be asked again: what its requests leave adds up, and a later request has so many levels less
and finds those constructs open.
-/

set_option autoImplicit false

namespace LuaChunk

/-- How many levels are lost with an analysis that stops for this reason. -/
inductive Abort.Loses : Abort → Nat → Prop
  | tooDeep : Loses .tooDeep 1
  | invariant (message : String) : Loses (.invariant message) 0
  /-- The cap may be reached by the complaint that there is no further level. -/
  | tooManyErrors (cap : Nat) {levels : Nat} : levels ≤ 1 → Loses (.tooManyErrors cap) levels

theorem Abort.Loses.le_one {abort : Abort} {levels : Nat} (h : abort.Loses levels) :
    levels ≤ 1 := by
  cases h with
  | tooDeep => exact Nat.le_refl 1
  | invariant => exact Nat.zero_le 1
  | tooManyErrors _ most => exact most

/-- Closes so many constructs, the innermost first. -/
def ScopeStack.drop (s : ScopeStack) : Nat → ScopeStack
  | 0 => s
  | n + 1 => (s.drop n).pop.2

/-- A session goes over into another in which some constructs, the innermost first, are still open
and some levels are still counted. -/
structure Session.Leaves (s t : Session) (opened : List (ScopeKind × String)) (lost : Nat) :
    Prop where
  depth : t.depth = s.depth + lost
  constructs : t.scopes.constructs = opened ++ s.scopes.constructs
  /-- Below the constructs still open notes have been taken, and nothing else has changed. -/
  noted : s.scopes.Noted (t.scopes.drop opened.length)

/-- Where no construct is open there is nothing to take notes in. -/
theorem ScopeStack.Noted.eq {s t : ScopeStack} (h : s.Noted t) (file : s.root.kind = .file)
    (bottom : s.inner = []) : t = s := by
  obtain ⟨root, inner⟩ := h.keeps file
  rw [bottom] at inner
  cases s
  cases t
  cases inner
  simp_all

namespace Session

variable {s t u : Session} {opened : List (ScopeKind × String)} {lost : Nat}

theorem Balanced.leaves (h : s.Balanced t) (file : s.scopes.root.kind = .file) :
    s.Leaves t [] 0 :=
  ⟨h.depth, (h.noted.keeps file).constructs, h.noted⟩

theorem Balanced.then_leaves (h : s.Balanced t) (file : s.scopes.root.kind = .file)
    (left : t.Leaves u opened lost) : s.Leaves u opened lost where
  depth := h.depth ▸ left.depth
  constructs := (h.noted.keeps file).constructs ▸ left.constructs
  noted := h.noted.trans left.noted

/-- A construct that is not closed is one more that is left open. -/
theorem Leaves.within {kind : ScopeKind} {name : String} (file : s.scopes.root.kind = .file)
    (h : Leaves { s with scopes := s.scopes.push kind name } t opened lost) :
    s.Leaves t (opened ++ [(kind, name)]) lost where
  depth := h.depth
  constructs := by simp [h.constructs, ScopeStack.constructs_push]
  noted := by
    rw [List.length_append]
    exact h.noted.pop file

/-- Coming back up gives back the level that was entered. -/
theorem Leaves.nested (h : Leaves { s with depth := s.depth + 1 } t opened lost) :
    s.Leaves { t with depth := t.depth - 1 } opened lost where
  depth := by
    have deeper : t.depth = s.depth + 1 + lost := h.depth
    change t.depth - 1 = s.depth + lost
    omega
  constructs := h.constructs
  noted := h.noted

end Session

namespace Parser

variable {α β : Type}

/-! ## Complaints -/

/-- Neither the depth nor the stack has been touched, and only a full log has stopped the reading. -/
inductive Reported (s : Session) : EStateM.Result Abort Session α → Prop
  | returned (a : α) {t : Session} : t.depth = s.depth → t.scopes = s.scopes → Reported s (.ok a t)
  | stopped (cap : Nat) {t : Session} : t.depth = s.depth → t.scopes = s.scopes →
      Reported s (.error (.tooManyErrors cap) t)

theorem Reported.record (d : Diagnostic) (s : Session) : Reported s (record d s) := by
  unfold Parser.record ErrorLog.report
  by_cases room : s.log.diagnostics.size < s.log.cap
  · rw [if_pos room]
    exact .returned () rfl rfl
  · rw [if_neg room]
    exact .stopped _ rfl rfl

theorem Reported.after {s t : Session} {result : EStateM.Result Abort Session α}
    (h : Reported t result) (depth : t.depth = s.depth) (scopes : t.scopes = s.scopes) :
    Reported s result := by
  cases h with
  | returned a depth' scopes' => exact .returned a (depth'.trans depth) (scopes'.trans scopes)
  | stopped cap depth' scopes' => exact .stopped cap (depth'.trans depth) (scopes'.trans scopes)

theorem Reported.bind {p : Parser α} {f : α → Parser β} {s : Session} (h : Reported s (p s))
    (k : ∀ a t, Reported t (f a t)) : Reported s ((p >>= f) s) := by
  change Reported s (EStateM.bind p f s)
  unfold EStateM.bind
  generalize p s = result at h
  cases h with
  | returned a depth scopes => exact (k a _).after depth scopes
  | stopped cap depth scopes => exact .stopped cap depth scopes

theorem Reported.complain (cause : Cause) (span : Span) (s : Session) :
    Reported s (complain cause span s) := by
  have all (errors : List LexicalError) (s : Session) : Reported s (recordAll errors s) := by
    induction errors generalizing s with
    | nil => exact .returned () rfl rfl
    | cons e rest inductionHypothesis =>
      exact .bind (.record _ s) fun _ t => inductionHypothesis t
  have taken : Reported s (onTokens (·.takeErrorsBefore span.start.nextColumn) s) :=
    .returned _ rfl rfl
  exact .bind (.bind taken all) fun _ t => .record _ t

/-! ## Stopping -/

/-- Where a parser has returned everything is closed again, and where it has stopped some constructs
are left open and perhaps a level is lost. -/
inductive Unwound (s : Session) : EStateM.Result Abort Session α → Prop
  | returned (a : α) {t : Session} : s.Balanced t → Unwound s (.ok a t)
  | stopped {abort : Abort} {t : Session} {opened : List (ScopeKind × String)} {lost : Nat} :
      s.Leaves t opened lost → abort.Loses lost → Unwound s (.error abort t)

theorem Reported.unwound {s : Session} {result : EStateM.Result Abort Session α}
    (h : Reported s result) (file : s.scopes.root.kind = .file) : Unwound s result := by
  cases h with
  | returned a depth scopes => exact .returned a (.of_eq depth scopes)
  | stopped cap depth scopes =>
    have same := (Session.Balanced.of_eq depth scopes).leaves file
    exact .stopped same (.tooManyErrors cap (Nat.zero_le 1))

theorem Unwound.after {s t : Session} {result : EStateM.Result Abort Session α}
    (h : Unwound t result) (balanced : s.Balanced t) (file : s.scopes.root.kind = .file) :
    Unwound s result := by
  cases h with
  | returned a rest => exact .returned a (balanced.trans rest)
  | stopped left loses => exact .stopped (balanced.then_leaves file left) loses

theorem Unwound.bind {p : Parser α} {f : α → Parser β} {s : Session} (h : Unwound s (p s))
    (file : s.scopes.root.kind = .file)
    (k : ∀ a t, s.Balanced t → Unwound t (f a t)) : Unwound s ((p >>= f) s) := by
  change Unwound s (EStateM.bind p f s)
  unfold EStateM.bind
  generalize p s = result at h
  cases h with
  | returned a balanced => exact (k a _ balanced).after balanced file
  | stopped left loses => exact .stopped left loses

/-- The level that is not there stays counted, whether the complaint about it has found room or
not. -/
theorem Unwound.tooDeep (s : Session) : Unwound s ((Parser.tooDeep : Parser α) s) := by
  let deeper : Session := { s with depth := s.depth + 1 }
  have complained (span : Span) (t : Session) (depth : t.depth = deeper.depth)
      (scopes : t.scopes = s.scopes) :
      Unwound s ((complain .tooManyLevels span >>= fun _ => throw .tooDeep : Parser α) t) := by
    have left {u : Session} (depth' : u.depth = t.depth) (scopes' : u.scopes = t.scopes) :
        s.Leaves u [] 1 := by
      have same : u.scopes = s.scopes := scopes'.trans scopes
      exact ⟨depth'.trans depth, by rw [same]; rfl, by rw [same]; exact .refl⟩
    have reported := Reported.complain .tooManyLevels span t
    change Unwound s (EStateM.bind _ _ t)
    unfold EStateM.bind
    generalize Parser.complain .tooManyLevels span t = result at reported
    cases reported with
    | returned _ depth' scopes' => exact .stopped (left depth' scopes') .tooDeep
    | stopped cap depth' scopes' =>
      exact .stopped (left depth' scopes') (.tooManyErrors cap (Nat.le_refl 1))
  exact complained (deeper.tokens.peek 0).1.span _ rfl rfl

/-- However a parser that is put together from steps ends, this is what it leaves. -/
theorem Built.unwinds {p : Parser α} (h : Built p) {s : Session}
    (file : s.scopes.root.kind = .file) : Unwound s (p s) := by
  induction h generalizing s with
  | pure a => exact .returned a (.of_eq rfl rfl)
  | throw abort other =>
    have same : s.Leaves s [] 0 := (Session.Balanced.of_eq rfl rfl).leaves file
    cases abort with
    | tooManyErrors cap => exact .stopped same (.tooManyErrors cap (Nat.zero_le 1))
    | invariant message => exact .stopped same (.invariant message)
    | tooDeep => exact absurd rfl other
  | get => exact .returned _ (.of_eq rfl rfl)
  | onTokens f => exact .returned _ (.of_eq rfl rfl)
  | record d => exact (Reported.record d s).unwound file
  | continued => exact .returned _ ⟨rfl, .continued .refl⟩
  | returned => exact .returned _ ⟨rfl, .returned .refl⟩
  | bind _ _ first rest =>
    exact (first file).bind file fun a t balanced =>
      rest a ((balanced.noted.keeps file).root ▸ file)
  | @within _ p kind name _ inside =>
    let within : Session := { s with scopes := s.scopes.push kind name }
    have body : Unwound within (p within) := inside (ScopeStack.root_push.trans file)
    change Unwound s (EStateM.bind p _ within)
    unfold EStateM.bind
    generalize p within = result at body
    cases body with
    | returned a balanced => exact .returned a ⟨balanced.depth, balanced.noted.pop file⟩
    | stopped left loses => exact .stopped (left.within file) loses
  | @nested _ p _ inside =>
    let deeper : Session := { s with depth := s.depth + 1 }
    have body : Unwound deeper (p deeper) := inside file
    change Unwound s (leave (p deeper))
    generalize p deeper = result at body
    cases body with
    | returned a balanced =>
      exact .returned a ⟨by simp [balanced.depth, deeper], balanced.noted⟩
    | stopped left loses => exact .stopped left.nested loses
  | tooDeep => exact .tooDeep s

end Parser

/-! ## Requests -/

/-- What a session may be asked to read. -/
inductive Reading where
  | chunk
  | expression
  deriving DecidableEq, Repr

namespace Session

/-- The session after it has read what it is asked for. -/
def serve (s : Session) : Reading → Session
  | .chunk => s.analyze.2
  | .expression => s.exp.2

/-- Reads what is asked for. -/
def reading : Reading → Parser Unit
  | .chunk => fun s =>
    let s := { s with tokens := s.tokens.skipShebang }
    (do let _ ← chunk s.rules : Parser Unit) s
  | .expression => fun s => (do let _ ← s.rules.exp : Parser Unit) s

/-- Why the reading of what is asked for stops, if it stops. -/
def abort? (s : Session) (q : Reading) : Option Abort :=
  match reading q s with
  | .ok _ _ => none
  | .error abort _ => some abort

/-- The aborts of a run of requests. -/
def aborts (s : Session) : List Reading → List Abort
  | [] => []
  | q :: rest => (s.abort? q).toList ++ (s.serve q).aborts rest

variable {s : Session} {chunk : String}

theorem serve_eq (s : Session) (q : Reading) : s.serve q = Parser.last (reading q s) := by
  cases q with
  | chunk =>
    let ready : Session := { s with tokens := s.tokens.skipShebang }
    change s.analyze.2 = Parser.last (EStateM.bind (Session.chunk ready.rules) _ ready)
    unfold Session.analyze EStateM.bind
    cases run : Session.chunk ready.rules ready <;> simp only [ready] at run <;>
      simp only [run] <;> rfl
  | expression =>
    change (s.exp).2 = Parser.last (EStateM.bind s.rules.exp _ s)
    unfold Session.exp EStateM.bind
    cases s.rules.exp s <;> rfl

theorem reading_unwinds (q : Reading) (file : s.scopes.root.kind = .file) :
    Parser.Unwound s (reading q s) := by
  cases q with
  | chunk =>
    let ready : Session := { s with tokens := s.tokens.skipShebang }
    have built : Parser.Built (Session.chunk ready.rules) := Parser.ParseFunction.chunk.built
    have unwound := (Parser.Built.bind built fun _ => .pure ()).unwinds (s := ready) file
    exact unwound.after (.of_eq rfl rfl) file
  | expression =>
    have built : Parser.Built s.rules.exp := Parser.ParseFunction.exp.built
    exact (Parser.Built.bind built fun _ => .pure ()).unwinds file

/-- What one request leaves behind: nothing if it is answered. -/
theorem serve_leaves (q : Reading) (file : s.scopes.root.kind = .file) :
    ∃ opened lost, s.Leaves (s.serve q) opened lost ∧
      (s.abort? q = none → opened = [] ∧ lost = 0) ∧
      ∀ abort, s.abort? q = some abort → abort.Loses lost := by
  have unwound := reading_unwinds q file
  rw [serve_eq]
  unfold abort?
  generalize reading q s = result at unwound
  cases unwound with
  | returned _ balanced => exact ⟨[], 0, balanced.leaves file, fun _ => ⟨rfl, rfl⟩, by simp⟩
  | stopped left loses =>
    refine ⟨_, _, left, by simp, fun abort same => ?_⟩
    obtain rfl := Option.some.inj same
    exact loses

/-- A session in use: what its requests have left behind is open and counted now. -/
structure Burdened (source : List UInt8) (chunk : String) (settings : Settings)
    (opened : List (ScopeKind × String)) (stopped : List Abort) (s : Session) : Prop where
  reachable : s.Reachable source chunk settings
  constructs : s.scopes.constructs = opened ++ [(.file, chunk)]
  depth : s.depth ≤ stopped.length
  /-- Where nothing has stopped everything is as it was at first. -/
  fresh : stopped = [] → s.depth = 0 ∧ s.scopes = .ofFile chunk

theorem Reachable.serve {source : List UInt8} {settings : Settings}
    (h : s.Reachable source chunk settings) (q : Reading) :
    (s.serve q).Reachable source chunk settings := by
  cases q with
  | chunk => exact h.analyze
  | expression => exact h.exp

theorem Burdened.once {source : List UInt8} {settings : Settings}
    {opened : List (ScopeKind × String)} {stopped : List Abort}
    (h : s.Burdened source chunk settings opened stopped) (q : Reading) :
    ∃ more, (s.serve q).Burdened source chunk settings (more ++ opened)
      (stopped ++ (s.abort? q).toList) := by
  have file := h.reachable.tallied.kind
  obtain ⟨more, lost, left, answered, loses⟩ := serve_leaves q file
  refine ⟨more, h.reachable.serve q, ?_, ?_, fun none => ?_⟩
  · rw [left.constructs, h.constructs, List.append_assoc]
  · have before := h.depth
    rw [left.depth, List.length_append]
    cases stops : s.abort? q with
    | none =>
      rw [(answered stops).2]
      omega
    | some abort =>
      have most := (loses abort stops).le_one
      simp only [Option.toList_some, List.length_singleton]
      omega
  · obtain ⟨rfl, unstopped⟩ := List.append_eq_nil_iff.1 none
    obtain ⟨rfl, rfl⟩ := answered (Option.toList_eq_nil_iff.1 unstopped)
    obtain ⟨depth, scopes⟩ := h.fresh rfl
    refine ⟨left.depth.trans depth, ?_⟩
    rw [← scopes]
    exact left.noted.eq file (by rw [scopes]; rfl)

theorem Burdened.serves {source : List UInt8} {settings : Settings}
    {opened : List (ScopeKind × String)} {stopped : List Abort}
    (h : s.Burdened source chunk settings opened stopped) (requests : List Reading) :
    ∃ more, (requests.foldl Session.serve s).Burdened source chunk settings (more ++ opened)
      (stopped ++ s.aborts requests) := by
  induction requests generalizing s opened stopped with
  | nil => exact ⟨[], by simpa [aborts] using h⟩
  | cons q rest inductionHypothesis =>
    obtain ⟨more, once⟩ := h.once q
    obtain ⟨further, all⟩ := inductionHypothesis once
    exact ⟨further ++ more, by simpa [aborts] using all⟩

/-- Whatever has been asked of a session before, a request that is answered leaves the depth and the
open constructs as they were.  One that stops leaves open the constructs that it was in, and the
level that was not there stays counted, so that nothing is left as it was unless no construct was
open and no level was lost; later requests find these constructs open and have so many levels less,
while before the first request that stops every request starts afresh. -/
theorem serve_unwinds (source : List UInt8) (chunk : String) (settings : Settings)
    (earlier : List Reading) (q : Reading) :
    let s := earlier.foldl Session.serve (.start source chunk settings)
    let t := s.serve q
    (∃ opened lost, s.Leaves t opened lost ∧
      (s.abort? q = none → opened = [] ∧ lost = 0) ∧
      (∀ abort, s.abort? q = some abort → abort.Loses lost) ∧
      (t.depth = s.depth ↔ lost = 0) ∧
      (t.scopes.constructs = s.scopes.constructs ↔ opened = []) ∧
      (s.scopes.inner = [] → (t.scopes = s.scopes ↔ opened = []))) ∧
    ∃ opened, s.Burdened source chunk settings opened
        ((Session.start source chunk settings).aborts earlier) ∧
      s.scopes.openLoops = opened.countP (·.1 = .loop) := by
  intro s t
  have start : (Session.start source chunk settings).Burdened source chunk settings [] [] :=
    ⟨.refl, rfl, Nat.le_refl 0, fun _ => ⟨rfl, rfl⟩⟩
  obtain ⟨burden, used⟩ := start.serves earlier
  have tallied := used.reachable.tallied
  refine ⟨?_, burden, by simpa using used, ?_⟩
  · obtain ⟨opened, lost, left, answered, loses⟩ := serve_leaves q tallied.kind
    have constructs : t.scopes.constructs = s.scopes.constructs ↔ opened = [] := by
      rw [left.constructs, List.append_left_eq_self]
    have depth : t.depth = s.depth ↔ lost = 0 := by
      rw [left.depth, Nat.add_eq_left]
    refine ⟨opened, lost, left, answered, loses, depth, constructs, fun bottom => ?_⟩
    constructor
    · exact fun same => constructs.1 (congrArg ScopeStack.constructs same)
    · rintro rfl
      exact left.noted.eq tallied.kind bottom
  · have loops := congrArg (List.countP fun c : ScopeKind × String => c.1 = .loop) used.constructs
    rw [tallied.loops]
    simpa [ScopeStack.constructs, List.countP_map, Function.comp_def, tallied.kind] using loops

/-- With three levels the first analysis stops in the body of the loop.  The second one has two
levels left, so it stops too, at a `break` outside of loops that it would have complained of. -/
theorem serve_unwinds_stale :
    let s := Session.start "while a do x = 1 break".toUTF8.toList "a.lua" { maxNesting := 3 }
    let t := s.serve .chunk
    s.depth = 0 ∧ s.scopes = .ofFile "a.lua" ∧ s.abort? .chunk = some .tooDeep ∧ t.depth = 1 ∧
    t.scopes = ⟨⟨.file, "a.lua", 1⟩, [⟨.loop, "while", 0⟩]⟩ ∧ t.abort? .chunk = some .tooDeep ∧
    Session.abort? { t with depth := 0, scopes := .ofFile "a.lua" } .chunk = none := by
  decide +kernel

end Session

end LuaChunk
