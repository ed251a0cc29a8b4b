import LuaChunk.Proofs.Control.Scopes
import LuaChunk.Proofs.Diagnostics.Growth

/-!
# Verdicts on places

Whatever is read, faulty or not, each statement that is judged by its place gets the verdict that
its place in the tree asks for, and each block of a loop gets the label that its jumps ask for.
-/

set_option autoImplicit false

namespace LuaChunk

namespace Scan

variable (scan : Scan)

theorem eq_of_start_eq {t u : Token} (h : t ∈ scan.tokens) (k : u ∈ scan.tokens)
    (same : t.span.start = u.span.start) : t = u :=
  Token.eq_of_start_eq scan.start_lt (List.pairwise_append.1 scan.ordered).1 h k same

/-- The statement is the jump of a `continue`. -/
def isContinue : Stat → Bool
  | .goto _ span => scan.tokens.any fun t => t.kind = .kwContinue ∧ t.span = span
  | _ => false

end Scan

/-- The stack where these jumps have been read in a block. -/
def ScopeStack.marked (v : ScopeStack) (scan : Scan) (jumps : List Stat) : ScopeStack :=
  if jumps.any scan.isContinue then v.mark else v

namespace ScopeStack

variable {v : ScopeStack} {scan : Scan} {w : Site}

@[simp]
theorem marked_nil : v.marked scan [] = v := rfl

theorem marked_singleton {x : Stat} (h : scan.isContinue x = true) :
    v.marked scan [x] = v.mark := by
  simp [marked, h]

theorem marked_append (jumps jumps' : List Stat) :
    v.marked scan (jumps ++ jumps') = (v.marked scan jumps).marked scan jumps' := by
  unfold marked
  rw [List.any_append]
  cases jumps.any scan.isContinue <;> cases jumps'.any scan.isContinue <;> simp [mark_mark]

theorem Follows.marked (h : v.Follows w) (scan : Scan) (jumps : List Stat) :
    (v.marked scan jumps).Follows w := by
  unfold ScopeStack.marked
  split
  · exact h.mark
  · exact h

/-- What is marked inside a construct is marked outside, unless the construct is a body. -/
theorem pop_marked_push (kind : ScopeKind) (name : String) (jumps : List Stat) :
    ((v.push kind name).marked scan jumps).pop.2 =
      if kind.body?.isSome then v else v.marked scan jumps := by
  unfold marked
  split
  · exact pop_mark_push kind name
  · simp

/-- A label is due where the block is that of a loop and one of its jumps is a `continue`. -/
theorem Matches.pending_iff {s : ScopeStack} {jumps : List Stat} (h : v.Matches w)
    (same : s.bare = v.marked scan jumps) : s.current.kind = .loop ∧ 0 < s.current.count ↔
      w.role = some .loop ∧ jumps.any scan.isContinue = true := by
  have kind : s.current.kind = v.current.kind := by
    rw [← kind_current_bare, same]
    unfold marked
    split
    · exact kind_current_mark
    · rfl
  rw [← h.role, ScopeKind.body?_eq_loop_iff, kind]
  refine and_congr_right fun loop => ?_
  rw [← count_current_bare (kind.trans loop), same]
  unfold marked
  split
  next jump => simp [count_current_mark h.root loop, jump]
  next none => simp [h.fresh loop, none]

end ScopeStack

namespace Session

variable (scan : Scan) (s : Session)

/-- A token has been taken, and its statement has got the verdict that its place asks for. -/
structure Judged (kind : TokenKind) (cause : Cause) (wrong : Prop) (t : Token) : Prop where
  among : t ∈ scan.tokens
  kind : t.kind = kind
  taken : t.span.stop ≤ s.front
  judges : s.Judges cause t wrong

end Session

section Settled

variable (scan : Scan) (s : Session) (w : Site)

/-- What holds of a statement at a site. -/
def Stat.Settled : Stat → Prop
  | .breakLoop span => ∃ t, s.Judged scan .kwBreak .breakOutsideLoop (¬ w.InLoop) t ∧ t.span = span
  | .goto name span =>
    (∃ t, s.Judged scan .kwContinue .continueOutsideLoop (¬ w.InLoop) t ∧ t.span = span ∧
      (w.InLoop → name = continueLabel w.loops)) ∨
    ∃ t ∈ scan.tokens, t.kind = .kwGoto ∧ t.span.start = span.start
  | .doBlock .deferred _ span =>
    ∃ t, s.Judged scan .kwDefer .deferOutsideFunction (¬ w.InFunction) t ∧
      t.span.start = span.start
  | .label name span => (∃ t, (t ∈ scan.tokens ∨ t = scan.final) ∧ t.text = name) ∧
    ∃ t ∈ scan.tokens, t.kind = .doubleColon ∧ t.span.start = span.start
  | _ => True

/-- What holds of a block at a site: after the statements that are written there may stand a label,
which a loop gets if a `continue` jumps there. -/
structure Block.Settled (b : Block) : Prop where
  body : w.role = some .loop → w.InLoop
  jumps : ∀ x ∈ b.jumps, x.Settled scan s w
  stats : ∃ written place, (∀ x ∈ written, x.Settled scan s w) ∧
    b.stats = written ++ if w.role = some .loop ∧ b.jumps.any scan.isContinue = true then
      [.label (continueLabel w.loops) place] else []

/-- What holds where an account has been gathered, in a block that was entered with a stack. -/
structure Known.Holds (v : ScopeStack) (k : Known) : Prop where
  head : ∀ kind, k.head = some kind → (s.tokens.upcoming 0).token.kind = kind
  scopes : s.scopes.bare = v.marked scan k.jumps
  stats : ∀ x ∈ k.stats, x.Settled scan s w
  jumps : ∀ x ∈ k.jumps, x.Settled scan s w
  blocks : ∀ b ∈ k.blocks, b.2.Settled scan s b.1

end Settled

variable {scan : Scan} {s s' : Session} {w w' : Site} {k l : Known} {v : ScopeStack}

theorem Session.Judged.grows {kind : TokenKind} {cause : Cause} {wrong : Prop} {t : Token}
    (h : s.Judged scan kind cause wrong t) (misplaced : cause.isMisplaced = true)
    (g : Session.Grows scan s s') : s'.Judged scan kind cause wrong t :=
  ⟨h.among, h.kind, Position.le_trans h.taken g.front,
    h.judges.grows misplaced h.among h.taken g⟩

theorem Stat.Settled.grows {x : Stat} (h : x.Settled scan s w) (g : Session.Grows scan s s') :
    x.Settled scan s' w := by
  unfold Stat.Settled at *
  split at h
  · obtain ⟨t, judged, span⟩ := h
    exact ⟨t, judged.grows rfl g, span⟩
  · rcases h with ⟨t, judged, span, name⟩ | written
    · exact .inl ⟨t, judged.grows rfl g, span, name⟩
    · exact .inr written
  · obtain ⟨t, judged, start⟩ := h
    exact ⟨t, judged.grows rfl g, start⟩
  · exact h
  · trivial

/-- What a block is the body of makes no difference to its statements. -/
theorem Stat.Settled.of_around {x : Stat} (h : x.Settled scan s w) (same : w'.around = w.around) :
    x.Settled scan s w' := by
  unfold Stat.Settled Site.InLoop Site.InFunction Site.loops at *
  rwa [same]

theorem Stat.settled_of_isPlain {x : Stat} (h : x.isPlain = true) : x.Settled scan s w := by
  cases x with
  | doBlock kind => cases kind <;> trivial
  | _ => trivial

/-- The jump of a `continue` is told from others by its keyword. -/
theorem Stat.Settled.of_continue {name : String} {t : Token}
    (h : (Stat.goto name t.span).Settled scan s w) (among : t ∈ scan.tokens)
    (kind : t.kind = .kwContinue) :
    s.Judged scan .kwContinue .continueOutsideLoop (¬ w.InLoop) t ∧
      (w.InLoop → name = continueLabel w.loops) := by
  rcases h with ⟨u, judged, span, label⟩ | ⟨u, written, other, starts⟩
  · have same : u = t := scan.eq_of_start_eq judged.among among (by rw [span])
    exact ⟨same ▸ judged, label⟩
  · have same : u = t := scan.eq_of_start_eq written among starts
    exact absurd (other.symm.trans (same ▸ kind)) (by decide)

theorem Block.Settled.grows {b : Block} (h : b.Settled scan s w) (g : Session.Grows scan s s') :
    b.Settled scan s' w := by
  obtain ⟨body, jumps, written, place, stats, same⟩ := h
  exact ⟨body, fun x membership => (jumps x membership).grows g, written, place,
    fun x membership => (stats x membership).grows g, same⟩

/-- What a block gets besides the statements that are written in it is a label. -/
theorem Block.Settled.of_mem {b : Block} {x : Stat} (h : b.Settled scan s w)
    (membership : x ∈ b.stats) (other : ∀ name span, x ≠ .label name span) :
    x.Settled scan s w := by
  obtain ⟨written, place, settled, same⟩ := h.stats
  rw [same, List.mem_append] at membership
  refine settled x (membership.resolve_right fun added => ?_)
  split at added
  · exact other _ _ (List.mem_singleton.1 added)
  · cases added

namespace Known.Holds

theorem covers (h : k.Holds scan s w v) (c : k.Covers l) : l.Holds scan s w v where
  head kind same := h.head kind <| by
    rcases c.head with none | equal
    · simp [none] at same
    · exact equal ▸ same
  scopes := c.jumps ▸ h.scopes
  stats x membership := (c.stats x membership).elim (h.stats x) Stat.settled_of_isPlain
  jumps := c.jumps ▸ h.jumps
  blocks b membership := h.blocks b (c.blocks b membership)

theorem stay (h : k.Holds scan s w v) (g : Session.Grows scan s s')
    (same : s'.scopes.bare = s.scopes.bare)
    (token : (s'.tokens.upcoming 0).token = (s.tokens.upcoming 0).token) :
    k.Holds scan s' w v where
  head kind facing := token ▸ h.head kind facing
  scopes := same.trans h.scopes
  stats x membership := (h.stats x membership).grows g
  jumps x membership := (h.jumps x membership).grows g
  blocks b membership := (h.blocks b membership).grows g

/-- Going on keeps all but the token ahead. -/
theorem grows (h : k.Holds scan s w v) (g : Session.Grows scan s s') (same : s'.scopes = s.scopes) :
    k.forget.Holds scan s' w v where
  head _ none := nomatch none
  scopes := same ▸ h.scopes
  stats x membership := (h.stats x membership).grows g
  jumps x membership := (h.jumps x membership).grows g
  blocks b membership := (h.blocks b membership).grows g

theorem passes (h : k.Holds scan s w v) (g : Session.Passes s s') : k.forget.Holds scan s' w v :=
  h.grows g.grows g.scopes

theorem follows (h : k.Holds scan s w v) (m : v.Follows w) : s.scopes.Follows w := by
  refine ScopeStack.Follows.of_bare ?_
  rw [h.scopes]
  exact m.marked scan k.jumps

/-- Something is added to the account. -/
theorem plus (h : k.Holds scan s w v) (g : Session.Grows scan s s') (head : l.head = none)
    (scopes : s'.scopes.bare = v.marked scan (k.jumps ++ l.jumps))
    (stats : ∀ x ∈ l.stats, x.Settled scan s' w) (jumps : ∀ x ∈ l.jumps, x.Settled scan s' w)
    (blocks : ∀ b ∈ l.blocks, b.2.Settled scan s' b.1) : (k.plus l).Holds scan s' w v where
  head kind same := by simp [head] at same
  scopes := scopes
  stats := List.forall_mem_append.2 ⟨fun x membership => (h.stats x membership).grows g, stats⟩
  jumps := List.forall_mem_append.2 ⟨fun x membership => (h.jumps x membership).grows g, jumps⟩
  blocks := List.forall_mem_append.2 ⟨fun b membership => (h.blocks b membership).grows g, blocks⟩

end Known.Holds

namespace Parser

open Session

variable {α β σ : Type}

/-- Where one account holds, a parser that returns leads to where the other does. -/
def Keeps (scan : Scan) (w : Site) (k : Known) (p : Parser α) (l : α → Known) : Prop :=
  ∀ v s, s.Stands scan → v.Matches w → k.Holds scan s w v →
    Ends (p s) fun a s' => Grows scan s s' ∧ (l a).Holds scan s' w v

namespace Keeps

variable {p : Parser α} {l : α → Known}

theorem bind {f : α → Parser β} {m : β → Known} (h : Keeps scan w k p l)
    (g : ∀ a, Keeps scan w (l a) (f a) m) : Keeps scan w k (p >>= f) m := by
  intro v s standing matching holds
  refine (h v s standing matching holds).bind ?_
  rintro a s' ⟨grows, holds⟩
  refine (g a v s' (grows.stands standing) matching holds).mono ?_
  rintro b s'' ⟨grows', holds⟩
  exact ⟨grows.trans grows', holds⟩

theorem passing (h : Passing p) : Keeps scan w k p fun _ => k.forget := fun _ s _ _ holds =>
  (h s).mono fun _ _ passes => ⟨passes.grows, holds.passes passes⟩

theorem look {f : TokenStream → α × TokenStream}
    (looks : ∀ t, ∃ count, (f t).2 = t.look count) :
    Keeps scan w k (onTokens f) fun _ => k := by
  intro v s _ _ holds
  obtain ⟨count, looked⟩ := looks s.tokens
  simp only [Ends, onTokens, looked]
  exact ⟨(Passes.look s count).grows, holds.stay (Passes.look s count).grows rfl (by simp)⟩

theorem next : Keeps scan w k next fun _ => k.forget := fun _ _ standing _ holds =>
  (next_took standing).mono fun _ _ took => ⟨took.grows, holds.passes took.toPasses⟩

theorem iterate {start : σ} {step : σ → Parser (ForInStep σ)} {l : σ → Known}
    (round : ∀ x, Keeps scan w (l x) (step x) fun next => l next.value) :
    Keeps scan w (l start) (iterate start step) l := by
  have rounds (clock : List Scanned) (x : σ) : Keeps scan w (l x) (iterateFor step clock x) l := by
    induction clock generalizing x with
    | nil =>
      refine bind (round x) fun next => ?_
      cases next <;> exact fun _ s _ _ holds => ⟨.refl s, holds⟩
    | cons _ clock inductionHypothesis =>
      refine bind (round x) fun next => ?_
      cases next with
      | done b => exact fun _ s _ _ holds => ⟨.refl s, holds⟩
      | yield y => exact inductionHypothesis y
  exact fun v s => rounds s.tokens.ahead start v s

theorem nested (h : Keeps scan w k p l) : Keeps scan w k (nested p) l := by
  intro v s standing matching holds
  let deeper : Session := { s with depth := s.depth + 1 }
  have enter : Grows scan s deeper := .of_eq rfl rfl
  have outcome := h v deeper (enter.stands standing) matching (holds.stay enter rfl rfl)
  unfold Parser.nested
  revert outcome
  change Ends (p deeper) _ → _
  cases p deeper with
  | error _ s' => exact id
  | ok a s' =>
    rintro ⟨grows, holds⟩
    have leave : Grows scan s' { s' with depth := s'.depth - 1 } := .of_eq rfl rfl
    exact ⟨enter.trans (grows.trans leave), holds.stay leave rfl rfl⟩

theorem within (kind : ScopeKind) (name : String) (h : Keeps scan (w.within kind) {} p l) :
    Keeps scan w k (within kind name p) fun a => k.plus ((l a).outside kind) := by
  intro v s standing matching holds
  let inside : Session := { s with scopes := s.scopes.push kind name }
  have enter : Grows scan s inside := .of_eq rfl rfl
  have entered : Ends (onScopes (·.push kind name) s) fun _ s' => s' = inside := rfl
  refine entered.bind ?_
  rintro _ _ rfl
  have follows := matching.toFollows.marked scan k.jumps
  have empty : Known.Holds scan inside (w.within kind)
      ((v.marked scan k.jumps).push kind name) {} :=
    { head := nofun, stats := nofun, jumps := nofun, blocks := nofun,
      scopes := by simp [inside, ScopeStack.bare_push, holds.scopes] }
  refine (h _ inside (enter.stands standing) (follows.push kind name) empty).bind ?_
  rintro a s' ⟨grows, held⟩
  let outside : Session := { s' with scopes := s'.scopes.pop.2 }
  have leave : Grows scan s' outside := .of_eq rfl rfl
  have left : Ends (onScopes (·.pop.2) s') fun _ s'' => s'' = outside := rfl
  refine left.bind ?_
  rintro _ _ rfl
  have goesOn : Grows scan s outside := enter.trans (grows.trans leave)
  have scopes : outside.scopes.bare = v.marked scan (k.jumps ++ ((l a).outside kind).jumps) := by
    rw [ScopeStack.bare_pop, held.scopes, ScopeStack.pop_marked_push]
    cases kind <;> simp [ScopeKind.body?, Known.outside, ScopeStack.marked_append]
  -- A body keeps its jumps to itself, and the statements of any other construct lie in the same
  -- bodies as the construct.
  have jumps : ∀ x ∈ ((l a).outside kind).jumps, x.Settled scan outside w := by
    intro x membership
    have among : x ∈ (l a).jumps ∧ w.around = (w.within kind).around := by
      cases kind <;> first
        | exact absurd membership List.not_mem_nil
        | exact ⟨membership, rfl⟩
    exact ((held.jumps x among.1).grows leave).of_around among.2
  refine ⟨goesOn, holds.plus goesOn ?_ scopes ?_ jumps fun b membership => ?_⟩
  · cases kind <;> rfl
  · have none : ((l a).outside kind).stats = [] := by cases kind <;> rfl
    rw [none]
    exact List.forall_mem_nil _
  · have among : b ∈ (l a).blocks := by cases kind <;> exact membership
    exact (held.blocks b among).grows leave

end Keeps

theorem scopes_ends : Ends (scopes s) fun a s' => a = s.scopes ∧ s' = s := ⟨rfl, rfl⟩

theorem insideLoop_ends : Ends (insideLoop s) fun b s' =>
    b = (s.scopes.find? .loop .function).isSome ∧ s' = s := ⟨rfl, rfl⟩

theorem now_ends : Ends (now s) fun _ s' => s' = s := rfl

theorem since_ends (start : Span) : Ends (since start s) fun span s' =>
    span.start = start.start ∧ s' = s := ⟨rfl, rfl⟩

theorem closeBody_passes (standing : s.Stands scan) :
    Ends (closeBody s) fun _ s' => Passes s s' := by
  have asked : Ends (isMooc s) fun _ s' => s' = s := rfl
  refine asked.bind ?_
  rintro mooc s' rfl
  exact (expect_took _ standing).bind fun _ _ took => took.toPasses

theorem pendingLabel_ends : Ends (pendingLabel s) fun label s' => (∃ place,
    label = if s.scopes.current.kind = .loop ∧ 0 < s.scopes.current.count then
      [.label (continueLabel s.scopes.openLoops) place] else []) ∧ s' = s := by
  refine scopes_ends.bind ?_
  rintro _ s' ⟨rfl, rfl⟩
  split
  · exact ⟨⟨s'.tokens.now, rfl⟩, rfl⟩
  · exact ⟨⟨.synthetic, rfl⟩, rfl⟩

/-- A token of a kind that has been looked at is taken. -/
theorem next_facing {kind : TokenKind} (more : kind ≠ .eof) (standing : s.Stands scan)
    (holds : (k.facing kind).Holds scan s w v) :
    Ends (next s) fun t s' => Took scan s t s' ∧ t ∈ scan.tokens ∧ t.kind = kind := by
  refine (next_took standing).mono fun t s' took => ?_
  have same : t.kind = kind := took.token ▸ holds.head kind rfl
  refine ⟨took, took.among.resolve_right fun final => ?_, same⟩
  exact more (same ▸ final ▸ scan.final_eof)

/-- A verdict at the token that has been taken last. -/
theorem complain_judges {cause : Cause} {t : Token} (misplaced : cause.isMisplaced = true)
    (took : Took scan s t s') (among : t ∈ scan.tokens) :
    Ends (complain cause t.span s') fun _ s'' => Grows scan s s'' ∧ s''.scopes = s'.scopes ∧
      t.span.stop ≤ s''.front ∧ s''.Judges cause t True := by
  refine (Passing.syncBefore _ s').bind fun _ s'' passes => (record_ends _ s'').mono ?_
  rintro _ _ ⟨_, rfl⟩
  have before := took.bind_passes passes
  have logged : Session.errors { s'' with log := s''.log.push { cause, span := t.span } } =
      s''.errors ++ [{ cause, span := t.span }] := by
    simp [Session.errors, ErrorLog.push]
  obtain ⟨added, same, each⟩ := before.errors
  have starts : s.front = t.span.start := congrArg (·.span.start) took.token
  refine ⟨⟨before.ahead, before.final, before.front, added ++ [{ cause, span := t.span }], ?_, ?_⟩,
    passes.scopes, before.stop_le among, ?_⟩
  · rw [logged, same, List.append_assoc]
  · refine List.forall_mem_append.2 ⟨fun d membership => ?_, List.forall_mem_singleton.2 ?_⟩
    · exact ⟨(each d membership).1, .inl (each d membership).2⟩
    · exact ⟨rfl, .inr ⟨misplaced, t, among, rfl, starts ▸ Position.le_refl _,
        before.stop_le among⟩⟩
  · refine ⟨fun _ => trivial, fun _ => ⟨{ cause, span := t.span }, ?_, rfl, rfl⟩⟩
    rw [logged]
    exact List.mem_append_right _ (List.mem_singleton_self _)

/-- A parser that gives a verdict if it is due, and goes on in any case. -/
theorem judge_ends {kind : TokenKind} {cause : Cause} {t : Token} (wrong : Prop)
    (misplaced : cause.isMisplaced = true) (standing : s.Stands scan) (took : Took scan s t s')
    (among : t ∈ scan.tokens) (same : t.kind = kind) {c : Prop} [Decidable c] (due : c ↔ wrong)
    {rest : Unit → Parser α} {Q : α → Session → Prop}
    (h : ∀ s'', Grows scan s s'' → s''.scopes = s.scopes → s''.Judged scan kind cause wrong t →
      Ends (rest () s'') Q) :
    Ends ((if c then complain cause t.span >>= rest else rest ()) s') Q := by
  split
  next bad =>
    refine (complain_judges misplaced took among).bind ?_
    rintro _ s'' ⟨grows, scopes, taken, judges⟩
    exact h s'' grows (scopes.trans took.scopes)
      ⟨among, same, taken, judges.trans (iff_of_true trivial (due.1 bad))⟩
  next fine =>
    refine h s' took.grows took.scopes ⟨among, same, took.stop_le among, ?_⟩
    exact (took.judges standing among misplaced).trans
      (iff_of_false id fun wrong => fine (due.2 wrong))

theorem breakStat_keeps : Keeps scan w (k.facing .kwBreak) breakStat
    fun x => k.plus (x.known w.around) := by
  intro v s standing matching holds
  refine (next_facing (by decide) standing holds).bind ?_
  rintro t s' ⟨took, among, kind⟩
  refine insideLoop_ends.bind ?_
  rintro _ _ ⟨rfl, rfl⟩
  refine judge_ends (¬ w.InLoop) rfl standing took among kind ?_
    fun s'' grows scopes judged => ⟨grows, holds.plus grows rfl ?_ ?_ nofun nofun⟩
  · have inside := (holds.follows matching.toFollows).find_loop
    simp [took.scopes, ← inside]
  · simpa [Stat.known, scopes] using holds.scopes
  · exact List.forall_mem_singleton.2 ⟨t, judged, rfl⟩

theorem labelStat_keeps : Keeps scan w (k.facing .doubleColon) labelStat
    fun x => k.plus (x.known w.around) := by
  intro v s standing matching holds
  refine (next_facing (by decide) standing holds).bind ?_
  rintro opening s₁ ⟨took, among, kind⟩
  have standing₁ := took.grows.stands standing
  refine (expectName_took standing₁).bind fun name s₂ took₁ => ?_
  refine (expect_took _ (took₁.grows.stands standing₁)).bind fun _ s₃ took₂ => ?_
  refine (since_ends opening.span).bind ?_
  rintro span s₃ ⟨starts, rfl⟩
  have passes := took.toPasses.trans (took₁.toPasses.trans took₂.toPasses)
  refine ⟨passes.grows, holds.plus passes.grows rfl ?_ ?_ nofun nofun⟩
  · simpa [Stat.known, passes.scopes] using holds.scopes
  · exact List.forall_mem_singleton.2 ⟨⟨name, took₁.among, rfl⟩, opening, among, kind, starts.symm⟩

theorem gotoStat_keeps : Keeps scan w (k.facing .kwGoto) gotoStat
    fun x => k.plus (x.known w.around) := by
  intro v s standing matching holds
  refine (next_facing (by decide) standing holds).bind ?_
  rintro t s₁ ⟨took, among, kind⟩
  refine (expectName_took (took.grows.stands standing)).bind fun name s₂ took₁ => ?_
  have passes := took.toPasses.trans took₁.toPasses
  have settled : (Stat.goto name.text (t.span.merge name.span)).Settled scan s₂ w :=
    .inr ⟨t, among, kind, rfl⟩
  have other : scan.isContinue (.goto name.text (t.span.merge name.span)) = false := by
    simp only [Scan.isContinue, List.any_eq_false, decide_eq_true_eq, not_and]
    rintro u among' continues span
    have same : u = t := scan.eq_of_start_eq among' among (by rw [span]; rfl)
    simp [← same, continues] at kind
  refine ⟨passes.grows, holds.plus passes.grows rfl ?_ ?_ ?_ nofun⟩
  · simpa [Stat.known, passes.scopes, ScopeStack.marked, other] using holds.scopes
  · exact List.forall_mem_singleton.2 settled
  · simpa [Stat.known] using settled

theorem continueStat_keeps : Keeps scan w (k.facing .kwContinue) continueStat
    fun x => k.plus (x.known w.around) := by
  intro v s standing matching holds
  refine (next_facing (by decide) standing holds).bind ?_
  rintro t s₁ ⟨took, among, kind⟩
  have follows := holds.follows matching.toFollows
  have jump (name : String) : scan.isContinue (.goto name t.span) = true := by
    simp only [Scan.isContinue, List.any_eq_true, decide_eq_true_eq]
    exact ⟨t, among, kind, rfl⟩
  have marked (name : String) : v.marked scan (k.jumps ++ [.goto name t.span]) =
      (v.marked scan k.jumps).mark := by
    rw [ScopeStack.marked_append, ScopeStack.marked_singleton (jump name)]
  refine scopes_ends.bind ?_
  rintro _ s₁ ⟨rfl, rfl⟩
  refine insideLoop_ends.bind ?_
  rintro _ s₁ ⟨rfl, rfl⟩
  rw [took.scopes]
  split
  next found =>
    have inside : w.InLoop := follows.find_loop.1 found
    let s₂ : Session := { s₁ with scopes := s₁.scopes.setFound .loop .function 1 }
    have set : Ends (onScopes (·.setFound .loop .function 1) s₁) fun _ s' => s' = s₂ := rfl
    refine set.bind ?_
    rintro _ _ rfl
    have grows : Grows scan s s₂ := took.grows.trans (.of_eq rfl rfl)
    have judged : s₂.Judged scan .kwContinue .continueOutsideLoop (¬ w.InLoop) t :=
      ⟨among, kind, took.stop_le among,
        (took.judges standing among rfl).trans (iff_of_false id (· inside))⟩
    have settled : (Stat.goto (continueLabel s.scopes.openLoops) t.span).Settled scan s₂ w :=
      .inl ⟨t, judged, rfl, fun _ => by rw [follows.loops]⟩
    refine ⟨grows, holds.plus grows rfl ?_ ?_ ?_ nofun⟩
    · simp only [s₂, Stat.known, Stat.jumps, Known.jumps_facing]
      rw [marked, took.scopes, ScopeStack.setFound_eq_mark follows.root, ScopeStack.bare_mark,
        holds.scopes, Known.jumps_facing]
    · exact List.forall_mem_singleton.2 settled
    · simpa [Stat.known] using settled
  next missed =>
    have outside : ¬ w.InLoop := fun inside => missed (follows.find_loop.2 inside)
    refine (complain_judges rfl took among).bind ?_
    rintro _ s₂ ⟨grows, scopes, taken, judges⟩
    have judged : s₂.Judged scan .kwContinue .continueOutsideLoop (¬ w.InLoop) t :=
      ⟨among, kind, taken, judges.trans (iff_of_true trivial outside)⟩
    have settled : (Stat.goto "continue" t.span).Settled scan s₂ w :=
      .inl ⟨t, judged, rfl, fun inside => absurd inside outside⟩
    refine ⟨grows, holds.plus grows rfl ?_ ?_ ?_ nofun⟩
    · simp only [Stat.known, Stat.jumps, Known.jumps_facing]
      rw [marked, (matching.toFollows.marked scan k.jumps).mark_eq outside, scopes, took.scopes,
        holds.scopes, Known.jumps_facing]
    · exact List.forall_mem_singleton.2 settled
    · simpa [Stat.known] using settled

theorem deferStat_keeps {r : Rules}
    (h : Keeps scan (.body .function w.around) {} r.block
      (Block.known (.body .function w.around))) :
    Keeps scan w (k.facing .kwDefer) (deferStat r) fun x => k.plus (x.known w.around) := by
  intro v s standing matching holds
  refine (next_facing (by decide) standing holds).bind ?_
  rintro t s₁ ⟨took, among, kind⟩
  have standing₁ := took.grows.stands standing
  refine (expect_took _ standing₁).bind fun _ s₂ took₁ => ?_
  have took₂ := took.bind_passes took₁.toPasses
  refine scopes_ends.bind ?_
  rintro _ _ ⟨rfl, rfl⟩
  have none := (holds.follows matching.toFollows).find_function
  refine judge_ends (¬ w.InFunction) rfl standing took₂ among kind ?_
    fun s₃ grows scopes judged => ?_
  · rw [took₂.scopes, none]
  have body := Keeps.within .function "defer" h v s₃ (grows.stands standing) matching
    (holds.grows grows scopes)
  refine body.bind ?_
  rintro b s₄ ⟨grows₁, holds₁⟩
  refine (closeBody_passes ((grows.trans grows₁).stands standing)).bind fun _ s₅ closed => ?_
  refine (since_ends t.span).bind ?_
  rintro span s₅ ⟨starts, rfl⟩
  have after := grows₁.trans closed.grows
  have settled : (Stat.doBlock .deferred b span).Settled scan s₅ w :=
    ⟨t, judged.grows rfl after, starts.symm⟩
  have held := (holds₁.passes closed).plus (.refl s₅)
    (l := { stats := [.doBlock .deferred b span] }) rfl
    (by simpa using (holds₁.passes closed).scopes) (List.forall_mem_singleton.2 settled) nofun nofun
  exact ⟨grows.trans after, held.covers (by grind)⟩

theorem block_keeps {r : Rules}
    (stats : Keeps scan w {} (Parser.iterate #[] (moreStats r))
      fun ss => statsKnown w.around ss.toList)
    (returns : ∀ k, Keeps scan w k (returnStat r) fun es =>
      k.plus { blocks := expsBlocks w.around (es.getD []) }) :
    Keeps scan w {} (block r) (Block.known w) := by
  intro v s standing matching holds
  have headPasses : Passing head := .bind (.look fun _ => ⟨1, rfl⟩) fun _ => .pure _
  refine (headPasses s).bind fun start s₁ passes => ?_
  refine now_ends.bind ?_
  rintro before s₁ rfl
  have standing₁ := (passes.grows).stands standing
  refine (stats v s₁ standing₁ matching (holds.passes passes)).bind ?_
  rintro ss s₂ ⟨grows, read⟩
  refine pendingLabel_ends.bind ?_
  rintro label s₂ ⟨⟨place, labelled⟩, rfl⟩
  refine (returns _ v s₂ (grows.stands standing₁) matching read).bind ?_
  rintro rs s₃ ⟨grows₁, held⟩
  refine now_ends.bind ?_
  rintro after s₃ rfl
  refine ⟨passes.grows.trans (grows.trans grows₁), ?_⟩
  have follows := read.follows matching.toFollows
  have same : label = if w.role = some .loop ∧ (statsJumps ss.toList).any scan.isContinue = true
      then [.label (continueLabel w.loops) place] else [] := by
    rw [labelled, follows.loops]
    simp only [matching.pending_iff read.scopes]
    rfl
  have quiet : label.flatMap (·.jumps) = [] ∧ label.flatMap (·.blocks w.around) = [] := by
    rw [same]
    split <;> simp
  have jumps : statsJumps (ss.toList ++ label) = statsJumps ss.toList := by simp [quiet.1]
  have settled (span : Span) : Block.Settled scan s₃ w ⟨ss.toList ++ label, rs, span⟩ := by
    refine ⟨matching.inLoop, ?_, ss.toList, place,
      fun x membership => (read.stats x membership).grows grows₁, ?_⟩
    · rw [Block.jumps_eq, jumps]
      exact fun x membership => (read.jumps x membership).grows grows₁
    · rw [Block.jumps_eq, jumps, same]
  refine ⟨nofun, ?_, nofun, (settled .synthetic).jumps, ?_⟩
  · have scopes := held.scopes
    simp only [Known.jumps_plus, statsKnown, List.append_nil] at scopes
    rw [scopes, Block.known, Block.jumps_eq, jumps]
  · rw [Block.known, Block.blocks_eq]
    refine List.forall_mem_cons.2 ⟨settled _, fun b membership => held.blocks b ?_⟩
    simpa [quiet.2, statsKnown] using membership

theorem Gathers.keeps {p : Parser α} {l : α → Known} (h : Gathers w k p l) :
    Keeps scan w k p l := by
  induction h with
  | weaken before _ after inductionHypothesis =>
    intro v s standing matching holds
    refine (inductionHypothesis v s standing matching (holds.covers before)).mono ?_
    exact fun a s' ⟨grows, held⟩ => ⟨grows, held.covers (after a)⟩
  | pure a => exact fun _ s _ _ holds => ⟨.refl s, holds⟩
  | bind _ _ first rest => exact first.bind rest
  | peek =>
    intro v s _ _ holds
    have looked := Passes.look s 1
    have stays := holds.stay looked.grows rfl (by simp)
    exact ⟨looked.grows, { stays with head := fun kind same => by simpa using same }⟩
  | look looks => exact .look looks
  | ask f _ => exact fun _ s _ _ holds => ⟨.refl s, holds⟩
  | next => exact .next
  | complain cause span usual => exact .passing (.complain usual span)
  | stop cause span abort f l _ =>
    exact fun v s _ _ _ => complain_throw_ends cause span abort s _
  | tooDeep =>
    intro v s _ _ _
    refine Ends.bind (Q := fun _ _ => True) trivial fun _ s' _ => ?_
    refine Ends.bind (Q := fun _ _ => True) trivial fun span s'' _ => ?_
    exact complain_throw_ends .tooManyLevels span .tooDeep s'' _
  | iterate _ _ round => exact .iterate round
  | nested _ inductionHypothesis => exact inductionHypothesis.nested
  | within kind name _ inductionHypothesis => exact inductionHypothesis.within kind name
  | noteReturn =>
    intro v s standing matching holds
    have root := (holds.follows matching.toFollows).root
    have grows : Grows scan s { s with scopes := Parser.noteReturn s.scopes } := .of_eq rfl rfl
    exact ⟨grows, holds.stay grows (ScopeStack.bare_noteReturn root) rfl⟩
  | breakStat => exact breakStat_keeps
  | continueStat => exact continueStat_keeps
  | deferStat _ inductionHypothesis => exact deferStat_keeps inductionHypothesis
  | gotoStat => exact gotoStat_keeps
  | labelStat => exact labelStat_keeps
  | block _ _ stats returns => exact block_keeps stats returns

end Parser

end LuaChunk
