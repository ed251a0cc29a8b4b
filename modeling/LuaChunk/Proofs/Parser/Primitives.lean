import LuaChunk.Proofs.Parser.Reading

/-!
# Readings of single tokens

The parsers that every other parser is made of, as steps from place to place.  Looking ahead stays
at a place, taking a token goes on to the next, and whoever complains is not a clean reading.
-/

set_option autoImplicit false

namespace LuaChunk.Parser

variable {c : Text} {α β σ : Type}

/-- The relation of a parser that always records something. -/
def never (_ : Place c) (_ : α) (_ : Place c) : Prop := False

/-! ## What is only looked at -/

theorem get_reads : Reads c get fun i s o => s.settings = c.settings ∧ o = i :=
  fun s settings => ⟨.refl s, fun i standing _ => ⟨i, standing, settings, rfl⟩⟩

theorem dialect_reads : Reads c dialect fun i d o => d = c.dialect ∧ o = i := by
  refine (get_reads.map (·.settings.dialect)).mono ?_
  rintro i d o ⟨s, rfl, same, rfl⟩
  exact ⟨congrArg _ same, rfl⟩

theorem isMooc_bind_reads {k : Bool → Parser α} {R : Place c → α → Place c → Prop}
    (h : Reads c (k (c.dialect == .mooc)) R) : Reads c (isMooc >>= k) R := by
  intro s settings
  have same : (s.settings.dialect == .mooc) = (c.dialect == .mooc) := by rw [settings]
  change Ends (k (s.settings.dialect == .mooc) s) (Leads s R)
  rw [same]
  exact h s settings

theorem isMooc_reads : Reads c isMooc fun i b o => (b = true ↔ c.dialect = .mooc) ∧ o = i := by
  refine (dialect_reads.map (· == .mooc)).mono ?_
  rintro i b o ⟨d, rfl, rfl, rfl⟩
  exact ⟨by simp, rfl⟩

theorem onTokens_reads {f : TokenStream → α × TokenStream}
    (looks : ∀ t, ∃ count, (f t).2 = t.look count) :
    Reads c (onTokens f) fun i a o => (∃ s : Session, s.At i ∧ a = (f s.tokens).1) ∧ o = i := by
  intro s _
  obtain ⟨count, looked⟩ := looks s.tokens
  have moves : s.Moves { s with tokens := (f s.tokens).2 } := looked ▸ .look s count
  refine ⟨moves, fun i standing _ => ⟨i, ?_, ⟨s, standing, rfl⟩, rfl⟩⟩
  exact looked ▸ standing.look count

theorem peekToken_reads (n : Nat) : Reads c (peekToken n) fun i t o => t = i.token n ∧ o = i := by
  refine (onTokens_reads fun t => ⟨n + 1, rfl⟩).mono ?_
  rintro i t o ⟨⟨s, standing, rfl⟩, rfl⟩
  exact ⟨standing.upcoming n, rfl⟩

theorem peek_reads : Reads c peek fun i k o => k = i.head.kind ∧ o = i := by
  refine ((peekToken_reads 0).map (·.kind)).mono ?_
  rintro i k o ⟨t, rfl, rfl, rfl⟩
  exact ⟨rfl, rfl⟩

theorem peek_bind_reads {k : TokenKind → Parser α} {R : Place c → α → Place c → Prop}
    (h : ∀ kind, Reads c (k kind) fun i a o => i.head.kind = kind → R i a o) :
    Reads c (peek >>= k) R := by
  refine (peek_reads.bind h).mono ?_
  rintro i a o ⟨_, _, ⟨rfl, rfl⟩, related⟩
  exact related rfl

theorem head_reads : Reads c head fun i s o => s = i.head.span ∧ o = i := by
  refine ((peekToken_reads 0).map (·.span)).mono ?_
  rintro i k o ⟨t, rfl, rfl, rfl⟩
  exact ⟨rfl, rfl⟩

theorem peekPair_reads (first second : TokenKind) :
    Reads c (onTokens (·.peekPair first second)) fun i b o =>
      (b = true ↔ i.head.kind = first ∧ (i.token 1).kind = second) ∧ o = i := by
  refine (onTokens_reads fun t => ?_).mono ?_
  · unfold TokenStream.peekPair
    split <;> exact ⟨_, rfl⟩
  · rintro i b o ⟨⟨s, standing, rfl⟩, rfl⟩
    have head := standing.upcoming 0
    have next := standing.upcoming 1
    unfold TokenStream.peekPair Place.head
    rw [head, next]
    refine ⟨?_, rfl⟩
    split <;> simp_all

theorem peekWhile_reads (start : TokenKind) (ask : TokenKind → Verdict) :
    Reads c (onTokens (·.peekWhile start ask)) fun i _ o => o = i := by
  refine (onTokens_reads fun t => ?_).mono fun _ _ _ => And.right
  unfold TokenStream.peekWhile
  split <;> exact ⟨_, rfl⟩

theorem now_reads : Reads c now fun i s o => s = i.now ∧ o = i :=
  fun s _ => ⟨.refl s, fun i standing _ => ⟨i, standing, standing.now, rfl⟩⟩

theorem since_reads (start : Span) :
    Reads c (since start) fun i s o => s = start.merge i.now ∧ o = i := by
  refine (now_reads.map start.merge).mono ?_
  rintro i s o ⟨t, rfl, rfl, rfl⟩
  exact ⟨rfl, rfl⟩

theorem quietScopes_reads :
    Reads c scopes fun i s o => (c.dialect = .lua → s.Quiet) ∧ o = i :=
  fun s _ => ⟨.refl s, fun i standing _ => ⟨i, standing, standing.quiet, rfl⟩⟩

theorem ownedScopes_reads : Reads c scopes fun i s o => s.Owned c.Names ∧ o = i :=
  fun s _ => ⟨.refl s, fun i standing _ => ⟨i, standing, standing.owned, rfl⟩⟩

theorem scopes_reads : Reads c scopes fun i _ o => o = i :=
  quietScopes_reads.mono fun _ _ _ => And.right

theorem insideLoop_reads : Reads c insideLoop fun i _ o => o = i := by
  refine (scopes_reads.map _).mono ?_
  rintro i b o ⟨s, _, still⟩
  exact still

theorem onScopes_reads {f : ScopeStack → ScopeStack}
    (moves : ∀ s : Session, s.Moves { s with scopes := f s.scopes })
    (quiet : c.dialect = .lua → ∀ s : ScopeStack, s.Quiet → (f s).Quiet)
    (owned : ∀ s : ScopeStack, s.Owned c.Names → (f s).Owned c.Names) :
    Reads c (onScopes f) fun i _ o => o = i :=
  fun s _ => ⟨moves s, fun i standing _ => ⟨i,
    ⟨fun lua => quiet lua _ (standing.quiet lua), owned _ standing.owned, standing.now,
      standing.ahead, standing.final, standing.intact⟩, rfl⟩⟩

/-! ## Recording -/

theorem record_ends (d : Diagnostic) (s : Session) :
    Ends (record d s) fun _ s' => s.log.HasRoom ∧ s' = { s with log := s.log.push d } := by
  unfold record
  by_cases room : s.log.HasRoom
  · rw [ErrorLog.report_of_hasRoom room]
    exact ⟨room, rfl⟩
  · rw [ErrorLog.report_of_not_hasRoom room]
    simp [Ends, ErrorLog.push]

theorem record_reads (d : Diagnostic) : Reads c (record d) never := by
  intro s _
  refine (record_ends d s).mono ?_
  rintro _ _ ⟨room, rfl⟩
  refine ⟨.report d room, fun i _ clean => ?_⟩
  simp [ErrorLog.push] at clean

theorem recordAll_ends (errors : List LexicalError) (s : Session) :
    Ends (recordAll errors s) fun _ s' =>
      Session.Moves { s with tokens := { s.tokens with pending := errors ++ s.tokens.pending } } s'
        ∧ (s'.log.diagnostics.size = s.log.diagnostics.size → errors = [] ∧ s' = s) := by
  induction errors generalizing s with
  | nil => exact ⟨.refl s, fun _ => ⟨rfl, rfl⟩⟩
  | cons e rest inductionHypothesis =>
    unfold recordAll
    refine (record_ends _ s).bind ?_
    rintro _ _ ⟨room, rfl⟩
    refine (inductionHypothesis _).mono ?_
    rintro _ s' ⟨moves, _⟩
    refine ⟨.trans (Session.Moves.note rfl room) moves, fun same => ?_⟩
    have more := moves.size_le
    simp only [ErrorLog.push, Array.size_push] at more
    omega

/-- Where some of the pending errors are recorded and nothing more, there were none of them. -/
theorem drain_ends {f : TokenStream → List LexicalError × TokenStream}
    (splits : ∀ t, ∃ cut, f t = (t.pending.take cut, { t with pending := t.pending.drop cut }))
    (s : Session) : Ends ((do recordAll (← onTokens f)) s) fun _ s' => s.Moves s' ∧
      (s'.log.diagnostics.size = s.log.diagnostics.size → (f s.tokens).1 = [] ∧ s' = s) := by
  obtain ⟨cut, split⟩ := splits s.tokens
  have taken : Ends (onTokens f s) fun errors s' => errors = s.tokens.pending.take cut ∧
      s' = { s with tokens := { s.tokens with pending := s.tokens.pending.drop cut } } := by
    simp [Ends, onTokens, split]
  refine taken.bind ?_
  rintro _ _ ⟨rfl, rfl⟩
  refine (recordAll_ends _ _).mono ?_
  rintro _ s' ⟨moves, quiet⟩
  simp only [List.take_append_drop] at moves
  refine ⟨moves, fun clean => ?_⟩
  obtain ⟨none, rfl⟩ := quiet clean
  have all := List.take_append_drop cut s.tokens.pending
  rw [none, List.nil_append] at all
  exact ⟨by rw [split, none], by rw [all]⟩

/-- Recording errors leaves a clean reading where it is. -/
theorem drain_reads {f : TokenStream → List LexicalError × TokenStream}
    (splits : ∀ t, ∃ cut, f t = (t.pending.take cut, { t with pending := t.pending.drop cut })) :
    Reads c (do recordAll (← onTokens f)) fun i _ o => o = i := by
  intro s _
  refine (drain_ends splits s).mono ?_
  rintro _ s' ⟨moves, none⟩
  refine ⟨moves, fun i standing clean => ⟨i, ?_, rfl⟩⟩
  obtain ⟨-, rfl⟩ := none clean
  exact standing

theorem syncBefore_reads (p : Position) : Reads c (syncBefore p) fun i _ o => o = i :=
  drain_reads fun _ => ⟨_, rfl⟩

theorem complain_reads (cause : Cause) (span : Span) : Reads c (complain cause span) never := by
  refine ((syncBefore_reads _).bind fun _ => record_reads _).mono ?_
  rintro _ _ _ ⟨_, _, _, recorded⟩
  exact recorded

/-- A parser that complains if something is wrong, and goes on in any case. -/
theorem unless_reads {P : Prop} [Decidable P] {cause : Cause} {span : Span}
    {k : Unit → Parser α} {R : Place c → α → Place c → Prop} (h : Reads c (k ()) R) :
    Reads c (if P then complain cause span >>= k else k ()) fun i a o => ¬ P ∧ R i a o := by
  refine (Reads.ite (fun _ => (complain_reads cause span).bind fun _ => h) fun _ => h).mono ?_
  rintro i a o (⟨_, _, _, ⟨⟩, _⟩ | right)
  exact right

/-- Nothing is read cleanly after a complaint. -/
theorem complain_bind_reads {cause : Cause} {span : Span} {k : Unit → Parser α}
    {R : Place c → α → Place c → Prop} (h : Reads c (k ()) R) :
    Reads c (complain cause span >>= k) never := by
  refine ((complain_reads cause span).bind fun _ => h).mono ?_
  rintro _ _ _ ⟨_, _, ⟨⟩, _⟩

theorem syncBefore_ends (p : Position) (s : Session) :
    Ends (syncBefore p s) fun _ _ => True :=
  Ends.bind (Q := fun _ _ => True) trivial fun errors s' _ =>
    (recordAll_ends errors s').mono fun _ _ _ => trivial

theorem complain_ends (cause : Cause) (span : Span) (s : Session) :
    Ends (complain cause span s) fun _ s' => 0 < s'.log.diagnostics.size := by
  refine (syncBefore_ends _ s).bind ?_
  rintro _ s' _
  refine (record_ends _ s').mono ?_
  rintro _ _ ⟨_, rfl⟩
  simp [ErrorLog.push]

/-- Whoever complains and stops the analysis has recorded why. -/
theorem complain_throw_ends (cause : Cause) (span : Span) (abort : Abort) (s : Session)
    (T : α → Session → Prop) : Ends ((do complain cause span; throw abort : Parser α) s) T :=
  (complain_ends cause span s).bind fun _ _ recorded => recorded

theorem complain_throw_reads (cause : Cause) (span : Span) (abort : Abort) (k : β → Parser α) :
    Reads c (do complain cause span; k (← throw abort)) never :=
  fun s _ => complain_throw_ends cause span abort s _

theorem tooDeep_reads : Reads c (tooDeep : Parser α) never := by
  intro s settings
  refine Ends.bind (Q := fun _ s' => s'.settings = c.settings) settings fun _ s' settings => ?_
  exact (head_reads s' settings).bind fun span s'' _ =>
    complain_throw_ends .tooManyLevels span .tooDeep s'' _

/-! ## Taking tokens -/

theorem next_reads : Reads c next fun i t o => Takes t.kind i t o := by
  intro s _
  let t := s.tokens.next.1
  let s₁ : Session := { s with tokens := s.tokens.next.2 }
  have taken : Ends (onTokens (·.next) s) fun token s' => token = t ∧ s' = s₁ := ⟨rfl, rfl⟩
  have leads {s' : Session} (moves : s₁.Moves s')
      (quiet : s'.log.diagnostics.size = s.log.diagnostics.size →
        (t.kind ≠ .eof → (s₁.tokens.takeErrorsBefore t.span.stop).1 = []) ∧ s' = s₁) :
      Leads s (fun i t o => Takes (c := c) t.kind i t o) t s' := by
    refine ⟨.trans (.take s) moves, fun i standing clean => ?_⟩
    obtain ⟨none, rfl⟩ := quiet clean
    obtain ⟨stands, takes⟩ := standing.next none
    exact ⟨i.tail, stands, takes⟩
  unfold next
  simp only [← bind_assoc]
  refine taken.bind ?_
  rintro _ _ ⟨rfl, rfl⟩
  split
  next eof =>
    refine (drain_ends (fun t => ⟨t.pending.length, by simp [TokenStream.takeErrors]⟩) s₁).bind ?_
    rintro _ s' ⟨moves, quiet⟩
    exact leads moves fun clean => ⟨fun more => absurd eof more, (quiet clean).2⟩
  next =>
    refine (drain_ends (fun t => ⟨_, rfl⟩) s₁).bind ?_
    rintro _ s' ⟨moves, quiet⟩
    exact leads moves fun clean => ⟨fun _ => (quiet clean).1, (quiet clean).2⟩

theorem expect_reads (kind : TokenKind) : Reads c (expect kind) (Takes kind) := by
  refine (next_reads.bind fun t => unless_reads (.pure t)).mono ?_
  rintro i t o ⟨_, _, taken, right, rfl, rfl⟩
  exact Decidable.not_not.1 right ▸ taken

theorem expectName_reads : Reads c expectName (Takes .identifier) := by
  refine (next_reads.bind fun t => unless_reads (.pure t)).mono ?_
  rintro i t o ⟨_, _, taken, right, rfl, rfl⟩
  exact Decidable.not_not.1 right ▸ taken

theorem accept_reads (kind : TokenKind) : Reads c (accept kind) fun i taken o =>
    (∃ t, taken = some t ∧ Takes kind i t o) ∨ (taken = none ∧ o = i ∧ i.head.kind ≠ kind) := by
  refine (peek_reads.bind fun k => .ite (fun _ => next_reads.map some) fun _ => .pure none).mono ?_
  rintro i taken o ⟨_, _, ⟨rfl, rfl⟩, ⟨same, t, rfl, taken⟩ | ⟨other, rfl, rfl⟩⟩
  · exact .inl ⟨t, rfl, taken.of_kind same⟩
  · exact .inr ⟨rfl, rfl, other⟩

theorem accepts_reads (kind : TokenKind) : Reads c (accepts kind) fun i taken o =>
    (taken = true ∧ ∃ t, Takes kind i t o) ∨ (taken = false ∧ o = i ∧ i.head.kind ≠ kind) := by
  refine ((accept_reads kind).map (·.isSome)).mono ?_
  rintro i taken o ⟨_, rfl, ⟨t, rfl, takes⟩ | ⟨rfl, rfl, other⟩⟩
  · exact .inl ⟨rfl, t, takes⟩
  · exact .inr ⟨rfl, rfl, other⟩

/-- A parser that goes one way if it takes a token of a kind, and another way if there is none. -/
theorem accepts_bind_reads (kind : TokenKind) {p q : Parser α} {R S : Place c → α → Place c → Prop}
    (h : Reads c p R) (k : Reads c q S) :
    Reads c (do if ← accepts kind then p else q) fun i a o =>
      (∃ t m, Takes kind i t m ∧ R m a o) ∨ (i.head.kind ≠ kind ∧ S i a o) := by
  refine ((accepts_reads kind).bind fun taken => .ite (P := taken = true) (fun _ => h)
    fun _ => k).mono ?_
  rintro i a o ⟨_, m, ⟨rfl, t, takes⟩ | ⟨rfl, rfl, other⟩, ⟨way, related⟩ | ⟨way, related⟩⟩
  · exact .inl ⟨t, m, takes, related⟩
  · exact absurd rfl way
  · cases way
  · exact .inr ⟨other, related⟩

theorem accept_bind_reads (kind : TokenKind) {k : Option Token → Parser α}
    {R S : Place c → α → Place c → Prop} (some : ∀ t, Reads c (k (some t)) fun j a o =>
      ∀ i, Takes kind i t j → R i a o) (none : Reads c (k none) S) :
    Reads c (accept kind >>= k) fun i a o => R i a o ∨ (i.head.kind ≠ kind ∧ S i a o) := by
  refine Reads.mono ((accept_reads kind).bind (T := fun taken j a o => ∀ i,
    ((∃ t, taken = .some t ∧ Takes kind i t j) ∨ (taken = .none ∧ j = i ∧ i.head.kind ≠ kind)) →
      R i a o ∨ (i.head.kind ≠ kind ∧ S i a o)) fun taken => ?_) ?_
  · cases taken with
    | some t =>
      refine (some t).mono ?_
      rintro j a o related i (⟨_, equality, taken⟩ | ⟨⟨⟩, _⟩)
      cases equality
      exact .inl (related i taken)
    | none =>
      refine none.mono ?_
      rintro j a o related i (⟨_, ⟨⟩, _⟩ | ⟨_, rfl, other⟩)
      exact .inr ⟨other, related⟩
  · rintro i a o ⟨taken, j, accepted, related⟩
    exact related i accepted

theorem accepts_join_reads (kind : TokenKind) {p q : Parser α} {k : α → Parser β}
    {R S : Place c → α → Place c → Prop} {T : α → Place c → β → Place c → Prop}
    (first : Reads c p R) (second : Reads c q S) (rest : ∀ a, Reads c (k a) (T a)) :
    Reads c (do if ← accepts kind then p >>= k else q >>= k) fun i b o => ∃ a m,
      ((∃ t j, Takes kind i t j ∧ R j a m) ∨ (i.head.kind ≠ kind ∧ S i a m)) ∧ T a m b o := by
  refine (accepts_bind_reads kind (first.bind rest) (second.bind rest)).mono ?_
  rintro i b o (⟨t, j, taken, a, m, related, further⟩ | ⟨other, a, m, related, further⟩)
  · exact ⟨a, m, .inl ⟨t, j, taken, related⟩, further⟩
  · exact ⟨a, m, .inr ⟨other, related⟩, further⟩

/-- A comma asks for another round of a loop, and without one the loop ends. -/
def AfterComma (x : σ) (i : Place c) (next : ForInStep σ) (o : Place c) : Prop :=
  (∃ t, next = .yield x ∧ Takes .comma i t o) ∨ (next = .done x ∧ o = i)

theorem afterComma_reads (x : σ) :
    Reads c (do if ← accepts .comma then return .yield x else return .done x) (AfterComma x) := by
  refine (accepts_bind_reads .comma (.pure (ForInStep.yield x)) (.pure (ForInStep.done x))).mono ?_
  rintro i next o (⟨t, _, comma, rfl, rfl⟩ | ⟨_, rfl, rfl⟩)
  · exact .inl ⟨t, rfl, comma⟩
  · exact .inr ⟨rfl, rfl⟩

end LuaChunk.Parser
