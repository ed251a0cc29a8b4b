import LuaChunk.Proofs.Spelling.Progress
import LuaChunk.Proofs.Tree.Parts

/-!
# Where phrases stand

The places of a text are in source order, and so are the phrases that are spelled between them.
-/

set_option autoImplicit false

namespace LuaChunk

variable {c : Text} {i j k o : Place c}

/-! ## Places in source order -/

/-- What has been taken at the place comes before what is ahead. -/
@[grind =]
def Place.Taken (i : Place c) : Prop :=
  i.now.start ≤ i.now.stop ∧ i.now.stop ≤ i.head.span.start

/-- The place is right after a token. -/
def Place.Reached (i : Place c) : Prop := ∃ t ∈ c.tokens, t.span = i.now

/-- At least one token lies between two places. -/
@[grind]
structure Place.Past (i o : Place c) : Prop where
  start_le : i.head.span.start ≤ o.now.start
  start_lt : o.now.start < o.now.stop
  stop_le : o.now.stop ≤ o.head.span.start
  reached : o.Reached

theorem Place.Past.trans (h : i.Past j) (g : j.Past o) : i.Past o := by grind

attribute [grind →] UnaryOp.ne_eof BinaryOp.ne_eof BinaryOp.ofToken?_of_compound
  ImportSource.OfToken.ne_eof

attribute [grind .] Dialect.opening_ne_eof Dialect.closing_ne_eof Dialect.functionWord_ne_eof

@[grind →]
theorem Takes.span {kind : TokenKind} {t : Token} (h : Takes kind i t o) :
    t.span = ⟨i.head.span.start, o.now.stop⟩ := by
  rw [h.now, h.token_eq]

@[grind →]
theorem Takes.past {kind : TokenKind} {t : Token} (h : Takes kind i t o) (more : kind ≠ .eof) :
    i.Past o := by
  have ahead := h.ahead more
  have among : o.head ∈ o.ahead ++ [c.final] := by
    cases tokens : o.ahead <;> simp [Place.head, Place.token, tokens]
  have ordered := c.ordered.sublist (i.suffix.sublist.append_right [c.final])
  rw [ahead, List.cons_append, List.pairwise_cons] at ordered
  have taken : t ∈ c.tokens := i.mem (by simp [ahead])
  have inside := c.start_lt t taken
  have after := ordered.1 _ among
  have now := h.now
  have token := h.token_eq
  have reached : o.Reached := ⟨t, taken, now.symm⟩
  constructor <;> grind

@[grind →]
theorem TakesIf.past {p : Prop} [Decidable p] {kind : TokenKind} (h : TakesIf p kind i o)
    (more : kind ≠ .eof) : ¬ p ∧ o = i ∨ p ∧ i.Past o := by
  unfold TakesIf at h
  split at h
  next holds =>
    obtain ⟨t, takes⟩ := h
    exact .inr ⟨holds, takes.past more⟩
  next fails => exact .inl ⟨fails, h⟩

theorem KeyList.past {source : ImportSource} {names : List Param} {values : List Exp}
    {isFirst : Bool} (h : KeyList source names i values isFirst o) : o = i ∨ i.Past o := by
  induction h with
  | start => exact .inl rfl
  | key _ key comma inductionHypothesis =>
    have := key.past (by decide)
    have := comma.past (by decide)
    grind [Place.Past.trans]
  | none _ comma inductionHypothesis =>
    have := comma.past (by decide)
    grind [Place.Past.trans]

@[grind →]
theorem Keys.past {source : ImportSource} {names : List Param} {values : List Exp}
    (h : Keys source names i values o) : o = i ∨ i.Past o := by
  cases h with
  | key list key =>
    have := list.past
    have := key.past (by decide)
    grind [Place.Past.trans]
  | none list => exact list.past

@[grind →]
theorem Spells.same_or_past {p : Phrase} (h : Spells i p o) : o = i ∨ i.Past o := by
  induction h with
  | _ =>
    grind [→ Place.Past.trans]

/-- A phrase that always takes tokens ends past the place where it begins. -/
theorem Spells.past {p : Phrase} (h : Spells i p o) (takes : 0 < p.least) : i.Past o := by
  refine h.same_or_past.resolve_left fun same => ?_
  have length := h.length
  rw [same] at length
  omega

/-! ## Spans between places -/

/-- The span lies between two places: after the tokens before the first and within those before the
second. -/
@[grind =]
def Span.Inside (i o : Place c) (s : Span) : Prop :=
  s.Between i.head.span.start o.now.stop ∧ s.stop ≤ o.head.span.start

attribute [grind =] Span.merge Span.upTo

/-- The spans lie between two places, one after the other. -/
@[grind]
structure Place.Spread (i o : Place c) (ss : List Span) : Prop where
  inside : ∀ s ∈ ss, s.Inside i o
  ordered : ss.Pairwise fun a b => a.stop ≤ b.start

theorem Place.Spread.concat {ss : List Span} {s : Span} (h : i.Spread j ss) (g : s.Inside j o)
    (before : j = i ∨ i.Past j) (after : j.Past o) : i.Spread o (ss ++ [s]) where
  inside := by
    have inside := h.inside
    grind
  ordered := by
    have inside := h.inside
    rw [List.pairwise_append]
    refine ⟨h.ordered, List.pairwise_singleton _ _, ?_⟩
    grind

theorem Place.Spread.mono {ss : List Span} (h : i.Spread j ss) (after : j.Past o) :
    i.Spread o ss where
  inside := by
    have inside := h.inside
    grind
  ordered := h.ordered

@[grind →]
theorem Place.Spread.exp_inside {es : List Exp} {e : Exp} (h : i.Spread o (es.map (·.span)))
    (membership : e ∈ es) : e.span.Inside i o :=
  h.inside _ (List.mem_map_of_mem membership)

/-- The condition of a case stands among the values after the keyword. -/
theorem Place.Spread.switchCase {t : Token} {values : List Exp}
    (h : i.Spread o (values.map (·.span))) (word : Takes .kwCase j t i) (after : o = i ∨ i.Past o) :
    let condition := (Exp.switchCase? values).getD (.bad t.span)
    condition.span.Between t.span.start o.now.stop ∧
      ((∀ e ∈ values, Nested e.parts) → Nested condition.parts) := by
  have first := word.past (by decide)
  exact Exp.switchCase_between t.span (by grind) h.ordered (by grind)

/-! ## Spans of phrases -/

attribute [grind unfold] Phrase.least

attribute [grind =] Exp.span Stat.span? Exp.field Place.blockSpan Parser.FunctionName.member
  Parser.implicitLocals Parser.exported

attribute [grind →] Spells.length

/-- The body of a branch may reach up to the next token, unless a brace closes it. -/
@[grind =]
def Span.BranchBody (i o : Place c) (s : Span) : Prop :=
  s.Between i.head.span.start o.head.span.start ∧ (c.dialect = .mooc → s.stop ≤ o.now.stop)

/-- Where the parts of a phrase stand that is spelled between two places. -/
@[grind =]
def Phrase.Stands (i o : Place c) : Phrase → Prop
  | .exp e | .prefixExp e | .table e => e.span = ⟨i.head.span.start, o.now.stop⟩
  | .exps es => i.Spread o (es.map (·.span))
  | .args es | .initializer es | .targets es => ∀ e ∈ es, e.span.Inside i o
  | .returns rs => ∀ e ∈ rs.getD [], e.span.Inside i o
  | .field f => (∀ key, f.1 = some key → key.span.Inside i o) ∧ f.2.span.Inside i o
  | .openFields fs | .fields fs => ∀ f ∈ fs,
    (∀ key, f.1 = some key → key.span.Inside i o) ∧ f.2.span.Inside i o
  | .names ns | .params ns _ | .attrNames ns _ => ∀ n ∈ ns, n.span.Inside i o
  | .functionBody _ body => (∀ n ∈ body.params, n.span.Inside i o) ∧ body.block.span.Inside i o
  | .step e => e.span = .synthetic ∨ e.span.Inside i o
  | .dottedName f | .functionName _ f => f.target.span = ⟨i.head.span.start, o.now.stop⟩
  | .functionStat start _ _ a => a.span = start.merge o.now
  | .assignRest start _ s | .classStat start _ s => s.span? = some (start.merge o.now)
  | .assignOrCall s | .stat s | .moocStat s => ∀ span, s.span? = some span → span.Inside i o
  | .stats ss => i.Spread o (ss.filterMap (·.span?))
  | .block b => (o ≠ i → i.now.start < i.head.span.start) →
    b.span.Between i.head.span.start o.head.span.start
  | .loopBody b => b.span.Inside i o
  | .caseBody b => b.span.Between i.head.span.start o.head.span.start
  | .branch b => b.condition.span.Inside i o ∧ b.body.span.BranchBody i o
  | .branches bs | .otherwise bs => ∀ b ∈ bs,
    b.condition.span.Inside i o ∧ b.body.span.BranchBody i o
  | .cases bs | .defaultCase bs => ∀ b ∈ bs,
    b.condition.span.Inside i o ∧ b.body.span.Between i.head.span.start o.head.span.start
  | .parent e => i.Taken → e.span.Between i.now.start o.now.stop
  | .members _ ms => ∀ a ∈ ms, a.span.Inside i o
  | .attr _ => True

/-- The parts of a phrase stand among the tokens that spell it. -/
theorem Spells.stands {p : Phrase} (h : Spells i p o) : p.Stands i o := by
  induction h with
  | compound => rfl
  | bare => rfl
  | @moreCases _ bs _ t _ vs _ b _ list word values _ before spread last =>
    have condition := (spread.switchCase word values.same_or_past).1
    refine List.forall_mem_append.2 ⟨fun x earlier => ?_, List.forall_mem_singleton.2 ⟨?_, ?_⟩⟩
    · have := before x earlier
      grind
    · grind
    · grind
  | noStats => exact ⟨nofun, .nil⟩
  | @moreStats _ _ _ s _ ss stat before last =>
    rw [Phrase.Stands, List.filterMap_append]
    cases found : s.span? with
    | none =>
      have none : (if s.isEmpty then [] else [s]).filterMap (·.span?) = [] := by
        split <;> simp [found]
      rw [none, List.append_nil]
      exact before.mono (stat.past Nat.one_pos)
    | some span =>
      have one : (if s.isEmpty then [] else [s]).filterMap (·.span?) = [span] := by
        cases s <;> simp_all [Stat.isEmpty, Stat.span?]
      rw [one]
      exact before.concat (last span found) ss.same_or_past (stat.past Nat.one_pos)
  | @exportStat _ _ _ s => cases s <;> grind
  -- Any other span is that of a token, or reaches from the first token of the phrase to the last.
  | _ => grind

end LuaChunk
