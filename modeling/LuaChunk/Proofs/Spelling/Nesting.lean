import LuaChunk.Proofs.Spelling.Spans

/-!
# Nesting of spelled trees

In a tree that tokens spell, each part stands inside what it is part of.
-/

set_option autoImplicit false

namespace LuaChunk

variable {c : Text} {i j k o : Place c}

@[simp, grind =]
theorem ImportSource.span_member (source : ImportSource) (key : String) (span : Span) :
    (source.member key span).span = span := rfl

@[simp, grind .]
theorem ImportSource.nested_member (source : ImportSource) (key : String) (span : Span) :
    Nested (source.member key span).parts := by
  cases source <;> grind [member, Call.require, Exp.span, paramsParts]

theorem KeyList.between {source : ImportSource} {names : List Param} {values : List Exp}
    {isFirst : Bool} (h : KeyList source names i values isFirst o) (taken : i.Taken) :
    ∀ e ∈ values, e.span.Between i.now.start o.now.stop ∧ Nested e.parts := by
  induction h with
  | start => exact nofun
  | key list key comma inductionHypothesis =>
    have := list.past
    have := key.past (by decide)
    have := comma.past (by decide)
    grind
  | @none _ isFirst _ _ _ list comma inductionHypothesis =>
    have := list.past
    have := comma.past (by decide)
    cases isFirst <;> grind

theorem Keys.between {source : ImportSource} {names : List Param} {values : List Exp}
    (h : Keys source names i values o) (taken : i.Taken) :
    ∀ e ∈ values, e.span.Between i.now.start o.now.stop ∧ Nested e.parts := by
  cases h with
  | key list key =>
    have := list.past
    have := key.past (by decide)
    have := list.between taken
    grind
  | @none _ isFirst _ list =>
    have := list.past
    have := list.between taken
    cases isFirst <;> grind

/-- What is said of the parts inside a phrase that is spelled between two places. -/
@[grind =]
def Phrase.Nests (i o : Place c) : Phrase → Prop
  | .exp e | .prefixExp e | .table e | .step e | .parent e => Nested e.parts
  | .exps es | .args es | .initializer es | .targets es => ∀ e ∈ es, Nested e.parts
  | .returns rs => ∀ e ∈ rs.getD [], Nested e.parts
  | .field f => (∀ key, f.1 = some key → Nested key.parts) ∧ Nested f.2.parts
  | .openFields fs | .fields fs =>
    ∀ f ∈ fs, (∀ key, f.1 = some key → Nested key.parts) ∧ Nested f.2.parts
  | .names _ | .params _ _ | .attr _ | .attrNames _ _ => True
  | .functionBody _ body => Nested body.block.parts
  | .assignRest start first s => i.Taken → start.start = first.span.start →
    first.span.start ≤ first.span.stop → first.span.stop ≤ i.now.stop → Nested first.parts →
    Nested s.parts
  | .functionStat start _ _ a => start.start ≤ i.head.span.start → Nested a.parts
  | .classStat start _ s => start.start ≤ i.head.span.start → Nested s.parts
  | .assignOrCall s | .stat s | .moocStat s => Nested s.parts
  | .stats ss => ∀ s ∈ ss, Nested s.parts
  | .block b => (o ≠ i → i.now.start < i.head.span.start) → Nested b.parts
  | .loopBody b | .caseBody b => Nested b.parts
  | .branch b => Nested b.condition.parts ∧ Nested b.body.parts
  | .branches bs | .otherwise bs | .cases bs | .defaultCase bs =>
    ∀ b ∈ bs, Nested b.condition.parts ∧ Nested b.body.parts
  | .dottedName f | .functionName _ f => Nested f.target.parts
  | .members _ ms => ∀ a ∈ ms, Nested a.parts

attribute [grind →] Spells.stands

theorem Spells.nests {p : Phrase} (h : Spells i p o) : p.Nests i o := by
  induction h with
  | table _ fields =>
    have stands := fields.stands
    rw [Phrase.Nests, Exp.parts, nested_append, nested_keysParts, nested_expsParts]
    refine ⟨fun key membership => ?_, fun value membership => ?_⟩
    · obtain ⟨f, among, same⟩ := List.mem_map.1 (Parser.mem_of_mem_capped membership)
      grind
    · obtain ⟨f, among, rfl⟩ := List.mem_map.1 (Parser.mem_of_mem_capped membership)
      grind
  | compound =>
    rw [Phrase.Nests, Stat.parts, Assignment.compound]
    grind
  | bare _ _ targets =>
    have stands := targets.stands
    intro taken starts ordered before nested
    rw [Stat.parts, Parser.implicitLocals, Declaration.parts, nested_append, nested_paramsParts]
    refine ⟨fun p membership => ?_, nested_nil⟩
    obtain ⟨e, among, named⟩ := List.mem_filterMap.1 membership
    cases e <;> grind
  | functionStat _ _ name body target block =>
    intro before
    have place := name.stands
    have within := body.stands
    have := name.past Nat.one_pos
    rw [Assignment.parts_eq, nested_append, nested_expsParts, nested_expsParts]
    refine ⟨List.forall_mem_singleton.2 ⟨by grind, target⟩,
      List.forall_mem_singleton.2 ⟨by grind, ?_⟩⟩
    rw [Exp.parts, FunctionBody.parts_eq, nested_append, nested_cons, nested_paramsParts]
    refine ⟨fun p membership => ?_, by grind [Parser.FunctionName.named], block⟩
    grind [Parser.FunctionName.named]
  | ifStat => cases dialect : c.dialect <;> grind
  | guardStat =>
    simp [Phrase.Nests, Exp.negate] at *
    grind
  | moreCases _ word list _ before values body =>
    have condition := (Place.Spread.switchCase list.stands word list.same_or_past).2 values
    exact List.forall_mem_append.2 ⟨before, List.forall_mem_singleton.2 ⟨condition, body⟩⟩
  | @classStat start _ _ t _ n _ e l _ _ ms _ _ o kind word _ parent _ members _ nested each =>
    intro before
    have heading := parent.stands
    have placed := members.stands
    have := word.past (by grind)
    rw [Phrase.Nests] at nested
    have header : (start.merge o.now).Holds (n.span.merge l.now) := by grind
    have name : (n.span.merge l.now).Holds n.span := by grind
    have self : (n.span.merge l.now).Holds (Exp.name n.text n.span).span := name
    have table : (n.span.merge l.now).Holds (Exp.table [] [] n.span).span := name
    have inherited : (n.span.merge l.now).Holds e.span := by grind
    have inside : (start.merge o.now).Holds e.span := by grind
    have owned : ∀ a ∈ ms, (start.merge o.now).Holds a.span := by grind
    rw [Stat.parts, ClassDecl.parts, nested_append, nested_append, nested_append,
      nested_assignmentsParts]
    refine ⟨⟨⟨?_, ?_⟩, ?_⟩, fun a membership => ⟨owned a membership, each a membership⟩⟩
    · simp [header, self, table, keysParts, expsParts]
    · simp [inside, nested]
    · simp [Parser.classLocal, header, name, self, inherited, nested]
  | @exportStat _ _ _ s _ _ _ nested =>
    cases s with
    | assign => grind
    | _ => exact nested
  | importCall => grind [Call.require]
  | @importWhole _ _ _ _ _ _ _ _ _ _ source =>
    cases source <;> simp [Phrase.Nests, Parser.importWhole, Call.require] <;> grind
  | importKeys _ _ _ _ _ _ keys =>
    have := keys.between
    grind
  -- The parts of any other phrase are phrases between its own places.
  | _ => grind

end LuaChunk
