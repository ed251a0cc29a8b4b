import LuaChunk.Proofs.Spelling.Basic
import LuaChunk.Proofs.Tree.Statements

/-!
# Statements inside phrases

Wherever a statement stands in a tree that tokens spell, it is spelled by tokens, or is the label
that a block gets for a `continue`.
-/

set_option autoImplicit false

namespace LuaChunk

variable {c : Text}

/-- Tokens spell each of the statements, but for labels of `continue`s. -/
def StatsSpelled (c : Text) (stats : List Stat) : Prop :=
  ∀ s ∈ stats, (∃ depth span, s = .label (continueLabel depth) span) ∨
    ∃ i o : Place c, Spells i (.stat s) o

section StatsSpelled

variable {a b : List Stat} {s : Stat}

@[simp]
theorem statsSpelled_nil : StatsSpelled c [] := nofun

@[simp]
theorem statsSpelled_append : StatsSpelled c (a ++ b) ↔ StatsSpelled c a ∧ StatsSpelled c b :=
  List.forall_mem_append

@[simp]
theorem statsSpelled_cons : StatsSpelled c (s :: a) ↔
    ((∃ depth span, s = .label (continueLabel depth) span) ∨
      ∃ i o : Place c, Spells i (.stat s) o) ∧ StatsSpelled c a :=
  List.forall_mem_cons

theorem StatsSpelled.capped {α : Type} {f : α → List Stat} {xs : List α} {cap : Option Nat}
    (h : StatsSpelled c (xs.flatMap f)) : StatsSpelled c ((Parser.capped cap xs).flatMap f) := by
  intro s membership
  rw [List.mem_flatMap] at membership
  obtain ⟨x, among, inside⟩ := membership
  exact h s (List.mem_flatMap.2 ⟨x, Parser.mem_of_mem_capped among, inside⟩)

end StatsSpelled

/-- The statements inside a phrase.  An assignment has its first target before it. -/
def Phrase.statements : Phrase → List Stat
  | .exp e | .prefixExp e | .table e | .step e | .parent e => e.statements
  | .exps es | .args es | .initializer es | .targets es => expsStatements es
  | .field f => keysStatements [f.1] ++ f.2.statements
  | .openFields fs | .fields fs =>
    keysStatements (fs.map (·.1)) ++ expsStatements (fs.map (·.2))
  | .names _ | .params _ _ | .attr _ | .attrNames _ _ => []
  | .functionBody _ body => body.statements
  | .assignRest _ _ s | .assignOrCall s | .stat s | .moocStat s | .classStat _ _ s => s :: s.inner
  | .loopBody b | .block b | .caseBody b => b.statements
  | .branch b => b.statements
  | .branches bs | .otherwise bs | .cases bs | .defaultCase bs => branchesStatements bs
  | .dottedName f | .functionName _ f => f.target.statements
  | .functionStat _ _ _ a => a.statements
  | .stats ss => statsStatements ss
  | .returns rs => expsStatements (rs.getD [])
  | .members _ ms => assignmentsStatements ms

/-- What is said of the statements inside a phrase that tokens spell. -/
def Phrase.StatsSpelled (c : Text) : Phrase → Prop
  | .assignRest _ first s => LuaChunk.StatsSpelled c first.statements →
      LuaChunk.StatsSpelled c s.inner
  | .assignOrCall s | .stat s | .moocStat s | .classStat _ _ s => LuaChunk.StatsSpelled c s.inner
  | p => LuaChunk.StatsSpelled c p.statements

theorem KeyList.statements {source : ImportSource} {names : List Param} {i o : Place c}
    {values : List Exp} {isFirst : Bool} (h : KeyList source names i values isFirst o) :
    expsStatements values = [] := by
  induction h with
  | start => rfl
  | key _ _ _ inductionHypothesis => simp_all
  | @none _ isFirst _ _ _ _ _ inductionHypothesis => cases isFirst <;> simp_all

theorem Keys.statements {source : ImportSource} {names : List Param} {i o : Place c}
    {values : List Exp} (h : Keys source names i values o) : expsStatements values = [] := by
  cases h with
  | key list _ => simpa using list.statements
  | @none _ isFirst _ list => cases isFirst <;> simpa using list.statements

theorem Parser.statements_importWhole (source : ImportSource) (word token : Token) :
    (importWhole source word token).statements = [] := by
  cases source <;> simp [importWhole]

theorem Parser.inner_exported (s : Stat) : (exported s).inner = s.inner := by
  cases s <;> simp [exported]

theorem Spells.statsSpelled {p : Phrase} {i o : Place c} (h : Spells i p o) :
    p.StatsSpelled c := by
  induction h with
  | table _ _ _ fs =>
    simp only [Phrase.StatsSpelled, Phrase.statements, expsStatements_eq, keysStatements_eq,
      statsSpelled_append, Exp.statements] at fs ⊢
    exact ⟨fs.1.capped, fs.2.capped⟩
  | compound => simp_all [Phrase.StatsSpelled, Phrase.statements, Assignment.compound]
  | bare => simp [Phrase.StatsSpelled, Parser.implicitLocals]
  | dottedName => simp_all [Phrase.StatsSpelled, Phrase.statements, Parser.FunctionName.member]
  | methodName => simp_all [Phrase.StatsSpelled, Phrase.statements, Parser.FunctionName.member]
  | functionStat => simp_all [Phrase.StatsSpelled, Phrase.statements, Parser.FunctionName.named]
  -- A statement is known to be spelled where it comes into a block.
  | @moreStats _ ss _ s _ _ spelled before inside =>
    have whole : LuaChunk.StatsSpelled c (s :: s.inner) :=
      statsSpelled_cons.2 ⟨.inr ⟨_, _, spelled⟩, inside⟩
    simp only [Phrase.StatsSpelled, Phrase.statements, statsStatements_eq] at before ⊢
    rw [List.flatMap_append, statsSpelled_append]
    refine ⟨before, ?_⟩
    split
    · exact statsSpelled_nil
    · simpa using whole
  | classStat => simp_all [Phrase.StatsSpelled, Phrase.statements, Parser.classLocal]
  | exportStat => simp_all [Phrase.StatsSpelled, Parser.inner_exported]
  | importWhole => simp [Phrase.StatsSpelled, Parser.statements_importWhole]
  | importKeys _ _ _ _ _ _ keys =>
    have none := keys.statements
    rw [expsStatements_eq] at none
    simp [Phrase.StatsSpelled, none]
  | _ => simp_all [Phrase.StatsSpelled, Phrase.statements, Exp.statements_switchCase]

end LuaChunk
