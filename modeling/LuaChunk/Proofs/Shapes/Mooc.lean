import LuaChunk.Analysis
import LuaChunk.Proofs.Shapes.Statement

/-!
# The shapes of whole chunks

What Mooc adds to Lua is read into plain trees, and these are well formed like all others.  So is
every chunk, with errors or without.
-/

set_option autoImplicit false

namespace LuaChunk.Parser

variable {c : Settings} {r : Rules}

theorem continueStat_yields : Yields c continueStat fun s => s.WellFormed c.fieldCap :=
  .andThen .next fun _ => .andThen .scopes fun _ => .andThen .insideLoop fun _ => .ite
    (fun _ => .andThen (.onScopes _) fun _ => .pure (by grind))
    fun _ => .andThen (.complain _ _) fun _ => .pure (by grind)

theorem deferStat_yields (h : r.Shapely c) :
    Yields c (deferStat r) fun s => s.WellFormed c.fieldCap := by
  refine .andThen .next fun _ => .andThen (.expect _) fun _ => .andThen .scopes fun _ => .ite
    (fun _ => .andThen (.complain _ _) fun _ => ?_) fun _ => ?_
  all_goals
    exact .bind (.within _ _ h.block) fun _ _ => .andThen closeBody_runs fun _ =>
      .ending (.since _) (by grind)

theorem guardBody_yields (h : r.Shapely c) :
    Yields c (guardBody r) fun b => b.WellFormed c.fieldCap :=
  .bind h.block fun _ holds => .andThen .scopes fun _ => .ite (fun _ => .andThen .now fun _ =>
    .andThen (.complain _ _) fun _ => .pure holds) fun _ => .pure holds

theorem guardStat_yields (h : r.Shapely c) :
    Yields c (guardStat r) fun s => s.WellFormed c.fieldCap := by
  refine .andThen .next fun _ => .bind (exp_yields h) fun condition asks => .andThen (.since _)
    fun span => .andThen (.expect _) fun _ => .andThen (.expect _) fun _ =>
    .bind (.within _ _ (guardBody_yields h)) fun body holds => .andThen (.expect _) fun _ =>
    .ending (.since _) fun _ => ?_
  have branch : Branch.WellFormed c.fieldCap ⟨condition.negate span, body⟩ := by grind
  simp [Stat.WellFormed, Conditional.WellFormed, branchesWellFormed, branch]

/-! ## Switch -/

theorem caseBody_yields (h : r.Shapely c) :
    Yields c (caseBody r) fun b => b.WellFormed c.fieldCap :=
  .andThen (.expect _) fun _ => .within _ _ h.block

theorem defaultCase_yields (h : r.Shapely c) :
    Yields c (defaultCase r) fun bs => ∀ b ∈ bs, b.WellFormed c.fieldCap := by
  refine .andThen (.accept _) fun word => ?_
  split
  · exact .map (caseBody_yields h) (by grind)
  · exact .pure (by grind)

theorem switchStat_yields (h : r.Shapely c) :
    Yields c (switchStat r) fun s => s.WellFormed c.fieldCap := by
  refine .andThen .next fun _ => .bind (exp_yields h) fun value _ => .andThen (.since _) fun _ =>
    .andThen (.expect _) fun _ => .bind (.loop
    (fun bs : Array Branch => ∀ b ∈ bs.toList, b.WellFormed c.fieldCap) (by grind) fun bs all => ?_)
    fun cases all => .bind (defaultCase_yields h) fun last others => .andThen (.expect _) fun _ =>
    .andThen (.since _) fun _ => .ending (.since _) (by grind)
  refine .andThen (.accept _) fun word => ?_
  split
  · refine .bind (expList_yields h) fun values holds => .map (caseBody_yields h) ?_
    have condition (span : Span) := Exp.wellFormed_switchCase span holds.2
    grind
  · exact .pure all

/-! ## Classes -/

theorem classMembers_yields (h : r.Shapely c) (owner : String) :
    Yields c (iterate #[] (moreMembers r owner))
      fun members => ∀ a ∈ members.toList, a.WellFormed c.fieldCap := by
  refine .loop (fun members : Array Assignment => ∀ a ∈ members.toList, a.WellFormed c.fieldCap)
    (by grind) fun members all => .andThen .peek fun kind => ?_
  split
  · exact .andThen .head fun _ => .map (functionStat_yields h _ _ _) (by grind)
  · exact .andThen .head fun _ => .map (functionStat_yields h _ _ _) (by grind)
  · refine .andThen .next fun _ => .bind (assignRest_yields h _ (by grind)) fun s _ => ?_
    split
    · exact .pure (by grind)
    · exact .pure all
  · exact .pure all

theorem parentClass_yields (kind : ClassKind) :
    Yields c (parentClass kind) fun e => e.WellFormed c.fieldCap := by
  refine .andThen (.accept _) fun colon => ?_
  split
  · exact .ite (fun _ => .andThen (.complain _ _) fun _ => .andThen .expectName fun _ =>
      .pure (by grind)) fun _ => .andThen .expectName fun _ => .pure (by grind)
  · exact .ending .now (by grind)

/-- The table of a class is assigned to its name, and its locals have one name each. -/
theorem classStat_yields (h : r.Shapely c) (start : Span) (isExported : Bool) :
    Yields c (classStat r start isExported) fun s => s.WellFormed c.fieldCap := by
  refine .andThen .next fun _ => .andThen .expectName fun _ => .bind (parentClass_yields _)
    fun parent holds => .andThen (.since _) fun _ => .andThen (.expect _) fun _ =>
    .bind (.within _ _ (classMembers_yields h _)) fun members all => .andThen (.expect _) fun _ =>
    .ending (.since _) fun span => ?_
  simp only [Stat.WellFormed, ClassDecl.WellFormed, Assignment.WellFormed, classLocal, expsWellFormed_iff, declarationsWellFormed_iff, assignmentsWellFormed_iff]
  refine ⟨⟨?_, ?_, ?_, ?_, ?_⟩, holds, ?_, all⟩
  · simp
  · simp
  · simp [Exp.isTarget]
  · simp [Exp.WellFormed]
  · simp [Exp.WellFormed, keysWellFormed, expsWellFormed]
  · simp [Declaration.WellFormed, expsWellFormed, Exp.WellFormed, holds]

/-! ## Imports and exports -/

theorem importSource_runs (token : Token) : Runs c (importSource token) :=
  .ite (fun _ => .done _) fun _ => .ite (fun _ => .done _) fun _ =>
    .andThen (.complain _ _) fun _ => .done _

/-- Keys are members of the source, and there is one for each name or reading stops. -/
theorem importKeys_yields (source : ImportSource) (names : List Param) (start : Span) :
    Yields c (importKeys source names start) fun values =>
      values.length = names.length ∧ ∀ v ∈ values, v.WellFormed c.fieldCap := by
  refine .bind (.loop (fun read : Array Exp × Bool => ∀ v ∈ read.1.toList, v.WellFormed c.fieldCap)
    (by grind) fun read all => ?_) fun read all => .andThen (.expect _) fun _ =>
    .ite (fun _ => .andThen (.since _) fun _ => .andThen (.complain _ _) fun _ => ?_) fun same =>
    .pure ⟨by simpa using same, all⟩
  · obtain ⟨values, isFirst⟩ := read
    have rest (values : Array Exp) (all : ∀ v ∈ values.toList, v.WellFormed c.fieldCap) :
        Yields c
          (do if ← accepts .comma then return .yield (values, false) else return .done (values, false))
          fun next : ForInStep (Array Exp × Bool) => ∀ v ∈ next.value.1.toList,
            v.WellFormed c.fieldCap :=
      .andThen (.accepts _) fun _ => .ite (fun _ => .pure all) fun _ => .pure all
    refine .andThen (.accept _) fun key => ?_
    split
    · exact .bind (P := fun vs => ∀ v ∈ vs.toList, v.WellFormed c.fieldCap) (.pure (by grind)) rest
    · refine .ite (fun _ => .andThen .now fun _ => ?_) fun _ => .bind (.pure all) rest
      exact .bind (P := fun vs => ∀ v ∈ vs.toList, v.WellFormed c.fieldCap) (.pure (by grind)) rest
  · exact .bind (P := fun _ => False) (.throw _) fun _ never => never.elim

/-- Without keys the source as a whole is the only value. -/
theorem importStat_yields : Yields c importStat fun s => s.WellFormed c.fieldCap := by
  refine .andThen .next fun keyword => .andThen .peek fun _ => .ite
    (fun _ => .andThen .next fun _ => .pure (by grind)) fun _ => .andThen .head fun start =>
    .bind attrNames_yields fun (names, attrs) same => .andThen (.expect _) fun word =>
    .andThen .next fun token => .andThen (importSource_runs _) fun source =>
    .andThen (.accepts _) fun _ => .ite (fun _ => ?_) fun _ => ?_
  · exact .bind (importKeys_yields _ _ _) fun values holds => .ending (.since _)
      (by grind [Declaration.Imports])
  · refine .bind (P := fun vs => ∃ v, vs = [v] ∧ v.isIndex = false ∧ v.WellFormed c.fieldCap)
      (.pure ⟨_, rfl, ?_⟩) fun values whole => .ending (.since _) (by grind [Declaration.Imports])
    cases source with
    | library name => exact ⟨rfl, by grind [importWhole]⟩
    | table name => exact ⟨rfl, by grind [importWhole]⟩

/-- An export has the shape of what is exported. -/
theorem wellFormed_exported {cap : Option Nat} {s : Stat} (h : s.WellFormed cap) :
    (exported s).WellFormed cap := by
  cases s with
  | assign a =>
    cases a
    exact h
  | _ => exact h

theorem exportStat_yields (h : r.Shapely c) :
    Yields c (exportStat r) fun s => s.WellFormed c.fieldCap := by
  refine .andThen .next fun keyword => .andThen .peek fun kind => ?_
  split
  · exact .andThen .next fun _ => .ending (.since _) (by grind)
  · exact assignFunction_yields h _ _ _
  · exact classStat_yields h _ _
  · exact classStat_yields h _ _
  · exact .map (assignOrCall_yields h) fun _ => wellFormed_exported

theorem moocStat_yields (h : r.Shapely c) :
    Yields c (moocStat r) fun s => s.WellFormed c.fieldCap := by
  refine .andThen .peek fun kind => ?_
  split
  · exact skipToken_yields
  · exact skipToken_yields
  · exact breakStat_yields
  · exact continueStat_yields
  · exact labelStat_yields
  · exact gotoStat_yields
  · exact doStat_yields h
  · exact deferStat_yields h
  · exact whileStat_yields h
  · exact repeatStat_yields h
  · exact ifStat_yields h
  · exact guardStat_yields h
  · exact switchStat_yields h
  · exact forStat_yields h
  · exact .andThen .head fun _ => assignFunction_yields h _ _ _
  · exact .andThen .head fun _ => assignFunction_yields h _ _ _
  · refine .andThen .next fun keyword => .andThen .peek fun kind => ?_
    split
    · exact classStat_yields h _ _
    · exact classStat_yields h _ _
    · exact localFunction_yields h _
    · exact localDecl_yields h _
  · exact .andThen .head fun _ => classStat_yields h _ _
  · exact .andThen .head fun _ => classStat_yields h _ _
  · exact .andThen .head fun _ => classStat_yields h _ _
  · exact importStat_yields
  · exact exportStat_yields h
  · exact assignOrCall_yields h

/-! ## Blocks and levels -/

theorem atBlockEnd_runs : Runs c atBlockEnd :=
  .andThen (.ask (·.settings.dialect)) fun _ => .ending .peek fun _ => trivial

theorem returnStat_yields (h : r.Shapely c) :
    Yields c (returnStat r) fun es => ∀ e ∈ es.getD [], e.WellFormed c.fieldCap :=
  .andThen .peek fun _ => .ite (fun _ => .pure (by grind)) fun _ => .andThen (.onScopes _) fun _ =>
    .andThen .next fun _ => .andThen atBlockEnd_runs fun _ => .ite (fun _ => .pure (by grind))
    fun _ => .andThen (.accepts _) fun _ => .ite (fun _ => .pure (by grind)) fun _ =>
    .bind (expList_yields h) fun _ _ => .andThen (.accepts _) fun _ => .pure (by grind)

/-- Empty statements are read over; the label for a `continue` is none. -/
theorem block_yields (h : r.Shapely c) : Yields c (block r) fun b => b.WellFormed c.fieldCap := by
  refine .andThen .head fun _ => .andThen .now fun _ => .bind (.loop (fun ss : Array Stat =>
    ∀ s ∈ ss.toList, s.isEmpty = false ∧ s.WellFormed c.fieldCap) (by grind) fun ss all => ?_)
    fun stats all => .bind (P := fun ss : List Stat =>
    ∀ s ∈ ss, s.isEmpty = false ∧ s.WellFormed c.fieldCap) ?_ fun label labelled =>
    .bind (returnStat_yields h) fun returns holds => .ending .now (by grind)
  · refine .andThen atBlockEnd_runs fun _ => .ite (fun _ => .pure all) fun _ =>
      .bind h.stat fun s holds => .pure ?_
    cases empty : s.isEmpty <;> grind
  · exact .andThen .scopes fun _ => .ite (fun _ => .ending .now (by grind)) fun _ => .pure (by grind)

theorem stat_yields (h : r.Shapely c) : Yields c (stat r) fun s => s.WellFormed c.fieldCap :=
  .andThen .isMooc fun _ => .ite (fun _ => moocStat_yields h) fun _ => luaStat_yields h

end LuaChunk.Parser

namespace LuaChunk

variable {c : Settings}

theorem Rules.Shapely.deepen {r : Unit → Rules} (h : (r ()).Shapely c) :
    (Rules.deepen r).Shapely c where
  block := .nested (Parser.block_yields h)
  stat := .nested (Parser.stat_yields h)
  operation limit := .nested (Parser.operation_yields h limit)
  functionBody style := .nested (Parser.functionBody_yields h style)
  table := .nested (Parser.table_yields h)
  parenthesised := .nested (Parser.exp_yields h)

theorem Rules.level_shapely (n : Nat) : (Rules.level n).Shapely c := by
  induction n with
  | zero => exact ⟨.tooDeep, .tooDeep, fun _ => .tooDeep, fun _ => .tooDeep, .tooDeep, .tooDeep⟩
  | succ n inductionHypothesis => exact inductionHypothesis.deepen

namespace Session

theorem wellFormed_exp {s : Session} {e : Exp} (read : s.exp.1 = some e) :
    e.WellFormed s.settings.fieldCap := by
  unfold Session.exp at read
  cases run : s.rules.exp s with
  | ok a t =>
    rw [run] at read
    obtain rfl : a = e := Option.some.inj read
    exact (Parser.exp_yields (Rules.level_shapely _) s a t rfl run).2
  | error abort t => simp [run] at read

theorem wellFormed_analyze (s : Session) :
    s.analyze.1.block.WellFormed s.settings.fieldCap := by
  let ready : Session := { s with tokens := s.tokens.skipShebang }
  have yields : Parser.Yields s.settings (chunk ready.rules)
      fun b => b.WellFormed s.settings.fieldCap :=
    .bind (Rules.level_shapely _).block fun _ holds => .andThen (.expect _) fun _ => .pure holds
  unfold Session.analyze
  cases run : chunk ready.rules ready with
  | ok b t =>
    simp only [ready] at run
    simp [run, (yields ready b t rfl run).2]
  | error abort t =>
    simp only [ready] at run
    simp [run, Block.empty, Block.WellFormed, statsWellFormed]

end Session

end LuaChunk
