import LuaChunk.Analysis
import LuaChunk.Proofs.Contents.Statement

/-!
# What Mooc statements gather
-/

set_option autoImplicit false

namespace LuaChunk.Parser

variable {w : Site} {k : Known} {r : Rules}

theorem guardBody_gathers (h : r.Gathers) : Gathers w {} (guardBody r) (Block.known w) :=
  .bind (h.block w) fun _ => .bind .scopes fun _ => .ite
    (fun _ => .bind .now fun _ => .bind (.complain _ _ rfl) fun _ => .done _ (by grind))
    fun _ => .done _ (by grind)

theorem guardStat_gathers (h : r.Gathers) :
    Gathers w k (guardStat r) fun s => k.plus (s.known w.around) :=
  .bind .next fun _ => .bind (exp_gathers h) fun _ => .bind (.since _) fun _ => .bind (.expect _)
    fun _ => .bind (.expect _) fun _ => .bind (.within .guardBlock "guard" (guardBody_gathers h))
    fun _ => .bind (.expect _) fun _ => .map (.since _) (by grind)

/-! ## Switch -/

theorem caseBody_gathers (h : r.Gathers) :
    Gathers w k (caseBody r) fun b => k.plus (b.known (.inner w.around)) :=
  .bind (.expect _) fun _ => (Gathers.within .branch "if" (h.block _)).mono (by grind)

theorem moreCases_gathers (h : r.Gathers) (cases : Array Branch) :
    Gathers w (k.plus (branchesKnown w cases.toList)) (moreCases r cases)
      fun next => k.plus (branchesKnown w next.value.toList) := by
  refine .bind (.accept _) fun word => ?_
  split
  · exact .bind (expList_gathers h) fun values => .map (caseBody_gathers h)
      (by grind [Exp.blocks_switchCase])
  · exact .done _ (by grind)

theorem defaultCase_gathers (h : r.Gathers) :
    Gathers w k (defaultCase r) fun bs => k.plus (branchesKnown w bs) := by
  refine .bind (.accept _) fun word => ?_
  split
  · exact .map (caseBody_gathers h) (by grind)
  · exact .done _ (by grind)

theorem switchStat_gathers (h : r.Gathers) :
    Gathers w k (switchStat r) fun s => k.plus (s.known w.around) :=
  .bind .next fun _ => .bind (exp_gathers h) fun value => .bind (.since _) fun _ =>
    .bind (.expect _) fun _ => .bind (.loop (fun bs : Array Branch =>
      (k.plus { blocks := value.blocks w.around }).plus (branchesKnown w bs.toList)) (by grind)
      (moreCases_gathers h)) fun _ => .bind (defaultCase_gathers h) fun _ => .bind (.expect _)
    fun _ => .bind (.since _) fun _ => .map (.since _) (by grind)

/-! ## Classes -/

/-- The account of a member, if a statement is one. -/
def memberKnown (around : List Body) : Stat → Known
  | .assign a => { blocks := a.blocks around }
  | _ => {}

theorem member_assigns (k : Known) :
    Assigns w k fun s => k.plus (memberKnown w.around s) := by
  constructor <;> grind [memberKnown]

theorem moreMembers_gathers (h : r.Gathers) (owner : String) (members : Array Assignment) :
    Gathers w (k.plus { blocks := assignmentsBlocks w.around members.toList })
      (moreMembers r owner members)
      fun next => k.plus { blocks := assignmentsBlocks w.around next.value.toList } := by
  refine .bind .peek fun kind => ?_
  split
  · exact .bind .head fun _ => .map (functionStat_gathers h _ _ _) (by grind)
  · exact .bind .head fun _ => .map (functionStat_gathers h _ _ _) (by grind)
  · refine .bind .next fun _ => .bind (assignRest_gathers h (k := k.plus
      { blocks := assignmentsBlocks w.around members.toList }) (member_assigns _) _ _ (by grind)
      (by grind)) fun s => ?_
    split
    · exact .done _ (by grind [memberKnown])
    next other => exact .done _ (by grind [memberKnown.eq_2 w.around s other])
  · exact .done _ (by grind)

theorem parentClass_gathers (kind : ClassKind) :
    Gathers w k (parentClass kind) fun e => k.plus { blocks := e.blocks w.around } := by
  refine .bind (.accept _) fun colon => ?_
  split
  · refine .ite (fun _ => .bind (.complain _ _ rfl) fun _ => ?_) fun _ => ?_
    all_goals exact .bind .expectName fun _ => .done _ (by grind)
  · exact .map .now (by grind)

/-- A class has no other blocks than its parent and its members. -/
theorem classDecl_covers {d : ClassDecl} {bs : List (Site × Block)}
    (known : ∀ b ∈ d.blocks w.around, b ∈ bs) :
    (k.plus { blocks := bs }).Covers (k.plus ((Stat.classDecl d).known w.around)) := by
  grind

theorem classStat_gathers (h : r.Gathers) (start : Span) (isExported : Bool) :
    Gathers w k (classStat r start isExported) fun s => k.plus (s.known w.around) := by
  refine .bind .next fun _ => .bind .expectName fun _ => .bind (parentClass_gathers _)
    fun parent => .bind (.since _) fun _ => .bind (.expect _) fun _ => .bind
    (.within .classBody _ (.loop (fun ms : Array Assignment => Known.plus {}
      { blocks := assignmentsBlocks w.around ms.toList }) (by grind) (moreMembers_gathers h _)))
    fun members => .bind (.expect _) fun _ => .map (.since _) fun span => .trans (l := k.plus
      { blocks := parent.blocks w.around ++ assignmentsBlocks w.around members.toList })
      (by grind)
      (classDecl_covers (by simp [classLocal]))

/-! ## Imports and exports -/

theorem importSource_gathers (token : Token) : Gathers w k (importSource token) fun _ => k.forget :=
  .ite (fun _ => .done _ (by grind)) fun _ => .ite (fun _ => .done _ (by grind)) fun _ =>
    .bind (.complain _ _ rfl) fun _ => .same _

/-- The account of the values of an import. -/
@[grind unfold]
def keysKnown (k : Known) (w : Site) (values : Array Exp) : Known :=
  k.plus { blocks := expsBlocks w.around values.toList }

theorem moreKeys_gathers (source : ImportSource) (names : List Param) (read : Array Exp × Bool) :
    Gathers w (keysKnown k w read.1) (moreKeys source names read)
      fun next => keysKnown k w next.value.1 := by
  have rest (values : Array Exp) : Gathers w (keysKnown k w values)
      (do if ← accepts .comma then return .yield (values, false) else return .done (values, false))
      fun next : ForInStep (Array Exp × Bool) => keysKnown k w next.value.1 :=
    .bind (.accepts _) fun _ => .ite (fun _ => .done _ (by grind)) fun _ => .done _ (by grind)
  obtain ⟨values, isFirst⟩ := read
  refine .bind (.accept _) fun key => ?_
  split
  · exact .bind (.done _ (by grind)) rest
  · refine .ite (fun _ => ?_) fun _ => ?_
    · exact .bind .now fun _ => .bind (.done _ (by grind)) rest
    · exact .bind (.done _ (by grind)) rest

theorem importKeys_gathers (source : ImportSource) (names : List Param) (start : Span) :
    Gathers w k (importKeys source names start)
      fun es => k.plus { blocks := expsBlocks w.around es } := by
  refine .bind (.loop (fun read : Array Exp × Bool => keysKnown k w read.1) (by grind)
    (moreKeys_gathers source names)) fun (values, _) => .bind (.expect _) fun _ => .ite
    (fun _ => .bind (.since _) fun _ => ?_)
    fun _ => .done _ (by grind)
  exact .stop _ _ _ _ _ rfl (by simp)

@[grind =]
theorem importWhole_blocks (source : ImportSource) (word token : Token) (around : List Body) :
    (importWhole source word token).blocks around = [] := by
  cases source <;> simp [importWhole]

theorem importStat_gathers : Gathers w k importStat fun s => k.plus (s.known w.around) := by
  refine .bind .next fun _ => .bind .peek fun _ => .ite
    (fun _ => .bind .next fun _ => .done _ (by grind))
    fun _ => .bind .head fun _ => .bind attrNames_gathers fun (names, attrs) =>
    .bind (.expect _) fun _ => .bind .next fun _ => .bind (importSource_gathers _) fun _ =>
    .bind (.accepts _) fun _ => .ite (fun _ => ?_) fun _ => ?_
  · exact .bind (importKeys_gathers _ _ _) fun _ => .map (.since _) (by grind)
  · exact .bind (.done (l := fun es => k.plus { blocks := expsBlocks w.around es }) _ (by grind))
      fun _ => .map (.since _) (by grind)

theorem exportStat_gathers (h : r.Gathers) :
    Gathers w k (exportStat r) fun s => k.plus (s.known w.around) := by
  refine .bind .next fun _ => .bind .peek fun _ => ?_
  split
  · exact .bind .next fun _ => .map (.since _) (by grind)
  · exact .map (functionStat_gathers h _ _ _) (by grind)
  · exact (classStat_gathers h _ _).mono (by grind)
  · exact (classStat_gathers h _ _).mono (by grind)
  · exact .map (assignOrCall_gathers h) fun s => by cases s <;> grind [exported]

theorem moocStat_gathers (h : r.Gathers) :
    Gathers w k (moocStat r) fun s => k.plus (s.known w.around) := by
  refine .bind .peek fun kind => ?_
  split
  · exact skipToken_gathers.mono (by grind)
  · exact skipToken_gathers.mono (by grind)
  · exact .breakStat
  · exact .continueStat
  · exact .labelStat
  · exact .gotoStat
  · exact (doStat_gathers h).mono (by grind)
  · exact .deferStat (h.block _)
  · exact (whileStat_gathers h).mono (by grind)
  · exact (repeatStat_gathers h).mono (by grind)
  · exact (ifStat_gathers h).mono (by grind)
  · exact (guardStat_gathers h).mono (by grind)
  · exact (switchStat_gathers h).mono (by grind)
  · exact (forStat_gathers h).mono (by grind)
  · exact (assignFunction_gathers h _ _).mono (by grind)
  · exact (assignFunction_gathers h _ _).mono (by grind)
  · refine .bind .next fun _ => .bind .peek fun _ => ?_
    split
    · exact (classStat_gathers h _ _).mono (by grind)
    · exact (classStat_gathers h _ _).mono (by grind)
    · exact (localFunction_gathers h _).mono (by grind)
    · exact (localDecl_gathers h _).mono (by grind)
  · exact .bind .head fun _ => (classStat_gathers h _ _).mono (by grind)
  · exact .bind .head fun _ => (classStat_gathers h _ _).mono (by grind)
  · exact .bind .head fun _ => (classStat_gathers h _ _).mono (by grind)
  · exact importStat_gathers.mono (by grind)
  · exact (exportStat_gathers h).mono (by grind)
  · exact (assignOrCall_gathers h).mono (by grind)

/-! ## Blocks and levels -/

theorem atBlockEnd_gathers : Gathers w k atBlockEnd fun _ => k.forget :=
  .bind (.ask (·.settings.dialect) fun _ _ => rfl) fun _ => .map .peek (by grind)

theorem moreStats_gathers (h : r.Gathers) (ss : Array Stat) :
    Gathers w (statsKnown w.around ss.toList) (moreStats r ss)
      fun next => statsKnown w.around next.value.toList := by
  refine .bind atBlockEnd_gathers fun _ => .ite (fun _ => .done _ (by grind))
    fun _ => .bind (h.stat w _) fun s => .done _ ?_
  cases empty : s.isEmpty with
  | true =>
    obtain rfl := Stat.eq_empty_of_isEmpty empty
    grind
  | false => grind

theorem returnStat_gathers (h : r.Gathers) :
    Gathers w k (returnStat r) fun es => k.plus
      { blocks := expsBlocks w.around (es.getD []) } := by
  refine .bind .peek fun _ => .ite (fun _ => .done _ (by grind)) fun _ => .bind .noteReturn fun _ =>
    .bind .next fun _ => .bind atBlockEnd_gathers fun _ => .ite (fun _ => .done _ (by grind))
    fun _ => .bind (.accepts _) fun _ => .ite (fun _ => .done _ (by grind))
    fun _ => .bind (expList_gathers h) fun _ =>
    .bind (.accepts _) fun _ => .done _ (by grind)

theorem stat_gathers (h : r.Gathers) : Gathers w k (stat r) fun s => k.plus (s.known w.around) :=
  .bind .isMooc fun _ => .ite (fun _ => moocStat_gathers h) fun _ => luaStat_gathers h

end LuaChunk.Parser

namespace LuaChunk

theorem Rules.Gathers.deepen {r : Unit → Rules} (h : (r ()).Gathers) :
    (Rules.deepen r).Gathers where
  block _ := .nested (.block (.loop _ (by grind) (Parser.moreStats_gathers h)) fun _ =>
    Parser.returnStat_gathers h)
  stat _ _ := .nested (Parser.stat_gathers h)
  operation _ _ _ := .nested (Parser.operation_gathers h _)
  functionBody _ _ _ := .nested (Parser.functionBody_gathers h _)
  table _ _ := .nested (Parser.table_gathers h)
  parenthesised _ _ := .nested (Parser.exp_gathers h)

theorem Rules.level_gathers (n : Nat) : (Rules.level n).Gathers := by
  induction n with
  | zero =>
    exact ⟨fun _ => .tooDeep _, fun _ _ => .tooDeep _, fun _ _ _ => .tooDeep _,
      fun _ _ _ => .tooDeep _, fun _ _ => .tooDeep _, fun _ _ => .tooDeep _⟩
  | succ n inductionHypothesis => exact inductionHypothesis.deepen

theorem Session.chunk_gathers (n : Nat) :
    Parser.Gathers .chunk {} (Session.chunk (.level n)) (Block.known .chunk) :=
  .bind ((Rules.level_gathers n).block _) fun _ => .bind (.expect _) fun _ => .done _ (by grind)

end LuaChunk
