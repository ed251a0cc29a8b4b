import LuaChunk.Parser.Block
import LuaChunk.Proofs.Levels.Statement

/-!
# Statements that only Mooc has, and blocks, with more levels
-/

set_option autoImplicit false

namespace LuaChunk.Parser

variable {n : Nat} {Q : Prop} {r r' : Rules}

/-! ## Transfer of control -/

theorem continueStat_tracks : Tracks n False continueStat continueStat :=
  .andThen .next fun _ => .andThen .scopes fun _ => .andThen .insideLoop fun _ => .ite
    (.andThen (.onScopes _) fun _ => .pure _) (.andThen (.complain _ _) fun _ => .pure _)

theorem deferStat_tracks (h : r.Tracked n r') : Tracks n False (deferStat r) (deferStat r') := by
  refine .andThen .next fun _ => .andThen (.expect _) fun _ => .andThen .scopes fun _ => .ite
    (.andThen (.complain _ _) fun _ => ?_) ?_
  all_goals
    exact .recover (.around _ _ h.block) (fun _ => .andThen closeBody_tracks fun _ =>
      .andThen (.since _) fun _ => .pure _) fun _ => .stop closeBody_sinks

theorem guardBody_tracks (block : Tracks n False r.block r'.block) :
    Tracks n False (guardBody r) (guardBody r') :=
  .andThen block fun _ => .andThen .scopes fun _ => .ite
    (.andThen .now fun _ => .andThen (.complain _ _) fun _ => .pure _) (.pure _)

theorem guardStat_tracks (h : r.Tracked n r') : Tracks n False (guardStat r) (guardStat r') :=
  .andThen .next fun _ => .bind (exp_tracks h) fun _ asked => .andThen (.since _) fun _ =>
    .andThen (.expect _) fun _ => .andThen (.expect _) fun _ =>
    .andThen (.within _ _ (guardBody_tracks (h.blockAfter asked))) fun _ =>
    .andThen (.expect _) fun _ => .andThen (.since _) fun _ => .pure _

/-! ## Switch -/

theorem caseBody_tracks (block : Tracks n False r.block r'.block) :
    Tracks n False (caseBody r) (caseBody r') :=
  .andThen (.expect _) fun _ => .within _ _ block

theorem moreCases_tracks (h : r.Tracked n r') (block : Tracks n False r.block r'.block)
    (cases : Array Branch) : Tracks n False (moreCases r cases) (moreCases r' cases) := by
  refine .andThen (.accept _) fun word => ?_
  split
  · exact .andThen (expList_tracks h) fun _ => .andThen (caseBody_tracks block) fun _ => .pure _
  · exact .pure _

theorem defaultCase_tracks (block : Tracks n False r.block r'.block) :
    Tracks n False (defaultCase r) (defaultCase r') := by
  refine .andThen (.accept _) fun word => ?_
  split
  · exact .andThen (caseBody_tracks block) fun _ => .pure _
  · exact .pure _

theorem switchStat_tracks (h : r.Tracked n r') : Tracks n False (switchStat r) (switchStat r') :=
  .andThen .next fun _ => .bind (exp_tracks h) fun _ asked => .andThen (.since _) fun _ =>
    .andThen (.expect _) fun _ => .andThen (.iterate (moreCases_tracks h (h.blockAfter asked)))
    fun _ => .andThen (defaultCase_tracks (h.blockAfter asked)) fun _ => .andThen (.expect _)
    fun _ => .andThen (.since _) fun _ => .andThen (.since _) fun _ => .pure _

/-! ## Classes -/

theorem moreMembers_tracks (h : r.Tracked n r') (owner : String) (members : Array Assignment) :
    Tracks n False (moreMembers r owner members) (moreMembers r' owner members) := by
  refine .andThen .peek fun kind => ?_
  split
  · exact .andThen .head fun _ => .andThen (functionStat_tracks h _ _ _) fun _ => .pure _
  · exact .andThen .head fun _ => .andThen (functionStat_tracks h _ _ _) fun _ => .pure _
  · refine .andThen .next fun _ => .andThen (assignRest_tracks h _ _) fun s => ?_
    split
    · exact .pure _
    · exact .pure _
  · exact .pure _

theorem parentClass_tracks (kind : ClassKind) :
    Tracks n False (parentClass kind) (parentClass kind) := by
  refine .andThen (.accept _) fun colon => ?_
  split
  · exact .ite (.andThen (.complain _ _) fun _ => .andThen .expectName fun _ => .pure _)
      (.andThen .expectName fun _ => .pure _)
  · exact .andThen .now fun _ => .pure _

theorem classStat_tracks (h : r.Tracked n r') (start : Span) (isExported : Bool) :
    Tracks n False (classStat r start isExported) (classStat r' start isExported) :=
  .andThen .next fun _ => .andThen .expectName fun _ => .andThen (parentClass_tracks _) fun _ =>
    .andThen (.since _) fun _ => .andThen (.expect _) fun _ =>
    .andThen (.within _ _ (.iterate (moreMembers_tracks h _))) fun _ => .andThen (.expect _)
    fun _ => .andThen (.since _) fun _ => .pure _

/-! ## Imports and exports -/

theorem importSource_tracks (token : Token) :
    Tracks n False (importSource token) (importSource token) :=
  .ite (.pure _) <| .ite (.pure _) <| .andThen (.complain _ _) fun _ => .pure _

theorem moreKeys_tracks (source : ImportSource) (names : List Param) (read : Array Exp × Bool) :
    Tracks n False (moreKeys source names read) (moreKeys source names read) := by
  obtain ⟨values, isFirst⟩ := read
  refine .andThen (.accept _) fun key => ?_
  split
  · exact .andThen (.pure _) fun _ => .andThen (.accepts _) fun _ => .ite (.pure _) (.pure _)
  · exact .ite (.andThen .now fun _ => .andThen (.pure _) fun _ => .andThen (.accepts _)
      fun _ => .ite (.pure _) (.pure _))
      (.andThen (.pure _) fun _ => .andThen (.accepts _) fun _ => .ite (.pure _) (.pure _))

theorem importKeys_tracks (source : ImportSource) (names : List Param) (start : Span) :
    Tracks n False (importKeys source names start) (importKeys source names start) :=
  .andThen (.iterate (moreKeys_tracks source names)) fun _ => .andThen (.expect _) fun _ => .ite
    (.andThen (.since _) fun _ => .andThen (.complain _ _) fun _ => .andThen (.throw _) fun _ =>
      .pure _) (.pure _)

theorem importStat_tracks : Tracks n False importStat importStat :=
  .andThen .next fun _ => .andThen .peek fun _ => .ite (.andThen .next fun _ => .pure _) <|
    .andThen .head fun _ => .andThen attrNames_tracks fun (_, _) => .andThen (.expect _) fun _ =>
    .andThen .next fun _ => .andThen (importSource_tracks _) fun _ => .andThen (.accepts _)
    fun _ => .ite
    (.andThen (importKeys_tracks _ _ _) fun _ => .andThen (.since _) fun _ => .pure _)
    (.andThen (.pure _) fun _ => .andThen (.since _) fun _ => .pure _)

theorem exportStat_tracks (h : r.Tracked n r') :
    Tracks n False (exportStat r) (exportStat r') := by
  refine .andThen .next fun _ => .andThen .peek fun kind => ?_
  split
  · exact .andThen .next fun _ => .andThen (.since _) fun _ => .pure _
  · exact assignFunction_tracks h _ _ _
  · exact classStat_tracks h _ _
  · exact classStat_tracks h _ _
  · exact .andThen (assignOrCall_tracks h) fun _ => .pure _

theorem moocStat_tracks (h : r.Tracked n r') : Tracks n False (moocStat r) (moocStat r') := by
  refine .andThen .peek fun kind => ?_
  split
  · exact skipToken_tracks
  · exact skipToken_tracks
  · exact breakStat_tracks
  · exact continueStat_tracks
  · exact labelStat_tracks
  · exact gotoStat_tracks
  · exact doStat_tracks h
  · exact deferStat_tracks h
  · exact whileStat_tracks h
  · exact repeatStat_tracks h
  · exact ifStat_tracks h
  · exact guardStat_tracks h
  · exact switchStat_tracks h
  · exact forStat_tracks h
  · exact .andThen .head fun _ => assignFunction_tracks h _ _ _
  · exact .andThen .head fun _ => assignFunction_tracks h _ _ _
  · refine .andThen .next fun _ => .andThen .peek fun kind => ?_
    split
    · exact classStat_tracks h _ _
    · exact classStat_tracks h _ _
    · exact localFunction_tracks h _
    · exact localDecl_tracks h _
  · exact .andThen .head fun _ => classStat_tracks h _ _
  · exact .andThen .head fun _ => classStat_tracks h _ _
  · exact .andThen .head fun _ => classStat_tracks h _ _
  · exact importStat_tracks
  · exact exportStat_tracks h
  · exact assignOrCall_tracks h

theorem stat_tracks (h : r.Tracked n r') : Tracks n False (stat r) (stat r') :=
  .andThen .isMooc fun _ => .ite (moocStat_tracks h) (luaStat_tracks h)

/-! ## Blocks -/

theorem atBlockEnd_tracks : Tracks n False atBlockEnd atBlockEnd :=
  .andThen .dialect fun _ => .andThen .peek fun _ => .pure _

theorem pendingLabel_tracks : Tracks n False pendingLabel pendingLabel :=
  .andThen .scopes fun _ => .ite (.andThen .now fun _ => .pure _) (.pure _)

theorem returnStat_tracks (h : r.Tracked n r') :
    Tracks n False (returnStat r) (returnStat r') :=
  .andThen .peek fun _ => .ite (.pure _) <| .andThen (.onScopes _) fun _ => .andThen .next
    fun _ => .andThen atBlockEnd_tracks fun _ => .ite (.pure _) <| .andThen (.accepts _) fun _ =>
    .ite (.pure _) <| .andThen (expList_tracks h) fun _ => .andThen (.accepts _) fun _ => .pure _

theorem block_tracks (h : r.Tracked n r') : Tracks n False (block r) (block r') :=
  .andThen .head fun _ => .andThen .now fun _ => .andThen (.iterate fun _ =>
    .andThen atBlockEnd_tracks fun _ => .ite (.pure _) (.andThen h.stat fun _ => .pure _))
    fun _ => .andThen pendingLabel_tracks fun _ => .andThen (returnStat_tracks h) fun _ =>
    .andThen .now fun _ => .pure _

end LuaChunk.Parser
