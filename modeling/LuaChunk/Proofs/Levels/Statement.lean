import LuaChunk.Parser.Statement
import LuaChunk.Proofs.Levels.Expression

/-!
# Statements with more levels
-/

set_option autoImplicit false

namespace LuaChunk.Parser

variable {n : Nat} {Q : Prop} {r r' : Rules}

/-! ## Local names -/

theorem attr_tracks : Tracks n False attr attr := by
  refine .andThen (.accepts .less) fun _ => .ite (.pure _) <| .andThen .expectName fun _ =>
    .ite ?_ <| .ite ?_ <| .andThen (.complain _ _) fun _ => ?_
  all_goals exact .andThen (.pure _) fun _ => .andThen (.expect _) fun _ => .pure _

theorem attrNames_tracks : Tracks n False attrNames attrNames := by
  refine .andThen (.iterate fun read => .andThen .expectName fun _ => .andThen attr_tracks
    fun _ => ?_) fun _ => .pure _
  have rest (next : AttrNames) : Tracks n False
      (do if ← accepts .comma then return ForInStep.yield next else return ForInStep.done next)
      (do if ← accepts .comma then return ForInStep.yield next else return ForInStep.done next) :=
    .andThen (.accepts _) fun _ => .ite (.pure _) (.pure _)
  exact .ite (.andThen .now fun _ => .andThen (.complain _ _) fun _ => rest _) (rest _)

theorem localDecl_tracks (h : r.Tracked n r') (start : Span) :
    Tracks n False (localDecl r start) (localDecl r' start) := by
  refine .andThen attrNames_tracks fun (_, _) => .andThen (.accepts _) fun _ => ?_
  split
  · exact .andThen (expList_tracks h) fun _ => .andThen (.since _) fun _ => .pure _
  · exact .andThen (.pure _) fun _ => .andThen (.since _) fun _ => .pure _

/-! ## Targets -/

theorem target_tracks (e : Exp) : Tracks n False (target e) (target e) := by
  unfold target
  split
  · exact .pure _
  · exact .pure _
  · exact .pure _
  · exact .andThen (.complain _ _) fun _ => .pure _

theorem compound_tracks (h : r.Tracked n r') (start : Span) (op : BinaryOp) (target : Exp) :
    Tracks n False (compound r start op target) (compound r' start op target) :=
  .andThen .next fun _ => .andThen .peek fun _ => .ite
    (.andThen (.since _) fun _ => .andThen (.complain _ _) fun _ => .pure _)
    (.andThen .next fun _ => .andThen (exp_tracks h) fun _ => .andThen (.since _) fun _ => .pure _)

theorem badCompound_tracks (h : r.Tracked n r') (start : Span) :
    Tracks n False (badCompound r start) (badCompound r' start) := by
  refine .andThen .next fun _ => .andThen (.accepts _) fun _ => .ite
    (.andThen (expList_tracks h) fun _ => ?_) ?_
  all_goals exact .andThen (.since _) fun _ => .andThen (.complain _ _) fun _ => .pure _

theorem plainAssign_tracks (h : r.Tracked n r') (start : Span) (targets : List Exp) :
    Tracks n False (plainAssign r start targets) (plainAssign r' start targets) :=
  .andThen (.accepts _) fun _ => .ite
    (.andThen (expList_tracks h) fun _ => .andThen (.since _) fun _ => .pure _) <|
    .andThen .isMooc fun _ => .ite (.andThen (.since _) fun _ => .pure _) <|
    .andThen (.peekToken 0) fun _ => .andThen (.complain _ _) fun _ => .pure _

theorem assignRest_tracks (h : r.Tracked n r') (start : Span) (first : Exp) :
    Tracks n False (assignRest r start first) (assignRest r' start first) := by
  refine .andThen (target_tracks first) fun first => .andThen (.iterate fun _ =>
    .andThen (.accepts _) fun _ => .ite (.andThen (prefixExp_tracks h) fun _ =>
      .andThen (target_tracks _) fun _ => .pure _) (.pure _)) fun _ => .andThen .peek fun kind => ?_
  split
  · exact compound_tracks h start _ _
  · exact .andThen .isMooc fun _ => .ite (plainAssign_tracks h start _) (badCompound_tracks h start)
  · exact plainAssign_tracks h start _

theorem assignOrCall_tracks (h : r.Tracked n r') :
    Tracks n False (assignOrCall r) (assignOrCall r') := by
  refine .andThen .head fun start => .andThen (prefixExp_tracks h) fun e => ?_
  split
  · exact .pure _
  · exact .andThen (.since _) fun _ => .pure _
  · exact assignRest_tracks h start _

/-! ## Bodies -/

theorem openBody_tracks (word : TokenKind) : Tracks n False (openBody word) (openBody word) :=
  .andThen .isMooc fun _ => .andThen (.expect _) fun _ => .pure _

theorem closeBody_tracks : Tracks n False closeBody closeBody :=
  .andThen .isMooc fun _ => .andThen (.expect _) fun _ => .pure _

theorem brace_tracks (kind : TokenKind) : Tracks n False (brace kind) (brace kind) :=
  .andThen .isMooc fun _ => .ite (.andThen (.expect _) fun _ => .pure _) (.pure _)

theorem closeBody_sinks : Sinks Q closeBody :=
  Sinks.isMooc.bind fun _ => .stop (expect_sinks _)

theorem brace_sinks (kind : TokenKind) : Sinks True (brace kind) :=
  Sinks.isMooc.bind fun _ => .ite (fun _ => .stop (expect_sinks _)) fun _ => .pure

theorem loopBody_tracks (h : r.Tracked n r') (name : String) :
    Tracks n False (loopBody r name) (loopBody r' name) :=
  .andThen (openBody_tracks _) fun _ => .recover (.around _ _ h.block)
    (fun _ => .andThen closeBody_tracks fun _ => .pure _) fun _ => .stop closeBody_sinks

/-! ## Simple statements -/

theorem breakStat_tracks : Tracks n False breakStat breakStat :=
  .andThen .next fun _ => .andThen .insideLoop fun _ => .ite
    (.andThen (.complain _ _) fun _ => .pure _) (.pure _)

theorem labelStat_tracks : Tracks n False labelStat labelStat :=
  .andThen .next fun _ => .andThen .expectName fun _ => .andThen (.expect _) fun _ =>
    .andThen (.since _) fun _ => .pure _

theorem gotoStat_tracks : Tracks n False gotoStat gotoStat :=
  .andThen .next fun _ => .andThen .expectName fun _ => .pure _

theorem skipToken_tracks : Tracks n False skipToken skipToken := .andThen .next fun _ => .pure _

/-! ## Compound statements -/

theorem doStat_tracks (h : r.Tracked n r') : Tracks n False (doStat r) (doStat r') :=
  .andThen .next fun _ => .andThen (brace_tracks _) fun _ => .recover (.around _ _ h.block)
    (fun _ => .andThen closeBody_tracks fun _ => .andThen (.since _) fun _ => .pure _)
    fun _ => .stop closeBody_sinks

theorem whileStat_tracks (h : r.Tracked n r') : Tracks n False (whileStat r) (whileStat r') :=
  .andThen .next fun _ => .andThen (exp_tracks h) fun _ => .andThen (loopBody_tracks h _) fun _ =>
    .andThen (.since _) fun _ => .pure _

theorem repeatStat_tracks (h : r.Tracked n r') : Tracks n False (repeatStat r) (repeatStat r') :=
  .andThen .next fun _ => .andThen (brace_tracks _) fun _ => .recover (.around _ _ h.block)
    (fun _ => .andThen (brace_tracks _) fun _ => .andThen (.expect _) fun _ =>
      .andThen (exp_tracks h) fun _ => .andThen (.since _) fun _ => .pure _)
    fun _ => (brace_sinks _).bind fun _ => .stop (expect_sinks _)

/-- A condition has been read before the block of a branch. -/
theorem branch_tracks (h : r.Tracked n r') : Tracks n False (branch r) (branch r') :=
  .bind (exp_tracks h) fun _ asked => .andThen (openBody_tracks _) fun _ =>
    .andThen (.within _ _ (h.blockAfter asked)) fun _ => .andThen (brace_tracks _) fun _ => .pure _

theorem elseBranch_tracks (block : Tracks n False r.block r'.block) :
    Tracks n False (elseBranch r) (elseBranch r') := by
  refine .andThen (.accept _) fun word => ?_
  split
  · exact .andThen (brace_tracks _) fun _ => .andThen (.within _ _ block) fun _ =>
      .andThen (brace_tracks _) fun _ => .pure _
  · exact .pure _

theorem ifStat_tracks (h : r.Tracked n r') : Tracks n False (ifStat r) (ifStat r') := by
  refine .andThen .next fun _ => .bind (branch_tracks h) fun _ ⟨s, t, read⟩ => .andThen (.iterate
    fun _ => .andThen (.accepts _) fun _ => .ite (.andThen (branch_tracks h) fun _ => .pure _)
    (.pure _)) fun _ => .andThen (elseBranch_tracks ?_) fun _ => .andThen .isMooc fun _ => .ite
    (.andThen (.expect _) fun _ => .andThen (.since _) fun _ => .pure _)
    (.andThen (.since _) fun _ => .pure _)
  obtain ⟨_, _, asked, _⟩ := bind_eq_ok.1 read
  exact h.blockAfter ⟨_, _, asked⟩

/-! ## Loops over ranges and iterators -/

theorem numericFor_tracks (h : r.Tracked n r') (start : Span) (var : Param) :
    Tracks n False (numericFor r start var) (numericFor r' start var) := by
  refine .andThen (.expect _) fun _ => .andThen (exp_tracks h) fun _ => .andThen (.expect _)
    fun _ => .andThen (exp_tracks h) fun _ => .andThen (.accepts _) fun _ => .ite
    (.andThen (exp_tracks h) fun _ => ?_) (.andThen (.pure _) fun _ => ?_)
  all_goals exact .andThen (loopBody_tracks h _) fun _ => .andThen (.since _) fun _ => .pure _

theorem genericFor_tracks (h : r.Tracked n r') (start : Span) (first : Param) :
    Tracks n False (genericFor r start first) (genericFor r' start first) :=
  .andThen (.iterate fun _ => .andThen (.accepts _) fun _ =>
    .ite (.andThen .expectName fun _ => .pure _) (.pure _)) fun _ => .andThen (.expect _) fun _ =>
    .andThen (expList_tracks h) fun _ => .andThen (loopBody_tracks h _) fun _ =>
    .andThen (.since _) fun _ => .pure _

theorem forStat_tracks (h : r.Tracked n r') : Tracks n False (forStat r) (forStat r') :=
  .andThen .next fun _ => .andThen .expectName fun _ => .andThen .peek fun _ =>
    .ite (numericFor_tracks h _ _) (genericFor_tracks h _ _)

/-! ## Functions -/

theorem functionStyle_tracks : Tracks n False functionStyle functionStyle :=
  .andThen .isMooc fun _ => .ite (.pure _) (.pure _)

theorem dottedName_tracks : Tracks n False dottedName dottedName :=
  .andThen .expectName fun _ => .andThen (.iterate fun _ => .andThen (.accepts _) fun _ =>
    .ite (.andThen .expectName fun _ => .pure _) (.pure _)) fun _ => .andThen (.accepts _) fun _ =>
    .ite (.andThen .expectName fun _ => .pure _) (.pure _)

theorem functionName_tracks (isStatic : Bool) :
    Tracks n False (functionName isStatic) (functionName isStatic) := by
  refine .andThen .isMooc fun _ => .andThen .scopes fun _ => ?_
  split
  · exact .andThen .expectName fun _ => .pure _
  · exact dottedName_tracks

theorem functionStat_tracks (h : r.Tracked n r') (start : Span) (attr : Attribute)
    (isStatic : Bool) :
    Tracks n False (functionStat r start attr isStatic) (functionStat r' start attr isStatic) := by
  refine .ite (.andThen .next fun _ => ?_) ?_
  all_goals
    exact .andThen functionStyle_tracks fun (_, _) => .andThen (.expect _) fun _ =>
      .andThen (functionName_tracks _) fun _ => .andThen .now fun _ =>
      .andThen (h.functionBody _) fun _ => .andThen (.since _) fun _ => .andThen (.since _)
      fun _ => .pure _

theorem localFunction_tracks (h : r.Tracked n r') (start : Span) :
    Tracks n False (localFunction r start) (localFunction r' start) :=
  .andThen functionStyle_tracks fun (_, _) => .andThen .next fun _ => .andThen .expectName
    fun _ => .andThen (h.functionBody _) fun _ => .andThen (.since _) fun _ => .pure _

theorem assignFunction_tracks (h : r.Tracked n r') (start : Span) (attr : Attribute)
    (isStatic : Bool) :
    Tracks n False (do return Stat.assign (← functionStat r start attr isStatic))
      (do return Stat.assign (← functionStat r' start attr isStatic)) :=
  .andThen (functionStat_tracks h start attr isStatic) fun _ => .pure _

theorem luaStat_tracks (h : r.Tracked n r') : Tracks n False (luaStat r) (luaStat r') := by
  refine .andThen .peek fun kind => ?_
  split
  · exact skipToken_tracks
  · exact skipToken_tracks
  · exact breakStat_tracks
  · exact labelStat_tracks
  · exact gotoStat_tracks
  · exact doStat_tracks h
  · exact whileStat_tracks h
  · exact repeatStat_tracks h
  · exact ifStat_tracks h
  · exact forStat_tracks h
  · exact .andThen .head fun _ => assignFunction_tracks h _ _ _
  · exact .andThen .next fun _ => .andThen .peek fun _ => .ite
      (localFunction_tracks h _) (localDecl_tracks h _)
  · exact assignOrCall_tracks h

end LuaChunk.Parser
