import LuaChunk.Proofs.Contents.Expression

/-!
# What statements gather
-/

set_option autoImplicit false

namespace LuaChunk.Parser

variable {w : Site} {k : Known} {r : Rules}

/-! ## Local names -/

theorem attr_gathers : Gathers w k attr fun _ => k.forget := by
  refine .bind (.accepts .less) fun _ => .ite (fun _ => .same _) fun _ => .bind .expectName
    fun name => .ite (fun _ => ?_) fun _ => .ite (fun _ => ?_) fun _ => ?_
  · exact .bind (.pure (l := fun _ => k.forget) _) fun _ => .bind (.expect _) fun _ => .same _
  · exact .bind (.pure (l := fun _ => k.forget) _) fun _ => .bind (.expect _) fun _ => .same _
  · exact .bind (.complain _ _ rfl) fun _ => .bind (.pure (l := fun _ => k.forget) _) fun _ =>
      .bind (.expect _) fun _ => .same _

theorem moreAttrNames_gathers (read : AttrNames) :
    Gathers w k.forget (moreAttrNames read) fun _ => k.forget := by
  refine .bind .expectName fun name => .bind attr_gathers fun attr => .ite
    (fun _ => .bind .now fun _ => .bind (.complain _ _ rfl) fun _ => ?_) fun _ => ?_
  all_goals exact .bind (.accepts _) fun _ => .ite (fun _ => .same _) fun _ => .same _

theorem attrNames_gathers : Gathers w k attrNames fun _ => k.forget :=
  .map (.loop (fun _ => k.forget) (by grind) moreAttrNames_gathers) (by grind)

theorem localDecl_gathers (h : r.Gathers) (start : Span) :
    Gathers w k (localDecl r start) fun s => k.plus (s.known w.around) := by
  refine .bind attrNames_gathers fun (names, attrs) => .bind (.accepts _) fun _ => .ite
    (fun _ => ?_) fun _ => ?_
  · exact .bind (expList_gathers h) fun values => .map (.since start) (by grind)
  · exact .bind (.done (l := fun es => k.plus { blocks := expsBlocks w.around es }) [] (by grind))
      fun values => .map (.since start) (by grind)

/-! ## Targets -/

theorem target_gathers (e : Exp) (known : ∀ b ∈ e.blocks w.around, b ∈ k.blocks) :
    Gathers w k (target e) fun e => k.plus { blocks := e.blocks w.around } := by
  unfold target
  split
  · exact .done _ (by grind)
  · exact .done _ (by grind)
  · exact .done _ (by grind)
  · exact .bind (.complain _ _ rfl) fun _ => .done _ (by grind)

theorem moreTargets_gathers (h : r.Gathers) (targets : Array Exp) :
    Gathers w (k.plus { blocks := expsBlocks w.around targets.toList }) (moreTargets r targets)
      fun next => k.plus { blocks := expsBlocks w.around next.value.toList } :=
  .bind (.accepts _) fun _ => .ite (fun _ => .bind (prefixExp_gathers h) fun e =>
    .map (target_gathers e (by grind)) (by grind)) fun _ => .done _ (by grind)

/-- An account of statements that does for whatever an assignment may turn into. -/
structure Assigns (w : Site) (k : Known) (l : Stat → Known) : Prop where
  assign (a : Assignment) : (k.plus { blocks := a.blocks w.around }).Covers (l (.assign a))
  declare (d : Declaration) : (k.plus { blocks := d.blocks w.around }).Covers (l (.declare d))
  empty : k.forget.Covers (l .empty)

section Rest

variable {k' : Known} {l : Stat → Known} (h : r.Gathers) (fits : Assigns w k l) (start : Span)
include h fits

theorem compound_gathers (op : BinaryOp) (target : Exp) (covers : k'.Covers k.forget)
    (known : ∀ b ∈ target.blocks w.around, b ∈ k'.blocks) :
    Gathers w k' (compound r start op target) l := by
  refine .bind .next fun _ => .bind .peek fun _ => .ite
    (fun _ => .bind (.since _) fun _ => .bind (.complain _ _ rfl) fun _ =>
      .done _ (.trans (by grind) fits.empty))
    fun _ => .bind .next fun _ => .bind (exp_gathers h) fun value =>
      .map (.since start) fun _ => .trans ?_ (fits.assign _)
  grind [Assignment.compound]

theorem badCompound_gathers (covers : k'.Covers k.forget) :
    Gathers w k' (badCompound r start) l := by
  refine .bind .next fun _ => .bind (.accepts _) fun _ => .ite
    (fun _ => .bind (expList_gathers h) fun _ => ?_) fun _ => ?_
  all_goals
    exact .bind (.since _) fun _ => .bind (.complain _ _ rfl) fun _ =>
      .done _ (.trans (by grind) fits.empty)

theorem plainAssign_gathers (targets : List Exp) (covers : k'.Covers k.forget)
    (known : ∀ b ∈ expsBlocks w.around targets, b ∈ k'.blocks) :
    Gathers w k' (plainAssign r start targets) l := by
  refine .bind (.accepts _) fun _ => .ite (fun _ => .bind (expList_gathers h) fun values =>
    .map (.since start) fun _ => .trans ?_ (fits.assign _)) fun _ => .bind .isMooc fun _ => .ite
    (fun _ => .map (.since start) fun _ => .trans ?_ (fits.declare _)) fun _ =>
    .bind (.peekToken 0) fun token => .bind (.complain _ _ rfl) fun _ =>
      .done _ (.trans (by grind) fits.empty)
  · grind
  · grind [implicitLocals]

theorem assignRest_gathers (first : Exp) (covers : k'.Covers k.forget)
    (known : ∀ b ∈ first.blocks w.around, b ∈ k'.blocks) :
    Gathers w k' (assignRest r start first) l := by
  refine .bind (target_gathers first known) fun first => .bind (.loop
    (fun es : Array Exp => k'.plus { blocks := expsBlocks w.around es.toList }) (by grind)
    (moreTargets_gathers h)) fun targets => .bind .peek fun kind => ?_
  split
  · exact compound_gathers h fits start _ _ (by grind) (by grind)
  · exact .bind .isMooc fun _ => .ite
      (fun _ => plainAssign_gathers h fits start _ (by grind) (by grind))
      fun _ => badCompound_gathers h fits start (by grind)
  · exact plainAssign_gathers h fits start _ (by grind) (by grind)

end Rest

theorem known_assigns : Assigns w k fun s => k.plus (s.known w.around) := by
  constructor <;> grind

theorem assignOrCall_gathers (h : r.Gathers) :
    Gathers w k (assignOrCall r) fun s => k.plus (s.known w.around) := by
  refine .bind .head fun start => .bind (prefixExp_gathers h) fun e => ?_
  split
  · exact .done _ (by grind)
  · exact .map (.since start) (by grind)
  · exact assignRest_gathers h known_assigns start e (by grind) (by grind)

/-! ## Bodies -/

theorem openBody_gathers (word : TokenKind) : Gathers w k (openBody word) fun _ => k.forget :=
  .bind .isMooc fun _ => .bind (.expect _) fun _ => .same _

theorem closeBody_gathers : Gathers w k closeBody fun _ => k.forget :=
  .bind .isMooc fun _ => .bind (.expect _) fun _ => .same _

theorem brace_gathers (kind : TokenKind) : Gathers w k (brace kind) fun _ => k.forget :=
  .bind .isMooc fun _ => .ite (fun _ => .bind (.expect _) fun _ => .done _ (by grind))
    fun _ => .done _ (by grind)

theorem loopBody_gathers (h : r.Gathers) (name : String) :
    Gathers w k (loopBody r name) fun b => k.plus { blocks := b.blocks (.body .loop w.around) } :=
  .bind (openBody_gathers _) fun _ => .bind (.within .loop name (h.block _)) fun _ =>
    .bind closeBody_gathers fun _ => .done _ (by grind)

/-! ## Compound statements -/

theorem doStat_gathers (h : r.Gathers) :
    Gathers w k (doStat r) fun s => k.plus (s.known w.around) :=
  .bind .next fun _ => .bind (brace_gathers _) fun _ => .bind (.within .doBlock "do" (h.block _))
    fun _ => .bind closeBody_gathers fun _ => .map (.since _) (by grind)

theorem whileStat_gathers (h : r.Gathers) :
    Gathers w k (whileStat r) fun s => k.plus (s.known w.around) :=
  .bind .next fun _ => .bind (exp_gathers h) fun _ => .bind (loopBody_gathers h _) fun _ =>
    .map (.since _) (by grind)

theorem repeatStat_gathers (h : r.Gathers) :
    Gathers w k (repeatStat r) fun s => k.plus (s.known w.around) :=
  .bind .next fun _ => .bind (brace_gathers _) fun _ => .bind (.within .loop "repeat" (h.block _))
    fun _ => .bind (brace_gathers _) fun _ => .bind (.expect _) fun _ => .bind (exp_gathers h)
    fun _ => .map (.since _) (by grind)

theorem branch_gathers (h : r.Gathers) : Gathers w k (branch r) fun b => k.plus
    { jumps := b.jumps, blocks := b.blocks w.around } :=
  .bind (exp_gathers h) fun _ => .bind (openBody_gathers _) fun _ => .bind
    (.within .branch "if" (h.block _)) fun _ => .bind (brace_gathers _) fun _ => .done _ (by grind)

/-- The account of some branches. -/
@[grind unfold]
def branchesKnown (w : Site) (bs : List Branch) : Known :=
  { jumps := branchesJumps bs, blocks := branchesBlocks w.around bs }

theorem moreBranches_gathers (h : r.Gathers) (branches : Array Branch) :
    Gathers w (k.plus (branchesKnown w branches.toList)) (moreBranches r branches)
      fun next => k.plus (branchesKnown w next.value.toList) :=
  .bind (.accepts _) fun _ => .ite (fun _ => .map (branch_gathers h) (by grind))
    fun _ => .done _ (by grind)

theorem elseBranch_gathers (h : r.Gathers) :
    Gathers w k (elseBranch r) fun bs => k.plus (branchesKnown w bs) := by
  refine .bind (.accept _) fun word => ?_
  split
  · exact .bind (brace_gathers _) fun _ => .bind (.within .branch "if" (h.block _)) fun _ =>
      .bind (brace_gathers _) fun _ => .done _ (by grind)
  · exact .done _ (by grind)

theorem ifStat_gathers (h : r.Gathers) :
    Gathers w k (ifStat r) fun s => k.plus (s.known w.around) := by
  refine .bind .next fun _ => .bind (branch_gathers h) fun first => .bind (.loop
    (fun bs : Array Branch => k.plus (branchesKnown w bs.toList)) (by grind) (moreBranches_gathers h))
    fun _ => .bind (elseBranch_gathers h) fun _ => .bind .isMooc fun _ => .ite (fun _ => ?_)
    fun _ => ?_
  · exact .bind (.expect _) fun _ => .map (.since _) (by grind)
  · exact .map (.since _) (by grind)

/-! ## Loops over ranges and iterators -/

theorem numericFor_gathers (h : r.Gathers) (start : Span) (var : Param) :
    Gathers w k (numericFor r start var) fun s => k.plus (s.known w.around) := by
  refine .bind (.expect _) fun _ => .bind (exp_gathers h) fun init => .bind (.expect _) fun _ =>
    .bind (exp_gathers h) fun limit => .bind (.accepts _) fun _ => .ite (fun _ => ?_) fun _ => ?_
  · exact .bind (exp_gathers h) fun step => .bind (loopBody_gathers h _)
      fun _ => .map (.since _) (by grind)
  · exact .bind (.done (l := fun e => ((k.plus { blocks := init.blocks w.around }).plus
      { blocks := limit.blocks w.around }).plus { blocks := e.blocks w.around }) _ (by grind))
      fun step => .bind (loopBody_gathers h _) fun _ => .map (.since _) (by grind)

theorem moreVars_gathers (vars : Array Param) :
    Gathers w k.forget (moreVars vars) fun _ => k.forget :=
  .bind (.accepts _) fun _ => .ite (fun _ => .bind .expectName fun _ => .same _) fun _ => .same _

theorem genericFor_gathers (h : r.Gathers) (start : Span) (first : Param) :
    Gathers w k (genericFor r start first) fun s => k.plus (s.known w.around) :=
  .bind (.loop (fun _ => k.forget) (by grind) moreVars_gathers) fun _ => .bind (.expect _) fun _ =>
    .bind (expList_gathers h) fun _ => .bind (loopBody_gathers h _)
    fun _ => .map (.since _) (by grind)

theorem forStat_gathers (h : r.Gathers) :
    Gathers w k (forStat r) fun s => k.plus (s.known w.around) :=
  .bind .next fun _ => .bind .expectName fun _ => .bind .peek fun _ => .ite
    (fun _ => (numericFor_gathers h _ _).mono (by grind))
    fun _ => (genericFor_gathers h _ _).mono (by grind)

/-! ## Functions -/

theorem moreNames_gathers (f : FunctionName) :
    Gathers w (k.plus { blocks := f.target.blocks w.around }) (moreNames f)
      fun next => k.plus { blocks := next.value.target.blocks w.around } :=
  .bind (.accepts _) fun _ => .ite (fun _ => .map .expectName (by grind [FunctionName.member]))
    fun _ => .done _ (by grind)

theorem dottedName_gathers :
    Gathers w k dottedName fun f => k.plus { blocks := f.target.blocks w.around } :=
  .bind .expectName fun _ => .bind (.loop (fun f : FunctionName => k.plus
    { blocks := f.target.blocks w.around }) (by grind) moreNames_gathers)
    fun f => .bind (.accepts _) fun _ =>
    .ite (fun _ => .map .expectName (by grind [FunctionName.member])) fun _ => .done _ (by grind)

theorem functionName_gathers (isStatic : Bool) :
    Gathers w k (functionName isStatic) fun f => k.plus { blocks := f.target.blocks w.around } := by
  refine .bind .isMooc fun _ => .bind .scopes fun _ => ?_
  split
  · exact .bind .expectName fun _ => .done _ (by grind)
  · exact dottedName_gathers

theorem functionStyle_gathers : Gathers w k functionStyle fun _ => k :=
  .bind .isMooc fun _ => .ite (fun _ => .same _) fun _ => .same _

theorem functionStat_gathers (h : r.Gathers) (start : Span) (attr : Attribute) (isStatic : Bool) :
    Gathers w k (functionStat r start attr isStatic) fun a => k.plus
      { blocks := a.blocks w.around } := by
  refine .ite (fun _ => .bind .next fun _ => ?_) fun _ => ?_
  all_goals
    exact .bind functionStyle_gathers fun (keyword, style) => .bind (.expect _) fun _ =>
      .bind (functionName_gathers _) fun name => .bind .now fun _ => .bind (h.functionBody w _ _)
      fun _ => .bind (.since _) fun _ => .map (.since _) (by grind)

theorem localFunction_gathers (h : r.Gathers) (start : Span) :
    Gathers w k (localFunction r start) fun s => k.plus (s.known w.around) :=
  .bind functionStyle_gathers fun _ => .bind .next fun _ => .bind .expectName fun _ =>
    .bind (h.functionBody w _ _) fun _ => .map (.since _) (by grind)

theorem skipToken_gathers : Gathers w k skipToken fun s => k.plus (s.known w.around) :=
  .bind .next fun _ => .done _ (by grind)

/-- A function statement is an assignment. -/
theorem assignFunction_gathers (h : r.Gathers) (attr : Attribute) (isStatic : Bool) :
    Gathers w k (do return Stat.assign (← functionStat r (← head) attr isStatic))
      fun s => k.plus (s.known w.around) :=
  .bind .head fun _ => .map (functionStat_gathers h _ _ _) (by grind)

theorem luaStat_gathers (h : r.Gathers) :
    Gathers w k (luaStat r) fun s => k.plus (s.known w.around) := by
  refine .bind .peek fun kind => ?_
  split
  · exact skipToken_gathers.mono (by grind)
  · exact skipToken_gathers.mono (by grind)
  · exact .breakStat
  · exact .labelStat
  · exact .gotoStat
  · exact (doStat_gathers h).mono (by grind)
  · exact (whileStat_gathers h).mono (by grind)
  · exact (repeatStat_gathers h).mono (by grind)
  · exact (ifStat_gathers h).mono (by grind)
  · exact (forStat_gathers h).mono (by grind)
  · exact (assignFunction_gathers h _ _).mono (by grind)
  · exact .bind .next fun _ => .bind .peek fun _ => .ite
      (fun _ => (localFunction_gathers h _).mono (by grind))
      fun _ => (localDecl_gathers h _).mono (by grind)
  · exact (assignOrCall_gathers h).mono (by grind)

end LuaChunk.Parser
