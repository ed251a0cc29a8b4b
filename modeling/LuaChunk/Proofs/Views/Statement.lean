import LuaChunk.Parser.Statement
import LuaChunk.Proofs.Views.Expression

/-!
# Statements that are looked at
-/

set_option autoImplicit false

namespace LuaChunk.Parser

variable {v : View} {r : Rules}

/-! ## Local names -/

theorem attr_commutes : Commutes v attr attr id := by
  refine .andThen (.accepts .less) fun _ => .ite (fun _ => .still _) fun _ => .bind .expectName
    fun _ => .ite (fun _ => ?_) fun _ => .ite (fun _ => ?_) fun _ =>
    .andThen (.complain _ _) fun _ => ?_
  all_goals exact .andThen (.still _) fun _ => .map (.expect _) fun _ => rfl

/-- The names read so far, as they are seen. -/
def AttrNames.seen (v : View) (read : AttrNames) : AttrNames :=
  { read with names := read.names.map v.param }

theorem moreAttrNames_commutes (read : AttrNames) :
    Commutes v (moreAttrNames read) (moreAttrNames (read.seen v)) (onRound (AttrNames.seen v)) := by
  refine .bind .expectName fun name => .andThen attr_commutes fun attr => ?_
  have rest : Commutes v
      (do
        let read : AttrNames := ⟨read.names.push ⟨name.text, name.span⟩, read.attrs.push attr,
          read.hasClose || attr == .close⟩
        if ← accepts .comma then return .yield read else return .done read)
      (do
        let read : AttrNames := ⟨(read.seen v).names.push ⟨name.text, v.place name.span⟩,
          read.attrs.push attr, read.hasClose || attr == .close⟩
        if ← accepts .comma then return .yield read else return .done read)
      (onRound (AttrNames.seen v)) :=
    .andThen (.accepts _) fun _ => .ite
      (fun _ => .pure (by simp [AttrNames.seen, Param.recast]))
      fun _ => .pure (by simp [AttrNames.seen, Param.recast])
  exact .ite (fun _ => .bind .now fun _ => .andThen (.complain _ _) fun _ => rest) fun _ => rest

theorem attrNames_commutes :
    Commutes v attrNames attrNames (Prod.map (List.map v.param) id) :=
  .map (.iterate (F := AttrNames.seen v) (by simp [AttrNames.seen]) moreAttrNames_commutes)
    fun read => by simp [AttrNames.seen]

theorem localDecl_commutes (h : r.Commutes v) (start : Span) :
    Commutes v (localDecl r start) (localDecl r (v.place start)) v.stat := by
  refine .bind attrNames_commutes fun (names, attrs) => .andThen (.accepts .assign) fun _ => ?_
  split
  · exact .bind (expList_commutes h) fun _ => .map (.since start) fun _ => by simp
  · exact .bind (F := List.map v.exp) (.pure rfl) fun _ => .map (.since start) fun _ => by simp

/-! ## Targets -/

theorem target_commutes (e : Exp) : Commutes v (target e) (target (v.exp e)) v.exp := by
  cases e with
  | name | index | bad => exact .pure rfl
  | _ => exact .andThen (.complain _ _) fun _ => .pure rfl

theorem moreTargets_commutes (h : r.Commutes v) (targets : Array Exp) :
    Commutes v (moreTargets r targets) (moreTargets r (targets.map v.exp))
      (onRound (Array.map v.exp)) :=
  .andThen (.accepts _) fun _ => .ite (fun _ => .bind (prefixExp_commutes h) fun e =>
    .map (target_commutes e) fun _ => by simp) fun _ => .pure rfl

theorem compound_commutes (h : r.Commutes v) (start : Span) (op : BinaryOp) (target : Exp) :
    Commutes v (compound r start op target) (compound r (v.place start) op (v.exp target))
      v.stat := by
  refine .bind .next fun _ => .andThen .peek fun _ => .ite
    (fun _ => .bind (.since start) fun _ => .andThen (.complain _ _) fun _ => .pure rfl)
    fun _ => .bind .next fun _ => .bind (exp_commutes h) fun value => .map (.since start)
    fun _ => by simp [Assignment.compound]

theorem badCompound_commutes (h : r.Commutes v) (start : Span) :
    Commutes v (badCompound r start) (badCompound r (v.place start)) v.stat := by
  refine .bind .next fun _ => .andThen (.accepts _) fun _ => .ite
    (fun _ => .bind (expList_commutes h) fun _ => ?_) fun _ => ?_
  all_goals exact .bind (.since start) fun _ => .andThen (.complain _ _) fun _ => .pure rfl

/-- The same names are declared. -/
theorem implicitLocals_seen (targets : List Exp) (span : Span) :
    implicitLocals (targets.map v.exp) (v.place span) =
      (implicitLocals targets span).recast v.place v.cap := by
  have names (pick : Exp → Option Param) (each : ∀ e, pick (v.exp e) = (pick e).map v.param) :
      (targets.map v.exp).filterMap pick = (targets.filterMap pick).map v.param := by
    rw [List.filterMap_map, List.map_filterMap, show pick ∘ v.exp = _ from funext each]
  unfold implicitLocals
  rw [names _ fun e => by cases e <;> rfl]
  simp only [Declaration.recast, List.map_map, expsRecast_eq, List.map_nil]
  rfl

theorem plainAssign_commutes (h : r.Commutes v) (start : Span) (targets : List Exp) :
    Commutes v (plainAssign r start targets) (plainAssign r (v.place start) (targets.map v.exp))
      v.stat :=
  .andThen (.accepts _) fun _ => .ite (fun _ => .bind (expList_commutes h) fun values =>
    .map (.since start) fun _ => by simp) fun _ => .isMooc <| .ite
    (fun _ => .map (.since start) fun _ => by simp [implicitLocals_seen]) fun _ =>
    .bind (.peekToken 0) fun _ => .andThen (.complain _ _) fun _ => .pure rfl

theorem assignRest_commutes (h : r.Commutes v) (start : Span) (first : Exp) :
    Commutes v (assignRest r start first) (assignRest r (v.place start) (v.exp first)) v.stat := by
  refine .bind (target_commutes first) fun first => .bind (.iterate (F := Array.map v.exp) (by simp)
    (moreTargets_commutes h)) fun targets => .andThen .peek fun kind => ?_
  rw [Array.toList_map]
  cases BinaryOp.ofCompound? kind with
  | none => exact plainAssign_commutes h start targets.toList
  | some op =>
    have several (targets : List Exp) : Commutes v
        (do if ← isMooc then plainAssign r start targets else badCompound r start)
        (do
          if ← isMooc then plainAssign r (v.place start) (targets.map v.exp)
          else badCompound r (v.place start)) v.stat :=
      .isMooc <| .ite (fun _ => plainAssign_commutes h start targets) fun _ =>
        badCompound_commutes h start
    rcases targets.toList with _ | ⟨target, _ | ⟨second, rest⟩⟩
    · exact several []
    · exact compound_commutes h start op target
    · exact several (target :: second :: rest)

theorem assignOrCall_commutes (h : r.Commutes v) :
    Commutes v (assignOrCall r) (assignOrCall r) v.stat := by
  refine .bind .head fun start => .bind (prefixExp_commutes h) fun e => ?_
  cases e with
  | bad => exact .pure rfl
  | call => exact .map (.since start) fun _ => rfl
  | _ => exact assignRest_commutes h start _

/-! ## Bodies -/

theorem openBody_commutes (word : TokenKind) : Commutes v (openBody word) (openBody word) id :=
  .isMooc <| .map (.expect _) fun _ => rfl

theorem closeBody_commutes : Commutes v closeBody closeBody id :=
  .isMooc <| .map (.expect _) fun _ => rfl

theorem brace_commutes (kind : TokenKind) : Commutes v (brace kind) (brace kind) id :=
  .isMooc <| .ite (fun _ => .map (.expect _) fun _ => rfl) fun _ => .still _

theorem loopBody_commutes (h : r.Commutes v) (name : String) :
    Commutes v (loopBody r name) (loopBody r name) v.block :=
  .andThen (openBody_commutes _) fun _ => .bind (.within _ _ h.block) fun _ =>
    .andThen closeBody_commutes fun _ => .pure rfl

/-! ## Simple statements -/

theorem breakStat_commutes : Commutes v breakStat breakStat v.stat :=
  .bind .next fun _ => .andThen .insideLoop fun _ => .ite
    (fun _ => .andThen (.complain _ _) fun _ => .pure rfl) fun _ => .pure rfl

theorem labelStat_commutes : Commutes v labelStat labelStat v.stat :=
  .bind .next fun opening => .bind .expectName fun _ => .bind (.expect _) fun _ =>
    .map (.since opening.span) fun _ => rfl

theorem gotoStat_commutes : Commutes v gotoStat gotoStat v.stat :=
  .bind .next fun _ => .map .expectName fun _ => by simp

theorem skipToken_commutes : Commutes v skipToken skipToken v.stat := .map .next fun _ => rfl

/-! ## Compound statements -/

theorem doStat_commutes (h : r.Commutes v) : Commutes v (doStat r) (doStat r) v.stat :=
  .bind .next fun keyword => .andThen (brace_commutes _) fun _ => .bind (.within _ _ h.block)
    fun _ => .andThen closeBody_commutes fun _ => .map (.since keyword.span) fun _ => rfl

theorem whileStat_commutes (h : r.Commutes v) : Commutes v (whileStat r) (whileStat r) v.stat :=
  .bind .next fun keyword => .bind (exp_commutes h) fun _ => .bind (loopBody_commutes h _)
    fun _ => .map (.since keyword.span) fun _ => rfl

theorem repeatStat_commutes (h : r.Commutes v) : Commutes v (repeatStat r) (repeatStat r) v.stat :=
  .bind .next fun keyword => .andThen (brace_commutes _) fun _ => .bind (.within _ _ h.block)
    fun _ => .andThen (brace_commutes _) fun _ => .bind (.expect _) fun _ =>
    .bind (exp_commutes h) fun _ => .map (.since keyword.span) fun _ => rfl

theorem branch_commutes (h : r.Commutes v) : Commutes v (branch r) (branch r) v.branch :=
  .bind (exp_commutes h) fun _ => .andThen (openBody_commutes _) fun _ =>
    .bind (.within _ _ h.block) fun _ => .andThen (brace_commutes _) fun _ => .pure rfl

theorem moreBranches_commutes (h : r.Commutes v) (branches : Array Branch) :
    Commutes v (moreBranches r branches) (moreBranches r (branches.map v.branch))
      (onRound (Array.map v.branch)) :=
  .andThen (.accepts _) fun _ => .ite (fun _ => .map (branch_commutes h) fun _ => by simp)
    fun _ => .pure rfl

theorem elseBranch_commutes (h : r.Commutes v) :
    Commutes v (elseBranch r) (elseBranch r) (List.map v.branch) := by
  refine .bind (.accept _) fun word => ?_
  cases word with
  | some token =>
    exact .andThen (brace_commutes _) fun _ => .bind (.within _ _ h.block) fun _ =>
      .andThen (brace_commutes _) fun _ => .pure rfl
  | none => exact .pure rfl

theorem ifStat_commutes (h : r.Commutes v) : Commutes v (ifStat r) (ifStat r) v.stat := by
  refine .bind .next fun keyword => .bind (branch_commutes h) fun first => .bind
    (.iterate (F := Array.map v.branch) (by simp) (moreBranches_commutes h)) fun branches =>
    .bind (elseBranch_commutes h) fun last => .isMooc <| .ite
    (fun _ => .bind (.expect _) fun _ => .map (.since keyword.span) fun _ => by simp)
    fun _ => .map (.since keyword.span) fun _ => by simp

/-! ## Loops over ranges and iterators -/

theorem numericFor_commutes (h : r.Commutes v) (start : Span) (var : Param) :
    Commutes v (numericFor r start var) (numericFor r (v.place start) (v.param var)) v.stat := by
  refine .bind (.expect _) fun _ => .bind (exp_commutes h) fun _ => .bind (.expect _) fun _ =>
    .bind (exp_commutes h) fun _ => .andThen (.accepts _) fun _ => .ite (fun _ => ?_) fun _ => ?_
  · exact .bind (exp_commutes h) fun _ => .bind (loopBody_commutes h _) fun _ =>
      .map (.since start) fun _ => rfl
  · exact .bind (F := v.exp) (.pure (by simp)) fun _ => .bind (loopBody_commutes h _) fun _ =>
      .map (.since start) fun _ => rfl

theorem moreVars_commutes (vars : Array Param) :
    Commutes v (moreVars vars) (moreVars (vars.map v.param)) (onRound (Array.map v.param)) :=
  .andThen (.accepts _) fun _ => .ite
    (fun _ => .map .expectName fun _ => by simp [Param.recast]) fun _ => .pure rfl

theorem genericFor_commutes (h : r.Commutes v) (start : Span) (first : Param) :
    Commutes v (genericFor r start first) (genericFor r (v.place start) (v.param first)) v.stat :=
  .bind (.iterate (F := Array.map v.param) (by simp) moreVars_commutes) fun _ =>
    .bind (.expect _) fun _ => .bind (expList_commutes h) fun _ =>
    .bind (loopBody_commutes h _) fun _ => .map (.since start) fun _ => by simp

theorem forStat_commutes (h : r.Commutes v) : Commutes v (forStat r) (forStat r) v.stat :=
  .bind .next fun keyword => .bind .expectName fun name => .andThen .peek fun _ => .ite
    (fun _ => numericFor_commutes h keyword.span ⟨name.text, name.span⟩)
    fun _ => genericFor_commutes h keyword.span ⟨name.text, name.span⟩

/-! ## Functions -/

theorem functionStyle_commutes : Commutes v functionStyle functionStyle id :=
  .isMooc <| .ite (fun _ => .still _) fun _ => .still _

/-- The name of a function, as it is seen. -/
def FunctionName.seen (v : View) (f : FunctionName) : FunctionName :=
  { f with target := v.exp f.target }

theorem FunctionName.member_seen (f : FunctionName) (token : Token) (isMethod : Bool) :
    (f.seen v).member (v.token token) isMethod = (f.member token isMethod).seen v := by
  simp [member, seen]

theorem dottedName_commutes : Commutes v dottedName dottedName (FunctionName.seen v) := by
  refine .bind .expectName fun first => .bind (.iterate (F := FunctionName.seen v) rfl fun f => ?_)
    fun f => .andThen (.accepts _) fun _ => .ite
    (fun _ => .map .expectName fun token => FunctionName.member_seen f token true)
    fun _ => .pure rfl
  exact .andThen (.accepts _) fun _ => .ite
    (fun _ => .map .expectName fun token => by simp [FunctionName.member_seen]) fun _ => .pure rfl

theorem functionName_commutes (isStatic : Bool) :
    Commutes v (functionName isStatic) (functionName isStatic) (FunctionName.seen v) := by
  refine .isMooc <| .andThen .scopes fun _ => ?_
  split
  · exact .map .expectName fun _ => by simp [FunctionName.seen]
  · exact dottedName_commutes

theorem functionStat_commutes (h : r.Commutes v) (start : Span) (attr : Attribute)
    (isStatic : Bool) : Commutes v (functionStat r start attr isStatic)
      (functionStat r (v.place start) attr isStatic) v.assignment := by
  refine .ite (fun _ => .bind .next fun _ => ?_) fun _ => ?_
  all_goals
    refine .andThen functionStyle_commutes fun (_, _) => .bind (.expect _) fun keyword =>
      .bind (functionName_commutes _) fun name => .bind .now fun self => .bind (h.functionBody _)
      fun body => .bind (.since keyword.span) fun _ => .map (.since start) fun _ => ?_
    cases body
    cases method : name.isMethod <;> simp [FunctionName.seen, method, Param.recast]

theorem localFunction_commutes (h : r.Commutes v) (start : Span) :
    Commutes v (localFunction r start) (localFunction r (v.place start)) v.stat :=
  .andThen functionStyle_commutes fun (_, _) => .bind .next fun _ => .bind .expectName fun _ =>
    .bind (h.functionBody _) fun body => .map (.since start) fun _ => by
      cases body
      simp [Param.recast]

theorem assignFunction_commutes (h : r.Commutes v) (start : Span) (attr : Attribute)
    (isStatic : Bool) : Commutes v (do return Stat.assign (← functionStat r start attr isStatic))
      (do return Stat.assign (← functionStat r (v.place start) attr isStatic)) v.stat :=
  .map (functionStat_commutes h start attr isStatic) fun _ => rfl

theorem luaStat_commutes (h : r.Commutes v) : Commutes v (luaStat r) (luaStat r) v.stat := by
  refine .andThen .peek fun kind => ?_
  split
  · exact skipToken_commutes
  · exact skipToken_commutes
  · exact breakStat_commutes
  · exact labelStat_commutes
  · exact gotoStat_commutes
  · exact doStat_commutes h
  · exact whileStat_commutes h
  · exact repeatStat_commutes h
  · exact ifStat_commutes h
  · exact forStat_commutes h
  · exact .bind .head fun start => assignFunction_commutes h start _ _
  · exact .bind .next fun keyword => .andThen .peek fun _ => .ite
      (fun _ => localFunction_commutes h keyword.span) fun _ => localDecl_commutes h keyword.span
  · exact assignOrCall_commutes h

end LuaChunk.Parser
