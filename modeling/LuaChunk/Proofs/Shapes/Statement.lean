import LuaChunk.Proofs.Shapes.Expression

/-!
# The shapes of statements
-/

set_option autoImplicit false

namespace LuaChunk.Parser

variable {c : Settings} {r : Rules}

/-! ## Local names -/

theorem attr_runs : Runs c attr := by
  refine .andThen (.accepts .less) fun _ => .ite (fun _ => .done _) fun _ => .andThen .expectName
    fun _ => .ite (fun _ => ?_) fun _ => .ite (fun _ => ?_) fun _ => .andThen (.complain _ _) fun _ => ?_
  all_goals exact .andThen (.done _) fun _ => .andThen (.expect _) fun _ => .done _

/-- Every name gets an attribute. -/
theorem attrNames_yields : Yields c attrNames fun (names, attrs) => attrs.length = names.length := by
  refine .map (.loop (fun read : AttrNames => read.attrs.size = read.names.size) rfl fun read same =>
    .andThen .expectName fun _ => .andThen attr_runs fun _ => ?_) fun read same => by simpa using same
  have rest (next : AttrNames) (same : next.attrs.size = next.names.size) :
      Yields c (do if ← accepts .comma then return .yield next else return .done next)
        fun next : ForInStep AttrNames => next.value.attrs.size = next.value.names.size :=
    .andThen (.accepts _) fun _ => .ite (fun _ => .pure same) fun _ => .pure same
  refine .ite (fun _ => .andThen .now fun _ => .andThen (.complain _ _) fun _ => rest _ ?_)
    fun _ => rest _ ?_
  · simp [same]
  · simp [same]

theorem localDecl_yields (h : r.Shapely c) (start : Span) :
    Yields c (localDecl r start) fun s => s.WellFormed c.fieldCap := by
  refine .bind attrNames_yields fun (names, attrs) same => .andThen (.accepts .assign) fun _ => ?_
  split
  · exact .bind (expList_yields h) fun _ _ => .ending (.since start) (by grind)
  · exact .bind (P := fun es => es = []) (.pure rfl) fun _ _ => .ending (.since start) (by grind)

/-! ## Targets -/

/-- An expression that may stand to the left of an assignment. -/
@[grind =]
def IsTarget (cap : Option Nat) (e : Exp) : Prop := e.isTarget = true ∧ e.WellFormed cap

/-- What cannot be assigned to is replaced. -/
theorem target_yields {e : Exp} (holds : e.WellFormed c.fieldCap) :
    Yields c (target e) (IsTarget c.fieldCap) := by
  unfold target
  split
  · exact .pure (by grind)
  · exact .pure (by grind)
  · exact .pure (by grind)
  · exact .andThen (.complain _ _) fun _ => .pure (by grind)

theorem compound_yields (h : r.Shapely c) (start : Span) (op : BinaryOp) {target : Exp}
    (holds : IsTarget c.fieldCap target) :
    Yields c (compound r start op target) fun s => s.WellFormed c.fieldCap := by
  refine .andThen .next fun _ => .andThen .peek fun _ => .ite
    (fun _ => .andThen (.since _) fun _ => .andThen (.complain _ _) fun _ => .pure (by grind))
    fun _ => .andThen .next fun _ => .bind (exp_yields h) fun value right =>
      .ending (.since start) fun span => ?_
  rw [Stat.WellFormed]
  exact Assignment.wellFormed_compound holds.1 holds.2 right

theorem badCompound_yields (h : r.Shapely c) (start : Span) :
    Yields c (badCompound r start) fun s => s.WellFormed c.fieldCap := by
  refine .andThen .next fun _ => .andThen (.accepts _) fun _ => .ite
    (fun _ => .bind (expList_yields h) fun _ _ => ?_) fun _ => ?_
  all_goals
    exact .andThen (.since _) fun _ => .andThen (.complain _ _) fun _ => .pure (by grind)

theorem plainAssign_yields (h : r.Shapely c) (start : Span) {targets : List Exp}
    (some : targets ≠ []) (all : ∀ t ∈ targets, IsTarget c.fieldCap t) :
    Yields c (plainAssign r start targets) fun s => s.WellFormed c.fieldCap := by
  refine .andThen (.accepts _) fun _ => .ite (fun _ => .bind (expList_yields h) fun values _ =>
    .ending (.since start) (by grind)) fun _ => .andThen .isMooc fun _ => .ite
    (fun _ => .ending (.since start) fun span => ?_) fun _ =>
    .andThen (.peekToken 0) fun _ => .andThen (.complain _ _) fun _ => .pure (by grind)
  simp [implicitLocals, Stat.WellFormed, Declaration.WellFormed, expsWellFormed]

theorem assignRest_yields (h : r.Shapely c) (start : Span) {first : Exp}
    (holds : first.WellFormed c.fieldCap) :
    Yields c (assignRest r start first) fun s => s.WellFormed c.fieldCap := by
  refine .bind (target_yields holds) fun first holds => .bind (.loop
    (fun es : Array Exp => first ∈ es.toList ∧ ∀ t ∈ es.toList, IsTarget c.fieldCap t) (by grind)
    fun es all => ?_) fun targets all => .andThen .peek fun kind => ?_
  · exact .andThen (.accepts _) fun _ => .ite (fun _ => .bind (wellFormed_prefixExp h)
      fun e holds => .map (target_yields holds) (by grind)) fun _ => .pure (by grind)
  · split
    · exact compound_yields h start _ (by grind)
    · exact .andThen .isMooc fun _ => .ite
        (fun _ => plainAssign_yields h start (by grind) (by grind)) fun _ => badCompound_yields h start
    · exact plainAssign_yields h start (by grind) (by grind)

theorem assignOrCall_yields (h : r.Shapely c) :
    Yields c (assignOrCall r) fun s => s.WellFormed c.fieldCap := by
  refine .andThen .head fun start => .bind (prefixExp_yields h) fun e shape => ?_
  split
  · exact .pure (by grind)
  · exact .ending (.since start) (by grind)
  · exact assignRest_yields h start (by grind)

/-! ## Bodies -/

theorem openBody_runs (word : TokenKind) : Runs c (openBody word) :=
  .andThen .isMooc fun _ => .andThen (.expect _) fun _ => .done _

theorem closeBody_runs : Runs c closeBody :=
  .andThen .isMooc fun _ => .andThen (.expect _) fun _ => .done _

theorem brace_runs (kind : TokenKind) : Runs c (brace kind) :=
  .andThen .isMooc fun _ => .ite (fun _ => .andThen (.expect _) fun _ => .done _) fun _ => .done _

theorem loopBody_yields (h : r.Shapely c) (name : String) :
    Yields c (loopBody r name) fun b => b.WellFormed c.fieldCap :=
  .andThen (openBody_runs _) fun _ => .bind (.within _ _ h.block) fun _ holds =>
    .andThen closeBody_runs fun _ => .pure holds

/-! ## Simple statements -/

theorem breakStat_yields : Yields c breakStat fun s => s.WellFormed c.fieldCap :=
  .andThen .next fun _ => .andThen .insideLoop fun _ => .ite
    (fun _ => .andThen (.complain _ _) fun _ => .pure (by grind)) fun _ => .pure (by grind)

theorem labelStat_yields : Yields c labelStat fun s => s.WellFormed c.fieldCap :=
  .andThen .next fun _ => .andThen .expectName fun _ => .andThen (.expect _) fun _ =>
    .ending (.since _) (by grind)

theorem gotoStat_yields : Yields c gotoStat fun s => s.WellFormed c.fieldCap :=
  .andThen .next fun _ => .andThen .expectName fun _ => .pure (by grind)

theorem skipToken_yields : Yields c skipToken fun s => s.WellFormed c.fieldCap :=
  .andThen .next fun _ => .pure (by grind)

/-! ## Compound statements -/

theorem doStat_yields (h : r.Shapely c) : Yields c (doStat r) fun s => s.WellFormed c.fieldCap :=
  .andThen .next fun _ => .andThen (brace_runs _) fun _ => .bind (.within _ _ h.block) fun _ _ =>
    .andThen closeBody_runs fun _ => .ending (.since _) (by grind)

theorem whileStat_yields (h : r.Shapely c) :
    Yields c (whileStat r) fun s => s.WellFormed c.fieldCap :=
  .andThen .next fun _ => .bind (exp_yields h) fun _ _ => .bind (loopBody_yields h _) fun _ _ =>
    .ending (.since _) (by grind)

theorem repeatStat_yields (h : r.Shapely c) :
    Yields c (repeatStat r) fun s => s.WellFormed c.fieldCap :=
  .andThen .next fun _ => .andThen (brace_runs _) fun _ => .bind (.within _ _ h.block) fun _ _ =>
    .andThen (brace_runs _) fun _ => .andThen (.expect _) fun _ => .bind (exp_yields h)
    fun _ _ => .ending (.since _) (by grind)

theorem branch_yields (h : r.Shapely c) :
    Yields c (branch r) fun b => b.WellFormed c.fieldCap :=
  .bind (exp_yields h) fun _ _ => .andThen (openBody_runs _) fun _ => .bind (.within _ _ h.block)
    fun _ _ => .andThen (brace_runs _) fun _ => .pure (by grind)

theorem elseBranch_yields (h : r.Shapely c) :
    Yields c (elseBranch r) fun bs => ∀ b ∈ bs, b.WellFormed c.fieldCap := by
  refine .andThen (.accept _) fun word => ?_
  split
  · exact .andThen (brace_runs _) fun _ => .bind (.within _ _ h.block) fun _ _ =>
      .andThen (brace_runs _) fun _ => .pure (by grind)
  · exact .pure (by grind)

/-- The first branch is always there. -/
theorem ifStat_yields (h : r.Shapely c) : Yields c (ifStat r) fun s => s.WellFormed c.fieldCap := by
  refine .andThen .next fun keyword => .bind (branch_yields h) fun first holds => .bind (.loop
    (fun bs : Array Branch => first ∈ bs.toList ∧ ∀ b ∈ bs.toList, b.WellFormed c.fieldCap)
    (by grind) fun bs all => ?_) fun branches all => .bind (elseBranch_yields h) fun last others =>
    .andThen .isMooc fun _ => ?_
  · exact .andThen (.accepts _) fun _ => .ite (fun _ => .map (branch_yields h) (by grind))
      fun _ => .pure all
  · exact .ite (fun _ => .andThen (.expect _) fun _ => .ending (.since _) (by grind))
      fun _ => .ending (.since _) (by grind)

/-! ## Loops over ranges and iterators -/

theorem numericFor_yields (h : r.Shapely c) (start : Span) (var : Param) :
    Yields c (numericFor r start var) fun s => s.WellFormed c.fieldCap := by
  refine .andThen (.expect _) fun _ => .bind (exp_yields h) fun _ _ => .andThen (.expect _)
    fun _ => .bind (exp_yields h) fun _ _ => .andThen (.accepts _) fun _ => .ite (fun _ => ?_)
    fun _ => ?_
  · exact .bind (exp_yields h) fun _ _ => .bind (loopBody_yields h _) fun _ _ =>
      .ending (.since start) (by grind)
  · exact .bind (P := fun e => e.WellFormed c.fieldCap) (.pure (by grind)) fun _ _ =>
      .bind (loopBody_yields h _) fun _ _ => .ending (.since start) (by grind)

/-- There is a variable before the first comma. -/
theorem genericFor_yields (h : r.Shapely c) (start : Span) (first : Param) :
    Yields c (genericFor r start first) fun s => s.WellFormed c.fieldCap := by
  refine .bind (.loop (fun vars : Array Param => first ∈ vars.toList) (by grind) fun vars kept => ?_)
    fun vars kept => .andThen (.expect _) fun _ => .bind (expList_yields h) fun _ _ =>
    .bind (loopBody_yields h _) fun _ _ => .ending (.since start) (by grind)
  exact .andThen (.accepts _) fun _ => .ite (fun _ => .ending .expectName (by grind))
    fun _ => .pure kept

theorem forStat_yields (h : r.Shapely c) :
    Yields c (forStat r) fun s => s.WellFormed c.fieldCap :=
  .andThen .next fun _ => .andThen .expectName fun _ => .andThen .peek fun _ =>
    .ite (fun _ => numericFor_yields h _ _) fun _ => genericFor_yields h _ _

/-! ## Functions -/

theorem functionStyle_runs : Runs c functionStyle :=
  .andThen .isMooc fun _ => .ite (fun _ => .done _) fun _ => .done _

/-- The name of a function statement is a name or a member of one. -/
@[grind =]
def FunctionName.WellFormed (cap : Option Nat) (f : FunctionName) : Prop :=
  IsTarget cap f.target ∧ f.target.isPrefix = true

theorem dottedName_yields : Yields c dottedName (FunctionName.WellFormed c.fieldCap) := by
  refine .andThen .expectName fun _ => .bind (.loop (FunctionName.WellFormed c.fieldCap) (by grind)
    fun f holds => ?_) fun f holds => .andThen (.accepts _) fun _ => .ite (fun _ => ?_)
    fun _ => .pure holds
  · exact .andThen (.accepts _) fun _ => .ite (fun _ => .ending .expectName
      (by grind [FunctionName.member])) fun _ => .pure holds
  · exact .ending .expectName (by grind [FunctionName.member])

theorem functionName_yields (isStatic : Bool) :
    Yields c (functionName isStatic) (FunctionName.WellFormed c.fieldCap) := by
  refine .andThen .isMooc fun _ => .andThen .scopes fun _ => ?_
  split
  · exact .andThen .expectName fun _ => .pure (by grind)
  · exact dottedName_yields

/-- A method is given `self` before its own parameters. -/
theorem functionStat_yields (h : r.Shapely c) (start : Span) (attr : Attribute) (isStatic : Bool) :
    Yields c (functionStat r start attr isStatic) fun a => a.WellFormed c.fieldCap := by
  have assigned {name : FunctionName} {body : FunctionBody} (target : name.WellFormed c.fieldCap)
      (holds : body.WellFormed c.fieldCap) (self span span' : Span) :
      Assignment.WellFormed c.fieldCap
        { targets := [name.target]
          values := [.function { body with
            params := if name.isMethod then ⟨"self", self⟩ :: body.params else body.params
            isMethod := name.isMethod, owner := name.owner, name := some name.name } span]
          attr, span := span' } := by
    obtain ⟨⟨assignable, wellFormed⟩, -⟩ := target
    cases method : name.isMethod <;>
      simp_all [Assignment.WellFormed, expsWellFormed, Exp.WellFormed, FunctionBody.wellFormed_iff]
  refine .ite (fun _ => .andThen .next fun _ => ?_) fun _ => ?_
  all_goals
    exact .andThen functionStyle_runs fun _ => .andThen (.expect _) fun _ =>
      .bind (functionName_yields _) fun _ target => .andThen .now fun _ =>
      .bind (h.functionBody _) fun _ holds => .andThen (.since _) fun _ =>
      .ending (.since _) fun _ => assigned target holds _ _ _

theorem localFunction_yields (h : r.Shapely c) (start : Span) :
    Yields c (localFunction r start) fun s => s.WellFormed c.fieldCap :=
  .andThen functionStyle_runs fun (_, _) => .andThen .next fun _ => .andThen .expectName fun _ =>
    .bind (h.functionBody _) fun _ _ => .ending (.since _) (by grind)

theorem assignFunction_yields (h : r.Shapely c) (start : Span) (attr : Attribute)
    (isStatic : Bool) :
    Yields c (do return Stat.assign (← functionStat r start attr isStatic))
      fun s => s.WellFormed c.fieldCap :=
  .map (functionStat_yields h start attr isStatic) (by grind)

theorem luaStat_yields (h : r.Shapely c) :
    Yields c (luaStat r) fun s => s.WellFormed c.fieldCap := by
  refine .andThen .peek fun kind => ?_
  split
  · exact skipToken_yields
  · exact skipToken_yields
  · exact breakStat_yields
  · exact labelStat_yields
  · exact gotoStat_yields
  · exact doStat_yields h
  · exact whileStat_yields h
  · exact repeatStat_yields h
  · exact ifStat_yields h
  · exact forStat_yields h
  · exact .andThen .head fun _ => assignFunction_yields h _ _ _
  · exact .andThen .next fun _ => .andThen .peek fun _ => .ite
      (fun _ => localFunction_yields h _) fun _ => localDecl_yields h _
  · exact assignOrCall_yields h

end LuaChunk.Parser
