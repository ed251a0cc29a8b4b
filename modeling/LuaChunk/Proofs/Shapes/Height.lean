import LuaChunk.Proofs.Shapes.Mooc
import LuaChunk.Proofs.Tree.Height

/-!
# How high the trees of a reading are

Every level of the rules adds one expression to the longest way down a tree, and a statement adds
one or two of its own.  What the loops of a parser add lies to the left and has no weight: after an
operator, a field, an index or a call the loop goes on with a tree that is one step higher on the
left, and on the right it has what a deeper level has read.
-/

set_option autoImplicit false

namespace LuaChunk

/-- The rules return trees up to a height, and statements up to one more. -/
structure Rules.Bounded (c : Settings) (r : Rules) (m : Nat) : Prop where
  pos : 0 < m
  block : Parser.Yields c r.block fun b => b.height 0 ≤ m
  stat : Parser.Yields c r.stat fun s => s.height 0 ≤ m + 1
  operation (limit : Nat) : Parser.Yields c (r.operation limit) fun e => e.height 0 ≤ m
  functionBody (style : FunctionStyle) :
    Parser.Yields c (r.functionBody style) fun b => b.height 0 ≤ m
  table : Parser.Yields c r.table fun e => e.height 0 ≤ m
  parenthesised : Parser.Yields c r.parenthesised fun e => e.height 0 ≤ m

namespace Parser

variable {c : Settings} {r : Rules} {m : Nat}

/-! ## Expressions -/

theorem exp_height (h : r.Bounded c m) : Yields c r.exp fun e => e.height 0 ≤ m := h.operation 0

theorem expList_height (h : r.Bounded c m) :
    Yields c (expList r) fun es => ∀ e ∈ es, e.height 0 ≤ m := by
  refine .bind (exp_height h) fun first holds => .map (.loop
    (fun es : Array Exp => ∀ e ∈ es.toList, e.height 0 ≤ m) (by grind) fun es all => ?_) (by grind)
  exact .andThen (.accepts .comma) fun _ => .ite (fun _ => .map (exp_height h) (by grind))
    fun _ => .pure (by grind)

theorem numeral_height : Yields c numeral fun e => e.height 0 ≤ 1 := by
  refine .andThen .next fun token => ?_
  split
  · exact .pure (by grind)
  · exact .pure (by grind)
  · exact .andThen (.complain _ _) fun _ => .pure (by grind)

theorem functionBody_height (h : r.Bounded c m) (style : FunctionStyle) :
    Yields c (functionBody r style) fun b => b.height 0 ≤ m :=
  .andThen (.expect _) fun _ => .andThen params_runs fun (_, _) =>
    .andThen (openFunctionBlock_runs style) fun _ => .bind (.within _ _ h.block) fun _ _ =>
    .andThen (.expect _) fun _ => .pure (by grind)

theorem functionExp_height (h : r.Bounded c m) (style : FunctionStyle) (start : Span) :
    Yields c (functionExp r style start) fun e => e.height 0 ≤ m + 1 :=
  .bind (h.functionBody style) fun _ _ => .ending (.since start) (by grind)

/-- A field of which neither part is higher. -/
@[grind =]
def FieldBounded (m : Nat) (field : Option Exp × Exp) : Prop :=
  (∀ key, field.1 = some key → key.height 0 ≤ m) ∧ field.2.height 0 ≤ m

theorem plainField_height (h : r.Bounded c m) : Yields c (plainField r) (FieldBounded m) := by
  have pos := h.pos
  refine .bind (exp_height h) fun e _ => ?_
  split
  · exact .andThen (.accepts .assign) fun _ => .ite (fun _ => .map (exp_height h) (by grind))
      fun _ => .pure (by grind)
  · exact .pure (by grind)

theorem field_height (h : r.Bounded c m) : Yields c (field r) (FieldBounded m) := by
  have pos := h.pos
  refine .andThen (.accepts .lbracket) fun _ => .ite (fun _ => ?_) fun _ =>
    .andThen .isMooc fun _ => .ite (fun _ => plainField_height h) fun _ =>
    .andThen atLiteralKey_runs fun _ => .ite (fun _ => ?_) fun _ =>
    .andThen (.onTokens _) fun _ => .ite (fun _ => ?_) fun _ => plainField_height h
  · exact .bind (exp_height h) fun _ _ => .andThen (.expect .rbracket) fun _ =>
      .andThen (.expect .assign) fun _ => .map (exp_height h) (by grind)
  · exact .bind (exp_height h) fun _ _ => .andThen (.expect .assign) fun _ =>
      .map (exp_height h) (by grind)
  · exact .andThen .next fun _ => .andThen .expectName fun _ => .pure (by grind)

theorem table_height (h : r.Bounded c m) : Yields c (table r) fun e => e.height 0 ≤ m + 1 := by
  refine .andThen (.expect .lbrace) fun _ => .bind (.loop
    (fun fields => ∀ f ∈ fields.toList, FieldBounded m f) (by grind) fun fields all => ?_)
    fun fields all => .andThen (.expect .rbrace) fun _ => .andThen (.since _) fun span =>
    .ending (.ask id) fun s => ?_
  · refine .andThen .peek fun _ => .ite (fun _ => .pure all) fun _ =>
      .bind (field_height h) fun _ _ => .andThen .peek fun _ => .ite (fun _ => ?_) fun _ => ?_
    · exact .andThen .next fun _ => .pure (by grind)
    · exact .pure (by grind)
  · grind

theorem args_height (h : r.Bounded c m) :
    Yields c (args r) fun es => ∀ e ∈ es, e.height 0 ≤ m := by
  have pos := h.pos
  refine .andThen .peek fun _ => .andThen .isMooc fun _ => .ite (fun _ => ?_) fun _ =>
    .ite (fun _ => ?_) fun _ => .andThen (.expect .lparen) fun _ => .andThen .peek fun _ => ?_
  · exact .andThen .next fun _ => .pure (by grind)
  · exact .map h.table (by grind)
  · split
    · exact .bind (P := fun es => es = []) (.pure rfl) fun _ _ =>
        .andThen (.expect .rparen) fun _ => .pure (by grind)
    · exact .bind (expList_height h) fun _ all => .andThen (.expect .rparen) fun _ => .pure all

theorem callOf_height (h : r.Bounded c m) {callee : Exp} (low : callee.height 0 ≤ m + 1)
    (method : Option Param) : Yields c (callOf r callee method) fun e => e.height 0 ≤ m + 1 :=
  .bind (args_height h) fun _ _ => .ending (.since _) (by grind)

/-- One step more to the left, and what is to the right has been read at a deeper level. -/
theorem suffix_height (h : r.Bounded c m) {e : Exp} (low : e.height 0 ≤ m + 1) :
    Yields c (suffix r e) fun next => next.value.height 0 ≤ m + 1 := by
  have pos := h.pos
  have called {callee : Exp} (low : callee.height 0 ≤ m + 1) (method : Option Param) :
      Yields c (do return .yield (← callOf r callee method))
        fun next : ForInStep Exp => next.value.height 0 ≤ m + 1 :=
    .map (callOf_height h low method) fun _ => id
  refine .andThen .peek fun kind => ?_
  split
  · exact .andThen .next fun _ => .andThen .expectName fun _ => .pure (by grind)
  · exact .andThen .next fun _ => .bind (exp_height h) fun _ _ =>
      .andThen (.expect .rbracket) fun _ => .ending (.since _) (by grind)
  · exact .andThen atMethodCall_runs fun _ => .ite (fun _ => .andThen .next fun _ =>
      .andThen .expectName fun _ => called low _) fun _ => .pure low
  · exact called low none
  · exact .andThen .isMooc fun _ => .ite (fun _ => .pure low) fun _ => called low none
  · exact .andThen .isMooc fun _ => .ite (fun _ => .pure low) fun _ => called low none
  · exact .pure low

theorem prefixExp_height (h : r.Bounded c m) :
    Yields c (prefixExp r) fun e => e.height 0 ≤ m + 1 := by
  refine .andThen .peek fun kind => ?_
  split
  · exact .andThen .next fun _ => .loop (fun e : Exp => e.height 0 ≤ m + 1) (by grind)
      fun _ => suffix_height h
  · exact .andThen .next fun _ => .bind h.parenthesised fun _ _ => .andThen (.expect .rparen)
      fun _ => .andThen (.since _) fun _ => .loop (fun e : Exp => e.height 0 ≤ m + 1) (by grind)
      fun _ => suffix_height h
  · exact .andThen .next fun _ => .andThen (.complain _ _) fun _ => .pure (by grind)

theorem literal_height (e : Span → Exp) (leaf : ∀ s, (e s).height 0 ≤ m + 1) :
    Yields c (literal e) fun e => e.height 0 ≤ m + 1 :=
  .ending .next fun _ => leaf _

theorem primary_height (h : r.Bounded c m) :
    Yields c (primary r) fun e => e.height 0 ≤ m + 1 := by
  refine .andThen .peek fun kind => ?_
  split
  · exact literal_height _ (by grind)
  · exact literal_height _ (by grind)
  · exact literal_height _ (by grind)
  · exact literal_height _ (by grind)
  · exact .andThen .next fun _ => .pure (by grind)
  · exact numeral_height.mono (by grind)
  · exact .andThen atAnonymousFunction_runs fun _ => .ite
      (fun _ => .andThen .head fun _ => functionExp_height h _ _) fun _ => h.table.mono (by grind)
  · exact .andThen .isMooc fun _ => .ite (fun _ => prefixExp_height h) fun _ =>
      .andThen .next fun _ => functionExp_height h _ _
  · exact .andThen .next fun _ => functionExp_height h _ _
  · exact prefixExp_height h

theorem operation_height (h : r.Bounded c m) (limit : Nat) :
    Yields c (operation r limit) fun e => e.height 0 ≤ m + 1 := by
  have operand : Yields c (operand r) fun e => e.height 0 ≤ m + 1 := by
    refine .andThen .peek fun kind => ?_
    split
    · exact .andThen .next fun _ => .bind (h.operation _) fun _ _ => .ending (.since _) (by grind)
    · exact primary_height h
  refine .andThen .head fun start => .bind operand fun first low =>
    .loop (fun e : Exp => e.height 0 ≤ m + 1) low fun left low => .andThen .peek fun kind => ?_
  split
  · exact .ite (fun _ => .pure low) fun _ => .andThen .next fun _ =>
      .bind (h.operation _) fun _ _ => .ending (.since _) (by grind)
  · exact .pure low

/-! ## Statements of both dialects -/

theorem localDecl_height (h : r.Bounded c m) (start : Span) :
    Yields c (localDecl r start) fun s => s.height 0 ≤ m + 2 := by
  refine .bind attrNames_yields fun (names, attrs) _ => .andThen (.accepts .assign) fun _ => ?_
  split
  · exact .bind (expList_height h) fun _ _ => .ending (.since start) (by grind)
  · exact .bind (P := fun es => es = []) (.pure rfl) fun _ _ => .ending (.since start) (by grind)

theorem target_height {e : Exp} (low : e.height 0 ≤ m + 1) :
    Yields c (target e) fun e => e.height 0 ≤ m + 1 := by
  unfold target
  split
  · exact .pure low
  · exact .pure low
  · exact .pure low
  · exact .andThen (.complain _ _) fun _ => .pure (by grind)

/-- The value is written in parentheses to the right of the operator. -/
theorem compound_height (h : r.Bounded c m) (start : Span) (op : BinaryOp) {target : Exp}
    (low : target.height 0 ≤ m + 1) :
    Yields c (compound r start op target) fun s => s.height 0 ≤ m + 2 := by
  refine .andThen .next fun _ => .andThen .peek fun _ => .ite
    (fun _ => .andThen (.since _) fun _ => .andThen (.complain _ _) fun _ => .pure (by grind))
    fun _ => .andThen .next fun _ => .bind (exp_height h) fun value right =>
      .ending (.since start) (by grind [Assignment.compound])

theorem badCompound_height (h : r.Bounded c m) (start : Span) :
    Yields c (badCompound r start) fun s => s.height 0 ≤ m + 2 := by
  refine .andThen .next fun _ => .andThen (.accepts _) fun _ => .ite
    (fun _ => .bind (expList_height h) fun _ _ => ?_) fun _ => ?_
  all_goals
    exact .andThen (.since _) fun _ => .andThen (.complain _ _) fun _ => .pure (by grind)

theorem plainAssign_height (h : r.Bounded c m) (start : Span) {targets : List Exp}
    (low : ∀ t ∈ targets, t.height 0 ≤ m + 1) :
    Yields c (plainAssign r start targets) fun s => s.height 0 ≤ m + 2 :=
  .andThen (.accepts _) fun _ => .ite (fun _ => .bind (expList_height h) fun values _ =>
    .ending (.since start) (by grind)) fun _ => .andThen .isMooc fun _ => .ite
    (fun _ => .ending (.since start) (by grind [implicitLocals, expsHeight])) fun _ =>
    .andThen (.peekToken 0) fun _ => .andThen (.complain _ _) fun _ => .pure (by grind)

theorem assignRest_height (h : r.Bounded c m) (start : Span) {first : Exp}
    (low : first.height 0 ≤ m + 1) :
    Yields c (assignRest r start first) fun s => s.height 0 ≤ m + 2 := by
  refine .bind (target_height low) fun first low => .bind (.loop
    (fun es : Array Exp => first ∈ es.toList ∧ ∀ t ∈ es.toList, t.height 0 ≤ m + 1) (by grind)
    fun es all => ?_) fun targets all => .andThen .peek fun kind => ?_
  · exact .andThen (.accepts _) fun _ => .ite (fun _ => .bind (prefixExp_height h)
      fun e low => .map (target_height low) (by grind)) fun _ => .pure (by grind)
  · split
    · exact compound_height h start _ (by grind)
    · exact .andThen .isMooc fun _ => .ite
        (fun _ => plainAssign_height h start (by grind)) fun _ => badCompound_height h start
    · exact plainAssign_height h start (by grind)

theorem assignOrCall_height (h : r.Bounded c m) :
    Yields c (assignOrCall r) fun s => s.height 0 ≤ m + 2 := by
  refine .andThen .head fun start => .bind (prefixExp_height h) fun e low => ?_
  split
  · exact .pure (by grind)
  · exact .ending (.since start) (by grind)
  · exact assignRest_height h start (by grind)

theorem loopBody_height (h : r.Bounded c m) (name : String) :
    Yields c (loopBody r name) fun b => b.height 0 ≤ m :=
  .andThen (openBody_runs _) fun _ => .bind (.within _ _ h.block) fun _ holds =>
    .andThen closeBody_runs fun _ => .pure holds

/-- A statement without parts. -/
theorem simple_height {p : Parser Stat} (h : Yields c p fun s => s.height 0 = 0) :
    Yields c p fun s => s.height 0 ≤ m + 2 :=
  h.mono (by grind)

theorem breakStat_height : Yields c breakStat fun s => s.height 0 = 0 :=
  .andThen .next fun _ => .andThen .insideLoop fun _ => .ite
    (fun _ => .andThen (.complain _ _) fun _ => .pure (by grind)) fun _ => .pure (by grind)

theorem labelStat_height : Yields c labelStat fun s => s.height 0 = 0 :=
  .andThen .next fun _ => .andThen .expectName fun _ => .andThen (.expect _) fun _ =>
    .ending (.since _) (by grind)

theorem gotoStat_height : Yields c gotoStat fun s => s.height 0 = 0 :=
  .andThen .next fun _ => .andThen .expectName fun _ => .pure (by grind)

theorem skipToken_height : Yields c skipToken fun s => s.height 0 = 0 :=
  .andThen .next fun _ => .pure (by grind)

theorem doStat_height (h : r.Bounded c m) : Yields c (doStat r) fun s => s.height 0 ≤ m + 2 :=
  .andThen .next fun _ => .andThen (brace_runs _) fun _ => .bind (.within _ _ h.block) fun _ _ =>
    .andThen closeBody_runs fun _ => .ending (.since _) (by grind)

theorem whileStat_height (h : r.Bounded c m) :
    Yields c (whileStat r) fun s => s.height 0 ≤ m + 2 :=
  .andThen .next fun _ => .bind (exp_height h) fun _ _ => .bind (loopBody_height h _) fun _ _ =>
    .ending (.since _) (by grind)

theorem repeatStat_height (h : r.Bounded c m) :
    Yields c (repeatStat r) fun s => s.height 0 ≤ m + 2 :=
  .andThen .next fun _ => .andThen (brace_runs _) fun _ => .bind (.within _ _ h.block) fun _ _ =>
    .andThen (brace_runs _) fun _ => .andThen (.expect _) fun _ => .bind (exp_height h)
    fun _ _ => .ending (.since _) (by grind)

theorem branch_height (h : r.Bounded c m) :
    Yields c (branch r) fun b => b.height 0 ≤ m :=
  .bind (exp_height h) fun _ _ => .andThen (openBody_runs _) fun _ => .bind (.within _ _ h.block)
    fun _ _ => .andThen (brace_runs _) fun _ => .pure (by grind)

theorem elseBranch_height (h : r.Bounded c m) :
    Yields c (elseBranch r) fun bs => ∀ b ∈ bs, b.height 0 ≤ m := by
  have pos := h.pos
  refine .andThen (.accept _) fun word => ?_
  split
  · exact .andThen (brace_runs _) fun _ => .bind (.within _ _ h.block) fun _ _ =>
      .andThen (brace_runs _) fun _ => .pure (by grind)
  · exact .pure (by grind)

theorem ifStat_height (h : r.Bounded c m) : Yields c (ifStat r) fun s => s.height 0 ≤ m + 2 := by
  refine .andThen .next fun keyword => .bind (branch_height h) fun first low => .bind (.loop
    (fun bs : Array Branch => ∀ b ∈ bs.toList, b.height 0 ≤ m) (by grind) fun bs all => ?_)
    fun branches all => .bind (elseBranch_height h) fun last others => .andThen .isMooc fun _ => ?_
  · exact .andThen (.accepts _) fun _ => .ite (fun _ => .map (branch_height h) (by grind))
      fun _ => .pure all
  · exact .ite (fun _ => .andThen (.expect _) fun _ => .ending (.since _) (by grind))
      fun _ => .ending (.since _) (by grind)

theorem numericFor_height (h : r.Bounded c m) (start : Span) (var : Param) :
    Yields c (numericFor r start var) fun s => s.height 0 ≤ m + 2 := by
  have pos := h.pos
  refine .andThen (.expect _) fun _ => .bind (exp_height h) fun _ _ => .andThen (.expect _)
    fun _ => .bind (exp_height h) fun _ _ => .andThen (.accepts _) fun _ => .ite (fun _ => ?_)
    fun _ => ?_
  · exact .bind (exp_height h) fun _ _ => .bind (loopBody_height h _) fun _ _ =>
      .ending (.since start) (by grind)
  · exact .bind (P := fun e => e.height 0 ≤ m) (.pure (by grind)) fun _ _ =>
      .bind (loopBody_height h _) fun _ _ => .ending (.since start) (by grind)

theorem genericFor_height (h : r.Bounded c m) (start : Span) (first : Param) :
    Yields c (genericFor r start first) fun s => s.height 0 ≤ m + 2 := by
  refine .andThen (.loop (fun _ => True) trivial fun vars _ => ?_) fun vars =>
    .andThen (.expect _) fun _ => .bind (expList_height h) fun _ _ =>
    .bind (loopBody_height h _) fun _ _ => .ending (.since start) (by grind)
  exact .andThen (.accepts _) fun _ => .ite (fun _ => .ending .expectName (by grind))
    fun _ => .pure trivial

theorem forStat_height (h : r.Bounded c m) :
    Yields c (forStat r) fun s => s.height 0 ≤ m + 2 :=
  .andThen .next fun _ => .andThen .expectName fun _ => .andThen .peek fun _ =>
    .ite (fun _ => numericFor_height h _ _) fun _ => genericFor_height h _ _

/-- However many names there are, the way to each is one field. -/
theorem functionName_height (isStatic : Bool) :
    Yields c (functionName isStatic) fun f => f.target.height 0 ≤ 2 := by
  refine .andThen .isMooc fun _ => .andThen .scopes fun _ => ?_
  split
  · exact .andThen .expectName fun _ => .pure (by grind)
  · refine .andThen .expectName fun _ => .bind (.loop
      (fun f : FunctionName => f.target.height 0 ≤ 2) (by grind) fun f low => ?_) fun f low =>
      .andThen (.accepts _) fun _ => .ite (fun _ => ?_) fun _ => .pure low
    · exact .andThen (.accepts _) fun _ => .ite (fun _ => .ending .expectName
        (by grind [FunctionName.member])) fun _ => .pure low
    · exact .ending .expectName (by grind [FunctionName.member])

theorem functionStat_height (h : r.Bounded c m) (start : Span) (attr : Attribute) (isStatic : Bool) :
    Yields c (functionStat r start attr isStatic) fun a => a.height 0 ≤ m + 2 := by
  refine .ite (fun _ => .andThen .next fun _ => ?_) fun _ => ?_
  all_goals
    exact .andThen functionStyle_runs fun _ => .andThen (.expect _) fun _ =>
      .bind (functionName_height _) fun _ low => .andThen .now fun _ =>
      .bind (h.functionBody _) fun _ _ => .andThen (.since _) fun _ => .ending (.since _) (by grind)

theorem assignFunction_height (h : r.Bounded c m) (start : Span) (attr : Attribute)
    (isStatic : Bool) :
    Yields c (do return Stat.assign (← functionStat r start attr isStatic))
      fun s => s.height 0 ≤ m + 2 :=
  .map (functionStat_height h start attr isStatic) (by grind)

theorem localFunction_height (h : r.Bounded c m) (start : Span) :
    Yields c (localFunction r start) fun s => s.height 0 ≤ m + 2 :=
  .andThen functionStyle_runs fun (_, _) => .andThen .next fun _ => .andThen .expectName fun _ =>
    .bind (h.functionBody _) fun _ _ => .ending (.since _) (by grind)

theorem luaStat_height (h : r.Bounded c m) :
    Yields c (luaStat r) fun s => s.height 0 ≤ m + 2 := by
  refine .andThen .peek fun kind => ?_
  split
  · exact simple_height skipToken_height
  · exact simple_height skipToken_height
  · exact simple_height breakStat_height
  · exact simple_height labelStat_height
  · exact simple_height gotoStat_height
  · exact doStat_height h
  · exact whileStat_height h
  · exact repeatStat_height h
  · exact ifStat_height h
  · exact forStat_height h
  · exact .andThen .head fun _ => assignFunction_height h _ _ _
  · exact .andThen .next fun _ => .andThen .peek fun _ => .ite
      (fun _ => localFunction_height h _) fun _ => localDecl_height h _
  · exact assignOrCall_height h

/-! ## Statements of Mooc -/

theorem continueStat_height : Yields c continueStat fun s => s.height 0 = 0 :=
  .andThen .next fun _ => .andThen .scopes fun _ => .andThen .insideLoop fun _ => .ite
    (fun _ => .andThen (.onScopes _) fun _ => .pure (by grind))
    fun _ => .andThen (.complain _ _) fun _ => .pure (by grind)

theorem deferStat_height (h : r.Bounded c m) :
    Yields c (deferStat r) fun s => s.height 0 ≤ m + 2 := by
  refine .andThen .next fun _ => .andThen (.expect _) fun _ => .andThen .scopes fun _ => .ite
    (fun _ => .andThen (.complain _ _) fun _ => ?_) fun _ => ?_
  all_goals
    exact .bind (.within _ _ h.block) fun _ _ => .andThen closeBody_runs fun _ =>
      .ending (.since _) (by grind)

/-- The condition is negated in parentheses. -/
theorem guardStat_height (h : r.Bounded c m) :
    Yields c (guardStat r) fun s => s.height 0 ≤ m + 2 := by
  have body : Yields c (guardBody r) fun b => b.height 0 ≤ m :=
    .bind h.block fun _ low => .andThen .scopes fun _ => .ite (fun _ => .andThen .now fun _ =>
      .andThen (.complain _ _) fun _ => .pure low) fun _ => .pure low
  exact .andThen .next fun _ => .bind (exp_height h) fun condition _ => .andThen (.since _)
    fun span => .andThen (.expect _) fun _ => .andThen (.expect _) fun _ =>
    .bind (.within _ _ body) fun _ _ => .andThen (.expect _) fun _ =>
    .ending (.since _) (by grind [branchesHeight])

theorem caseBody_height (h : r.Bounded c m) :
    Yields c (caseBody r) fun b => b.height 0 ≤ m :=
  .andThen (.expect _) fun _ => .within _ _ h.block

theorem switchStat_height (h : r.Bounded c m) :
    Yields c (switchStat r) fun s => s.height 0 ≤ m + 2 := by
  have last : Yields c (defaultCase r) fun bs => ∀ b ∈ bs, b.height 0 ≤ m + 2 := by
    refine .andThen (.accept _) fun word => ?_
    split
    · exact .map (caseBody_height h) (by grind)
    · exact .pure (by grind)
  refine .andThen .next fun _ => .bind (exp_height h) fun value _ => .andThen (.since _) fun _ =>
    .andThen (.expect _) fun _ => .bind (.loop
    (fun bs : Array Branch => ∀ b ∈ bs.toList, b.height 0 ≤ m + 2) (by grind) fun bs all => ?_)
    fun cases all => .bind last fun last others => .andThen (.expect _) fun _ =>
    .andThen (.since _) fun _ => .ending (.since _) (by grind [expsHeight])
  refine .andThen (.accept _) fun word => ?_
  split
  · refine .bind (expList_height h) fun values low => .map (caseBody_height h) ?_
    have condition (span : Span) := Exp.height_switchCase span low
    grind
  · exact .pure all

theorem classMembers_height (h : r.Bounded c m) (owner : String) :
    Yields c (iterate #[] (moreMembers r owner))
      fun members => ∀ a ∈ members.toList, a.height 0 ≤ m + 2 := by
  have pos := h.pos
  refine .loop (fun members : Array Assignment => ∀ a ∈ members.toList, a.height 0 ≤ m + 2)
    (by grind) fun members all => .andThen .peek fun kind => ?_
  split
  · exact .andThen .head fun _ => .map (functionStat_height h _ _ _) (by grind)
  · exact .andThen .head fun _ => .map (functionStat_height h _ _ _) (by grind)
  · refine .andThen .next fun _ => .bind (assignRest_height h _ (by grind)) fun s _ => ?_
    split
    · exact .pure (by grind)
    · exact .pure all
  · exact .pure all

theorem parentClass_height (kind : ClassKind) :
    Yields c (parentClass kind) fun e => e.height 0 ≤ 1 := by
  refine .andThen (.accept _) fun colon => ?_
  split
  · exact .ite (fun _ => .andThen (.complain _ _) fun _ => .andThen .expectName fun _ =>
      .pure (by grind)) fun _ => .andThen .expectName fun _ => .pure (by grind)
  · exact .ending .now (by grind)

theorem classStat_height (h : r.Bounded c m) (start : Span) (isExported : Bool) :
    Yields c (classStat r start isExported) fun s => s.height 0 ≤ m + 2 := by
  refine .andThen .next fun _ => .andThen .expectName fun _ => .bind (parentClass_height _)
    fun parent low => .andThen (.since _) fun _ => .andThen (.expect _) fun _ =>
    .bind (.within _ _ (classMembers_height h _)) fun members all => .andThen (.expect _) fun _ =>
    .ending (.since _) fun span => ?_
  grind [classLocal, declarationsHeight, expsHeight, keysHeight]

/-- A member of a library is as high as a field. -/
theorem importKeys_height (source : ImportSource) (names : List Param) (start : Span) :
    Yields c (importKeys source names start) fun values => ∀ v ∈ values, v.height 0 ≤ 2 := by
  refine .bind (.loop (fun read : Array Exp × Bool => ∀ v ∈ read.1.toList, v.height 0 ≤ 2)
    (by grind) fun read all => ?_) fun read all => .andThen (.expect _) fun _ =>
    .ite (fun _ => .andThen (.since _) fun _ => .andThen (.complain _ _) fun _ => ?_) fun same =>
    .pure all
  · obtain ⟨values, isFirst⟩ := read
    have rest (values : Array Exp) (all : ∀ v ∈ values.toList, v.height 0 ≤ 2) :
        Yields c
          (do if ← accepts .comma then return .yield (values, false) else return .done (values, false))
          fun next : ForInStep (Array Exp × Bool) => ∀ v ∈ next.value.1.toList, v.height 0 ≤ 2 :=
      .andThen (.accepts _) fun _ => .ite (fun _ => .pure all) fun _ => .pure all
    have member := ImportSource.height_member source
    refine .andThen (.accept _) fun key => ?_
    split
    · exact .bind (P := fun vs => ∀ v ∈ vs.toList, v.height 0 ≤ 2) (.pure (by grind)) rest
    · refine .ite (fun _ => .andThen .now fun _ => ?_) fun _ => .bind (.pure all) rest
      exact .bind (P := fun vs => ∀ v ∈ vs.toList, v.height 0 ≤ 2) (.pure (by grind)) rest
  · exact .bind (P := fun _ => False) (.throw _) fun _ never => never.elim

theorem importStat_height (pos : 0 < m) : Yields c importStat fun s => s.height 0 ≤ m + 2 := by
  refine .andThen .next fun keyword => .andThen .peek fun _ => .ite
    (fun _ => .andThen .next fun _ => .pure ?_) fun _ => .andThen .head fun start =>
    .bind attrNames_yields fun (names, attrs) same => .andThen (.expect _) fun word =>
    .andThen .next fun token => .andThen (importSource_runs _) fun source =>
    .andThen (.accepts _) fun _ => .ite (fun _ => ?_) fun _ => ?_
  · simp [Stat.height, Call.require, Call.height, Exp.height, expsHeight]
  · exact .bind (importKeys_height _ _ _) fun values low => .ending (.since _) (by grind)
  · refine .bind (P := fun vs => ∀ v ∈ vs, v.height 0 ≤ 2) (.pure ?_) fun values whole =>
      .ending (.since _) (by grind)
    cases source <;>
      simp [importWhole, Call.require, Call.height, Exp.height, expsHeight]

theorem exportStat_height (h : r.Bounded c m) :
    Yields c (exportStat r) fun s => s.height 0 ≤ m + 2 := by
  have exported (s : Stat) (low : s.height 0 ≤ m + 2) : (exported s).height 0 ≤ m + 2 := by
    cases s with
    | assign a =>
      cases a
      exact low
    | _ => exact low
  refine .andThen .next fun keyword => .andThen .peek fun kind => ?_
  split
  · exact .andThen .next fun _ => .ending (.since _) (by grind)
  · exact assignFunction_height h _ _ _
  · exact classStat_height h _ _
  · exact classStat_height h _ _
  · exact .map (assignOrCall_height h) exported

theorem moocStat_height (h : r.Bounded c m) :
    Yields c (moocStat r) fun s => s.height 0 ≤ m + 2 := by
  refine .andThen .peek fun kind => ?_
  split
  · exact simple_height skipToken_height
  · exact simple_height skipToken_height
  · exact simple_height breakStat_height
  · exact simple_height continueStat_height
  · exact simple_height labelStat_height
  · exact simple_height gotoStat_height
  · exact doStat_height h
  · exact deferStat_height h
  · exact whileStat_height h
  · exact repeatStat_height h
  · exact ifStat_height h
  · exact guardStat_height h
  · exact switchStat_height h
  · exact forStat_height h
  · exact .andThen .head fun _ => assignFunction_height h _ _ _
  · exact .andThen .head fun _ => assignFunction_height h _ _ _
  · refine .andThen .next fun keyword => .andThen .peek fun kind => ?_
    split
    · exact classStat_height h _ _
    · exact classStat_height h _ _
    · exact localFunction_height h _
    · exact localDecl_height h _
  · exact .andThen .head fun _ => classStat_height h _ _
  · exact .andThen .head fun _ => classStat_height h _ _
  · exact .andThen .head fun _ => classStat_height h _ _
  · exact importStat_height h.pos
  · exact exportStat_height h
  · exact assignOrCall_height h

/-! ## Blocks and levels -/

theorem block_height (h : r.Bounded c m) : Yields c (block r) fun b => b.height 0 ≤ m + 1 := by
  have returns : Yields c (returnStat r) fun es => ∀ e ∈ es.getD [], e.height 0 ≤ m :=
    .andThen .peek fun _ => .ite (fun _ => .pure (by grind)) fun _ => .andThen (.onScopes _)
      fun _ => .andThen .next fun _ => .andThen atBlockEnd_runs fun _ => .ite
      (fun _ => .pure (by grind)) fun _ => .andThen (.accepts _) fun _ => .ite
      (fun _ => .pure (by grind)) fun _ => .bind (expList_height h) fun _ _ =>
      .andThen (.accepts _) fun _ => .pure (by grind)
  refine .andThen .head fun _ => .andThen .now fun _ => .bind (.loop (fun ss : Array Stat =>
    ∀ s ∈ ss.toList, s.height 0 ≤ m + 1) (by grind) fun ss all => ?_)
    fun stats all => .bind (P := fun ss : List Stat => ∀ s ∈ ss, s.height 0 = 0) ?_
    fun label labelled => .bind returns fun returns low => .ending .now (by grind)
  · refine .andThen atBlockEnd_runs fun _ => .ite (fun _ => .pure all) fun _ =>
      .bind h.stat fun s low => .pure ?_
    cases empty : s.isEmpty <;> grind
  · exact .andThen .scopes fun _ => .ite (fun _ => .ending .now (by grind)) fun _ => .pure (by grind)

theorem stat_height (h : r.Bounded c m) : Yields c (stat r) fun s => s.height 0 ≤ m + 2 :=
  .andThen .isMooc fun _ => .ite (fun _ => moocStat_height h) fun _ => luaStat_height h

end Parser

variable {c : Settings} {m : Nat}

theorem Rules.Bounded.deepen {r : Unit → Rules} (h : (r ()).Bounded c m) :
    (Rules.deepen r).Bounded c (m + 1) where
  pos := Nat.succ_pos m
  block := .nested (Parser.block_height h)
  stat := .nested (Parser.stat_height h)
  operation limit := .nested (Parser.operation_height h limit)
  functionBody style := .nested ((Parser.functionBody_height h style).mono (by grind))
  table := .nested (Parser.table_height h)
  parenthesised := .nested ((Parser.exp_height h).mono (by grind))

theorem Rules.level_bounded (n : Nat) : (Rules.level n).Bounded c (n + 1) := by
  induction n with
  | zero => exact ⟨Nat.one_pos, .tooDeep, .tooDeep, fun _ => .tooDeep, fun _ => .tooDeep, .tooDeep,
      .tooDeep⟩
  | succ n inductionHypothesis => exact inductionHypothesis.deepen

namespace Session

/-- The levels left bound the height of the block. -/
theorem height_analyze (s : Session) :
    s.analyze.1.block.height 0 ≤ s.settings.maxNesting - s.depth + 1 := by
  let ready : Session := { s with tokens := s.tokens.skipShebang }
  have yields : Parser.Yields s.settings (chunk ready.rules)
      fun b => b.height 0 ≤ s.settings.maxNesting - s.depth + 1 :=
    .bind (Rules.level_bounded _).block fun _ low => .andThen (.expect _) fun _ => .pure low
  unfold Session.analyze
  cases run : chunk ready.rules ready with
  | ok b t =>
    simp only [ready] at run
    simpa [run] using (yields ready b t rfl run).2
  | error abort t =>
    simp only [ready] at run
    simp [run, Block.empty, Block.height, statsHeight]

theorem height_exp {s : Session} {e : Exp} (h : s.exp.1 = some e) :
    e.height 0 ≤ s.settings.maxNesting - s.depth + 1 := by
  have yields := (Rules.level_bounded (c := s.settings) (s.settings.maxNesting - s.depth)).operation 0
  unfold Session.exp at h
  cases run : s.rules.exp s with
  | ok e' t =>
    simp only [run, Option.some.injEq] at h
    exact h ▸ (yields s e' t rfl run).2
  | error abort t => simp [run] at h

/-- With any nesting allowed at all, no way down a tree that is read has more expressions on it than
four times the nesting allowed, apart from those that it comes to as a left operand, as an object
that is indexed or as what is called. -/
theorem reading_height (source : List UInt8) (name : String) (settings : Settings)
    (allowed : 1 ≤ settings.maxNesting) :
    (start source name settings).analyze.1.block.height 0 ≤ 4 * settings.maxNesting ∧
    ∀ e, (start source name settings).exp.1 = some e → e.height 0 ≤ 4 * settings.maxNesting := by
  refine ⟨?_, fun e read => ?_⟩
  · have low : _ ≤ settings.maxNesting - 0 + 1 := (start source name settings).height_analyze
    omega
  · have low : _ ≤ settings.maxNesting - 0 + 1 := height_exp read
    omega

/-- A sum of three grows to the left: two expressions are counted on the way down, three are on it. -/
theorem reading_height_sum :
    let settings : Settings := { maxNesting := 3 }
    let block := (start "return 1 + 2 + 3".toUTF8.toList "a.lua" settings).analyze.1.block
    1 ≤ settings.maxNesting ∧ block.height 0 ≤ 4 * settings.maxNesting ∧
    block.height 0 = 2 ∧ block.height 1 = 3 := by
  intro settings block
  have allowed : 1 ≤ settings.maxNesting := by decide
  have heights : block.height 0 = 2 ∧ block.height 1 = 3 := by decide +kernel
  exact ⟨allowed, (reading_height _ "a.lua" settings allowed).1, heights⟩

/-- Fields after fields are read at one level, however many there are. -/
theorem reading_height_fields :
    let s := start "return a.b.b.b.b.b.b.b.b".toUTF8.toList "a.lua" { maxNesting := 2 }
    s.analyze.1.errors = [] ∧ s.analyze.1.block.height 1 = 9 ∧
    ¬ s.analyze.1.block.height 1 ≤ 4 * s.settings.maxNesting := by
  decide +kernel

end Session

end LuaChunk
