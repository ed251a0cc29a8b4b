import LuaChunk.Proofs.Contents.Basic

/-!
# What expressions gather
-/

set_option autoImplicit false

namespace LuaChunk

/-- What the rules of a level gather is accounted for by the trees they return. -/
structure Rules.Gathers (r : Rules) : Prop where
  block (w : Site) : Parser.Gathers w {} r.block (Block.known w)
  stat (w : Site) (k : Known) :
    Parser.Gathers w k r.stat fun s => k.plus (s.known w.around)
  operation (w : Site) (k : Known) (limit : Nat) :
    Parser.Gathers w k (r.operation limit) fun e => k.plus { blocks := e.blocks w.around }
  functionBody (w : Site) (k : Known) (style : FunctionStyle) :
    Parser.Gathers w k (r.functionBody style) fun b => k.plus { blocks := b.blocks w.around }
  table (w : Site) (k : Known) :
    Parser.Gathers w k r.table fun e => k.plus { blocks := e.blocks w.around }
  parenthesised (w : Site) (k : Known) :
    Parser.Gathers w k r.parenthesised fun e => k.plus { blocks := e.blocks w.around }

namespace Parser

variable {w : Site} {k : Known} {r : Rules}

theorem exp_gathers (h : r.Gathers) :
    Gathers w k r.exp fun e => k.plus { blocks := e.blocks w.around } :=
  h.operation w k 0

theorem expList_gathers (h : r.Gathers) :
    Gathers w k (expList r) fun es => k.plus { blocks := expsBlocks w.around es } := by
  refine .bind (exp_gathers h) fun first => .map (.loop
    (fun es : Array Exp => k.plus { blocks := expsBlocks w.around es.toList }) (by grind)
    fun es => ?_) (by grind)
  exact .bind (.accepts .comma) fun _ => .ite (fun _ => .map (exp_gathers h) (by grind))
    fun _ => .done _ (by grind)

theorem numeral_gathers :
    Gathers w k numeral fun e => k.plus { blocks := e.blocks w.around } := by
  refine .bind .next fun token => ?_
  split
  · exact .done _ (by grind)
  · exact .done _ (by grind)
  · exact .bind (.complain _ _ rfl) fun _ => .done _ (by grind)

/-! ## Functions -/

theorem moreParams_gathers (read : Array Param × Bool) :
    Gathers w k.forget (moreParams read) fun _ => k.forget := by
  refine .bind (.accepts .comma) fun _ => .ite (fun _ => .bind .peek fun kind => .ite (fun _ => ?_)
    fun _ => ?_) fun _ => .same _
  · exact .bind .next fun _ => .same _
  · exact .bind (.expect .vararg) fun _ => .same _

theorem params_gathers : Gathers w k params fun _ => k.forget := by
  refine .bind .peek fun kind => .bind .isMooc fun mooc => .ite (fun _ => .done _ (by grind))
    fun _ => .ite (fun _ => .bind .next fun _ => .same _) fun _ => .bind .expectName fun first => ?_
  exact .bind (.loop (fun _ => k.forget) (by grind) moreParams_gathers) fun read => .same _

theorem openFunctionBlock_gathers (style : FunctionStyle) :
    Gathers w k (openFunctionBlock style) fun _ => k.forget := by
  cases style with
  | ended => exact .bind (.expect .rparen) fun _ => .same _
  | braced => exact .bind (.expect .rparen) fun _ => .bind (.expect .lbrace) fun _ => .same _
  | anonymous => exact .bind (.expect .kwIn) fun _ => .same _

theorem functionBody_gathers (h : r.Gathers) (style : FunctionStyle) :
    Gathers w k (functionBody r style) fun b => k.plus { blocks := b.blocks w.around } := by
  refine .bind (.expect _) fun _ => .bind params_gathers fun params =>
    .bind (openFunctionBlock_gathers style) fun _ =>
    .bind (.within .function "function" (h.block _)) fun block => ?_
  exact .bind (.expect _) fun _ => .done _ (by grind)

theorem functionExp_gathers (h : r.Gathers) (style : FunctionStyle) (start : Span) :
    Gathers w k (functionExp r style start) fun e => k.plus { blocks := e.blocks w.around } :=
  .bind (h.functionBody w k style) fun _ => .map (.since start) (by grind)

theorem atAnonymousFunction_gathers : Gathers w k atAnonymousFunction fun _ => k :=
  .bind .isMooc fun _ => .ite (fun _ => .peekWhile _ _) fun _ => .same _

/-! ## Tables -/

/-- The account of a field of a table. -/
@[grind unfold]
def fieldKnown (k : Known) (w : Site) (f : Option Exp × Exp) : Known :=
  k.plus { blocks := (f.1.map (·.blocks w.around)).getD [] ++ f.2.blocks w.around }

theorem bracketedField_gathers (h : r.Gathers) :
    Gathers w k (bracketedField r) (fieldKnown k w) :=
  .bind (exp_gathers h) fun key => .bind (.expect .rbracket) fun _ => .bind (.expect .assign)
    fun _ => .map (exp_gathers h) (by grind)

theorem plainField_gathers (h : r.Gathers) : Gathers w k (plainField r) (fieldKnown k w) := by
  refine .bind (exp_gathers h) fun e => ?_
  split
  · exact .bind (.accepts .assign) fun _ => .ite (fun _ => .map (exp_gathers h) (by grind))
      fun _ => .done _ (by grind)
  · exact .done _ (by grind)

theorem atLiteralKey_gathers : Gathers w k atLiteralKey fun _ => k :=
  .bind (.peekPair _ _) fun _ => .ite (fun _ => .same _) fun _ => .peekPair _ _

theorem field_gathers (h : r.Gathers) : Gathers w k (field r) (fieldKnown k w) := by
  refine .bind (.accepts .lbracket) fun _ => .ite
    (fun _ => (bracketedField_gathers h).mono (by grind)) fun _ => .bind .isMooc fun _ => .ite
    (fun _ => (plainField_gathers h).mono (by grind)) fun _ => .bind atLiteralKey_gathers
    fun _ => .ite
    (fun _ => ?_) fun _ => .bind (.peekPair _ _) fun _ => .ite (fun _ => ?_)
    fun _ => (plainField_gathers h).mono (by grind)
  · exact .bind (exp_gathers h) fun key => .bind (.expect .assign)
      fun _ => .map (exp_gathers h) (by grind)
  · exact .bind .next fun _ => .bind .expectName fun _ => .done _ (by grind)

/-- The account of the fields read so far of a table. -/
@[grind unfold]
def fieldsKnown (k : Known) (w : Site) (fs : Array (Option Exp × Exp)) : Known :=
  k.plus { blocks := keysBlocks w.around (fs.toList.map (·.1)) ++
    expsBlocks w.around (fs.toList.map (·.2)) }

theorem moreFields_gathers (h : r.Gathers) (fields : Array (Option Exp × Exp)) :
    Gathers w (fieldsKnown k w fields) (moreFields r fields)
      fun next => fieldsKnown k w next.value := by
  refine .bind .peek fun kind => .ite (fun _ => .done _ (by grind)) fun _ => .bind (field_gathers h)
    fun f => .bind .peek fun kind => .ite (fun _ => .bind .next fun _ => .done _ (by grind))
    fun _ => .done _ (by grind)

theorem table_gathers (h : r.Gathers) :
    Gathers w k (table r) fun e => k.plus { blocks := e.blocks w.around } := by
  refine .bind (.expect .lbrace) fun opening => .bind (.loop (fieldsKnown k w) (by grind)
    (moreFields_gathers h)) fun fields => .bind (.expect .rbrace) fun _ =>
    .bind (.since opening.span) fun span => ?_
  change Gathers w _ (do
    let cap ← (do return (← get).settings.fieldCap : Parser (Option Nat))
    return Exp.table (capped cap (fields.toList.map (·.1)))
      (capped cap (fields.toList.map (·.2))) span) _
  exact .map (.ask (·.settings.fieldCap) fun _ _ => rfl) (by grind)

/-! ## Operands -/

theorem args_gathers (h : r.Gathers) :
    Gathers w k (args r) fun es => k.plus { blocks := expsBlocks w.around es } := by
  refine .bind .peek fun kind => .bind .isMooc fun mooc => .ite
    (fun _ => .bind .next fun _ => .done _ (by grind)) fun _ => .ite
    (fun _ => .map (h.table w _) (by grind)) fun _ =>
    .bind (.expect .lparen) fun _ => .bind .peek fun kind => .ite (fun _ => ?_) fun _ => ?_
  · exact .bind (.done (l := fun es => k.plus { blocks := expsBlocks w.around es }) [] (by grind))
      fun _ => .bind (.expect .rparen) fun _ => .done _ (by grind)
  · exact .bind (expList_gathers h) fun es => .bind (.expect .rparen) fun _ => .done _ (by grind)

theorem atMethodCall_gathers : Gathers w k atMethodCall fun _ => k :=
  .bind .isMooc fun _ => .ite (fun _ => .same _) fun _ => .bind .now fun _ =>
    .bind (.peekToken 0) fun _ => .bind (.peekToken 1) fun _ => .map (.peekToken 2) (by grind)

theorem callOf_gathers (h : r.Gathers) (callee : Exp) (method : Option Param)
    (known : ∀ b ∈ callee.blocks w.around, b ∈ k.blocks) :
    Gathers w k (callOf r callee method) fun e => k.plus { blocks := e.blocks w.around } :=
  .bind (args_gathers h) fun _ => .map (.since _) (by grind)

theorem suffix_gathers (h : r.Gathers) (e : Exp) :
    Gathers w (k.plus { blocks := e.blocks w.around }) (suffix r e)
      fun next => k.plus { blocks := next.value.blocks w.around } := by
  refine .bind .peek fun kind => ?_
  split
  · exact .bind .next fun _ => .bind .expectName fun _ => .done _ (by grind)
  · exact .bind .next fun _ => .bind (exp_gathers h) fun _ => .bind (.expect .rbracket) fun _ =>
      .map (.since _) (by grind)
  · refine .bind atMethodCall_gathers fun _ => .ite (fun _ => .bind .next fun _ =>
      .bind .expectName fun _ => .map (callOf_gathers h e _ (by grind)) (by grind))
      fun _ => .done _ (by grind)
  · exact .map (callOf_gathers h e _ (by grind)) (by grind)
  · exact .bind .isMooc fun _ => .ite (fun _ => .done _ (by grind))
      fun _ => .map (callOf_gathers h e _ (by grind)) (by grind)
  · exact .bind .isMooc fun _ => .ite (fun _ => .done _ (by grind))
      fun _ => .map (callOf_gathers h e _ (by grind)) (by grind)
  · exact .done _ (by grind)

theorem prefixExp_gathers (h : r.Gathers) :
    Gathers w k (prefixExp r) fun e => k.plus { blocks := e.blocks w.around } := by
  refine .bind .peek fun kind => ?_
  split
  · exact .bind .next fun _ => .loop _ (by grind) (suffix_gathers h)
  · exact .bind .next fun _ => .bind (h.parenthesised w _) fun _ => .bind (.expect .rparen)
      fun _ => .bind (.since _) fun _ => .loop _ (by grind) (suffix_gathers h)
  · exact .bind .next fun _ => .bind (.complain _ _ rfl) fun _ => .done _ (by grind)

theorem literal_gathers (e : Span → Exp) (leaf : ∀ s, (e s).blocks w.around = []) :
    Gathers w k (literal e) fun e => k.plus { blocks := e.blocks w.around } :=
  .bind .next fun _ => .done _ (by grind)

theorem primary_gathers (h : r.Gathers) :
    Gathers w k (primary r) fun e => k.plus { blocks := e.blocks w.around } := by
  refine .bind .peek fun kind => ?_
  split
  · exact (literal_gathers _ fun _ => rfl).mono (by grind)
  · exact (literal_gathers _ fun _ => rfl).mono (by grind)
  · exact (literal_gathers _ fun _ => rfl).mono (by grind)
  · exact (literal_gathers _ fun _ => rfl).mono (by grind)
  · exact .bind .next fun _ => .done _ (by grind)
  · exact numeral_gathers.mono (by grind)
  · exact .bind atAnonymousFunction_gathers fun _ => .ite (fun _ => .bind .head fun _ =>
      (functionExp_gathers h _ _).mono (by grind)) fun _ => (h.table w _).mono (by grind)
  · exact .bind .isMooc fun _ => .ite (fun _ => (prefixExp_gathers h).mono (by grind)) fun _ =>
      .bind .next fun _ => (functionExp_gathers h _ _).mono (by grind)
  · exact .bind .next fun _ => (functionExp_gathers h _ _).mono (by grind)
  · exact (prefixExp_gathers h).mono (by grind)

/-! ## Operators -/

theorem operand_gathers (h : r.Gathers) :
    Gathers w k (operand r) fun e => k.plus { blocks := e.blocks w.around } := by
  refine .bind .peek fun kind => ?_
  split
  · exact .bind .next fun _ => .bind (h.operation w _ _) fun _ => .map (.since _) (by grind)
  · exact (primary_gathers h).mono (by grind)

theorem infixOp_gathers (h : r.Gathers) (limit : Nat) (start : Span) (left : Exp) :
    Gathers w (k.plus { blocks := left.blocks w.around }) (infixOp r limit start left)
      fun next => k.plus { blocks := next.value.blocks w.around } := by
  refine .bind .peek fun kind => ?_
  split
  · exact .ite (fun _ => .done _ (by grind)) fun _ => .bind .next fun _ => .bind (h.operation w _ _)
      fun _ => .map (.since _) (by grind)
  · exact .done _ (by grind)

theorem operation_gathers (h : r.Gathers) (limit : Nat) :
    Gathers w k (operation r limit) fun e => k.plus { blocks := e.blocks w.around } :=
  .bind .head fun start => .bind (operand_gathers h) fun _ =>
    .loop _ (by grind) (infixOp_gathers h limit start)

end Parser

end LuaChunk
