import LuaChunk.Proofs.Views.Basic

/-!
# Expressions that are looked at
-/

set_option autoImplicit false

namespace LuaChunk

/-- The rules commute with a view. -/
structure Rules.Commutes (v : View) (r : Rules) : Prop where
  block : Parser.Commutes v r.block r.block v.block
  stat : Parser.Commutes v r.stat r.stat v.stat
  operation (limit : Nat) : Parser.Commutes v (r.operation limit) (r.operation limit) v.exp
  functionBody (style : FunctionStyle) :
    Parser.Commutes v (r.functionBody style) (r.functionBody style) v.body
  table : Parser.Commutes v r.table r.table v.exp
  parenthesised : Parser.Commutes v r.parenthesised r.parenthesised v.exp

@[simp]
theorem View.exp_field {v : View} (e : Exp) (name : String) (key : Span) :
    v.exp (e.field name key) = (v.exp e).field name (v.place key) := by
  simp [Exp.field]

namespace Parser

variable {v : View} {r : Rules}

theorem exp_commutes (h : r.Commutes v) : Commutes v r.exp r.exp v.exp := h.operation 0

theorem expList_commutes (h : r.Commutes v) :
    Commutes v (expList r) (expList r) (List.map v.exp) := by
  refine .bind (exp_commutes h) fun first => .map (.iterate (F := Array.map v.exp) (by simp)
    fun es => ?_) fun es => by simp
  exact .andThen (.accepts .comma) fun _ => .ite (fun _ => .map (exp_commutes h) fun e => by simp)
    fun _ => .pure rfl

theorem numeral_commutes : Commutes v numeral numeral v.exp := by
  refine .bind .next fun token => ?_
  simp only [View.text_token]
  split
  · exact .pure rfl
  · exact .pure rfl
  · exact .andThen (.complain _ _) fun _ => .pure (by simp)

/-! ## Functions -/


theorem moreParams_commutes (read : Array Param × Bool) :
    Commutes v (moreParams read) (moreParams (Prod.map (Array.map v.param) id read))
      (onRound (Prod.map (Array.map v.param) id)) := by
  refine .andThen (.accepts .comma) fun _ => .ite (fun _ => .andThen .peek fun _ => .ite
    (fun _ => ?_) fun _ => ?_) fun _ => .pure rfl
  · exact .map .next fun name => by simp [Param.recast]
  · exact .map (.expect .vararg) fun _ => rfl

theorem params_commutes : Commutes v params params (Prod.map (List.map v.param) id) := by
  refine .andThen .peek fun kind => .isMooc <| .ite (fun _ => .pure rfl) fun _ =>
    .ite (fun _ => .map .next fun _ => rfl) fun _ => .bind .expectName fun first => .map
    (.iterate (F := Prod.map (Array.map v.param) id) ?_ moreParams_commutes) fun read => ?_
  · simp [Param.recast]
  · simp

theorem openFunctionBlock_commutes (style : FunctionStyle) :
    Commutes v (openFunctionBlock style) (openFunctionBlock style) id := by
  cases style with
  | ended => exact .map (.expect .rparen) fun _ => rfl
  | braced => exact .bind (.expect .rparen) fun _ => .map (.expect .lbrace) fun _ => rfl
  | anonymous => exact .map (.expect .kwIn) fun _ => rfl

theorem functionBody_commutes (h : r.Commutes v) (style : FunctionStyle) :
    Commutes v (functionBody r style) (functionBody r style) v.body :=
  .bind (.expect _) fun _ => .bind params_commutes fun (_, _) =>
    .andThen (openFunctionBlock_commutes style) fun _ => .bind (.within _ _ h.block) fun _ =>
    .map (.expect _) fun _ => by simp

theorem functionExp_commutes (h : r.Commutes v) (style : FunctionStyle) (start : Span) :
    Commutes v (functionExp r style start) (functionExp r style (v.place start)) v.exp :=
  .bind (h.functionBody style) fun _ => .map (.since start) fun _ => by simp

theorem atAnonymousFunction_commutes :
    Commutes v atAnonymousFunction atAnonymousFunction id :=
  .isMooc <| .ite (fun _ => .peekWhile _ _) fun _ => .still _

/-! ## Tables -/

/-- A field of a table, as it is seen. -/
abbrev seenField (v : View) : Option Exp × Exp → Option Exp × Exp :=
  Prod.map (Option.map v.exp) v.exp

theorem bracketedField_commutes (h : r.Commutes v) :
    Commutes v (bracketedField r) (bracketedField r) (seenField v) :=
  .bind (exp_commutes h) fun _ => .bind (.expect .rbracket) fun _ => .bind (.expect .assign)
    fun _ => .map (exp_commutes h) fun _ => rfl

/-- A name is seen as the same name. -/
theorem plainField_commutes (h : r.Commutes v) :
    Commutes v (plainField r) (plainField r) (seenField v) := by
  refine .bind (exp_commutes h) fun e => ?_
  cases e with
  | name name span =>
    exact .andThen (.accepts .assign) fun _ => .ite (fun _ => .map (exp_commutes h) fun _ => rfl)
      fun _ => .pure rfl
  | _ => exact .pure rfl

theorem atLiteralKey_commutes : Commutes v atLiteralKey atLiteralKey id :=
  .andThen (.peekPair _ _) fun _ => .ite (fun _ => .still _) fun _ => .peekPair _ _

theorem field_commutes (h : r.Commutes v) : Commutes v (field r) (field r) (seenField v) := by
  refine .andThen (.accepts .lbracket) fun _ => .ite (fun _ => bracketedField_commutes h) fun _ =>
    .isMooc <| .ite (fun _ => plainField_commutes h) fun _ =>
    .andThen atLiteralKey_commutes fun _ => .ite (fun _ => ?_) fun _ =>
    .andThen (.peekPair _ _) fun _ => .ite (fun _ => ?_) fun _ => plainField_commutes h
  · exact .bind (exp_commutes h) fun _ => .bind (.expect .assign) fun _ =>
      .map (exp_commutes h) fun _ => rfl
  · exact .bind .next fun _ => .map .expectName fun _ => rfl

theorem moreFields_commutes (h : r.Commutes v) (fields : Array (Option Exp × Exp)) :
    Commutes v (moreFields r fields) (moreFields r (fields.map (seenField v)))
      (onRound (Array.map (seenField v))) := by
  refine .andThen .peek fun _ => .ite (fun _ => .pure rfl) fun _ => .bind (field_commutes h)
    fun field => .andThen .peek fun _ => .ite (fun _ => ?_) fun _ => ?_
  · exact .map .next fun _ => by simp
  · exact .pure (by simp)

theorem map_capped {α β : Type} (f : α → β) (cap : Option Nat) (items : List α) :
    (capped cap items).map f = capped cap (items.map f) := by
  cases cap <;> simp [capped, List.map_take]

/-- What is seen of a table is cut further, as it is where the settings seen are asked. -/
theorem table_commutes (h : r.Commutes v) : Commutes v (table r) (table r) v.exp := by
  refine .bind (.expect .lbrace) fun opening => .bind (.iterate (F := Array.map (seenField v))
    (by simp) (moreFields_commutes h)) fun fields => .bind (.expect .rbrace) fun _ =>
    .bind (.since opening.span) fun span => .get fun s fits => .pure ?_
  have cut {β : Type} (items : List β) := v.capped_settings s.settings items fits.dialect
  have seen : (v.session s).settings = v.settings s.settings := rfl
  simp [seen, cut, map_capped, Function.comp_def]

/-! ## Operands -/

theorem args_commutes (h : r.Commutes v) : Commutes v (args r) (args r) (List.map v.exp) := by
  refine .andThen .peek fun _ => .isMooc <| .ite (fun _ => ?_) fun _ =>
    .ite (fun _ => ?_) fun _ => .bind (.expect .lparen) fun _ => .andThen .peek fun _ => ?_
  · exact .map .next fun _ => rfl
  · exact .map h.table fun _ => rfl
  · split
    · exact .bind (F := List.map v.exp) (.pure rfl) fun _ => .map (.expect .rparen) fun _ => rfl
    · exact .bind (expList_commutes h) fun _ => .map (.expect .rparen) fun _ => rfl

/-- Whether spans touch is asked in Mooc only. -/
theorem atMethodCall_commutes : Commutes v atMethodCall atMethodCall id := by
  refine .isMooc (.ite (fun _ => .still _) fun mooc => .bind .now fun callee =>
    .bind (.peekToken 0) fun colon => .bind (.peekToken 1) fun name => .map (.peekToken 2)
    fun paren => ?_)
  rcases v.exact_or_lua with exact | lua
  · simp [exact]
  · exact absurd (by simp [lua]) mooc

theorem callOf_commutes (h : r.Commutes v) (callee : Exp) (method : Option Param) :
    Commutes v (callOf r callee method) (callOf r (v.exp callee) (method.map v.param)) v.exp :=
  .bind (args_commutes h) fun args => by
    rw [Exp.span_recast]
    exact .map (.since callee.span) fun _ => by simp

theorem suffix_commutes (h : r.Commutes v) (e : Exp) :
    Commutes v (suffix r e) (suffix r (v.exp e)) (onRound v.exp) := by
  have called (method : Option Param) : Commutes v
      (do return .yield (← callOf r e method))
      (do return .yield (← callOf r (v.exp e) (method.map v.param))) (onRound v.exp) :=
    .map (callOf_commutes h e method) fun _ => rfl
  refine .andThen .peek fun kind => ?_
  split
  · exact .bind .next fun _ => .map .expectName fun _ => by simp
  · refine .bind .next fun _ => .bind (exp_commutes h) fun key => .bind (.expect .rbracket)
      fun _ => ?_
    rw [Exp.span_recast]
    exact .map (.since e.span) fun _ => by simp
  · refine .andThen atMethodCall_commutes fun _ => .ite (fun _ => .bind .next fun _ =>
      .bind .expectName fun name => ?_) fun _ => .pure rfl
    exact called (some ⟨name.text, name.span⟩)
  · exact called none
  · exact .isMooc <| .ite (fun _ => .pure rfl) fun _ => called none
  · exact .isMooc <| .ite (fun _ => .pure rfl) fun _ => called none
  · exact .pure rfl

theorem prefixExp_commutes (h : r.Commutes v) : Commutes v (prefixExp r) (prefixExp r) v.exp := by
  refine .andThen .peek fun kind => ?_
  split
  · exact .bind .next fun _ => .iterate rfl (suffix_commutes h)
  · exact .bind .next fun opening => .bind h.parenthesised fun _ => .bind (.expect .rparen)
      fun _ => .bind (.since opening.span) fun _ => .iterate (by simp) (suffix_commutes h)
  · exact .bind .next fun _ => .andThen (.complain _ _) fun _ => .pure rfl

theorem literal_commutes (e : Span → Exp) (seen : ∀ span, e (v.place span) = v.exp (e span)) :
    Commutes v (literal e) (literal e) v.exp :=
  .map .next fun token => seen token.span

theorem primary_commutes (h : r.Commutes v) : Commutes v (primary r) (primary r) v.exp := by
  refine .andThen .peek fun kind => ?_
  split
  · exact literal_commutes _ fun _ => rfl
  · exact literal_commutes _ fun _ => rfl
  · exact literal_commutes _ fun _ => rfl
  · exact literal_commutes _ fun _ => rfl
  · exact .map .next fun _ => rfl
  · exact numeral_commutes
  · exact .andThen atAnonymousFunction_commutes fun _ => .ite
      (fun _ => .bind .head fun _ => functionExp_commutes h _ _) fun _ => h.table
  · exact .isMooc <| .ite (fun _ => prefixExp_commutes h) fun _ =>
      .bind .next fun keyword => functionExp_commutes h .ended keyword.span
  · exact .bind .next fun keyword => functionExp_commutes h .braced keyword.span
  · exact prefixExp_commutes h

/-! ## Operators -/

theorem operand_commutes (h : r.Commutes v) : Commutes v (operand r) (operand r) v.exp := by
  refine .andThen .peek fun kind => ?_
  split
  · exact .bind .next fun token => .bind (h.operation _) fun _ => .map (.since token.span)
      fun _ => rfl
  · exact primary_commutes h

theorem infixOp_commutes (h : r.Commutes v) (limit : Nat) (start : Span) (left : Exp) :
    Commutes v (infixOp r limit start left) (infixOp r limit (v.place start) (v.exp left))
      (onRound v.exp) := by
  refine .andThen .peek fun kind => ?_
  split
  · exact .ite (fun _ => .pure rfl) fun _ => .bind .next fun _ => .bind (h.operation _) fun _ =>
      .map (.since start) fun _ => rfl
  · exact .pure rfl

theorem operation_commutes (h : r.Commutes v) (limit : Nat) :
    Commutes v (operation r limit) (operation r limit) v.exp :=
  .bind .head fun start => .bind (operand_commutes h) fun _ =>
    .iterate rfl (infixOp_commutes h limit start)

end Parser

end LuaChunk
