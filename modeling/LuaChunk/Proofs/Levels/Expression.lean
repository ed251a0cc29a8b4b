import LuaChunk.Parser.Expression
import LuaChunk.Proofs.Levels.Basic

/-!
# Expressions with more levels

A block may end at the end of input without taking a token, and is the only construct that may end
where the log spills.  Behind an expression of the same level this does not happen, as there are
levels left.
-/

set_option autoImplicit false

namespace LuaChunk

/-- The second rules, with more levels, do what the first do. -/
structure Rules.Tracked (n : Nat) (r r' : Rules) : Prop where
  block : Parser.Tracks n True r.block r'.block
  blockAfter {limit : Nat} {e : Exp} : (∃ s t, r.operation limit s = .ok e t) →
    Parser.Tracks n False r.block r'.block
  stat : Parser.Tracks n False r.stat r'.stat
  operation (limit : Nat) : Parser.Tracks n False (r.operation limit) (r'.operation limit)
  functionBody (style : FunctionStyle) :
    Parser.Tracks n False (r.functionBody style) (r'.functionBody style)
  table : Parser.Tracks n False r.table r'.table
  parenthesised : Parser.Tracks n False r.parenthesised r'.parenthesised

namespace Parser

variable {n : Nat} {Q : Prop} {r r' : Rules}

theorem expect_sinks (kind : TokenKind) : Sinks Q (expect kind) := .stop .next

theorem exp_tracks (h : r.Tracked n r') : Tracks n False r.exp r'.exp := h.operation 0

theorem expList_tracks (h : r.Tracked n r') : Tracks n False (expList r) (expList r') :=
  .andThen (exp_tracks h) fun _ => .andThen (.iterate fun _ => .andThen (.accepts _) fun _ =>
    .ite (.andThen (exp_tracks h) fun _ => .pure _) (.pure _)) fun _ => .pure _

theorem numeral_tracks : Tracks n False numeral numeral := by
  refine .andThen .next fun token => ?_
  split
  · exact .pure _
  · exact .pure _
  · exact .andThen (.complain _ _) fun _ => .pure _

/-! ## Functions -/

theorem params_tracks : Tracks n False params params := by
  refine .andThen .peek fun _ => .andThen .isMooc fun _ => .ite (.pure _)
    (.ite (.andThen .next fun _ => .pure _) ?_)
  exact .andThen .expectName fun _ => .andThen (.iterate fun _ => .andThen (.accepts _) fun _ =>
    .ite (.andThen .peek fun _ => .ite (.andThen .next fun _ => .pure _)
      (.andThen (.expect _) fun _ => .pure _)) (.pure _)) fun _ => .pure _

theorem openFunctionBlock_tracks (style : FunctionStyle) :
    Tracks n False (openFunctionBlock style) (openFunctionBlock style) := by
  cases style with
  | ended => exact .andThen (.expect _) fun _ => .pure _
  | braced => exact .andThen (.expect _) fun _ => .andThen (.expect _) fun _ => .pure _
  | anonymous => exact .andThen (.expect _) fun _ => .pure _

theorem functionBody_tracks (h : r.Tracked n r') (style : FunctionStyle) :
    Tracks n False (functionBody r style) (functionBody r' style) :=
  .andThen (.expect _) fun _ => .andThen params_tracks fun (_, _) =>
    .andThen (openFunctionBlock_tracks style) fun _ => .recover (.around _ _ h.block)
      (fun _ => .andThen (.expect _) fun _ => .pure _) fun _ => .stop (expect_sinks _)

theorem functionExp_tracks (h : r.Tracked n r') (style : FunctionStyle) (start : Span) :
    Tracks n False (functionExp r style start) (functionExp r' style start) :=
  .andThen (h.functionBody style) fun _ => .andThen (.since _) fun _ => .pure _

theorem atAnonymousFunction_tracks :
    Tracks n False atAnonymousFunction atAnonymousFunction :=
  .andThen .isMooc fun _ => .ite (.peekWhile _ _) (.pure _)

/-! ## Tables -/

theorem bracketedField_tracks (h : r.Tracked n r') :
    Tracks n False (bracketedField r) (bracketedField r') :=
  .andThen (exp_tracks h) fun _ => .andThen (.expect _) fun _ => .andThen (.expect _) fun _ =>
    .andThen (exp_tracks h) fun _ => .pure _

theorem plainField_tracks (h : r.Tracked n r') :
    Tracks n False (plainField r) (plainField r') := by
  refine .andThen (exp_tracks h) fun e => ?_
  split
  · exact .andThen (.accepts _) fun _ => .ite (.andThen (exp_tracks h) fun _ => .pure _) (.pure _)
  · exact .pure _

theorem atLiteralKey_tracks : Tracks n False atLiteralKey atLiteralKey :=
  .andThen (.peekPair _ _) fun _ => .ite (.pure _) (.peekPair _ _)

theorem field_tracks (h : r.Tracked n r') : Tracks n False (field r) (field r') := by
  refine .andThen (.accepts _) fun _ => .ite (bracketedField_tracks h) <| .andThen .isMooc fun _ =>
    .ite (plainField_tracks h) <| .andThen atLiteralKey_tracks fun _ => .ite ?_ <|
    .andThen (.peekPair _ _) fun _ => .ite ?_ (plainField_tracks h)
  · exact .andThen (exp_tracks h) fun _ => .andThen (.expect _) fun _ =>
      .andThen (exp_tracks h) fun _ => .pure _
  · exact .andThen .next fun _ => .andThen .expectName fun _ => .pure _

theorem table_tracks (h : r.Tracked n r') : Tracks n False (table r) (table r') :=
  .andThen (.expect _) fun _ => .andThen (.iterate fun _ => .andThen .peek fun _ => .ite (.pure _)
    (.andThen (field_tracks h) fun _ => .andThen .peek fun _ =>
      .ite (.andThen .next fun _ => .pure _) (.pure _))) fun _ =>
    .andThen (.expect _) fun _ => .andThen (.since _) fun _ => .get fun _ => .pure _

/-! ## Operands -/

theorem args_tracks (h : r.Tracked n r') : Tracks n False (args r) (args r') := by
  refine .andThen .peek fun _ => .andThen .isMooc fun _ => .ite
    (.andThen .next fun _ => .pure _) <| .ite (.andThen h.table fun _ => .pure _) <|
    .andThen (.expect _) fun _ => .andThen .peek fun _ => ?_
  split
  · exact .andThen (.pure _) fun _ => .andThen (.expect _) fun _ => .pure _
  · exact .andThen (expList_tracks h) fun _ => .andThen (.expect _) fun _ => .pure _

theorem atMethodCall_tracks : Tracks n False atMethodCall atMethodCall :=
  .andThen .isMooc fun _ => .ite (.pure _) <| .andThen .now fun _ => .andThen (.peekToken 0) fun _ =>
    .andThen (.peekToken 1) fun _ => .andThen (.peekToken 2) fun _ => .pure _

theorem callOf_tracks (h : r.Tracked n r') (callee : Exp) (method : Option Param) :
    Tracks n False (callOf r callee method) (callOf r' callee method) :=
  .andThen (args_tracks h) fun _ => .andThen (.since _) fun _ => .pure _

theorem suffix_tracks (h : r.Tracked n r') (e : Exp) :
    Tracks n False (suffix r e) (suffix r' e) := by
  have called (method : Option Param) :=
    Tracks.andThen (callOf_tracks h e method) fun e => Tracks.pure (Q := False) (ForInStep.yield e)
  refine .andThen .peek fun kind => ?_
  split
  · exact .andThen .next fun _ => .andThen .expectName fun _ => .pure _
  · exact .andThen .next fun _ => .andThen (exp_tracks h) fun _ => .andThen (.expect _) fun _ =>
      .andThen (.since _) fun _ => .pure _
  · exact .andThen atMethodCall_tracks fun _ => .ite (.andThen .next fun _ =>
      .andThen .expectName fun _ => called _) (.pure _)
  · exact called none
  · exact .andThen .isMooc fun _ => .ite (.pure _) (called none)
  · exact .andThen .isMooc fun _ => .ite (.pure _) (called none)
  · exact .pure _

theorem prefixExp_tracks (h : r.Tracked n r') :
    Tracks n False (prefixExp r) (prefixExp r') := by
  refine .andThen .peek fun kind => ?_
  split
  · exact .andThen .next fun _ => .iterate (suffix_tracks h)
  · exact .andThen .next fun _ => .andThen h.parenthesised fun _ => .andThen (.expect _) fun _ =>
      .andThen (.since _) fun _ => .iterate (suffix_tracks h)
  · exact .andThen .next fun _ => .andThen (.complain _ _) fun _ => .pure _

theorem literal_tracks (e : Span → Exp) : Tracks n False (literal e) (literal e) :=
  .andThen .next fun _ => .pure _

theorem primary_tracks (h : r.Tracked n r') : Tracks n False (primary r) (primary r') := by
  refine .andThen .peek fun kind => ?_
  split
  · exact literal_tracks _
  · exact literal_tracks _
  · exact literal_tracks _
  · exact literal_tracks _
  · exact .andThen .next fun _ => .pure _
  · exact numeral_tracks
  · exact .andThen atAnonymousFunction_tracks fun _ => .ite
      (.andThen .head fun _ => functionExp_tracks h _ _) h.table
  · exact .andThen .isMooc fun _ => .ite (prefixExp_tracks h)
      (.andThen .next fun _ => functionExp_tracks h _ _)
  · exact .andThen .next fun _ => functionExp_tracks h _ _
  · exact prefixExp_tracks h

theorem operand_tracks (h : r.Tracked n r') : Tracks n False (operand r) (operand r') := by
  refine .andThen .peek fun kind => ?_
  split
  · exact .andThen .next fun _ => .andThen (h.operation _) fun _ => .andThen (.since _) fun _ =>
      .pure _
  · exact primary_tracks h

theorem operation_tracks (h : r.Tracked n r') (limit : Nat) :
    Tracks n False (operation r limit) (operation r' limit) := by
  refine .andThen .head fun _ => .andThen (operand_tracks h) fun _ => .iterate fun _ =>
    .andThen .peek fun kind => ?_
  split
  · exact .ite (.pure _) (.andThen .next fun _ => .andThen (h.operation _) fun _ =>
      .andThen (.since _) fun _ => .pure _)
  · exact .pure _

end Parser

end LuaChunk
