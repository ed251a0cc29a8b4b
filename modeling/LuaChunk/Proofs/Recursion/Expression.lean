import LuaChunk.Proofs.Recursion.Basic
import LuaChunk.Proofs.Spelling.Progress

/-!
# Expressions read by rules that agree
-/

set_option autoImplicit false

namespace LuaChunk.Parser

variable {c : Settings} {d : Nat} {k : Headway} {r r' : Rules}

theorem exp_agree (h : r.Agree c d r') : Agree c d k r.exp r'.exp fun _ => k.take :=
  h.operation k 0

/-- One more expression of a list, after a comma. -/
def moreExps (r : Rules) (exps : Array Exp) : Parser (ForInStep (Array Exp)) := do
  if ← accepts .comma then return .yield (exps.push (← r.exp)) else return .done exps

theorem expList_eq (r : Rules) : expList r = do
    let first ← r.exp
    return (← iterate #[first] (moreExps r)).toList := rfl

theorem moreExps_agree (h : r.Agree c d r') (exps : Array Exp) :
    Agree c d k (moreExps r exps) (moreExps r' exps) Headway.ofRound := by
  apply Agree.ifAccepts (by decide)
  · exact .map (exp_agree h) fun _ => .round rfl
  · exact .done _ (.none _)

theorem expList_agree (h : r.Agree c d r') :
    Agree c d k (expList r) (expList r') fun _ => k.take := by
  rw [expList_eq, expList_eq]
  apply Agree.bind (exp_agree h)
  intro first
  exact .give (.iterate (moreExps_agree h))

theorem numeral_agree : Agree c d k numeral numeral fun _ => k.take := by
  apply Agree.bind .next
  intro token
  split
  · exact .still _
  · exact .still _
  · exact .bind (.complain rfl _) fun _ => .still _

/-! ## Functions -/

theorem moreParams_agree (read : Array Param × Bool) :
    Agree c d k (moreParams read) (moreParams read) Headway.ofRound := by
  apply Agree.ifAccepts (by decide)
  · apply Agree.bind .peek
    intro kind
    apply Agree.ite
    · intro _
      exact .map .next fun _ => .round_take (.inr rfl)
    · intro _
      exact .map (.expect .vararg) fun _ => .none _
  · exact .done _ (.none _)

theorem params_agree : Agree c d k params params fun _ => k.pass := by
  apply Agree.bind .asked
  intro kind
  apply Agree.bind .isMooc
  intro mooc
  apply Agree.ite
  · intro _
    exact .done _ (.pass k)
  intro _
  apply Agree.ite
  · intro _
    exact .map .next fun _ => .take k
  intro _
  apply Agree.bind .expectName
  intro first
  exact .map (.iterate moreParams_agree) fun _ => .take k

theorem openFunctionBlock_agree (style : FunctionStyle) :
    Agree c d k (openFunctionBlock style) (openFunctionBlock style) fun _ => k.take := by
  cases style with
  | ended => exact .give (.expect .rparen)
  | braced => exact .bind (.expect .rparen) fun _ => .give (.expect .lbrace)
  | anonymous => exact .give (.expect .kwIn)

theorem functionBody_agree (h : r.Agree c d r') (style : FunctionStyle) :
    Agree c d k (functionBody r style) (functionBody r' style) fun _ => k.take := by
  apply Agree.bind (.expect _)
  intro _
  apply Agree.bind params_agree
  intro params
  apply Agree.bind (openFunctionBlock_agree style)
  intro _
  apply Agree.bind (.within .function "function" (h.block _))
  intro block
  exact .give (.expect _)

theorem functionExp_agree (h : r.Agree c d r') (style : FunctionStyle) (start : Span) :
    Agree c d k (functionExp r style start) (functionExp r' style start) fun _ => k.take :=
  .bind (h.functionBody k style) fun _ => .give (.since start)

theorem atAnonymousFunction_agree :
    Agree c d k atAnonymousFunction atAnonymousFunction fun _ => k :=
  .bind .isMooc fun _ => .ite (fun _ => .peekWhile _ _) fun _ => .still _

/-! ## Tables -/

theorem bracketedField_agree (h : r.Agree c d r') :
    Agree c d k (bracketedField r) (bracketedField r') fun _ => k.take := by
  apply Agree.bind (exp_agree h)
  intro key
  apply Agree.bind (.expect .rbracket)
  intro _
  apply Agree.bind (.expect .assign)
  intro _
  exact .give (exp_agree h)

theorem plainField_agree (h : r.Agree c d r') :
    Agree c d k (plainField r) (plainField r') fun _ => k.take := by
  apply Agree.bind (exp_agree h)
  intro exp
  split
  · apply Agree.bind (.accepts .assign)
    intro _
    exact .ite (fun _ => .give (exp_agree h)) fun _ => .still _
  · exact .still _

theorem atLiteralKey_agree : Agree c d k atLiteralKey atLiteralKey fun _ => k :=
  .bind (.peekPair _ _) fun _ => .ite (fun _ => .still _) fun _ => .peekPair _ _

theorem field_agree (h : r.Agree c d r') : Agree c d k (field r) (field r') fun _ => k.pass := by
  apply Agree.bind (.accepts .lbracket)
  intro _
  apply Agree.ite
  · intro _
    exact bracketedField_agree h
  intro _
  apply Agree.bind .isMooc
  intro mooc
  apply Agree.ite
  · intro _
    exact plainField_agree h
  intro _
  apply Agree.bind atLiteralKey_agree
  intro _
  apply Agree.ite
  · intro _
    apply Agree.bind (exp_agree h)
    intro key
    apply Agree.bind (.expect .assign)
    intro _
    exact .give (exp_agree h)
  intro _
  apply Agree.bind (.peekPair _ _)
  intro _
  apply Agree.ite
  · intro _
    exact .bind .next fun _ => .give .expectName
  · intro _
    exact plainField_agree h

/-- Another field is only read after a comma or a semicolon. -/
theorem moreFields_agree (h : r.Agree c d r') (fields : Array (Option Exp × Exp)) :
    Agree c d k (moreFields r fields) (moreFields r' fields) Headway.ofRound := by
  apply Agree.bind .asked
  intro _
  apply Agree.ite
  · intro _
    exact .done _ (.none _)
  intro _
  apply Agree.bind (field_agree h)
  intro field
  apply Agree.bind .peek
  intro kind
  apply Agree.ite
  · intro separator
    apply Agree.map .next
    intro _
    rcases separator with rfl | rfl
    · exact .round_take (.inl rfl)
    · exact .round_take (.inl rfl)
  · intro _
    exact .done _ (.none _)

theorem table_agree (h : r.Agree c d r') :
    Agree c d k (table r) (table r') fun _ => k.take := by
  apply Agree.bind (.expect .lbrace)
  intro opening
  apply Agree.bind (.iterate (moreFields_agree h))
  intro fields
  apply Agree.bind (.expect .rbrace)
  intro _
  apply Agree.bind (.since opening.span)
  intro span
  exact .ask _

/-! ## Operands -/

theorem args_agree (h : r.Agree c d r') : Agree c d k (args r) (args r') fun _ => k.take := by
  apply Agree.bind .asked
  intro kind
  apply Agree.bind .isMooc
  intro mooc
  apply Agree.ite
  · intro _
    exact .give .next
  intro _
  apply Agree.ite
  · intro _
    exact .give (h.table k)
  intro _
  apply Agree.bind (.expect .lparen)
  intro _
  apply Agree.bind .asked
  intro _
  apply Agree.ite
  · intro _
    exact .bind (.still _) fun _ => .give (.expect .rparen)
  · intro _
    exact .bind (expList_agree h) fun _ => .give (.expect .rparen)

theorem atMethodCall_agree : Agree c d k atMethodCall atMethodCall fun _ => k := by
  apply Agree.bind .isMooc
  intro mooc
  apply Agree.ite
  · intro _
    exact .still _
  intro _
  apply Agree.bind .now
  intro callee
  apply Agree.bind (.peekToken 0)
  intro colon
  apply Agree.bind (.peekToken 1)
  intro name
  exact .give (.peekToken 2)

theorem callOf_agree (h : r.Agree c d r') (callee : Exp) (method : Option Param) :
    Agree c d k (callOf r callee method) (callOf r' callee method) fun _ => k.take :=
  .bind (args_agree h) fun _ => .give (.since callee.span)

/-- What follows an operand begins with a token that has been looked at. -/
theorem suffix_agree (h : r.Agree c d r') (exp : Exp) :
    Agree c d k (suffix r exp) (suffix r' exp) Headway.ofRound := by
  apply Agree.bind .peek
  intro kind
  split
  · exact .bind .next fun _ => .map .expectName fun _ => .round rfl
  · apply Agree.bind .next
    intro _
    apply Agree.bind (exp_agree h)
    intro key
    apply Agree.bind (.expect .rbracket)
    intro _
    exact .map (.since exp.span) fun _ => .round rfl
  · apply Agree.bind atMethodCall_agree
    intro _
    apply Agree.ite
    · intro _
      apply Agree.bind .next
      intro _
      apply Agree.bind .expectName
      intro name
      exact .map (callOf_agree h _ _) fun _ => .round rfl
    · intro _
      exact .done _ (.none _)
  · exact .map (callOf_agree h _ _) fun _ => .round rfl
  · apply Agree.bind .isMooc
    intro mooc
    exact .ite (fun _ => .done _ (.none _)) fun _ => .map (callOf_agree h _ _) fun _ => .round rfl
  · apply Agree.bind .isMooc
    intro mooc
    exact .ite (fun _ => .done _ (.none _)) fun _ => .map (callOf_agree h _ _) fun _ => .round rfl
  · exact .done _ (.none _)

theorem prefixExp_agree (h : r.Agree c d r') :
    Agree c d k (prefixExp r) (prefixExp r') fun _ => k.take := by
  apply Agree.bind .asked
  intro kind
  split
  · exact .bind .next fun _ => .iterate (suffix_agree h)
  · apply Agree.bind .next
    intro opening
    apply Agree.bind (h.parenthesised _)
    intro inner
    apply Agree.bind (.expect .rparen)
    intro _
    apply Agree.bind (.since opening.span)
    intro span
    exact .iterate (suffix_agree h)
  · exact .bind .next fun _ => .bind (.complain rfl _) fun _ => .still _

theorem literal_agree (exp : Span → Exp) :
    Agree c d k (literal exp) (literal exp) fun _ => k.take := .give .next

theorem primary_agree (h : r.Agree c d r') :
    Agree c d k (primary r) (primary r') fun _ => k.take := by
  apply Agree.bind .asked
  intro kind
  split
  · exact literal_agree _
  · exact literal_agree _
  · exact literal_agree _
  · exact literal_agree _
  · exact .give .next
  · exact numeral_agree
  · apply Agree.bind atAnonymousFunction_agree
    intro _
    apply Agree.ite
    · intro _
      exact .bind .head fun start => functionExp_agree h .anonymous start
    · intro _
      exact h.table k
  · apply Agree.bind .isMooc
    intro mooc
    apply Agree.ite
    · intro _
      exact prefixExp_agree h
    · intro _
      exact .bind .next fun keyword => functionExp_agree h .ended keyword.span
  · exact .bind .next fun keyword => functionExp_agree h .braced keyword.span
  · exact prefixExp_agree h

/-! ## Operators -/

theorem operand_agree (h : r.Agree c d r') :
    Agree c d k (operand r) (operand r') fun _ => k.take := by
  apply Agree.bind .asked
  intro kind
  split
  · apply Agree.bind .next
    intro token
    apply Agree.bind (h.operation _ UnaryOp.priority)
    intro exp
    exact .give (.since token.span)
  · exact primary_agree h

/-- An operator is a token, whatever its operand is. -/
theorem infixOp_agree (h : r.Agree c d r') (limit : Nat) (start : Span) (left : Exp) :
    Agree c d k (infixOp r limit start left) (infixOp r' limit start left) Headway.ofRound := by
  apply Agree.bind .peek
  intro kind
  split
  next op operator =>
    apply Agree.ite
    · intro _
      exact .done _ (.none _)
    · intro _
      apply Agree.bind .next
      intro _
      apply Agree.bind (h.operation _ op.rightLimit)
      intro right
      apply Agree.map (.since start)
      intro span
      exact .round_take (.inr (by simp [Headway.take, Headway.facing, BinaryOp.ne_eof operator]))
  · exact .done _ (.none _)

theorem operation_agree (h : r.Agree c d r') (limit : Nat) :
    Agree c d k (operation r limit) (operation r' limit) fun _ => k.take := by
  apply Agree.bind .head
  intro start
  apply Agree.bind (operand_agree h)
  intro first
  exact .iterate (infixOp_agree h limit start)

end LuaChunk.Parser
