import LuaChunk.Number.Numeral
import LuaChunk.Parser.Basic
import LuaChunk.Tree.Desugar

/-!
Expressions. Operators are read by climbing: an operand, then every operator that binds more
tightly than the limit, each with a right operand read to the operator's own limit. A name or a
parenthesised expression takes any number of fields, indices and calls after it.
-/

set_option autoImplicit false

namespace LuaChunk.Parser

/-- One expression, then one more after each comma. -/
def expList (r : Rules) : Parser (List Exp) := do
  let first ← r.exp
  let exps ← iterate #[first] fun exps => do
    if ← accepts .comma then return .yield (exps.push (← r.exp))
    else return .done exps
  return exps.toList

/-- A numeral without a value stands for zero, nowhere in the source. -/
def numeral : Parser Exp := do
  let token ← next
  match Numeral.read? token.text with
  | some (.integer value) => return .integer value token.span
  | some (.float value) => return .float value token.span
  | none =>
    complain (.notANumber token.text) token.span
    return .float .zero .synthetic

/-! Functions -/

/-- More parameters after a comma; `...` is the last. -/
def moreParams (read : Array Param × Bool) : Parser (ForInStep (Array Param × Bool)) := do
  if ← accepts .comma then
    if (← peek) = .identifier then
      let name ← next
      return .yield (read.1.push ⟨name.text, name.span⟩, false)
    else
      let _ ← expect .vararg
      return .done (read.1, true)
  else return .done read

/-- Parameters up to what closes them, and whether `...` ends them. -/
def params : Parser (List Param × Bool) := do
  let kind ← peek
  if kind = .rparen ∨ (kind = .kwIn ∧ (← isMooc)) then return ([], false)
  else if kind = .vararg then
    let _ ← next
    return ([], true)
  else
    let first ← expectName
    let (names, isVararg) ← iterate (#[⟨first.text, first.span⟩], false) moreParams
    return (names.toList, isVararg)

/-- What stands between the parameters and the block. -/
def openFunctionBlock : FunctionStyle → Parser Unit
  | .ended => do
    let _ ← expect .rparen
  | .braced => do
    let _ ← expect .rparen
    let _ ← expect .lbrace
  | .anonymous => do
    let _ ← expect .kwIn

/-- A function from its parameters on. -/
def functionBody (r : Rules) (style : FunctionStyle) : Parser FunctionBody := do
  let _ ← expect (if style = .anonymous then .lbrace else .lparen)
  let (names, isVararg) ← params
  openFunctionBlock style
  let block ← within .function "function" r.block
  let _ ← expect (if style = .ended then .kwEnd else .rbrace)
  return { params := names, isVararg, isMethod := false, block, owner := none, name := none }

/-- A function as an expression that began at `start`. -/
def functionExp (r : Rules) (style : FunctionStyle) (start : Span) : Parser Exp := do
  let body ← r.functionBody style
  return .function body (← since start)

/-- Tells an anonymous function from a table: names, `...` and commas up to `in`. -/
def anonymousHeader : TokenKind → Verdict
  | .identifier | .vararg | .comma => .proceed
  | .kwIn => .accept
  | _ => .reject

/-- The brace ahead begins an anonymous function, which Lua does not have. -/
def atAnonymousFunction : Parser Bool := do
  if ← isMooc then onTokens (·.peekWhile .lbrace anonymousHeader) else return false

/-! Tables -/

/-- A key in brackets. -/
def bracketedField (r : Rules) : Parser (Option Exp × Exp) := do
  let key ← r.exp
  let _ ← expect .rbracket
  let _ ← expect .assign
  return (some key, ← r.exp)

/-- A field that begins with an expression; a name before `=` is its key. -/
def plainField (r : Rules) : Parser (Option Exp × Exp) := do
  let exp ← r.exp
  match exp with
  | .name name span =>
    if ← accepts .assign then return (some (.string name span), ← r.exp)
    else return (none, exp)
  | _ => return (none, exp)

/-- A string or numeral stands before `=`. -/
def atLiteralKey : Parser Bool := do
  if ← onTokens (·.peekPair .string .assign) then return true
  onTokens (·.peekPair .number .assign)

/-- In Mooc a literal may be a key without brackets, and `=name` is the field of that name. -/
def field (r : Rules) : Parser (Option Exp × Exp) := do
  if ← accepts .lbracket then bracketedField r
  else if !(← isMooc) then plainField r
  else if ← atLiteralKey then
    let key ← r.exp
    let _ ← expect .assign
    return (some key, ← r.exp)
  else if ← onTokens (·.peekPair .assign .identifier) then
    let _ ← next
    let name ← expectName
    return (some (.string name.text name.span), .name name.text name.span)
  else plainField r

/-- Fields with commas or semicolons between them, and perhaps one after the last. -/
def moreFields (r : Rules) (fields : Array (Option Exp × Exp)) :
    Parser (ForInStep (Array (Option Exp × Exp))) := do
  if (← peek) = .rbrace then return .done fields
  let fields := fields.push (← field r)
  let kind ← peek
  if kind = .comma ∨ kind = .semi then
    let _ ← next
    return .yield fields
  else return .done fields

/-- The first entries, as many as the cap allows. -/
def capped {α : Type} (cap : Option Nat) (items : List α) : List α :=
  match cap with
  | some n => items.take n
  | none => items

@[grind →]
theorem mem_of_mem_capped {α : Type} {cap : Option Nat} {items : List α} {a : α}
    (h : a ∈ capped cap items) : a ∈ items := by
  cases cap with
  | none => exact h
  | some n => exact List.mem_of_mem_take h

def table (r : Rules) : Parser Exp := do
  let opening ← expect .lbrace
  let fields ← iterate #[] (moreFields r)
  let _ ← expect .rbrace
  let span ← since opening.span
  let cap := (← get).settings.fieldCap
  let keys := capped cap (fields.toList.map (·.1))
  let values := capped cap (fields.toList.map (·.2))
  return .table keys values span

/-! Operands -/

/-- Arguments in parentheses; in Lua a string or a table may stand for them. -/
def args (r : Rules) : Parser (List Exp) := do
  let kind ← peek
  let mooc ← isMooc
  if kind = .string ∧ !mooc then
    let token ← next
    return [.string token.text token.span]
  else if kind = .lbrace ∧ !mooc then return [← r.table]
  else
    let _ ← expect .lparen
    let exps ← if (← peek) = .rparen then pure [] else expList r
    let _ ← expect .rparen
    return exps

/-- The second span starts where the first ends. -/
def touches (a b : Span) : Bool := a.stop == b.start

/-- Whether the colon ahead begins a method call. In Mooc it has to touch what is called and the
method's name, and an argument list has to follow. -/
def atMethodCall : Parser Bool := do
  if !(← isMooc) then return true
  let callee ← now
  let colon ← peekToken 0
  let name ← peekToken 1
  let paren ← peekToken 2
  return touches callee colon.span && touches colon.span name.span
    && name.kind == .identifier && paren.kind == .lparen

/-- A call of `callee`, which may be a method of it. -/
def callOf (r : Rules) (callee : Exp) (method : Option Param) : Parser Exp := do
  let args ← args r
  return .call ⟨callee, method, args⟩ (← since callee.span)

/-- One field, index or call after an operand, if there is one. -/
def suffix (r : Rules) (exp : Exp) : Parser (ForInStep Exp) := do
  match ← peek with
  | .dot =>
    let _ ← next
    let name ← expectName
    return .yield (exp.field name.text name.span)
  | .lbracket =>
    let _ ← next
    let key ← r.exp
    let _ ← expect .rbracket
    return .yield (.index exp key (← since exp.span))
  | .colon =>
    if ← atMethodCall then
      let _ ← next
      let name ← expectName
      return .yield (← callOf r exp (some ⟨name.text, name.span⟩))
    else return .done exp
  | .lparen => return .yield (← callOf r exp none)
  | .string | .lbrace =>
    if ← isMooc then return .done exp else return .yield (← callOf r exp none)
  | _ => return .done exp

/-- A name or a parenthesised expression with what follows it. Any other token is taken and
complained of. -/
def prefixExp (r : Rules) : Parser Exp := do
  match ← peek with
  | .identifier =>
    let token ← next
    iterate (.name token.text token.span) (suffix r)
  | .lparen =>
    let opening ← next
    let inner ← r.parenthesised
    let _ ← expect .rparen
    iterate (.paren inner (← since opening.span)) (suffix r)
  | _ =>
    let token ← next
    complain (.unexpectedSymbol token.near) token.span
    return .bad token.span

/-- A token that is an expression by itself. -/
def literal (exp : Span → Exp) : Parser Exp := do
  let token ← next
  return exp token.span

/-- An expression without operators. -/
def primary (r : Rules) : Parser Exp := do
  match ← peek with
  | .vararg => literal .vararg
  | .kwNil => literal .nil
  | .kwTrue => literal (.bool true)
  | .kwFalse => literal (.bool false)
  | .string =>
    let token ← next
    return .string token.text token.span
  | .number => numeral
  | .lbrace =>
    if ← atAnonymousFunction then functionExp r .anonymous (← head) else r.table
  | .kwFunction =>
    if ← isMooc then prefixExp r
    else
      let keyword ← next
      functionExp r .ended keyword.span
  | .kwFn =>
    let keyword ← next
    functionExp r .braced keyword.span
  | _ => prefixExp r

/-! Operators -/

/-- The first operand: a prefix operator with its operand, or a primary expression. -/
def operand (r : Rules) : Parser Exp := do
  match UnaryOp.ofToken? (← peek) with
  | some op =>
    let token ← next
    let exp ← r.operation UnaryOp.priority
    return .unary op exp (← since token.span)
  | none => primary r

/-- A binary operator above the limit, with its right operand, after what began at `start`. -/
def infixOp (r : Rules) (limit : Nat) (start : Span) (left : Exp) : Parser (ForInStep Exp) := do
  match BinaryOp.ofToken? (← peek) with
  | some op =>
    if op.priority ≤ limit then return .done left
    else
      let _ ← next
      let right ← r.operation op.rightLimit
      return .yield (.binary op left right (← since start))
  | none => return .done left

def operation (r : Rules) (limit : Nat) : Parser Exp := do
  let start ← head
  let first ← operand r
  iterate first (infixOp r limit start)

end LuaChunk.Parser
