import LuaChunk.Parser.Assignment

/-!
Statements that both dialects have. Where Lua opens a body with a word and closes it with `end`,
Mooc has braces.
-/

set_option autoImplicit false

namespace LuaChunk.Parser

/-! Bodies -/

/-- The token that opens a body: Lua's word, or a brace. -/
def openBody (word : TokenKind) : Parser Unit := do
  let _ ← expect (if ← isMooc then .lbrace else word)

/-- The token that closes a body. -/
def closeBody : Parser Unit := do
  let _ ← expect (if ← isMooc then .rbrace else .kwEnd)

/-- A brace that only Mooc writes. -/
def brace (kind : TokenKind) : Parser Unit := do
  if ← isMooc then
    let _ ← expect kind

/-- The body of a loop, from the word that opens it. -/
def loopBody (r : Rules) (name : String) : Parser Block := do
  openBody .kwDo
  let body ← within .loop name r.block
  closeBody
  return body

/-! Simple statements -/

def breakStat : Parser Stat := do
  let token ← next
  if !(← insideLoop) then complain .breakOutsideLoop token.span
  return .breakLoop token.span

def labelStat : Parser Stat := do
  let opening ← next
  let name ← expectName
  let _ ← expect .doubleColon
  return .label name.text (← since opening.span)

def gotoStat : Parser Stat := do
  let keyword ← next
  let name ← expectName
  return .goto name.text (keyword.span.merge name.span)

/-! Compound statements -/

def doStat (r : Rules) : Parser Stat := do
  let keyword ← next
  brace .lbrace
  let body ← within .doBlock "do" r.block
  closeBody
  return .doBlock .plain body (← since keyword.span)

def whileStat (r : Rules) : Parser Stat := do
  let keyword ← next
  let condition ← r.exp
  let body ← loopBody r "while"
  return .whileLoop condition body (← since keyword.span)

def repeatStat (r : Rules) : Parser Stat := do
  let keyword ← next
  brace .lbrace
  let body ← within .loop "repeat" r.block
  brace .rbrace
  let _ ← expect .kwUntil
  let condition ← r.exp
  return .repeatLoop body condition (← since keyword.span)

/-- A condition and the block it guards. -/
def branch (r : Rules) : Parser Branch := do
  let condition ← r.exp
  openBody .kwThen
  let body ← within .branch "if" r.block
  brace .rbrace
  return ⟨condition, body⟩

def moreBranches (r : Rules) (branches : Array Branch) : Parser (ForInStep (Array Branch)) := do
  if ← accepts .kwElseif then return .yield (branches.push (← branch r)) else return .done branches

/-- The last branch of a conditional, if it has one without a condition. -/
def elseBranch (r : Rules) : Parser (List Branch) := do
  match ← accept .kwElse with
  | some token =>
    brace .lbrace
    let body ← within .branch "if" r.block
    brace .rbrace
    return [⟨.bool true token.span, body⟩]
  | none => return []

def ifStat (r : Rules) : Parser Stat := do
  let keyword ← next
  let first ← branch r
  let branches ← iterate #[first] (moreBranches r)
  let last ← elseBranch r
  if !(← isMooc) then
    let _ ← expect .kwEnd
  return .conditional ⟨branches.toList ++ last, ← since keyword.span⟩

/-! Loops over ranges and iterators -/

/-- The step of a numeric loop is one where it is not written. -/
def numericFor (r : Rules) (start : Span) (var : Param) : Parser Stat := do
  let _ ← expect .assign
  let init ← r.exp
  let _ ← expect .comma
  let limit ← r.exp
  let step ← if ← accepts .comma then r.exp else pure (.integer 1 .synthetic)
  let body ← loopBody r "for"
  return .numericFor var init limit step body (← since start)

def moreVars (vars : Array Param) : Parser (ForInStep (Array Param)) := do
  if ← accepts .comma then
    let name ← expectName
    return .yield (vars.push ⟨name.text, name.span⟩)
  else return .done vars

def genericFor (r : Rules) (start : Span) (first : Param) : Parser Stat := do
  let vars ← iterate #[first] moreVars
  let _ ← expect .kwIn
  let iterables ← expList r
  let body ← loopBody r "for"
  return .genericFor vars.toList iterables body (← since start)

def forStat (r : Rules) : Parser Stat := do
  let keyword ← next
  let name ← expectName
  let var : Param := ⟨name.text, name.span⟩
  if (← peek) = .assign then numericFor r keyword.span var else genericFor r keyword.span var

/-! Functions -/

/-- The name of a function statement: what it assigns to, and the last two names of the chain. -/
structure FunctionName where
  target : Exp
  isMethod : Bool
  owner : Option String
  name : String

/-- One more name of the chain; the last one so far becomes its owner. -/
def FunctionName.member (f : FunctionName) (token : Token) (isMethod : Bool) : FunctionName :=
  ⟨f.target.field token.text token.span, isMethod, some f.name, token.text⟩

def moreNames (f : FunctionName) : Parser (ForInStep FunctionName) := do
  if ← accepts .dot then return .yield (f.member (← expectName) false) else return .done f

/-- Names with dots between them, and perhaps a method's name after a colon. -/
def dottedName : Parser FunctionName := do
  let first ← expectName
  let f ← iterate ⟨.name first.text first.span, false, none, first.text⟩ moreNames
  if ← accepts .colon then return f.member (← expectName) true else return f

/-- Inside a class the name is that of a member, and a method unless it is static. -/
def functionName (isStatic : Bool) : Parser FunctionName := do
  match ← isMooc, (← scopes).currentClass? with
  | true, some owner =>
    let name ← expectName
    return ⟨(Exp.name owner name.span).field name.text name.span, !isStatic, some owner, name.text⟩
  | _, _ => dottedName

/-- The keyword and the style of a function statement. -/
def functionStyle : Parser (TokenKind × FunctionStyle) := do
  if ← isMooc then return (.kwFn, .braced) else return (.kwFunction, .ended)

/-- A function statement as an assignment to its name. A method gets `self` as its first
parameter, placed at the end of the name. -/
def functionStat (r : Rules) (start : Span) (attr : Attribute) (isStatic : Bool) :
    Parser Assignment := do
  if isStatic then
    let _ ← next
  let (keyword, style) ← functionStyle
  let keyword ← expect keyword
  let name ← functionName isStatic
  let self : Param := ⟨"self", ← now⟩
  let body ← r.functionBody style
  let body : FunctionBody :=
    { body with
      params := if name.isMethod then self :: body.params else body.params
      isMethod := name.isMethod
      owner := name.owner
      name := some name.name }
  return {
    targets := [name.target]
    values := [.function body (← since keyword.span)]
    attr
    span := ← since start }

/-- The rest of a function that began with `local`. -/
def localFunction (r : Rules) (start : Span) : Parser Stat := do
  let (_, style) ← functionStyle
  let _ ← next
  let name ← expectName
  let body ← r.functionBody style
  return .localFunction ⟨name.text, name.span⟩ { body with name := some name.text } (← since start)

/-- Takes a token that is no statement. -/
def skipToken : Parser Stat := do
  let _ ← next
  return .empty

def luaStat (r : Rules) : Parser Stat := do
  match ← peek with
  | .semi | .illegal => skipToken
  | .kwBreak => breakStat
  | .doubleColon => labelStat
  | .kwGoto => gotoStat
  | .kwDo => doStat r
  | .kwWhile => whileStat r
  | .kwRepeat => repeatStat r
  | .kwIf => ifStat r
  | .kwFor => forStat r
  | .kwFunction => return .assign (← functionStat r (← head) .regular false)
  | .kwLocal =>
    let keyword ← next
    if (← peek) = .kwFunction then localFunction r keyword.span else localDecl r keyword.span
  | _ => assignOrCall r

end LuaChunk.Parser
