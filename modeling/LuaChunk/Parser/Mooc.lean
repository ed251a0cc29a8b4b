import LuaChunk.Parser.Statement

/-!
Statements that only Mooc has. Each is read straight into the plain tree it stands for.
-/

set_option autoImplicit false

namespace LuaChunk.Parser

/-! Transfer of control -/

/-- A `continue` is a jump to the label that the innermost loop's body gets at its end. -/
def continueStat : Parser Stat := do
  let token ← next
  let depth := (← scopes).openLoops
  if ← insideLoop then
    onScopes (·.setFound .loop .function 1)
    return .goto (continueLabel depth) token.span
  else
    complain .continueOutsideLoop token.span
    return .goto "continue" token.span

def deferStat (r : Rules) : Parser Stat := do
  let keyword ← next
  let _ ← expect .lbrace
  if ((← scopes).find? .function .function).isNone then
    complain .deferOutsideFunction keyword.span
  let body ← within .function "defer" r.block
  closeBody
  return .doBlock .deferred body (← since keyword.span)

/-- A block ends with a jump or a return. -/
def leaves (body : Block) : Bool :=
  body.returns.isSome ||
    match body.stats.getLast? with
    | some (.goto _ _) | some (.breakLoop _) => true
    | _ => false

/-- The body of a `guard`, which has to leave the code around it. -/
def guardBody (r : Rules) : Parser Block := do
  let body ← r.block
  if !(leaves body || 0 < (← scopes).current.count) then complain .guardFallsThrough (← now)
  return body

/-- A `guard` is a conditional on the negation. -/
def guardStat (r : Rules) : Parser Stat := do
  let keyword ← next
  let condition ← r.exp
  let condition := condition.negate (← since keyword.span)
  let _ ← expect .kwElse
  let _ ← expect .lbrace
  let body ← within .guardBlock "guard" (guardBody r)
  let _ ← expect .rbrace
  return .conditional ⟨[⟨condition, body⟩], ← since keyword.span⟩

/-! Switch -/

/-- The block of a case, after its colon. -/
def caseBody (r : Rules) : Parser Block := do
  let _ ← expect .colon
  within .branch "if" r.block

def moreCases (r : Rules) (cases : Array Branch) : Parser (ForInStep (Array Branch)) := do
  match ← accept .kwCase with
  | some token =>
    let values ← expList r
    let condition := (Exp.switchCase? values).getD (.bad token.span)
    return .yield (cases.push ⟨condition, ← caseBody r⟩)
  | none => return .done cases

def defaultCase (r : Rules) : Parser (List Branch) := do
  match ← accept .kwDefault with
  | some token => return [⟨.bool true token.span, ← caseBody r⟩]
  | none => return []

/-- A `switch` binds its subject to a local and asks its cases in turn. -/
def switchStat (r : Rules) : Parser Stat := do
  let keyword ← next
  let value ← r.exp
  let subject : Declaration :=
    { names := [⟨switchSubject, keyword.span⟩], attrs := [.regular], values := [value],
      span := ← since keyword.span }
  let opening ← expect .lbrace
  let cases ← iterate #[] (moreCases r)
  let last ← defaultCase r
  let _ ← expect .rbrace
  return .switch subject ⟨cases.toList ++ last, ← since opening.span⟩ (← since keyword.span)

/-! Classes -/

/-- A member: a function, or a field that is assigned to the class. Anything else that a field may
turn into is no member. -/
def moreMembers (r : Rules) (owner : String) (members : Array Assignment) :
    Parser (ForInStep (Array Assignment)) := do
  match ← peek with
  | .kwFn => return .yield (members.push (← functionStat r (← head) .regular false))
  | .kwStatic => return .yield (members.push (← functionStat r (← head) .regular true))
  | .identifier =>
    let token ← next
    let target := (Exp.name owner token.span).field token.text token.span
    match ← assignRest r token.span target with
    | .assign assignment => return .yield (members.push assignment)
    | _ => return .yield members
  | _ => return .done members

def ClassKind.ofToken : TokenKind → ClassKind
  | .kwStruct => .struct
  | .kwExtension => .extension
  | _ => .object

/-- The parent of a class, or `nil`. -/
def parentClass (kind : ClassKind) : Parser Exp := do
  match ← accept .colon with
  | some colon =>
    if kind = .struct then complain .structInherits colon.span
    let name ← expectName
    return .name name.text name.span
  | none => return .nil (← now)

/-- A local that the members of a class see. -/
def classLocal (name : String) (value : Exp) (place header : Span) : Declaration :=
  { names := [⟨name, place⟩], attrs := [.regular], values := [value], span := header }

/-- A class that began at `start`, where `export` or `local` may stand before it. -/
def classStat (r : Rules) (start : Span) (isExported : Bool) : Parser Stat := do
  let keyword ← next
  let kind := ClassKind.ofToken keyword.kind
  let name ← expectName
  let parent ← parentClass kind
  let header ← since name.span
  let self : Exp := .name name.text name.span
  let table : Assignment :=
    { targets := [self], values := [.table [] [] name.span],
      attr := if isExported ∨ kind = .extension then .exported else .regular, span := header }
  let vars :=
    [classLocal "Self" self name.span header, classLocal "Super" parent name.span header,
      classLocal classParent parent name.span header]
  let _ ← expect .lbrace
  let members ← within .classBody name.text (iterate #[] (moreMembers r name.text))
  let _ ← expect .rbrace
  return .classDecl
    { kind, table, parent, vars, members := members.toList, span := ← since start }

/-! Imports and exports -/

/-- Where the names come from. What is neither a string nor a name stands for a table without a
name. -/
def importSource (token : Token) : Parser ImportSource := do
  if token.kind = .string then return .library token.text
  else if token.kind = .identifier then return .table token.text
  else
    complain (.badImportSource token.near) token.span
    return .table ""

/-- One place in a list of keys. An empty place at the start of the list asks for the members that
are named like the locals. -/
def moreKeys (source : ImportSource) (names : List Param) (read : Array Exp × Bool) :
    Parser (ForInStep (Array Exp × Bool)) := do
  let (values, isFirst) := read
  let values ←
    match ← accept .identifier with
    | some key => pure (values.push (source.member key.text key.span))
    | none =>
      if isFirst then
        let span ← now
        pure (values ++ (names.map fun name => source.member name.name span))
      else pure values
  if ← accepts .comma then return .yield (values, false) else return .done (values, false)

/-- Keys in braces, as many as there are names. -/
def importKeys (source : ImportSource) (names : List Param) (start : Span) :
    Parser (List Exp) := do
  let (values, _) ← iterate (#[], true) (moreKeys source names)
  let _ ← expect .rbrace
  if values.size ≠ names.length then
    complain .importCount (← since start)
    throw (.invariant Cause.importCount.message)
  return values.toList

/-- A whole library or table as one value. -/
def importWhole (source : ImportSource) (word token : Token) : Exp :=
  match source with
  | .library name => .call (.require name word.span token.span) (word.span.merge token.span)
  | .table name => .name name token.span

/-- `import` of a library for its effect, or of values bound to names. -/
def importStat : Parser Stat := do
  let keyword ← next
  if (← peek) = .string then
    let library ← next
    return .importCall (.require library.text keyword.span library.span)
      (keyword.span.merge library.span)
  let start ← head
  let (names, attrs) ← attrNames
  let word ← expect .kwFrom
  let token ← next
  let source ← importSource token
  let values ←
    if ← accepts .lbrace then importKeys source names start
    else pure [importWhole source word token]
  return .importNames { names, attrs, values, span := ← since start }

/-- `export` before a star, a function, a class or an assignment. -/
def exportStat (r : Rules) : Parser Stat := do
  let keyword ← next
  match ← peek with
  | .star =>
    let _ ← next
    return .exportAll (← since keyword.span)
  | .kwFn => return .assign (← functionStat r keyword.span .exported false)
  | .kwClass | .kwStruct => classStat r keyword.span true
  | _ => return exported (← assignOrCall r)

def moocStat (r : Rules) : Parser Stat := do
  match ← peek with
  | .semi | .illegal => skipToken
  | .kwBreak => breakStat
  | .kwContinue => continueStat
  | .doubleColon => labelStat
  | .kwGoto => gotoStat
  | .kwDo => doStat r
  | .kwDefer => deferStat r
  | .kwWhile => whileStat r
  | .kwRepeat => repeatStat r
  | .kwIf => ifStat r
  | .kwGuard => guardStat r
  | .kwSwitch => switchStat r
  | .kwFor => forStat r
  | .kwFn => return .assign (← functionStat r (← head) .regular false)
  | .kwStatic => return .assign (← functionStat r (← head) .regular true)
  | .kwLocal =>
    let keyword ← next
    match ← peek with
    | .kwClass | .kwStruct => classStat r keyword.span false
    | .kwFn => localFunction r keyword.span
    | _ => localDecl r keyword.span
  | .kwClass | .kwStruct | .kwExtension => classStat r (← head) false
  | .kwImport => importStat
  | .kwExport => exportStat r
  | _ => assignOrCall r

end LuaChunk.Parser
