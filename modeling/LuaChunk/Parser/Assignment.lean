import LuaChunk.Parser.Expression

/-!
Assignments, calls as statements, and the declarations of local names. In Mooc a list of names
without values declares exported locals.
-/

set_option autoImplicit false

namespace LuaChunk.Parser

/-! Local names -/

/-- An attribute in angle brackets after a name. -/
def attr : Parser Attribute := do
  if !(← accepts .less) then return .regular
  let name ← expectName
  let attr ←
    if name.text = "const" then pure Attribute.const
    else if name.text = "close" then pure Attribute.close
    else do
      complain (.unknownAttribute name.text) name.span
      pure Attribute.regular
  let _ ← expect .greater
  return attr

/-- The names read, and whether one of them is to be closed. -/
structure AttrNames where
  names : Array Param := #[]
  attrs : Array Attribute := #[]
  hasClose : Bool := false

def moreAttrNames (read : AttrNames) : Parser (ForInStep AttrNames) := do
  let name ← expectName
  let attr ← attr
  if attr = .close ∧ read.hasClose then complain .secondClose (← now)
  let read : AttrNames :=
    ⟨read.names.push ⟨name.text, name.span⟩, read.attrs.push attr,
      read.hasClose || attr == .close⟩
  if ← accepts .comma then return .yield read else return .done read

/-- Names with attributes, of which one may be closed. -/
def attrNames : Parser (List Param × List Attribute) := do
  let read ← iterate {} moreAttrNames
  return (read.names.toList, read.attrs.toList)

/-- The rest of a declaration that began with `local`. -/
def localDecl (r : Rules) (start : Span) : Parser Stat := do
  let (names, attrs) ← attrNames
  let values ← if ← accepts .assign then expList r else pure []
  return .declare { names, attrs, values, span := ← since start }

/-! Targets -/

/-- Only names and indices can be assigned to. -/
def target (exp : Exp) : Parser Exp := do
  match exp with
  | .name _ _ | .index _ _ _ | .bad _ => return exp
  | _ =>
    complain .notAssignable exp.span
    return .bad exp.span

def moreTargets (r : Rules) (targets : Array Exp) : Parser (ForInStep (Array Exp)) := do
  if ← accepts .comma then
    let exp ← prefixExp r
    return .yield (targets.push (← target exp))
  else return .done targets

/-- Names declared by standing alone; other targets are passed over. -/
def implicitLocals (targets : List Exp) (span : Span) : Declaration :=
  let names := targets.filterMap fun
    | .name name span => some ⟨name, span⟩
    | _ => none
  { names, attrs := names.map fun _ => .exported, values := [], span }

/-- What follows an operator that stands after a single target. -/
def compound (r : Rules) (start : Span) (op : BinaryOp) (target : Exp) : Parser Stat := do
  let _ ← next
  if (← peek) ≠ .assign then
    complain .notAStatement (← since start)
    return .empty
  let _ ← next
  let value ← r.exp
  return .assign (.compound op target value (← since start))

/-- Passes over a compound assignment with more than one target. -/
def badCompound (r : Rules) (start : Span) : Parser Stat := do
  let _ ← next
  if ← accepts .assign then
    let _ ← expList r
  complain .severalCompoundTargets (← since start)
  return .empty

/-- What follows targets without a compound operator. -/
def plainAssign (r : Rules) (start : Span) (targets : List Exp) : Parser Stat := do
  if ← accepts .assign then
    let values ← expList r
    return .assign { targets, values, attr := .regular, span := ← since start }
  else if ← isMooc then return .declare (implicitLocals targets (← since start))
  else
    let token ← peekToken 0
    complain (.expected .assign token.near) token.span
    return .empty

/-- Everything after the first target of an assignment that began at `start`. -/
def assignRest (r : Rules) (start : Span) (first : Exp) : Parser Stat := do
  let first ← target first
  let targets ← iterate #[first] (moreTargets r)
  match BinaryOp.ofCompound? (← peek), targets.toList with
  | some op, [target] => compound r start op target
  | some _, targets => if ← isMooc then plainAssign r start targets else badCompound r start
  | none, targets => plainAssign r start targets

/-- An assignment after `export`. -/
def exported : Stat → Stat
  | .assign a => .assign { a with attr := .exported }
  | stat => stat

/-- A call, an assignment, or nothing where no expression could be read. -/
def assignOrCall (r : Rules) : Parser Stat := do
  let start ← head
  match ← prefixExp r with
  | .bad _ => return .empty
  | .call call _ => return .call call (← since start)
  | exp => assignRest r start exp

end LuaChunk.Parser
