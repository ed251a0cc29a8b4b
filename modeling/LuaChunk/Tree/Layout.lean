import LuaChunk.Number.Shortest
import LuaChunk.Text.Quoted
import LuaChunk.Tree.Basic

/-!
Trees as text. Every operator expression has its own parentheses, so the text shows the shape of
the tree; a statement takes a line, and a block is indented by tabs.
-/

set_option autoImplicit false

namespace LuaChunk

namespace Layout

def indent (depth : Nat) : String := String.ofList (List.replicate depth '\t')

def comma (items : List String) : String := ", ".intercalate items

def names (params : List Param) : String := comma (params.map (·.name))

def mark : Attribute → String
  | .regular => ""
  | .const => " <const>"
  | .close => " <close>"
  | .exported => " <export>"

/-- Names with their attributes; one without an attribute stands alone. -/
def markedNames : List Param → List Attribute → List String
  | [], _ => []
  | p :: params, [] => p.name :: markedNames params []
  | p :: params, a :: attrs => (p.name ++ mark a) :: markedNames params attrs

/-- Parameters, with `...` after the last. -/
def params (params : List Param) (isVararg : Bool) : String :=
  comma (params.map (·.name) ++ if isVararg then ["..."] else [])

/-- A field of a table; the key of a positional one is not written. -/
def tableField (key : Option String) (value : String) : String :=
  match key with
  | some key => "[" ++ key ++ "] = " ++ value
  | none => value

/-- The branches of a conditional, of which the first opens with `if`. -/
def chain (opening : String) : List (String × String) → Nat → List String
  | [], _ => []
  | (condition, body) :: rest, depth =>
    (opening ++ condition ++ " then\n" ++ body ++ indent depth) :: chain "elseif " rest depth

def assignment (attr : Attribute) (targets values : List String) : String :=
  (if attr = .exported then "export " else "") ++ comma targets ++ " = " ++ comma values

def declaration (names : List String) (values : List String) : String :=
  "local " ++ comma names ++ if values.isEmpty then "" else " = " ++ comma values

def call (callee : String) (method : Option Param) (args : List String) : String :=
  let method := match method with
    | some m => ":" ++ m.name
    | none => ""
  callee ++ method ++ "(" ++ comma args ++ ")"

/-- A block between an opening and a closing, from the next line on. -/
def enclosed (block : String) (depth : Nat) (closing : String) : String :=
  "\n" ++ block ++ indent depth ++ closing

/-- Lines of a class, one member each. -/
def memberLines (depth : Nat) (members : List String) : String :=
  String.join (members.map fun m => indent depth ++ m ++ "\n")

end Layout

open Layout

mutual

def Exp.layout (depth : Nat) : Exp → String
  | .nil _ => "nil"
  | .bool value _ => if value then "true" else "false"
  | .vararg _ => "..."
  | .integer value _ => toString value.toInt
  | .float value _ => value.text
  | .string text _ => Quoted.encode text
  | .name name _ => name
  | .unary op operand _ =>
    "(" ++ op.text ++ (if op = .not then " " else "") ++ operand.layout depth ++ ")"
  | .binary op left right _ =>
    "(" ++ left.layout depth ++ " " ++ op.text ++ " " ++ right.layout depth ++ ")"
  | .table keys values _ =>
    "\x7b" ++ comma (List.zipWith tableField (layoutKeys depth keys) (layoutExps depth values))
      ++ "\x7d"
  | .function body _ => "function" ++ body.layout depth
  | .call call _ => call.layout depth
  | .index object key _ => object.layout depth ++ "[" ++ key.layout depth ++ "]"
  | .paren inner _ => "(" ++ inner.layout depth ++ ")"
  | .bad _ => "<bad>"

def layoutExps (depth : Nat) : List Exp → List String
  | [] => []
  | e :: rest => e.layout depth :: layoutExps depth rest

def layoutKeys (depth : Nat) : List (Option Exp) → List (Option String)
  | [] => []
  | none :: rest => none :: layoutKeys depth rest
  | some key :: rest => some (key.layout depth) :: layoutKeys depth rest

/-- A function after its keyword and name. -/
def FunctionBody.layout (depth : Nat) : FunctionBody → String
  | ⟨ps, isVararg, _, block, _, _⟩ =>
    "(" ++ params ps isVararg ++ ")" ++ enclosed (block.layout (depth + 1)) depth "end"

def Call.layout (depth : Nat) : Call → String
  | ⟨callee, method, args⟩ => call (callee.layout depth) method (layoutExps depth args)

/-- A block, one line for each statement. -/
def Block.layout (depth : Nat) : Block → String
  | ⟨stats, none, _⟩ => String.join (layoutStats depth stats)
  | ⟨stats, some returns, _⟩ =>
    String.join (layoutStats depth stats) ++ indent depth ++ "return"
      ++ (if returns.isEmpty then "" else " " ++ comma (layoutExps depth returns)) ++ "\n"

def layoutStats (depth : Nat) : List Stat → List String
  | [] => []
  | s :: rest => (indent depth ++ s.layout depth ++ "\n") :: layoutStats depth rest

def layoutBranches (depth : Nat) : List Branch → List (String × String)
  | [] => []
  | ⟨condition, body⟩ :: rest =>
    (condition.layout depth, body.layout (depth + 1)) :: layoutBranches depth rest

def Conditional.layout (depth : Nat) : Conditional → String
  | ⟨branches, _⟩ => String.join (chain "if " (layoutBranches depth branches) depth) ++ "end"

def Assignment.layout (depth : Nat) : Assignment → String
  | ⟨targets, values, attr, _⟩ =>
    assignment attr (layoutExps depth targets) (layoutExps depth values)

def layoutAssignments (depth : Nat) : List Assignment → List String
  | [] => []
  | a :: rest => a.layout depth :: layoutAssignments depth rest

def Declaration.layout (depth : Nat) : Declaration → String
  | ⟨ps, attrs, values, _⟩ =>
    declaration (markedNames ps attrs) (layoutExps depth values)

def layoutDeclarations (depth : Nat) : List Declaration → List String
  | [] => []
  | d :: rest => d.layout depth :: layoutDeclarations depth rest

def ClassDecl.layout (depth : Nat) : ClassDecl → String
  | ⟨kind, table, _, vars, members, _⟩ =>
    kind.text ++ " " ++ table.layout depth ++ "\n"
      ++ memberLines (depth + 1) (layoutDeclarations (depth + 1) vars)
      ++ memberLines (depth + 1) (layoutAssignments (depth + 1) members)
      ++ indent depth ++ "end"

def Stat.layout (depth : Nat) : Stat → String
  | .empty => ";"
  | .breakLoop _ => "break"
  | .label name _ => "::" ++ name ++ "::"
  | .goto name _ => "goto " ++ name
  | .doBlock kind body _ =>
    (if kind = .deferred then "defer " else "") ++ "do"
      ++ enclosed (body.layout (depth + 1)) depth "end"
  | .whileLoop condition body _ =>
    "while " ++ condition.layout depth ++ " do" ++ enclosed (body.layout (depth + 1)) depth "end"
  | .repeatLoop body condition _ =>
    "repeat" ++ enclosed (body.layout (depth + 1)) depth "until " ++ condition.layout depth
  | .conditional chain => chain.layout depth
  | .numericFor var init limit step body _ =>
    "for " ++ var.name ++ " = " ++ init.layout depth ++ ", " ++ limit.layout depth ++ ", "
      ++ step.layout depth ++ " do" ++ enclosed (body.layout (depth + 1)) depth "end"
  | .genericFor vars iterables body _ =>
    "for " ++ names vars ++ " in " ++ comma (layoutExps depth iterables) ++ " do"
      ++ enclosed (body.layout (depth + 1)) depth "end"
  | .assign assignment => assignment.layout depth
  | .declare declaration => declaration.layout depth
  | .localFunction name body _ => "local function " ++ name.name ++ body.layout depth
  | .call call _ => call.layout depth
  | .classDecl decl => decl.layout depth
  | .importCall call _ => call.layout depth
  | .importNames declaration => declaration.layout depth
  | .exportAll _ => "export *"
  | .switch subject cases _ =>
    subject.layout depth ++ "\n" ++ indent depth ++ cases.layout depth

end

/-- The text of a chunk. -/
def Block.text (b : Block) : String := b.layout 0

/-- The text of an expression, on one line unless it holds a function. -/
def Exp.text (e : Exp) : String := e.layout 0

end LuaChunk
