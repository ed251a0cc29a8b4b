import LuaChunk.Number.Binary64
import LuaChunk.Span
import LuaChunk.Tree.Operator

/-!
Located trees of chunks. Both dialects share them: what Mooc adds to Lua is either one of the
plain constructs in another guise or one of the last few statements.
-/

set_option autoImplicit false

namespace LuaChunk

/-- A name where it is bound. -/
structure Param where
  name : String
  span : Span
  deriving DecidableEq, Repr, Inhabited

inductive Attribute where
  | regular
  | const
  | close
  /-- Exported from a Mooc module. -/
  | exported
  deriving DecidableEq, Repr, Inhabited

inductive DoKind where
  | plain
  /-- Runs when its function is left. -/
  | deferred
  deriving DecidableEq, Repr, Inhabited

inductive ClassKind where
  | object
  | struct
  | extension
  deriving DecidableEq, Repr, Inhabited

def ClassKind.text : ClassKind → String
  | object => "class"
  | struct => "struct"
  | extension => "extension"

mutual

inductive Exp where
  | nil (span : Span)
  | bool (value : Bool) (span : Span)
  | vararg (span : Span)
  | integer (value : Int64) (span : Span)
  | float (value : Binary64) (span : Span)
  | string (text : String) (span : Span)
  | name (name : String) (span : Span)
  | unary (op : UnaryOp) (operand : Exp) (span : Span)
  | binary (op : BinaryOp) (left right : Exp) (span : Span)
  /-- The key of a positional field is absent. -/
  | table (keys : List (Option Exp)) (values : List Exp) (span : Span)
  | function (body : FunctionBody) (span : Span)
  | call (call : Call) (span : Span)
  /-- A field `object.name` has a string key. -/
  | index (object key : Exp) (span : Span)
  | paren (inner : Exp) (span : Span)
  /-- Stands where no expression could be read. -/
  | bad (span : Span)

structure FunctionBody where
  params : List Param
  isVararg : Bool
  /-- Its first parameter, `self`, is not written in the source. -/
  isMethod : Bool
  block : Block
  /-- The last name before the function's own. -/
  owner : Option String
  name : Option String

structure Call where
  callee : Exp
  method : Option Param
  args : List Exp

structure Block where
  stats : List Stat
  /-- Absent without a `return`; a bare `return` has no expressions. -/
  returns : Option (List Exp)
  span : Span

/-- An `else` has a true condition. -/
structure Branch where
  condition : Exp
  body : Block

structure Conditional where
  branches : List Branch
  span : Span

structure Assignment where
  targets : List Exp
  values : List Exp
  attr : Attribute
  span : Span

structure Declaration where
  names : List Param
  attrs : List Attribute
  values : List Exp
  span : Span

/-- A class is its table, the locals its members see, and its members as assignments. -/
structure ClassDecl where
  kind : ClassKind
  table : Assignment
  parent : Exp
  vars : List Declaration
  members : List Assignment
  span : Span

inductive Stat where
  | empty
  | breakLoop (span : Span)
  | label (name : String) (span : Span)
  | goto (name : String) (span : Span)
  | doBlock (kind : DoKind) (body : Block) (span : Span)
  | whileLoop (condition : Exp) (body : Block) (span : Span)
  | repeatLoop (body : Block) (condition : Exp) (span : Span)
  | conditional (chain : Conditional)
  | numericFor (var : Param) (init limit step : Exp) (body : Block) (span : Span)
  | genericFor (vars : List Param) (iterables : List Exp) (body : Block) (span : Span)
  | assign (assignment : Assignment)
  | declare (declaration : Declaration)
  | localFunction (name : Param) (body : FunctionBody) (span : Span)
  | call (call : Call) (span : Span)
  | classDecl (decl : ClassDecl)
  /-- An import of a library as a whole. -/
  | importCall (call : Call) (span : Span)
  /-- An import that binds names. -/
  | importNames (declaration : Declaration)
  | exportAll (span : Span)
  /-- The subject is bound to a local that the conditions compare. -/
  | switch (subject : Declaration) (cases : Conditional) (span : Span)

end

instance : Inhabited Exp := ⟨.nil .synthetic⟩

instance : Inhabited Stat := ⟨.empty⟩

/-- The block of no statements that stands nowhere. -/
def Block.empty : Block := ⟨[], none, .synthetic⟩

instance : Inhabited Block := ⟨.empty⟩

namespace Exp

def span : Exp → Span
  | nil span | bool _ span | vararg span | integer _ span | float _ span | string _ span
  | name _ span | unary _ _ span | binary _ _ _ span | table _ _ span | function _ span
  | call _ span | index _ _ span | paren _ span | bad span => span

def name? : Exp → Option String
  | name n _ => some n
  | _ => none

def isBad : Exp → Bool
  | bad _ => true
  | _ => false

end Exp

namespace Stat

/-- Where a statement stands; an empty one stands nowhere. -/
def span? : Stat → Option Span
  | empty => none
  | breakLoop span | label _ span | goto _ span | doBlock _ _ span | whileLoop _ _ span
  | repeatLoop _ _ span | numericFor _ _ _ _ _ span | genericFor _ _ _ span
  | localFunction _ _ span | call _ span | importCall _ span | exportAll span
  | switch _ _ span => some span
  | conditional chain => some chain.span
  | assign assignment => some assignment.span
  | declare declaration | importNames declaration => some declaration.span
  | classDecl decl => some decl.span

def isEmpty : Stat → Bool
  | empty => true
  | _ => false

end Stat

end LuaChunk
