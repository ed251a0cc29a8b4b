import LuaChunk.Tree.Basic

/-!
Plain trees for the constructs that are shorthand: compound assignment, `guard`, `switch`, class
members and imports.
-/

set_option autoImplicit false

namespace LuaChunk

/-- The local that holds the subject of a `switch`. -/
def switchSubject : String := "__sw__"

/-- The local, beside `Super`, that holds the parent of a class. -/
def classParent : String := "__st"

/-- Where `continue` jumps to in a loop of the given nesting. -/
def continueLabel (depth : Nat) : String := "__continue" ++ toString depth

namespace Exp

/-- `object.name`, with the name where `key` is. -/
def field (object : Exp) (name : String) (key : Span) : Exp :=
  .index object (.string name key) (object.span.merge key)

/-- What a `guard` asks before it runs its body. -/
def negate (condition : Exp) (span : Span) : Exp :=
  .unary .not (.paren condition condition.span) span

/-- The subject of a `switch` equals one of the values, asked from the first on. No value gives no
condition. -/
def switchCase? (values : List Exp) : Option Exp :=
  let tests := values.map fun value =>
    Exp.binary .eq (.name switchSubject value.span) value value.span
  match tests with
  | [] => none
  | first :: rest =>
    some (rest.foldl (fun chain test => .binary .or chain test (chain.span.merge test.span)) first)

end Exp

/-- `require("library")`. -/
def Call.require (library : String) (callee argument : Span) : Call :=
  ⟨.name "require" callee, none, [.string library argument]⟩

/-- `target = target op (value)`. -/
def Assignment.compound (op : BinaryOp) (target value : Exp) (span : Span) : Assignment :=
  { targets := [target]
    values := [.binary op target (.paren value value.span) span]
    attr := .regular
    span := span }

/-- Where an import takes its values from. -/
inductive ImportSource where
  | library (name : String)
  | table (name : String)
  deriving DecidableEq, Repr, Inhabited

/-- A member of a library or table. -/
def ImportSource.member (source : ImportSource) (key : String) (span : Span) : Exp :=
  let object : Exp :=
    match source with
    | .library name => .call (.require name span span) span
    | .table name => .name name span
  .index object (.string key span) span

end LuaChunk
