import LuaChunk.Tree.Basic

/-!
# The core of a tree

What a tree says apart from where its parts stand, which of them have parentheses of their own, and
the names under which its functions are known.  An import and a `switch` come to the plain
statements that they stand for.
-/

set_option autoImplicit false

namespace LuaChunk

def Param.core (p : Param) : Param := ⟨p.name, .synthetic⟩

mutual

def Exp.core : Exp → Exp
  | .nil _ => .nil .synthetic
  | .bool value _ => .bool value .synthetic
  | .vararg _ => .vararg .synthetic
  | .integer value _ => .integer value .synthetic
  | .float value _ => .float value .synthetic
  | .string text _ => .string text .synthetic
  | .name name _ => .name name .synthetic
  | .unary op operand _ => .unary op operand.core .synthetic
  | .binary op left right _ => .binary op left.core right.core .synthetic
  | .table keys values _ => .table (keysCore keys) (expsCore values) .synthetic
  | .function body _ => .function body.core .synthetic
  | .call call _ => .call call.core .synthetic
  | .index object key _ => .index object.core key.core .synthetic
  | .paren inner _ => inner.core
  | .bad _ => .bad .synthetic

def expsCore : List Exp → List Exp
  | [] => []
  | e :: rest => e.core :: expsCore rest

def keysCore : List (Option Exp) → List (Option Exp)
  | [] => []
  | none :: rest => none :: keysCore rest
  | some key :: rest => some key.core :: keysCore rest

def FunctionBody.core : FunctionBody → FunctionBody
  | ⟨params, isVararg, _, block, _, _⟩ =>
    ⟨params.map Param.core, isVararg, false, block.core, none, none⟩

def Call.core : Call → Call
  | ⟨callee, method, args⟩ => ⟨callee.core, method.map Param.core, expsCore args⟩

def Block.core : Block → Block
  | ⟨stats, none, _⟩ => ⟨statsCore stats, none, .synthetic⟩
  | ⟨stats, some returns, _⟩ => ⟨statsCore stats, some (expsCore returns), .synthetic⟩

def statsCore : List Stat → List Stat
  | [] => []
  | s :: rest => s.core ++ statsCore rest

def branchesCore : List Branch → List Branch
  | [] => []
  | ⟨condition, body⟩ :: rest => ⟨condition.core, body.core⟩ :: branchesCore rest

def Conditional.core : Conditional → Conditional
  | ⟨branches, _⟩ => ⟨branchesCore branches, .synthetic⟩

def Assignment.core : Assignment → Assignment
  | ⟨targets, values, attr, _⟩ => ⟨expsCore targets, expsCore values, attr, .synthetic⟩

def assignmentsCore : List Assignment → List Assignment
  | [] => []
  | a :: rest => a.core :: assignmentsCore rest

def Declaration.core : Declaration → Declaration
  | ⟨names, attrs, values, _⟩ => ⟨names.map Param.core, attrs, expsCore values, .synthetic⟩

def declarationsCore : List Declaration → List Declaration
  | [] => []
  | d :: rest => d.core :: declarationsCore rest

def ClassDecl.core : ClassDecl → ClassDecl
  | ⟨kind, table, parent, vars, members, _⟩ =>
    ⟨kind, table.core, parent.core, declarationsCore vars, assignmentsCore members, .synthetic⟩

/-- The statements that a statement comes to. -/
def Stat.core : Stat → List Stat
  | .empty => [.empty]
  | .breakLoop _ => [.breakLoop .synthetic]
  | .label name _ => [.label name .synthetic]
  | .goto name _ => [.goto name .synthetic]
  | .doBlock kind body _ => [.doBlock kind body.core .synthetic]
  | .whileLoop condition body _ => [.whileLoop condition.core body.core .synthetic]
  | .repeatLoop body condition _ => [.repeatLoop body.core condition.core .synthetic]
  | .conditional chain => [.conditional chain.core]
  | .numericFor var init limit step body _ =>
    [.numericFor var.core init.core limit.core step.core body.core .synthetic]
  | .genericFor vars iterables body _ =>
    [.genericFor (vars.map Param.core) (expsCore iterables) body.core .synthetic]
  | .assign assignment => [.assign assignment.core]
  | .declare declaration | .importNames declaration => [.declare declaration.core]
  | .localFunction name body _ => [.localFunction name.core body.core .synthetic]
  | .call call _ | .importCall call _ => [.call call.core .synthetic]
  | .classDecl decl => [.classDecl decl.core]
  | .exportAll _ => [.exportAll .synthetic]
  | .switch subject cases _ => [.declare subject.core, .conditional cases.core]

end

attribute [simp] Param.core Exp.core FunctionBody.core Call.core Conditional.core Assignment.core
  Declaration.core Stat.core

@[simp]
theorem expsCore_eq (es : List Exp) : expsCore es = es.map Exp.core := by
  induction es with
  | nil => rfl
  | cons e rest inductionHypothesis => simp [expsCore, inductionHypothesis]

@[simp]
theorem keysCore_eq (keys : List (Option Exp)) : keysCore keys = keys.map (·.map Exp.core) := by
  induction keys with
  | nil => rfl
  | cons key rest inductionHypothesis => cases key <;> simp [keysCore, inductionHypothesis]

@[simp]
theorem statsCore_eq (ss : List Stat) : statsCore ss = ss.flatMap Stat.core := by
  induction ss with
  | nil => rfl
  | cons s rest inductionHypothesis => simp [statsCore, inductionHypothesis]

@[simp]
theorem branchesCore_eq (bs : List Branch) :
    branchesCore bs = bs.map fun b => ⟨b.condition.core, b.body.core⟩ := by
  induction bs with
  | nil => rfl
  | cons b rest inductionHypothesis =>
    cases b
    simp [branchesCore, inductionHypothesis]

theorem Block.core_eq (b : Block) :
    b.core = ⟨statsCore b.stats, b.returns.map expsCore, .synthetic⟩ := by
  obtain ⟨stats, returns, span⟩ := b
  cases returns <;> simp [Block.core]

end LuaChunk
