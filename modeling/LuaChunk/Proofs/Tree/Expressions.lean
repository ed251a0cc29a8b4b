import LuaChunk.Tree.Desugar

/-!
# All expressions of a tree

The expressions of a tree at every depth, those in the blocks of functions included.  A call that
is a statement counts as an expression too, and so does the function of a local declaration.
-/

set_option autoImplicit false

namespace LuaChunk

mutual

/-- The expressions inside an expression. -/
def Exp.inside : Exp → List Exp
  | .nil _ | .bool _ _ | .vararg _ | .integer _ _ | .float _ _ | .string _ _ | .name _ _ | .bad _ =>
    []
  | .unary _ operand _ => operand :: operand.inside
  | .binary _ left right _ => left :: left.inside ++ right :: right.inside
  | .table keys values _ => keysExps keys ++ expsExps values
  | .function body _ => body.exps
  | .call call _ => call.exps
  | .index object key _ => object :: object.inside ++ key :: key.inside
  | .paren inner _ => inner :: inner.inside

def expsExps : List Exp → List Exp
  | [] => []
  | e :: rest => e :: e.inside ++ expsExps rest

def keysExps : List (Option Exp) → List Exp
  | [] => []
  | none :: rest => keysExps rest
  | some key :: rest => key :: key.inside ++ keysExps rest

def FunctionBody.exps : FunctionBody → List Exp
  | ⟨_, _, _, block, _, _⟩ => block.exps

def Call.exps : Call → List Exp
  | ⟨callee, _, args⟩ => callee :: callee.inside ++ expsExps args

def Block.exps : Block → List Exp
  | ⟨stats, none, _⟩ => statsExps stats
  | ⟨stats, some returns, _⟩ => statsExps stats ++ expsExps returns

def statsExps : List Stat → List Exp
  | [] => []
  | s :: rest => s.exps ++ statsExps rest

def Branch.exps : Branch → List Exp
  | ⟨condition, body⟩ => condition :: condition.inside ++ body.exps

def branchesExps : List Branch → List Exp
  | [] => []
  | b :: rest => b.exps ++ branchesExps rest

def Conditional.exps : Conditional → List Exp
  | ⟨branches, _⟩ => branchesExps branches

def Assignment.exps : Assignment → List Exp
  | ⟨targets, values, _, _⟩ => expsExps targets ++ expsExps values

def assignmentsExps : List Assignment → List Exp
  | [] => []
  | a :: rest => a.exps ++ assignmentsExps rest

def Declaration.exps : Declaration → List Exp
  | ⟨_, _, values, _⟩ => expsExps values

def declarationsExps : List Declaration → List Exp
  | [] => []
  | d :: rest => d.exps ++ declarationsExps rest

def ClassDecl.exps : ClassDecl → List Exp
  | ⟨_, table, parent, vars, members, _⟩ =>
    table.exps ++ parent :: parent.inside ++ declarationsExps vars ++ assignmentsExps members

def Stat.exps : Stat → List Exp
  | .empty | .breakLoop _ | .label _ _ | .goto _ _ | .exportAll _ => []
  | .doBlock _ body _ => body.exps
  | .whileLoop condition body _ => condition :: condition.inside ++ body.exps
  | .repeatLoop body condition _ => body.exps ++ condition :: condition.inside
  | .conditional chain => chain.exps
  | .numericFor _ init limit step body _ =>
    init :: init.inside ++ limit :: limit.inside ++ step :: step.inside ++ body.exps
  | .genericFor _ iterables body _ => expsExps iterables ++ body.exps
  | .assign assignment => assignment.exps
  | .declare declaration | .importNames declaration => declaration.exps
  | .localFunction _ body span => .function body span :: body.exps
  | .call call span | .importCall call span => .call call span :: call.exps
  | .classDecl decl => decl.exps
  | .switch subject cases _ => subject.exps ++ cases.exps

end

/-- An expression and those inside it. -/
def Exp.exps (e : Exp) : List Exp := e :: e.inside

attribute [simp, grind =] Exp.inside Exp.exps Call.exps Branch.exps Conditional.exps
  Declaration.exps ClassDecl.exps Stat.exps

section Lists

@[simp, grind =]
theorem expsExps_eq (es : List Exp) : expsExps es = es.flatMap Exp.exps := by
  induction es with
  | nil => rfl
  | cons e rest inductionHypothesis => simp [expsExps, inductionHypothesis]

@[simp, grind =]
theorem keysExps_eq (keys : List (Option Exp)) :
    keysExps keys = keys.flatMap fun key => (key.map Exp.exps).getD [] := by
  induction keys with
  | nil => rfl
  | cons key rest inductionHypothesis => cases key <;> simp [keysExps, inductionHypothesis]

@[simp, grind =]
theorem statsExps_eq (ss : List Stat) : statsExps ss = ss.flatMap Stat.exps := by
  induction ss with
  | nil => rfl
  | cons s rest inductionHypothesis => simp [statsExps, inductionHypothesis]

@[simp, grind =]
theorem branchesExps_eq (bs : List Branch) : branchesExps bs = bs.flatMap Branch.exps := by
  induction bs with
  | nil => rfl
  | cons b rest inductionHypothesis => simp [branchesExps, inductionHypothesis]

@[simp, grind =]
theorem assignmentsExps_eq (as : List Assignment) :
    assignmentsExps as = as.flatMap Assignment.exps := by
  induction as with
  | nil => rfl
  | cons a rest inductionHypothesis => simp [assignmentsExps, inductionHypothesis]

@[simp, grind =]
theorem declarationsExps_eq (ds : List Declaration) :
    declarationsExps ds = ds.flatMap Declaration.exps := by
  induction ds with
  | nil => rfl
  | cons d rest inductionHypothesis => simp [declarationsExps, inductionHypothesis]

@[simp, grind =]
theorem FunctionBody.exps_eq (body : FunctionBody) : body.exps = body.block.exps := by
  cases body
  rw [FunctionBody.exps]

@[simp, grind =]
theorem Block.exps_eq (b : Block) :
    b.exps = statsExps b.stats ++ expsExps (b.returns.getD []) := by
  obtain ⟨stats, returns, span⟩ := b
  cases returns <;> simp [Block.exps]

@[simp, grind =]
theorem Assignment.exps_eq (a : Assignment) :
    a.exps = expsExps a.targets ++ expsExps a.values := by
  cases a
  rw [Assignment.exps]

end Lists

/-! ## The keys of a table -/

theorem mem_keys {α : Type} {f : Exp → List α} {keys : List (Option Exp)} {x : α} :
    (x ∈ keys.flatMap fun key => (key.map f).getD []) ↔ ∃ key, some key ∈ keys ∧ x ∈ f key := by
  rw [List.mem_flatMap]
  constructor
  · rintro ⟨_ | key, among, inside⟩
    · cases inside
    · exact ⟨key, among, inside⟩
  · rintro ⟨key, among, inside⟩
    exact ⟨some key, among, inside⟩

theorem mem_keysExps {keys : List (Option Exp)} {x : Exp} :
    x ∈ keysExps keys ↔ ∃ key, some key ∈ keys ∧ x ∈ key.exps := by
  rw [keysExps_eq, mem_keys]

end LuaChunk
