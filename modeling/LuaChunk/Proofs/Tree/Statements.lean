import LuaChunk.Tree.Desugar

/-!
# All statements of a tree

The statements of a tree at every depth, those of functions in expressions included, each before the
ones it holds.
-/

set_option autoImplicit false

namespace LuaChunk

mutual

def Exp.statements : Exp → List Stat
  | .nil _ | .bool _ _ | .vararg _ | .integer _ _ | .float _ _ | .string _ _ | .name _ _ | .bad _ =>
    []
  | .unary _ operand _ => operand.statements
  | .binary _ left right _ => left.statements ++ right.statements
  | .table keys values _ => keysStatements keys ++ expsStatements values
  | .function body _ => body.statements
  | .call call _ => call.statements
  | .index object key _ => object.statements ++ key.statements
  | .paren inner _ => inner.statements

def expsStatements : List Exp → List Stat
  | [] => []
  | e :: rest => e.statements ++ expsStatements rest

def keysStatements : List (Option Exp) → List Stat
  | [] => []
  | none :: rest => keysStatements rest
  | some key :: rest => key.statements ++ keysStatements rest

def FunctionBody.statements : FunctionBody → List Stat
  | ⟨_, _, _, block, _, _⟩ => block.statements

def Call.statements : Call → List Stat
  | ⟨callee, _, args⟩ => callee.statements ++ expsStatements args

def Block.statements : Block → List Stat
  | ⟨stats, none, _⟩ => statsStatements stats
  | ⟨stats, some returns, _⟩ => statsStatements stats ++ expsStatements returns

def statsStatements : List Stat → List Stat
  | [] => []
  | s :: rest => s :: (s.inner ++ statsStatements rest)

def Branch.statements : Branch → List Stat
  | ⟨condition, body⟩ => condition.statements ++ body.statements

def branchesStatements : List Branch → List Stat
  | [] => []
  | b :: rest => b.statements ++ branchesStatements rest

def Conditional.statements : Conditional → List Stat
  | ⟨branches, _⟩ => branchesStatements branches

def Assignment.statements : Assignment → List Stat
  | ⟨targets, values, _, _⟩ => expsStatements targets ++ expsStatements values

def assignmentsStatements : List Assignment → List Stat
  | [] => []
  | a :: rest => a.statements ++ assignmentsStatements rest

def Declaration.statements : Declaration → List Stat
  | ⟨_, _, values, _⟩ => expsStatements values

def declarationsStatements : List Declaration → List Stat
  | [] => []
  | d :: rest => d.statements ++ declarationsStatements rest

def ClassDecl.statements : ClassDecl → List Stat
  | ⟨_, table, parent, vars, members, _⟩ =>
    table.statements ++ parent.statements ++ declarationsStatements vars ++
      assignmentsStatements members

def Stat.inner : Stat → List Stat
  | .empty | .breakLoop _ | .label _ _ | .goto _ _ | .exportAll _ => []
  | .doBlock _ body _ => body.statements
  | .whileLoop condition body _ => condition.statements ++ body.statements
  | .repeatLoop body condition _ => body.statements ++ condition.statements
  | .conditional chain => chain.statements
  | .numericFor _ init limit step body _ =>
    init.statements ++ limit.statements ++ step.statements ++ body.statements
  | .genericFor _ iterables body _ => expsStatements iterables ++ body.statements
  | .assign assignment => assignment.statements
  | .declare declaration | .importNames declaration => declaration.statements
  | .localFunction _ body _ => body.statements
  | .call call _ | .importCall call _ => call.statements
  | .classDecl decl => decl.statements
  | .switch subject cases _ => subject.statements ++ cases.statements

end

attribute [simp] Exp.statements Call.statements Branch.statements Conditional.statements
  Declaration.statements ClassDecl.statements Stat.inner

/-! ## Lists of parts -/

@[simp]
theorem expsStatements_eq (es : List Exp) : expsStatements es = es.flatMap (·.statements) := by
  induction es with
  | nil => rfl
  | cons e rest inductionHypothesis => simp [expsStatements, inductionHypothesis]

@[simp]
theorem keysStatements_eq (keys : List (Option Exp)) :
    keysStatements keys = keys.flatMap fun key => (key.map (·.statements)).getD [] := by
  induction keys with
  | nil => rfl
  | cons key rest inductionHypothesis =>
    cases key <;> simp [keysStatements, inductionHypothesis]

@[simp]
theorem statsStatements_eq (ss : List Stat) :
    statsStatements ss = ss.flatMap fun s => s :: s.inner := by
  induction ss with
  | nil => rfl
  | cons s rest inductionHypothesis => simp [statsStatements, inductionHypothesis]

@[simp]
theorem branchesStatements_eq (bs : List Branch) :
    branchesStatements bs = bs.flatMap (·.statements) := by
  induction bs with
  | nil => rfl
  | cons b rest inductionHypothesis => simp [branchesStatements, inductionHypothesis]

@[simp]
theorem assignmentsStatements_eq (as : List Assignment) :
    assignmentsStatements as = as.flatMap (·.statements) := by
  induction as with
  | nil => rfl
  | cons a rest inductionHypothesis => simp [assignmentsStatements, inductionHypothesis]

@[simp]
theorem declarationsStatements_eq (ds : List Declaration) :
    declarationsStatements ds = ds.flatMap (·.statements) := by
  induction ds with
  | nil => rfl
  | cons d rest inductionHypothesis => simp [declarationsStatements, inductionHypothesis]

@[simp]
theorem FunctionBody.statements_eq (body : FunctionBody) :
    body.statements = body.block.statements := by
  cases body
  rw [FunctionBody.statements]

@[simp]
theorem Block.statements_eq (b : Block) :
    b.statements = statsStatements b.stats ++ expsStatements (b.returns.getD []) := by
  obtain ⟨stats, returns, span⟩ := b
  cases returns <;> simp [Block.statements]

@[simp]
theorem Assignment.statements_eq (a : Assignment) :
    a.statements = expsStatements a.targets ++ expsStatements a.values := by
  cases a
  rw [Assignment.statements]

/-! ## Shorthand -/

@[simp]
theorem Exp.statements_field (object : Exp) (name : String) (key : Span) :
    (object.field name key).statements = object.statements := by
  simp [field]

@[simp]
theorem Exp.statements_negate (condition : Exp) (span : Span) :
    (condition.negate span).statements = condition.statements := rfl

theorem Exp.statements_switchCase (values : List Exp) (span : Span) :
    ((switchCase? values).getD (.bad span)).statements = expsStatements values := by
  have fold (tests : List Exp) (first : Exp) :
      (tests.foldl (fun chain test => .binary .or chain test (chain.span.merge test.span))
        first).statements = first.statements ++ expsStatements tests := by
    induction tests generalizing first with
    | nil => simp
    | cons test rest inductionHypothesis =>
      rw [List.foldl_cons, inductionHypothesis]
      simp
  cases values with
  | nil => rfl
  | cons first rest =>
    rw [switchCase?, List.map_cons]
    simp [fold, List.flatMap_map]

@[simp]
theorem Call.statements_require (library : String) (callee argument : Span) :
    (require library callee argument).statements = [] := by
  simp [require]

@[simp]
theorem ImportSource.statements_member (source : ImportSource) (key : String) (span : Span) :
    (source.member key span).statements = [] := by
  cases source <;> simp [member]

/-! ## Loops -/

def Stat.loopBody? : Stat → Option Block
  | .whileLoop _ body _ | .repeatLoop body _ _ | .numericFor _ _ _ _ body _
  | .genericFor _ _ body _ => some body
  | _ => none

end LuaChunk
