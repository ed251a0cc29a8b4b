import LuaChunk.Tree.Desugar

/-!
# All blocks of a tree

The blocks of a tree at every depth, those of functions in expressions included, each with the
bodies of loops and functions that its statements lie in.  Every statement of a tree stands in one
of its blocks.
-/

set_option autoImplicit false

namespace LuaChunk

/-- What jumps cannot leave, or only in some ways. -/
inductive Body where
  | loop
  /-- The body of a function, or a deferred block. -/
  | function
  deriving DecidableEq, Repr

/-- Where a block stands. -/
structure Site where
  /-- What the block is the body of, if it is one. -/
  role : Option Body
  /-- The bodies that its statements lie in, the innermost first. -/
  around : List Body
  deriving DecidableEq, Repr

namespace Site

def chunk : Site := ⟨none, []⟩

/-- Where a body stands, given those around it. -/
def body (body : Body) (around : List Body) : Site := ⟨some body, body :: around⟩

/-- Where a block stands that is no body. -/
def inner (around : List Body) : Site := ⟨none, around⟩

/-- A loop body lies between the statements and the nearest function body or deferred block. -/
def InLoop (w : Site) : Prop := Body.loop ∈ w.around.takeWhile (· ≠ .function)

instance (w : Site) : Decidable w.InLoop := inferInstanceAs (Decidable (_ ∈ _))

def InFunction (w : Site) : Prop := Body.function ∈ w.around

instance (w : Site) : Decidable w.InFunction := inferInstanceAs (Decidable (_ ∈ _))

/-- The loop bodies that the statements lie in, those around functions included. -/
def loops (w : Site) : Nat := w.around.count .loop

end Site

/-! ## Blocks -/

mutual

def Exp.blocks (around : List Body) : Exp → List (Site × Block)
  | .nil _ | .bool _ _ | .vararg _ | .integer _ _ | .float _ _ | .string _ _ | .name _ _ | .bad _ =>
    []
  | .unary _ operand _ => operand.blocks around
  | .binary _ left right _ => left.blocks around ++ right.blocks around
  | .table keys values _ => keysBlocks around keys ++ expsBlocks around values
  | .function body _ => body.blocks around
  | .call call _ => call.blocks around
  | .index object key _ => object.blocks around ++ key.blocks around
  | .paren inner _ => inner.blocks around

def expsBlocks (around : List Body) : List Exp → List (Site × Block)
  | [] => []
  | e :: rest => e.blocks around ++ expsBlocks around rest

def keysBlocks (around : List Body) : List (Option Exp) → List (Site × Block)
  | [] => []
  | none :: rest => keysBlocks around rest
  | some key :: rest => key.blocks around ++ keysBlocks around rest

def FunctionBody.blocks (around : List Body) : FunctionBody → List (Site × Block)
  | ⟨_, _, _, block, _, _⟩ => block.blocks (.body .function around)

def Call.blocks (around : List Body) : Call → List (Site × Block)
  | ⟨callee, _, args⟩ => callee.blocks around ++ expsBlocks around args

def Block.blocks (w : Site) : Block → List (Site × Block)
  | ⟨stats, none, span⟩ => (w, ⟨stats, none, span⟩) :: statsBlocks w.around stats
  | ⟨stats, some returns, span⟩ =>
    (w, ⟨stats, some returns, span⟩) ::
      (statsBlocks w.around stats ++ expsBlocks w.around returns)

def statsBlocks (around : List Body) : List Stat → List (Site × Block)
  | [] => []
  | s :: rest => s.blocks around ++ statsBlocks around rest

def Branch.blocks (around : List Body) : Branch → List (Site × Block)
  | ⟨condition, body⟩ => condition.blocks around ++ body.blocks (.inner around)

def branchesBlocks (around : List Body) : List Branch → List (Site × Block)
  | [] => []
  | b :: rest => b.blocks around ++ branchesBlocks around rest

def Conditional.blocks (around : List Body) : Conditional → List (Site × Block)
  | ⟨branches, _⟩ => branchesBlocks around branches

def Assignment.blocks (around : List Body) : Assignment → List (Site × Block)
  | ⟨targets, values, _, _⟩ => expsBlocks around targets ++ expsBlocks around values

def assignmentsBlocks (around : List Body) : List Assignment → List (Site × Block)
  | [] => []
  | a :: rest => a.blocks around ++ assignmentsBlocks around rest

def Declaration.blocks (around : List Body) : Declaration → List (Site × Block)
  | ⟨_, _, values, _⟩ => expsBlocks around values

def declarationsBlocks (around : List Body) : List Declaration → List (Site × Block)
  | [] => []
  | d :: rest => d.blocks around ++ declarationsBlocks around rest

def ClassDecl.blocks (around : List Body) : ClassDecl → List (Site × Block)
  | ⟨_, table, parent, vars, members, _⟩ =>
    table.blocks around ++ parent.blocks around ++ declarationsBlocks around vars ++
      assignmentsBlocks around members

def Stat.blocks (around : List Body) : Stat → List (Site × Block)
  | .empty | .breakLoop _ | .label _ _ | .goto _ _ | .exportAll _ => []
  | .doBlock .plain body _ => body.blocks (.inner around)
  | .doBlock .deferred body _ => body.blocks (.body .function around)
  | .whileLoop condition body _ => condition.blocks around ++ body.blocks (.body .loop around)
  | .repeatLoop body condition _ => body.blocks (.body .loop around) ++ condition.blocks around
  | .conditional chain => chain.blocks around
  | .numericFor _ init limit step body _ =>
    init.blocks around ++ limit.blocks around ++ step.blocks around ++
      body.blocks (.body .loop around)
  | .genericFor _ iterables body _ =>
    expsBlocks around iterables ++ body.blocks (.body .loop around)
  | .assign assignment => assignment.blocks around
  | .declare declaration | .importNames declaration => declaration.blocks around
  | .localFunction _ body _ => body.blocks around
  | .call call _ | .importCall call _ => call.blocks around
  | .classDecl decl => decl.blocks around
  | .switch subject cases _ => subject.blocks around ++ cases.blocks around

end

attribute [simp, grind =] Exp.blocks Call.blocks Branch.blocks Conditional.blocks Declaration.blocks
  ClassDecl.blocks Stat.blocks

section Lists

variable (around : List Body)

@[simp, grind =]
theorem expsBlocks_eq (es : List Exp) : expsBlocks around es = es.flatMap (·.blocks around) := by
  induction es with
  | nil => rfl
  | cons e rest inductionHypothesis => simp [expsBlocks, inductionHypothesis]

@[simp, grind =]
theorem keysBlocks_eq (keys : List (Option Exp)) :
    keysBlocks around keys = keys.flatMap fun key => (key.map (·.blocks around)).getD [] := by
  induction keys with
  | nil => rfl
  | cons key rest inductionHypothesis => cases key <;> simp [keysBlocks, inductionHypothesis]

@[simp, grind =]
theorem statsBlocks_eq (ss : List Stat) : statsBlocks around ss = ss.flatMap (·.blocks around) := by
  induction ss with
  | nil => rfl
  | cons s rest inductionHypothesis => simp [statsBlocks, inductionHypothesis]

@[simp, grind =]
theorem branchesBlocks_eq (bs : List Branch) :
    branchesBlocks around bs = bs.flatMap (·.blocks around) := by
  induction bs with
  | nil => rfl
  | cons b rest inductionHypothesis => simp [branchesBlocks, inductionHypothesis]

@[simp, grind =]
theorem assignmentsBlocks_eq (as : List Assignment) :
    assignmentsBlocks around as = as.flatMap (·.blocks around) := by
  induction as with
  | nil => rfl
  | cons a rest inductionHypothesis => simp [assignmentsBlocks, inductionHypothesis]

@[simp, grind =]
theorem declarationsBlocks_eq (ds : List Declaration) :
    declarationsBlocks around ds = ds.flatMap (·.blocks around) := by
  induction ds with
  | nil => rfl
  | cons d rest inductionHypothesis => simp [declarationsBlocks, inductionHypothesis]

@[simp, grind =]
theorem FunctionBody.blocks_eq (body : FunctionBody) :
    body.blocks around = body.block.blocks (.body .function around) := by
  cases body
  rw [FunctionBody.blocks]

theorem Block.blocks_eq (w : Site) (b : Block) : b.blocks w = (w, b) ::
    (statsBlocks w.around b.stats ++ expsBlocks w.around (b.returns.getD [])) := by
  obtain ⟨stats, returns, span⟩ := b
  cases returns <;> simp [Block.blocks]

@[simp, grind =]
theorem Assignment.blocks_eq (a : Assignment) :
    a.blocks around = expsBlocks around a.targets ++ expsBlocks around a.values := by
  cases a
  rw [Assignment.blocks]

/-! ## Shorthand -/

@[simp, grind =]
theorem Exp.blocks_field (object : Exp) (name : String) (key : Span) :
    (object.field name key).blocks around = object.blocks around := by
  simp [field]

@[simp, grind =]
theorem Exp.blocks_negate (condition : Exp) (span : Span) :
    (condition.negate span).blocks around = condition.blocks around := rfl

theorem Exp.blocks_switchCase (values : List Exp) (span : Span) :
    ((switchCase? values).getD (.bad span)).blocks around = expsBlocks around values := by
  have fold (tests : List Exp) (first : Exp) :
      (tests.foldl (fun chain test => .binary .or chain test (chain.span.merge test.span))
        first).blocks around = first.blocks around ++ expsBlocks around tests := by
    induction tests generalizing first with
    | nil => simp
    | cons test rest inductionHypothesis =>
      rw [List.foldl_cons, inductionHypothesis]
      simp
  cases values with
  | nil => rfl
  | cons first rest =>
    rw [switchCase?, List.map_cons]
    simp [fold, List.flatMap_map]

@[simp, grind =]
theorem Call.blocks_require (library : String) (callee argument : Span) :
    (require library callee argument).blocks around = [] := by
  simp [require]

@[simp, grind =]
theorem ImportSource.blocks_member (source : ImportSource) (key : String) (span : Span) :
    (source.member key span).blocks around = [] := by
  cases source <;> simp [member]

end Lists

/-! ## Jumps -/

mutual

/-- The jumps of a statement that lie in no body inside it. -/
def Stat.jumps : Stat → List Stat
  | .goto name span => [.goto name span]
  | .doBlock .plain body _ => body.jumps
  | .conditional chain => chain.jumps
  | .switch _ cases _ => cases.jumps
  | .empty | .breakLoop _ | .label _ _ | .doBlock .deferred _ _ | .whileLoop _ _ _
  | .repeatLoop _ _ _ | .numericFor _ _ _ _ _ _ | .genericFor _ _ _ _ | .assign _ | .declare _
  | .localFunction _ _ _ | .call _ _ | .classDecl _ | .importCall _ _ | .importNames _
  | .exportAll _ => []

/-- The jumps that lie in a block, with no loop body, function body or deferred block between. -/
def Block.jumps : Block → List Stat
  | ⟨stats, _, _⟩ => statsJumps stats

def statsJumps : List Stat → List Stat
  | [] => []
  | s :: rest => s.jumps ++ statsJumps rest

def Branch.jumps : Branch → List Stat
  | ⟨_, body⟩ => body.jumps

def branchesJumps : List Branch → List Stat
  | [] => []
  | b :: rest => b.jumps ++ branchesJumps rest

def Conditional.jumps : Conditional → List Stat
  | ⟨branches, _⟩ => branchesJumps branches

end

attribute [simp, grind =] Stat.jumps Branch.jumps Conditional.jumps

@[simp, grind =]
theorem statsJumps_eq (ss : List Stat) : statsJumps ss = ss.flatMap (·.jumps) := by
  induction ss with
  | nil => rfl
  | cons s rest inductionHypothesis => simp [statsJumps, inductionHypothesis]

@[simp, grind =]
theorem branchesJumps_eq (bs : List Branch) : branchesJumps bs = bs.flatMap (·.jumps) := by
  induction bs with
  | nil => rfl
  | cons b rest inductionHypothesis => simp [branchesJumps, inductionHypothesis]

@[simp, grind =]
theorem Block.jumps_eq (b : Block) : b.jumps = statsJumps b.stats := by
  cases b
  rw [Block.jumps]

end LuaChunk
