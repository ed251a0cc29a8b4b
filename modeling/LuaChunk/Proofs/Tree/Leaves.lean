import LuaChunk.Number.Numeral
import LuaChunk.Token
import LuaChunk.Tree.Desugar

/-!
# Leaves

The names, strings and numbers of a sequence of tokens, and those of a tree in the order in which
they are written.  A tree holds some that are not written: the `self` of a method, the step of a
loop that has none, and the second copy of the target of a compound assignment.
-/

set_option autoImplicit false

namespace LuaChunk

inductive Leaf where
  | text (text : String)
  /-- A numeral, or none where a token is no numeral. -/
  | number (value : Option Numeral)

def Token.leaf? (t : Token) : Option Leaf :=
  match t.kind with
  | .identifier | .string => some (.text t.text)
  | .number => some (.number (Numeral.read? t.text))
  | _ => none

def Param.leaf (p : Param) : Leaf := .text p.name

def Attribute.leaves : Attribute → List Leaf
  | .const => [.text "const"]
  | .close => [.text "close"]
  | _ => []

/-- The value of a compound assignment stands where the assignment does. -/
def Assignment.isCompound (a : Assignment) : Bool :=
  match a.values with
  | [.binary _ _ _ span] => span = a.span
  | _ => false

mutual

def Exp.leaves : Exp → List Leaf
  | .nil _ | .bool _ _ | .vararg _ | .bad _ => []
  | .integer value _ => [.number (some (.integer value))]
  | .float value _ => [.number (some (.float value))]
  | .string text _ | .name text _ => [.text text]
  | .unary _ operand _ => operand.leaves
  | .binary _ left right _ => left.leaves ++ right.leaves
  | .table keys values _ => (List.zipWith (· ++ ·) (keysLeaves keys) (expsLeaves values)).flatten
  | .function body _ => body.leaves
  | .call call _ => call.leaves
  | .index object key _ => object.leaves ++ key.leaves
  | .paren inner _ => inner.leaves

def expsLeaves : List Exp → List (List Leaf)
  | [] => []
  | e :: rest => e.leaves :: expsLeaves rest

def keysLeaves : List (Option Exp) → List (List Leaf)
  | [] => []
  | none :: rest => [] :: keysLeaves rest
  | some key :: rest => key.leaves :: keysLeaves rest

def FunctionBody.leaves : FunctionBody → List Leaf
  | ⟨params, _, isMethod, block, _, _⟩ =>
    (if isMethod then params.tail else params).map Param.leaf ++ block.leaves

def Call.leaves : Call → List Leaf
  | ⟨callee, method, args⟩ =>
    callee.leaves ++ method.toList.map Param.leaf ++ (expsLeaves args).flatten

def Block.leaves : Block → List Leaf
  | ⟨stats, none, _⟩ => statsLeaves stats
  | ⟨stats, some returns, _⟩ => statsLeaves stats ++ (expsLeaves returns).flatten

def statsLeaves : List Stat → List Leaf
  | [] => []
  | s :: rest => s.leaves ++ statsLeaves rest

def Branch.leaves : Branch → List Leaf
  | ⟨condition, body⟩ => condition.leaves ++ body.leaves

def branchesLeaves : List Branch → List Leaf
  | [] => []
  | b :: rest => b.leaves ++ branchesLeaves rest

def Conditional.leaves : Conditional → List Leaf
  | ⟨branches, _⟩ => branchesLeaves branches

def Assignment.leaves : Assignment → List Leaf
  | ⟨targets, values, attr, span⟩ =>
    (if Assignment.isCompound ⟨targets, values, attr, span⟩ then []
      else (expsLeaves targets).flatten) ++ (expsLeaves values).flatten

def Declaration.leaves : Declaration → List Leaf
  | ⟨names, attrs, values, _⟩ =>
    (List.zipWith (fun name attr => name.leaf :: attr.leaves) names attrs).flatten ++
      (expsLeaves values).flatten

/-- Only statements of Lua are read. -/
def Stat.leaves : Stat → List Leaf
  | .empty | .breakLoop _ => []
  | .label name _ | .goto name _ => [.text name]
  | .doBlock _ body _ => body.leaves
  | .whileLoop condition body _ => condition.leaves ++ body.leaves
  | .repeatLoop body condition _ => body.leaves ++ condition.leaves
  | .conditional chain => chain.leaves
  | .numericFor var init limit step body _ =>
    var.leaf :: (init.leaves ++ limit.leaves ++
      (if step.span.isSynthetic then [] else step.leaves) ++ body.leaves)
  | .genericFor vars iterables body _ =>
    vars.map Param.leaf ++ (expsLeaves iterables).flatten ++ body.leaves
  | .assign assignment => assignment.leaves
  | .declare declaration => declaration.leaves
  | .localFunction name body _ => name.leaf :: body.leaves
  | .call call _ => call.leaves
  | .classDecl _ | .importCall _ _ | .importNames _ | .exportAll _ | .switch _ _ _ => []

end

attribute [simp] Exp.leaves Call.leaves Branch.leaves Conditional.leaves
  Declaration.leaves Stat.leaves Attribute.leaves

/-! ## Lists of parts -/

@[simp]
theorem expsLeaves_eq (es : List Exp) : expsLeaves es = es.map (·.leaves) := by
  induction es with
  | nil => rfl
  | cons e rest inductionHypothesis => simp [expsLeaves, inductionHypothesis]

@[simp]
theorem statsLeaves_eq (ss : List Stat) : statsLeaves ss = ss.flatMap (·.leaves) := by
  induction ss with
  | nil => rfl
  | cons s rest inductionHypothesis => simp [statsLeaves, inductionHypothesis]

@[simp]
theorem branchesLeaves_eq (bs : List Branch) : branchesLeaves bs = bs.flatMap (·.leaves) := by
  induction bs with
  | nil => rfl
  | cons b rest inductionHypothesis => simp [branchesLeaves, inductionHypothesis]

@[simp]
theorem FunctionBody.leaves_eq (body : FunctionBody) : body.leaves =
    (if body.isMethod then body.params.tail else body.params).map Param.leaf ++
      body.block.leaves := by
  cases body
  rw [FunctionBody.leaves]

@[simp]
theorem Block.leaves_eq (b : Block) :
    b.leaves = statsLeaves b.stats ++ (expsLeaves (b.returns.getD [])).flatten := by
  obtain ⟨stats, returns, span⟩ := b
  cases returns <;> simp [Block.leaves]

/-- The leaves of a field: those of its key before those of its value. -/
def fieldLeaves (f : Option Exp × Exp) : List Leaf :=
  (f.1.map (·.leaves)).getD [] ++ f.2.leaves

theorem Exp.leaves_table (fs : List (Option Exp × Exp)) (span : Span) :
    (table (fs.map (·.1)) (fs.map (·.2)) span).leaves = fs.flatMap fieldLeaves := by
  rw [leaves]
  induction fs with
  | nil => rfl
  | cons f rest inductionHypothesis =>
    obtain ⟨key, value⟩ := f
    cases key with
    | none =>
      rw [List.map_cons, List.map_cons, keysLeaves, expsLeaves, List.zipWith_cons_cons,
        List.flatten_cons, inductionHypothesis]
      rfl
    | some key =>
      rw [List.map_cons, List.map_cons, keysLeaves, expsLeaves, List.zipWith_cons_cons,
        List.flatten_cons, inductionHypothesis]
      rfl

/-! ## Assignments -/

theorem Assignment.leaves_compound (op : BinaryOp) (target value : Exp) (span : Span) :
    (compound op target value span).leaves = target.leaves ++ value.leaves := by
  simp [compound, leaves, isCompound]

theorem Assignment.leaves_eq {a : Assignment} (h : a.isCompound = false) :
    a.leaves = a.targets.flatMap (·.leaves) ++ a.values.flatMap (·.leaves) := by
  cases a
  rw [leaves, h]
  simp [List.flatMap_def]

end LuaChunk
