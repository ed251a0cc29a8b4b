import LuaChunk.Tree.Desugar

/-!
# The height of a tree

How many expressions lie on the longest way down a tree.  Some ways are made by loops of the parser
and not by its recursion: to the left operand of an operator, to the object that is indexed, to what
is called.  Such a step is given a weight of its own: with weight one every expression on a way
counts, and with weight zero those do not that a way comes to by such a step.
-/

set_option autoImplicit false

namespace LuaChunk

section

variable (spine : Nat)

mutual

/-- The expressions on the longest way down from here, this one included. -/
def Exp.height : Exp → Nat
  | .nil _ | .bool _ _ | .vararg _ | .integer _ _ | .float _ _ | .string _ _ | .name _ _ | .bad _ =>
    1
  | .unary _ operand _ => operand.height + 1
  | .binary _ left right _ => max (left.height + spine) (right.height + 1)
  | .table keys values _ => max (keysHeight keys) (expsHeight values) + 1
  | .function body _ => body.height + 1
  | .call call _ => call.height
  | .index object key _ => max (object.height + spine) (key.height + 1)
  | .paren inner _ => inner.height + 1

def expsHeight : List Exp → Nat
  | [] => 0
  | e :: rest => max e.height (expsHeight rest)

def keysHeight : List (Option Exp) → Nat
  | [] => 0
  | none :: rest => keysHeight rest
  | some key :: rest => max key.height (keysHeight rest)

def FunctionBody.height : FunctionBody → Nat
  | ⟨_, _, _, block, _, _⟩ => block.height

/-- A call counts as an expression, also where it is a statement. -/
def Call.height : Call → Nat
  | ⟨callee, _, args⟩ => max (callee.height + spine) (expsHeight args + 1)

def Block.height : Block → Nat
  | ⟨stats, none, _⟩ => statsHeight stats
  | ⟨stats, some returns, _⟩ => max (statsHeight stats) (expsHeight returns)

def statsHeight : List Stat → Nat
  | [] => 0
  | s :: rest => max s.height (statsHeight rest)

def Branch.height : Branch → Nat
  | ⟨condition, body⟩ => max condition.height body.height

def branchesHeight : List Branch → Nat
  | [] => 0
  | b :: rest => max b.height (branchesHeight rest)

def Conditional.height : Conditional → Nat
  | ⟨branches, _⟩ => branchesHeight branches

def Assignment.height : Assignment → Nat
  | ⟨targets, values, _, _⟩ => max (expsHeight targets) (expsHeight values)

def assignmentsHeight : List Assignment → Nat
  | [] => 0
  | a :: rest => max a.height (assignmentsHeight rest)

def Declaration.height : Declaration → Nat
  | ⟨_, _, values, _⟩ => expsHeight values

def declarationsHeight : List Declaration → Nat
  | [] => 0
  | d :: rest => max d.height (declarationsHeight rest)

def ClassDecl.height : ClassDecl → Nat
  | ⟨_, table, parent, vars, members, _⟩ =>
    max (max table.height parent.height) (max (declarationsHeight vars) (assignmentsHeight members))

def Stat.height : Stat → Nat
  | .empty | .breakLoop _ | .label _ _ | .goto _ _ | .exportAll _ => 0
  | .doBlock _ body _ => body.height
  | .whileLoop condition body _ | .repeatLoop body condition _ => max condition.height body.height
  | .conditional chain => chain.height
  | .numericFor _ init limit step body _ =>
    max (max init.height limit.height) (max step.height body.height)
  | .genericFor _ iterables body _ => max (expsHeight iterables) body.height
  | .assign assignment => assignment.height
  | .declare declaration | .importNames declaration => declaration.height
  | .localFunction _ body _ => body.height
  | .call call _ | .importCall call _ => call.height
  | .classDecl decl => decl.height
  | .switch subject cases _ => max subject.height cases.height

end

end

attribute [grind =] Exp.height Call.height Branch.height Conditional.height Assignment.height
  Declaration.height ClassDecl.height Stat.height

section Lists

variable (spine : Nat)

/-! The highest of some trees is one of them. -/

@[grind .]
theorem expsHeight_attained (es : List Exp) :
    expsHeight spine es = 0 ∨ ∃ e ∈ es, expsHeight spine es = e.height spine := by
  induction es with
  | nil => exact .inl (by rw [expsHeight])
  | cons e rest inductionHypothesis => grind [expsHeight]

@[grind .]
theorem keysHeight_attained (keys : List (Option Exp)) :
    keysHeight spine keys = 0 ∨ ∃ key, some key ∈ keys ∧ keysHeight spine keys = key.height spine := by
  induction keys with
  | nil => exact .inl (by rw [keysHeight])
  | cons key rest inductionHypothesis => cases key <;> grind [keysHeight]

@[grind .]
theorem branchesHeight_attained (bs : List Branch) :
    branchesHeight spine bs = 0 ∨ ∃ b ∈ bs, branchesHeight spine bs = b.height spine := by
  induction bs with
  | nil => exact .inl (by rw [branchesHeight])
  | cons b rest inductionHypothesis => grind [branchesHeight]

@[grind .]
theorem assignmentsHeight_attained (as : List Assignment) :
    assignmentsHeight spine as = 0 ∨ ∃ a ∈ as, assignmentsHeight spine as = a.height spine := by
  induction as with
  | nil => exact .inl (by rw [assignmentsHeight])
  | cons a rest inductionHypothesis => grind [assignmentsHeight]

theorem statsHeight_attained (ss : List Stat) :
    statsHeight spine ss = 0 ∨ ∃ s ∈ ss, statsHeight spine ss = s.height spine := by
  induction ss with
  | nil => exact .inl (by rw [statsHeight])
  | cons s rest inductionHypothesis => grind [statsHeight]

@[grind .]
theorem Block.height_attained (b : Block) : b.height spine = 0 ∨
    (∃ s ∈ b.stats, b.height spine = s.height spine) ∨
      ∃ e ∈ b.returns.getD [], b.height spine = e.height spine := by
  obtain ⟨stats, returns, span⟩ := b
  have stats := statsHeight_attained spine stats
  cases returns with
  | none => simpa [Block.height] using stats
  | some returns => grind [Block.height]

@[grind =]
theorem FunctionBody.height_eq (b : FunctionBody) : b.height spine = b.block.height spine := by
  cases b
  rw [FunctionBody.height]

end Lists

/-! ## Shorthand -/

section Shorthand

variable {n : Nat}

/-- The chain of tests grows to the left. -/
theorem Exp.height_switchCase {values : List Exp} (span : Span)
    (h : ∀ v ∈ values, v.height 0 ≤ n) : ((switchCase? values).getD (.bad span)).height 0 ≤ n + 2 := by
  have chain (tests : List Exp) (first : Exp) (each : ∀ t ∈ tests, t.height 0 ≤ n + 1)
      (start : first.height 0 ≤ n + 2) :
      (tests.foldl (fun chain test => .binary .or chain test (chain.span.merge test.span))
        first).height 0 ≤ n + 2 := by
    induction tests generalizing first with
    | nil => exact start
    | cons test rest inductionHypothesis =>
      exact inductionHypothesis _ (by grind) (by grind)
  cases values with
  | nil => simp [switchCase?, Exp.height]
  | cons first rest =>
    rw [switchCase?, List.map_cons]
    exact chain _ _ (by grind) (by grind)

theorem ImportSource.height_member (source : ImportSource) (key : String) (span : Span) :
    (source.member key span).height 0 = 2 := by
  cases source <;> simp [member, Call.require, Exp.height, Call.height, expsHeight]

end Shorthand

end LuaChunk
