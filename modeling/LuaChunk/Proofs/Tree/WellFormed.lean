import LuaChunk.Tree.Desugar

/-!
# Well-formed trees

What those who walk a tree rely on and no type says.  The conditions and bodies of a conditional
need no word here, since they come in pairs; lists that belong together but are kept apart do.
-/

set_option autoImplicit false

namespace LuaChunk

namespace Exp

/-- What may be called or indexed without parentheses. -/
@[grind =]
def isPrefix : Exp → Bool
  | name _ _ | paren _ _ | index _ _ _ | call _ _ => true
  | nil _ | bool _ _ | vararg _ | integer _ _ | float _ _ | string _ _ | unary _ _ _
  | binary _ _ _ _ | table _ _ _ | function _ _ | bad _ => false

/-- What may be assigned to, or stands where such a thing could not be read. -/
@[grind =]
def isTarget : Exp → Bool
  | name _ _ | index _ _ _ | bad _ => true
  | paren _ _ | call _ _ | nil _ | bool _ _ | vararg _ | integer _ _ | float _ _ | string _ _
  | unary _ _ _ | binary _ _ _ _ | table _ _ _ | function _ _ => false

@[grind =]
def isIndex : Exp → Bool
  | index _ _ _ => true
  | name _ _ | bad _ | paren _ _ | call _ _ | nil _ | bool _ _ | vararg _ | integer _ _ | float _ _
  | string _ _ | unary _ _ _ | binary _ _ _ _ | table _ _ _ | function _ _ => false

end Exp

attribute [grind =] Stat.isEmpty Exp.field Exp.negate

/-- The names of an import are bound to members, one for each name, or to the source as a whole. -/
def Declaration.Imports (d : Declaration) : Prop :=
  d.values.length = d.names.length ∨ ∃ v, d.values = [v] ∧ v.isIndex = false

section

variable (cap : Option Nat)

mutual

/-- Under a cap on the fields of a table. -/
def Exp.WellFormed : Exp → Prop
  | .nil _ | .bool _ _ | .vararg _ | .integer _ _ | .float _ _ | .string _ _ | .name _ _ | .bad _ =>
    True
  | .unary _ operand _ => operand.WellFormed
  | .binary _ left right _ => left.WellFormed ∧ right.WellFormed
  | .table keys values _ =>
    keys.length = values.length ∧ (∀ n, cap = some n → keys.length ≤ n) ∧
      keysWellFormed keys ∧ expsWellFormed values
  | .function body _ => body.WellFormed
  | .call call _ => call.WellFormed
  | .index object key _ => object.isPrefix = true ∧ object.WellFormed ∧ key.WellFormed
  | .paren inner _ => inner.WellFormed

def expsWellFormed : List Exp → Prop
  | [] => True
  | e :: rest => e.WellFormed ∧ expsWellFormed rest

def keysWellFormed : List (Option Exp) → Prop
  | [] => True
  | none :: rest => keysWellFormed rest
  | some key :: rest => key.WellFormed ∧ keysWellFormed rest

def FunctionBody.WellFormed : FunctionBody → Prop
  | ⟨params, _, isMethod, block, _, _⟩ =>
    (isMethod = true → params.head?.map (·.name) = some "self") ∧ block.WellFormed

def Call.WellFormed : Call → Prop
  | ⟨callee, _, args⟩ => callee.isPrefix = true ∧ callee.WellFormed ∧ expsWellFormed args

def Block.WellFormed : Block → Prop
  | ⟨stats, none, _⟩ => statsWellFormed stats
  | ⟨stats, some returns, _⟩ => statsWellFormed stats ∧ expsWellFormed returns

/-- The statements of a block, of which none is empty. -/
def statsWellFormed : List Stat → Prop
  | [] => True
  | s :: rest => (s.isEmpty = false ∧ s.WellFormed) ∧ statsWellFormed rest

def Branch.WellFormed : Branch → Prop
  | ⟨condition, body⟩ => condition.WellFormed ∧ body.WellFormed

def branchesWellFormed : List Branch → Prop
  | [] => True
  | b :: rest => b.WellFormed ∧ branchesWellFormed rest

def Conditional.WellFormed : Conditional → Prop
  | ⟨branches, _⟩ => branchesWellFormed branches

def Assignment.WellFormed : Assignment → Prop
  | ⟨targets, values, _, _⟩ =>
    targets ≠ [] ∧ values ≠ [] ∧ (∀ t ∈ targets, t.isTarget = true) ∧
      expsWellFormed targets ∧ expsWellFormed values

def assignmentsWellFormed : List Assignment → Prop
  | [] => True
  | a :: rest => a.WellFormed ∧ assignmentsWellFormed rest

def Declaration.WellFormed : Declaration → Prop
  | ⟨names, attrs, values, _⟩ => attrs.length = names.length ∧ expsWellFormed values

def declarationsWellFormed : List Declaration → Prop
  | [] => True
  | d :: rest => d.WellFormed ∧ declarationsWellFormed rest

def ClassDecl.WellFormed : ClassDecl → Prop
  | ⟨_, table, parent, vars, members, _⟩ =>
    table.WellFormed ∧ parent.WellFormed ∧ declarationsWellFormed vars ∧
      assignmentsWellFormed members

def Stat.WellFormed : Stat → Prop
  | .empty | .breakLoop _ | .label _ _ | .goto _ _ | .exportAll _ => True
  | .doBlock _ body _ => body.WellFormed
  | .whileLoop condition body _ | .repeatLoop body condition _ =>
    condition.WellFormed ∧ body.WellFormed
  | .conditional chain => chain.branches ≠ [] ∧ chain.WellFormed
  | .numericFor _ init limit step body _ =>
    init.WellFormed ∧ limit.WellFormed ∧ step.WellFormed ∧ body.WellFormed
  | .genericFor vars iterables body _ =>
    vars ≠ [] ∧ iterables ≠ [] ∧ expsWellFormed iterables ∧ body.WellFormed
  | .assign assignment => assignment.WellFormed
  | .declare declaration => declaration.WellFormed
  | .localFunction _ body _ => body.WellFormed
  | .call call _ | .importCall call _ => call.WellFormed
  | .classDecl decl => decl.WellFormed
  | .importNames declaration => declaration.WellFormed ∧ declaration.Imports
  | .switch subject cases _ => subject.WellFormed ∧ cases.WellFormed

end

end

attribute [grind =] Exp.WellFormed Call.WellFormed Branch.WellFormed Conditional.WellFormed
  Declaration.WellFormed ClassDecl.WellFormed Stat.WellFormed Assignment.WellFormed

section Lists

variable {cap : Option Nat}

@[grind =]
theorem expsWellFormed_iff {es : List Exp} :
    expsWellFormed cap es ↔ ∀ e ∈ es, e.WellFormed cap := by
  induction es with
  | nil => simp [expsWellFormed]
  | cons e rest inductionHypothesis => simp [expsWellFormed, inductionHypothesis]

@[grind =]
theorem keysWellFormed_iff {keys : List (Option Exp)} :
    keysWellFormed cap keys ↔ ∀ key, some key ∈ keys → key.WellFormed cap := by
  induction keys with
  | nil => simp [keysWellFormed]
  | cons key rest inductionHypothesis =>
    cases key <;> simp [keysWellFormed, inductionHypothesis, or_imp, forall_and]

@[grind =]
theorem statsWellFormed_iff {ss : List Stat} :
    statsWellFormed cap ss ↔ ∀ s ∈ ss, s.isEmpty = false ∧ s.WellFormed cap := by
  induction ss with
  | nil => simp [statsWellFormed]
  | cons s rest inductionHypothesis => simp [statsWellFormed, inductionHypothesis]

@[grind =]
theorem branchesWellFormed_iff {bs : List Branch} :
    branchesWellFormed cap bs ↔ ∀ b ∈ bs, b.WellFormed cap := by
  induction bs with
  | nil => simp [branchesWellFormed]
  | cons b rest inductionHypothesis => simp [branchesWellFormed, inductionHypothesis]

@[grind =]
theorem assignmentsWellFormed_iff {as : List Assignment} :
    assignmentsWellFormed cap as ↔ ∀ a ∈ as, a.WellFormed cap := by
  induction as with
  | nil => simp [assignmentsWellFormed]
  | cons a rest inductionHypothesis => simp [assignmentsWellFormed, inductionHypothesis]

@[grind =]
theorem declarationsWellFormed_iff {ds : List Declaration} :
    declarationsWellFormed cap ds ↔ ∀ d ∈ ds, d.WellFormed cap := by
  induction ds with
  | nil => simp [declarationsWellFormed]
  | cons d rest inductionHypothesis => simp [declarationsWellFormed, inductionHypothesis]

@[grind =]
theorem Block.wellFormed_iff {b : Block} : b.WellFormed cap ↔
    (∀ s ∈ b.stats, s.isEmpty = false ∧ s.WellFormed cap) ∧
      ∀ e ∈ b.returns.getD [], e.WellFormed cap := by
  obtain ⟨stats, returns, span⟩ := b
  cases returns <;> simp [Block.WellFormed, statsWellFormed_iff, expsWellFormed_iff]

@[grind =]
theorem FunctionBody.wellFormed_iff {b : FunctionBody} : b.WellFormed cap ↔
    (b.isMethod = true → b.params.head?.map (·.name) = some "self") ∧ b.block.WellFormed cap := by
  cases b
  rw [FunctionBody.WellFormed]

/-! ## Shorthand -/

theorem Exp.wellFormed_switchCase {values : List Exp} (span : Span)
    (h : ∀ v ∈ values, v.WellFormed cap) : ((switchCase? values).getD (.bad span)).WellFormed cap := by
  have chain (tests : List Exp) (first : Exp) (each : ∀ t ∈ tests, t.WellFormed cap)
      (start : first.WellFormed cap) :
      (tests.foldl (fun chain test => .binary .or chain test (chain.span.merge test.span))
        first).WellFormed cap := by
    induction tests generalizing first with
    | nil => exact start
    | cons test rest inductionHypothesis =>
      exact inductionHypothesis _ (by grind) (by grind)
  cases values with
  | nil => simp [switchCase?, Exp.WellFormed]
  | cons first rest =>
    rw [switchCase?, List.map_cons]
    exact chain _ _ (by grind) (by grind)

@[grind .]
theorem Call.wellFormed_require (library : String) (callee argument : Span) :
    (require library callee argument).WellFormed cap := by
  simp [require, Call.WellFormed, Exp.WellFormed, Exp.isPrefix, expsWellFormed]

/-- A compound assignment assigns to one target. -/
theorem Assignment.wellFormed_compound {op : BinaryOp} {target value : Exp} {span : Span}
    (assignable : target.isTarget = true) (left : target.WellFormed cap)
    (right : value.WellFormed cap) : (compound op target value span).WellFormed cap := by
  simp [compound, Assignment.WellFormed, Exp.WellFormed, expsWellFormed, assignable, left, right]

@[grind .]
theorem ImportSource.wellFormed_member (source : ImportSource) (key : String) (span : Span) :
    (source.member key span).WellFormed cap := by
  cases source <;> simp [member, Exp.WellFormed, Exp.isPrefix, Call.wellFormed_require]

end Lists

end LuaChunk
