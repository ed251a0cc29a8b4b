import LuaChunk.Tree.Desugar

/-!
# Parts of a tree and where they stand

The located parts of a tree at every depth, those of functions in expressions included, each with
the span of what it is part of.  The statements of a block are not counted among its parts here.
-/

set_option autoImplicit false

namespace LuaChunk

/-! ## Spans between positions -/

instance : Std.IsPartialOrder Position where
  le_refl := Position.le_refl
  le_trans _ _ _ := Position.le_trans
  le_antisymm _ _ := Position.le_antisymm

instance : Std.LawfulOrderLT Position where
  lt_iff a b := by
    simp only [Position.lt_def, Position.le_def]
    omega

/-- The span lies between two positions. -/
@[grind =]
def Span.Between (low high : Position) (s : Span) : Prop :=
  low ≤ s.start ∧ s.start ≤ s.stop ∧ s.stop ≤ high

/-- A span lies inside another, unless one of them stands for no source text. -/
def Span.Holds (outer inner : Span) : Prop :=
  outer.isSynthetic = false → inner.isSynthetic = false → outer.contains inner = true

@[grind ←]
theorem Span.holds_of_le {outer inner : Span} (start : outer.start ≤ inner.start)
    (stop : inner.stop ≤ outer.stop) : outer.Holds inner :=
  fun _ _ => contains_iff.2 ⟨start, stop⟩

@[grind .]
theorem Span.holds_synthetic (outer : Span) : outer.Holds .synthetic := nofun

@[grind .]
theorem Span.holds_self (s : Span) : s.Holds s := fun _ _ => s.contains_self

/-! ## Parts -/

def paramsParts (parent : Span) (ps : List Param) : List (Span × Span) := ps.map (parent, ·.span)

mutual

def Exp.parts : Exp → List (Span × Span)
  | .nil _ | .bool _ _ | .vararg _ | .integer _ _ | .float _ _ | .string _ _ | .name _ _ | .bad _ =>
    []
  | .unary _ operand span => (span, operand.span) :: operand.parts
  | .binary _ left right span =>
    (span, left.span) :: left.parts ++ (span, right.span) :: right.parts
  | .table keys values span => keysParts span keys ++ expsParts span values
  | .function body span => body.parts span
  | .call call span => call.parts span
  | .index object key span => (span, object.span) :: object.parts ++ (span, key.span) :: key.parts
  | .paren inner span => (span, inner.span) :: inner.parts

def expsParts (parent : Span) : List Exp → List (Span × Span)
  | [] => []
  | e :: rest => (parent, e.span) :: e.parts ++ expsParts parent rest

def keysParts (parent : Span) : List (Option Exp) → List (Span × Span)
  | [] => []
  | none :: rest => keysParts parent rest
  | some key :: rest => (parent, key.span) :: key.parts ++ keysParts parent rest

def FunctionBody.parts (parent : Span) : FunctionBody → List (Span × Span)
  | ⟨params, _, _, block, _, _⟩ =>
    paramsParts parent params ++ (parent, block.span) :: block.parts

def Call.parts (parent : Span) : Call → List (Span × Span)
  | ⟨callee, method, args⟩ =>
    (parent, callee.span) :: callee.parts ++ paramsParts parent method.toList ++
      expsParts parent args

def Block.parts : Block → List (Span × Span)
  | ⟨stats, none, _⟩ => statsParts stats
  | ⟨stats, some returns, span⟩ => statsParts stats ++ expsParts span returns

def statsParts : List Stat → List (Span × Span)
  | [] => []
  | s :: rest => s.parts ++ statsParts rest

def Branch.parts (parent : Span) : Branch → List (Span × Span)
  | ⟨condition, body⟩ =>
    (parent, condition.span) :: condition.parts ++ (parent, body.span) :: body.parts

def branchesParts (parent : Span) : List Branch → List (Span × Span)
  | [] => []
  | b :: rest => b.parts parent ++ branchesParts parent rest

def Conditional.parts : Conditional → List (Span × Span)
  | ⟨branches, span⟩ => branchesParts span branches

def Assignment.parts : Assignment → List (Span × Span)
  | ⟨targets, values, _, span⟩ => expsParts span targets ++ expsParts span values

def assignmentsParts (parent : Span) : List Assignment → List (Span × Span)
  | [] => []
  | a :: rest => (parent, a.span) :: a.parts ++ assignmentsParts parent rest

def Declaration.parts : Declaration → List (Span × Span)
  | ⟨names, _, values, span⟩ => paramsParts span names ++ expsParts span values

def declarationsParts (parent : Span) : List Declaration → List (Span × Span)
  | [] => []
  | d :: rest => (parent, d.span) :: d.parts ++ declarationsParts parent rest

def ClassDecl.parts : ClassDecl → List (Span × Span)
  | ⟨_, table, parent, vars, members, span⟩ =>
    (span, table.span) :: table.parts ++ (span, parent.span) :: parent.parts ++
      declarationsParts span vars ++ assignmentsParts span members

def Stat.parts : Stat → List (Span × Span)
  | .empty | .breakLoop _ | .label _ _ | .goto _ _ | .exportAll _ => []
  | .doBlock _ body span => (span, body.span) :: body.parts
  | .whileLoop condition body span | .repeatLoop body condition span =>
    (span, condition.span) :: condition.parts ++ (span, body.span) :: body.parts
  | .conditional chain => chain.parts
  | .numericFor var init limit step body span =>
    (span, var.span) :: (span, init.span) :: init.parts ++ (span, limit.span) :: limit.parts ++
      (span, step.span) :: step.parts ++ (span, body.span) :: body.parts
  | .genericFor vars iterables body span =>
    paramsParts span vars ++ expsParts span iterables ++ (span, body.span) :: body.parts
  | .assign assignment => assignment.parts
  | .declare declaration | .importNames declaration => declaration.parts
  | .localFunction name body span => (span, name.span) :: body.parts span
  | .call call span | .importCall call span => call.parts span
  | .classDecl decl => decl.parts
  | .switch subject cases span =>
    (span, subject.span) :: subject.parts ++ (span, cases.span) :: cases.parts

end

/-! ## Nested parts -/

/-- Each part lies inside what it is part of. -/
def Nested (parts : List (Span × Span)) : Prop := ∀ p ∈ parts, p.1.Holds p.2

section Lists

variable {parent span : Span} {a b : List (Span × Span)}

@[simp, grind .]
theorem nested_nil : Nested [] := nofun

@[simp, grind =]
theorem nested_cons : Nested ((parent, span) :: a) ↔ parent.Holds span ∧ Nested a :=
  List.forall_mem_cons

@[simp, grind =]
theorem nested_append : Nested (a ++ b) ↔ Nested a ∧ Nested b := List.forall_mem_append

@[simp, grind =]
theorem nested_paramsParts {ps : List Param} :
    Nested (paramsParts parent ps) ↔ ∀ p ∈ ps, parent.Holds p.span :=
  List.forall_mem_map

@[simp, grind =]
theorem nested_expsParts {es : List Exp} :
    Nested (expsParts parent es) ↔ ∀ e ∈ es, parent.Holds e.span ∧ Nested e.parts := by
  induction es with
  | nil => simp [expsParts]
  | cons e rest inductionHypothesis => simp [expsParts, inductionHypothesis, and_assoc]

@[simp, grind =]
theorem nested_keysParts {keys : List (Option Exp)} : Nested (keysParts parent keys) ↔
    ∀ key, some key ∈ keys → parent.Holds key.span ∧ Nested key.parts := by
  induction keys with
  | nil => simp [keysParts]
  | cons key rest inductionHypothesis => cases key <;> grind [keysParts]

@[simp, grind =]
theorem nested_statsParts {ss : List Stat} :
    Nested (statsParts ss) ↔ ∀ s ∈ ss, Nested s.parts := by
  induction ss with
  | nil => simp [statsParts]
  | cons s rest inductionHypothesis => simp [statsParts, inductionHypothesis]

@[simp, grind =]
theorem nested_branchesParts {bs : List Branch} : Nested (branchesParts parent bs) ↔
    ∀ b ∈ bs, (parent.Holds b.condition.span ∧ Nested b.condition.parts) ∧
      parent.Holds b.body.span ∧ Nested b.body.parts := by
  induction bs with
  | nil => simp [branchesParts]
  | cons b rest inductionHypothesis =>
    cases b
    simp [branchesParts, Branch.parts, inductionHypothesis, and_assoc]

@[simp, grind =]
theorem nested_assignmentsParts {as : List Assignment} : Nested (assignmentsParts parent as) ↔
    ∀ a ∈ as, parent.Holds a.span ∧ Nested a.parts := by
  induction as with
  | nil => simp [assignmentsParts]
  | cons a rest inductionHypothesis => simp [assignmentsParts, inductionHypothesis, and_assoc]

@[simp, grind =]
theorem nested_declarationsParts {ds : List Declaration} : Nested (declarationsParts parent ds) ↔
    ∀ d ∈ ds, parent.Holds d.span ∧ Nested d.parts := by
  induction ds with
  | nil => simp [declarationsParts]
  | cons d rest inductionHypothesis => simp [declarationsParts, inductionHypothesis, and_assoc]

end Lists

attribute [simp, grind =] Exp.parts Stat.parts Call.parts Conditional.parts Declaration.parts
  ClassDecl.parts

@[simp, grind =]
theorem FunctionBody.parts_eq (parent : Span) (body : FunctionBody) : body.parts parent =
    paramsParts parent body.params ++ (parent, body.block.span) :: body.block.parts := by
  cases body
  rw [parts]

@[grind =]
theorem Block.parts_eq (b : Block) :
    b.parts = statsParts b.stats ++ expsParts b.span (b.returns.getD []) := by
  obtain ⟨stats, returns, span⟩ := b
  cases returns <;> simp [parts, expsParts]

@[simp, grind =]
theorem Assignment.parts_eq (a : Assignment) :
    a.parts = expsParts a.span a.targets ++ expsParts a.span a.values := by
  cases a
  rw [parts]

/-! ## Shorthand -/

/-- The condition of a case lies between the same positions as its values, and nests if they do. -/
theorem Exp.switchCase_between {low high : Position} {values : List Exp} (place : Span)
    (between : ∀ e ∈ values, e.span.Between low high)
    (ordered : (values.map (·.span)).Pairwise fun a b => a.stop ≤ b.start)
    (bad : place.Between low high) :
    let condition := (switchCase? values).getD (.bad place)
    condition.span.Between low high ∧
      ((∀ e ∈ values, Nested e.parts) → Nested condition.parts) := by
  have fold (tests : List Exp) (chain : Exp)
      (between : ∀ e ∈ chain :: tests, e.span.Between low high)
      (ordered : ((chain :: tests).map (·.span)).Pairwise fun a b => a.stop ≤ b.start) :
      let e := tests.foldl (fun chain test => .binary .or chain test (chain.span.merge test.span))
        chain
      e.span.Between low high ∧ ((∀ e ∈ chain :: tests, Nested e.parts) → Nested e.parts) := by
    induction tests generalizing chain with
    | nil => simpa using between
    | cons test rest inductionHypothesis =>
      simp only [List.forall_mem_cons, List.map_cons, List.pairwise_cons] at between ordered
      obtain ⟨chainBetween, testBetween, between⟩ := between
      obtain ⟨⟨next, _⟩, later, ordered⟩ := ordered
      let longer := Exp.binary .or chain test (chain.span.merge test.span)
      have holds : longer.span.Between low high ∧ longer.span.Holds chain.span ∧
          longer.span.Holds test.span := by
        grind [Exp.span, Span.merge]
      obtain ⟨result, nested⟩ := inductionHypothesis longer
        (List.forall_mem_cons.2 ⟨holds.1, between⟩) (List.pairwise_cons.2 ⟨later, ordered⟩)
      refine ⟨result, fun each => nested ?_⟩
      obtain ⟨chainNested, testNested, each⟩ := List.forall_mem_cons.1 each |>.imp_right
        List.forall_mem_cons.1
      refine List.forall_mem_cons.2 ⟨?_, each⟩
      rw [parts, nested_append, nested_cons, nested_cons]
      exact ⟨⟨holds.2.1, chainNested⟩, holds.2.2, testNested⟩
  let test (value : Exp) := Exp.binary .eq (.name switchSubject value.span) value value.span
  have nested (each : ∀ e ∈ values, Nested e.parts) : ∀ e ∈ values.map test, Nested e.parts := by
    refine List.forall_mem_map.2 fun value membership => ?_
    rw [parts, nested_append, nested_cons, nested_cons]
    exact ⟨⟨value.span.holds_self, nested_nil⟩, value.span.holds_self, each value membership⟩
  cases values with
  | nil => exact ⟨bad, by simp [switchCase?]⟩
  | cons first rest =>
    have placed : ∀ e ∈ test first :: rest.map test, e.span.Between low high := by
      rw [← List.map_cons]
      exact List.forall_mem_map.2 between
    obtain ⟨result, parts⟩ := fold (rest.map test) (test first) placed <| by
      rw [← List.map_cons, List.map_map]
      exact ordered
    exact ⟨result, fun each => parts (nested each)⟩

end LuaChunk
