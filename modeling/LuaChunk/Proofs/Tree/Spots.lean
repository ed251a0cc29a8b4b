import LuaChunk.Proofs.Tree.Parts

/-!
# Locations in a tree

Every location that a tree carries, at every depth.  Those of the `or`s between the labels of a case
are told apart, with the labels that they are merged from.
-/

set_option autoImplicit false

namespace LuaChunk

/-- The location of a node; that of an `or` between labels is known with the locations of the first
label and of the label after it. -/
inductive Spot where
  | node (span : Span)
  | joint (first last span : Span)
  deriving DecidableEq, Repr

/-- The first label of a condition. -/
def Exp.firstLabel : Exp → Exp
  | .binary .or chain _ _ => chain.firstLabel
  | e => e

def paramsSpots (ps : List Param) : List Spot := ps.map fun p => .node p.span

mutual

/-- The locations of an expression, which may be the condition of a case. -/
def Exp.spots (isCase : Bool) : Exp → List Spot
  | .nil span | .bool _ span | .vararg span | .integer _ span | .float _ span | .string _ span
  | .name _ span | .bad span => [.node span]
  | .unary _ operand span => .node span :: operand.spots false
  | .binary op left right span =>
    (if isCase && op == .or then .joint left.firstLabel.span right.span span else .node span) ::
      left.spots (isCase && op == .or) ++ right.spots false
  | .table keys values span => .node span :: keysSpots keys ++ expsSpots values
  | .function body span => .node span :: body.spots
  | .call call span => .node span :: call.spots
  | .index object key span => .node span :: object.spots false ++ key.spots false
  | .paren inner span => .node span :: inner.spots false

def expsSpots : List Exp → List Spot
  | [] => []
  | e :: rest => e.spots false ++ expsSpots rest

def keysSpots : List (Option Exp) → List Spot
  | [] => []
  | none :: rest => keysSpots rest
  | some key :: rest => key.spots false ++ keysSpots rest

def FunctionBody.spots : FunctionBody → List Spot
  | ⟨params, _, _, block, _, _⟩ => paramsSpots params ++ block.spots

def Call.spots : Call → List Spot
  | ⟨callee, method, args⟩ => callee.spots false ++ paramsSpots method.toList ++ expsSpots args

def Block.spots : Block → List Spot
  | ⟨stats, none, span⟩ => .node span :: statsSpots stats
  | ⟨stats, some returns, span⟩ => .node span :: statsSpots stats ++ expsSpots returns

def statsSpots : List Stat → List Spot
  | [] => []
  | s :: rest => s.spots ++ statsSpots rest

def Branch.spots (isCase : Bool) : Branch → List Spot
  | ⟨condition, body⟩ => condition.spots isCase ++ body.spots

def branchesSpots (isCase : Bool) : List Branch → List Spot
  | [] => []
  | b :: rest => b.spots isCase ++ branchesSpots isCase rest

def Conditional.spots (isCase : Bool) : Conditional → List Spot
  | ⟨branches, span⟩ => .node span :: branchesSpots isCase branches

def Assignment.spots : Assignment → List Spot
  | ⟨targets, values, _, span⟩ => .node span :: expsSpots targets ++ expsSpots values

def assignmentsSpots : List Assignment → List Spot
  | [] => []
  | a :: rest => a.spots ++ assignmentsSpots rest

def Declaration.spots : Declaration → List Spot
  | ⟨names, _, values, span⟩ => .node span :: paramsSpots names ++ expsSpots values

def declarationsSpots : List Declaration → List Spot
  | [] => []
  | d :: rest => d.spots ++ declarationsSpots rest

def ClassDecl.spots : ClassDecl → List Spot
  | ⟨_, table, parent, vars, members, span⟩ =>
    .node span :: table.spots ++ parent.spots false ++ declarationsSpots vars ++
      assignmentsSpots members

def Stat.spots : Stat → List Spot
  | .empty => []
  | .breakLoop span | .label _ span | .goto _ span | .exportAll span => [.node span]
  | .doBlock _ body span => .node span :: body.spots
  | .whileLoop condition body span | .repeatLoop body condition span =>
    .node span :: condition.spots false ++ body.spots
  | .conditional chain => chain.spots false
  | .numericFor var init limit step body span =>
    .node span :: .node var.span :: init.spots false ++ limit.spots false ++ step.spots false ++
      body.spots
  | .genericFor vars iterables body span =>
    .node span :: paramsSpots vars ++ expsSpots iterables ++ body.spots
  | .assign assignment => assignment.spots
  | .declare declaration | .importNames declaration => declaration.spots
  | .localFunction name body span => .node span :: .node name.span :: body.spots
  | .call call span | .importCall call span => .node span :: call.spots
  | .classDecl decl => decl.spots
  | .switch subject cases span => .node span :: subject.spots ++ cases.spots true

end

/-! ## Sound locations -/

/-- The span stands for no source text, or lies between the start of the text and its end. -/
def Span.Located (stop : Position) (s : Span) : Prop := s = .synthetic ∨ s.Between .start stop

@[grind =]
theorem Span.located_iff {stop : Position} {s : Span} : s.Located stop ↔
    s = .synthetic ∨ .start ≤ s.start ∧ s.start ≤ s.stop ∧ s.stop ≤ stop := Iff.rfl

instance (stop : Position) (s : Span) : Decidable (s.Located stop) :=
  decidable_of_iff' _ Span.located_iff

/-- A node is located.  An `or` between labels goes from the first one to the other, and is located
if both stand in the text. -/
def Spot.Sound (d : Dialect) (stop : Position) : Spot → Prop
  | .node s => s.Located stop
  | .joint first last s => d = .mooc ∧ s = first.merge last ∧ first.Located stop ∧
      last.Located stop ∧ (first.Between .start stop → last.Between .start stop →
        s.Between .start stop)

def Sound (d : Dialect) (stop : Position) (spots : List Spot) : Prop :=
  ∀ spot ∈ spots, spot.Sound d stop

section Lists

variable {d : Dialect} {stop : Position} {spot : Spot} {a b : List Spot} {isCase : Bool}

@[simp, grind .]
theorem sound_nil : Sound d stop [] := nofun

@[simp]
theorem sound_cons : Sound d stop (spot :: a) ↔ spot.Sound d stop ∧ Sound d stop a :=
  List.forall_mem_cons

@[simp, grind =]
theorem sound_node {s : Span} : (Spot.node s).Sound d stop ↔ s.Located stop := Iff.rfl

@[grind =]
theorem sound_node_cons {s : Span} :
    Sound d stop (.node s :: a) ↔ s.Located stop ∧ Sound d stop a := sound_cons

@[simp, grind =]
theorem sound_append : Sound d stop (a ++ b) ↔ Sound d stop a ∧ Sound d stop b :=
  List.forall_mem_append

@[simp, grind =]
theorem sound_paramsSpots {ps : List Param} :
    Sound d stop (paramsSpots ps) ↔ ∀ p ∈ ps, p.span.Located stop :=
  List.forall_mem_map

@[simp, grind =]
theorem sound_expsSpots {es : List Exp} :
    Sound d stop (expsSpots es) ↔ ∀ e ∈ es, Sound d stop (e.spots false) := by
  induction es with
  | nil => simp [expsSpots]
  | cons e rest inductionHypothesis => simp [expsSpots, inductionHypothesis]

@[simp, grind =]
theorem sound_keysSpots {keys : List (Option Exp)} :
    Sound d stop (keysSpots keys) ↔ ∀ key, some key ∈ keys → Sound d stop (key.spots false) := by
  induction keys with
  | nil => simp [keysSpots]
  | cons key rest inductionHypothesis => cases key <;> grind [keysSpots]

@[simp, grind =]
theorem sound_statsSpots {ss : List Stat} :
    Sound d stop (statsSpots ss) ↔ ∀ s ∈ ss, Sound d stop s.spots := by
  induction ss with
  | nil => simp [statsSpots]
  | cons s rest inductionHypothesis => simp [statsSpots, inductionHypothesis]

@[simp, grind =]
theorem sound_branchesSpots {bs : List Branch} : Sound d stop (branchesSpots isCase bs) ↔
    ∀ b ∈ bs, Sound d stop (b.condition.spots isCase) ∧ Sound d stop b.body.spots := by
  induction bs with
  | nil => simp [branchesSpots]
  | cons b rest inductionHypothesis =>
    cases b
    simp [branchesSpots, Branch.spots, inductionHypothesis, and_assoc]

@[simp, grind =]
theorem sound_assignmentsSpots {as : List Assignment} :
    Sound d stop (assignmentsSpots as) ↔ ∀ a ∈ as, Sound d stop a.spots := by
  induction as with
  | nil => simp [assignmentsSpots]
  | cons a rest inductionHypothesis => simp [assignmentsSpots, inductionHypothesis]

@[simp, grind =]
theorem sound_declarationsSpots {ds : List Declaration} :
    Sound d stop (declarationsSpots ds) ↔ ∀ x ∈ ds, Sound d stop x.spots := by
  induction ds with
  | nil => simp [declarationsSpots]
  | cons x rest inductionHypothesis => simp [declarationsSpots, inductionHypothesis]

end Lists

attribute [simp, grind =] Exp.spots Stat.spots Call.spots Conditional.spots Declaration.spots
  ClassDecl.spots

@[simp, grind =]
theorem FunctionBody.spots_eq (body : FunctionBody) :
    body.spots = paramsSpots body.params ++ body.block.spots := by
  cases body
  rw [spots]

@[grind =]
theorem Block.spots_eq (b : Block) :
    b.spots = .node b.span :: statsSpots b.stats ++ expsSpots (b.returns.getD []) := by
  obtain ⟨stats, returns, span⟩ := b
  cases returns <;> simp [spots, expsSpots]

@[simp, grind =]
theorem Assignment.spots_eq (a : Assignment) :
    a.spots = .node a.span :: expsSpots a.targets ++ expsSpots a.values := by
  cases a
  rw [spots]

/-! ## Cases -/

/-- Labels that stand one after the other give a condition with sound locations. -/
theorem Exp.switchCase_sound {d : Dialect} {stop : Position} {values : List Exp} {place : Span}
    (mooc : d = .mooc) (bad : place.Located stop)
    (each : ∀ e ∈ values, e.span.Located stop ∧ Sound d stop (e.spots false))
    (ordered : (values.map (·.span)).Pairwise fun a b =>
      a.Between .start stop → b.Between .start stop → a.start ≤ b.stop) :
    Sound d stop (((switchCase? values).getD (.bad place)).spots true) := by
  have fold (tests : List Exp) (chain : Exp) (sound : Sound d stop (chain.spots true))
      (start : chain.span.start = chain.firstLabel.span.start)
      (located : chain.firstLabel.span.Located stop)
      (each : ∀ e ∈ tests, e.span.Located stop ∧ Sound d stop (e.spots false))
      (later : ∀ e ∈ tests, chain.firstLabel.span.Between .start stop →
        e.span.Between .start stop → chain.firstLabel.span.start ≤ e.span.stop) :
      Sound d stop ((tests.foldl (fun chain test =>
        .binary .or chain test (chain.span.merge test.span)) chain).spots true) := by
    induction tests generalizing chain with
    | nil => exact sound
    | cons test rest inductionHypothesis =>
      obtain ⟨⟨testLocated, testSound⟩, each⟩ := List.forall_mem_cons.1 each
      obtain ⟨next, later⟩ := List.forall_mem_cons.1 later
      refine inductionHypothesis _ ?_ start located each later
      simp only [spots, Bool.true_and, beq_self_eq_true, if_true, List.cons_append, sound_cons,
        sound_append]
      refine ⟨⟨mooc, ?_, located, testLocated, fun first last => ?_⟩, sound, testSound⟩
      · rw [Span.merge, start, Span.merge]
      · have before := next first last
        simp only [Span.Between, Span.merge, start]
        exact ⟨first.1, before, last.2.2⟩
  let test (value : Exp) := Exp.binary .eq (.name switchSubject value.span) value value.span
  have tested {value : Exp} (h : value.span.Located stop ∧ Sound d stop (value.spots false)) :
      Sound d stop ((test value).spots false) ∧ Sound d stop ((test value).spots true) := by
    simp [test, Spot.Sound, h]
  cases values with
  | nil => simpa [switchCase?, Spot.Sound] using bad
  | cons first rest =>
    obtain ⟨located, each⟩ := List.forall_mem_cons.1 each
    obtain ⟨before, -⟩ := List.pairwise_cons.1 ordered
    refine fold (rest.map test) (test first) (tested located).2 rfl located.1 ?_ ?_
    · exact List.forall_mem_map.2 fun e among => ⟨(each e among).1, (tested (each e among)).1⟩
    · exact List.forall_mem_map.2 fun e among => before e.span (List.mem_map_of_mem among)

end LuaChunk
