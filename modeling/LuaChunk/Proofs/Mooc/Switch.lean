import LuaChunk.Proofs.Spelling.Chunk
import LuaChunk.Proofs.Spelling.Inner
import Mathlib.Data.List.Forall2

/-!
# What a `switch` chooses

A `switch` is read as a chain of conditionals that compare a local with the values of the cases.
Whatever the comparisons give, and whatever they do besides, the chain goes on as the `switch` is
written: it asks the values of the cases from the first on, up to the first one that equals the
subject, and comes to the block of its case.
-/

set_option autoImplicit false

namespace LuaChunk

/-! ## Evaluation of chains -/

section Evaluation

variable {m : Type → Type} [Monad m]

/-- What the tests in a condition give. -/
structure Tests (m : Type → Type) where
  /-- The two sides of an `==` are equal. -/
  equal (left right : Exp) : m Bool
  /-- An expression that is neither a comparison nor a constant is true. -/
  isTrue (e : Exp) : m Bool

/-- A condition holds. The right side of an `or` is asked only if the left one does not hold. -/
def Exp.holds (tests : Tests m) : Exp → m Bool
  | .bool value _ => pure value
  | .binary .eq left right _ => tests.equal left right
  | .binary .or left right _ => do
    if ← left.holds tests then return true else right.holds tests
  | e => tests.isTrue e

/-- The block of the first branch whose condition holds. -/
def chosenBlock (tests : Tests m) : List Branch → m (Option Block)
  | [] => return none
  | branch :: rest => do
    if ← branch.condition.holds tests then return some branch.body else chosenBlock tests rest

/-- The values of a case and its block. -/
structure SwitchCase where
  values : List Exp
  body : Block

/-- The block of the first case with a value that passes, where the values are asked in turn. -/
def firstMatch (passes : Exp → m Bool) (otherwise : Option Block) :
    List SwitchCase → m (Option Block)
  | [] => return otherwise
  | case :: rest => do
    if ← case.values.anyM passes then return some case.body
    else firstMatch passes otherwise rest

/-- Where asking does nothing besides, this is the first case that some value of passes. -/
theorem firstMatch_pure [LawfulMonad m] (passes : Exp → Bool) (otherwise : Option Block)
    (cases : List SwitchCase) : firstMatch (m := m) (fun value => pure (passes value)) otherwise cases =
      pure (((cases.find? (·.values.any passes)).map (·.body)).or otherwise) := by
  induction cases with
  | nil => rfl
  | cons case rest inductionHypothesis =>
    rw [firstMatch, List.anyM_pure, pure_bind, List.find?_cons, inductionHypothesis]
    cases case.values.any passes <;> rfl

/-! ## Conditions of cases -/

/-- The parts of a condition that are joined by `or`. -/
def Exp.alternatives : Exp → List Exp
  | .binary .or left right _ => left.alternatives ++ right.alternatives
  | e => [e]

/-- The comparison of the subject of a `switch` with a value. -/
def switchTest (value : Exp) : Exp :=
  .binary .eq (.name switchSubject value.span) value value.span

/-- The subject of a `switch` equals a value. -/
def Tests.meets (tests : Tests m) (value : Exp) : m Bool :=
  tests.equal (.name switchSubject value.span) value

theorem anyM_append [LawfulMonad m] {α : Type} (p : α → m Bool) (xs ys : List α) :
    (xs ++ ys).anyM p = (do if ← xs.anyM p then return true else ys.anyM p) := by
  induction xs with
  | nil => simp [List.anyM]
  | cons x xs inductionHypothesis =>
    rw [List.cons_append, List.anyM_cons, List.anyM_cons, bind_assoc]
    refine bind_congr fun first => ?_
    cases first
    · simpa using inductionHypothesis
    · simp

/-- The alternatives are asked from the first on. -/
theorem Exp.holds_eq_anyM [LawfulMonad m] (tests : Tests m) (e : Exp) :
    e.holds tests = e.alternatives.anyM (Exp.holds tests) := by
  fun_induction Exp.alternatives e with
  | case1 left right _ leftHolds rightHolds =>
    rw [Exp.holds, anyM_append, ← leftHolds, ← rightHolds]
  | case2 e =>
    refine (bind_pure _).symm.trans (bind_congr fun answer => ?_)
    cases answer <;> rfl

theorem Exp.alternatives_foldl (tests : List Exp) (chain : Exp) :
    (tests.foldl (fun chain test => .binary .or chain test (chain.span.merge test.span))
      chain).alternatives = chain.alternatives ++ tests.flatMap alternatives := by
  induction tests generalizing chain with
  | nil => simp
  | cons test tests inductionHypothesis =>
    rw [List.foldl_cons, inductionHypothesis, alternatives, List.flatMap_cons, List.append_assoc]

/-- The condition of a case compares the subject with each of its values. -/
theorem Exp.alternatives_switchCase {values : List Exp} {condition : Exp}
    (h : condition ∈ switchCase? values) : condition.alternatives = values.map switchTest := by
  cases values with
  | nil => cases h
  | cons value values =>
    cases h
    rw [alternatives_foldl, List.flatMap_map]
    simp [switchTest, alternatives, List.map_eq_flatMap]

theorem anyM_map_switchTest (tests : Tests m) (values : List Exp) :
    (values.map switchTest).anyM (Exp.holds tests) = values.anyM tests.meets := by
  induction values with
  | nil => rfl
  | cons value values inductionHypothesis =>
    rw [List.map_cons, List.anyM_cons, List.anyM_cons, inductionHypothesis]
    rfl

/-- A branch compares the subject with the values of a case in turn, and has its block. -/
structure SwitchCase.IsTestedBy (case : SwitchCase) (branch : Branch) : Prop where
  condition : branch.condition.alternatives = case.values.map switchTest
  body : branch.body = case.body

/-- A branch is the one of a default. -/
structure Branch.IsDefault (branch : Branch) (body : Block) : Prop where
  condition : ∃ span, branch.condition = .bool true span
  same : branch.body = body

/-- Branches that test cases one by one choose as the cases do, with whatever stands behind them as
the default. -/
theorem chosenBlock_tested [LawfulMonad m] (tests : Tests m) {cases : List SwitchCase}
    {tested last : List Branch} {otherwise : Option Block}
    (each : List.Forall₂ SwitchCase.IsTestedBy cases tested)
    (behind : List.Forall₂ Branch.IsDefault last otherwise.toList) :
    chosenBlock tests (tested ++ last) = firstMatch tests.meets otherwise cases := by
  induction each with
  | nil =>
    cases otherwise with
    | none =>
      cases behind
      rfl
    | some body =>
      obtain _ | ⟨⟨⟨_, holds⟩, same⟩, ⟨⟩⟩ := behind
      simp [chosenBlock, firstMatch, holds, Exp.holds, same]
  | cons tested _ inductionHypothesis =>
    rw [List.cons_append, chosenBlock, firstMatch, inductionHypothesis, Exp.holds_eq_anyM,
      tested.condition, anyM_map_switchTest, tested.body]

end Evaluation

/-! ## Switches of a text -/

/-- What is written in a `switch`. -/
structure WrittenSwitch where
  subject : Exp
  cases : List SwitchCase
  otherwise : Option Block

section Written

variable {c : Text} {i o : Place c} {subject : Declaration} {chain : Conditional} {span : Span}

/-- The tokens from one place up to another are cases. -/
inductive SwitchCases (i : Place c) : List SwitchCase → Place c → Prop
  | none : SwitchCases i [] i
  | more {cases j t k values l body o} : SwitchCases i cases j → Takes .kwCase j t k →
      Spells k (.exps values) l → Spells l (.caseBody body) o →
      SwitchCases i (cases ++ [⟨values, body⟩]) o

/-- The tokens from one place up to another are a default, if there are any. -/
inductive SwitchDefault (i : Place c) : Option Block → Place c → Prop
  | none : SwitchDefault i none i
  | some {t j body o} : Takes .kwDefault i t j → Spells j (.caseBody body) o →
      SwitchDefault i (some body) o

/-- The `switch` is written in the text where the span is. -/
inductive WrittenSwitch.StandsIn (c : Text) (w : WrittenSwitch) (span : Span) : Prop
  | intro {i j k l m n o : Place c} {t u v : Token} : Takes .kwSwitch i t j →
      Spells j (.exp w.subject) k → Takes .lbrace k u l → SwitchCases l w.cases m →
      SwitchDefault m w.otherwise n → Takes .rbrace n v o → span = t.span.merge o.now →
      w.StandsIn c span

/-- A local is bound to the subject, and there is one branch for each case and for the default. -/
structure WrittenSwitch.IsReadAs (w : WrittenSwitch) (subject : Declaration)
    (chain : Conditional) : Prop where
  names : subject.names.map (·.name) = [switchSubject]
  attrs : subject.attrs = [.regular]
  values : subject.values = [w.subject]
  branches : ∃ tested last, chain.branches = tested ++ last ∧
    List.Forall₂ SwitchCase.IsTestedBy w.cases tested ∧
    List.Forall₂ Branch.IsDefault last w.otherwise.toList

theorem Spells.values_ne_nil {values : List Exp} (h : Spells i (.exps values) o) :
    values ≠ [] := by
  cases h with
  | one => exact List.cons_ne_nil _ _
  | more => exact List.concat_ne_nil _ _

theorem Spells.switchCases {branches : List Branch} (h : Spells i (.cases branches) o) :
    ∃ cases, SwitchCases i cases o ∧ List.Forall₂ SwitchCase.IsTestedBy cases branches := by
  generalize phrase : Phrase.cases branches = p at h
  induction h generalizing branches with
  | noCases =>
    cases phrase
    exact ⟨[], .none, .nil⟩
  | moreCases _ word values body inductionHypothesis =>
    cases phrase
    obtain ⟨cases, before, tested⟩ := inductionHypothesis rfl
    refine ⟨_, before.more word values body, List.rel_append tested (.cons ⟨?_, rfl⟩ .nil)⟩
    obtain ⟨value, values, rfl⟩ := List.exists_cons_of_ne_nil values.values_ne_nil
    exact Exp.alternatives_switchCase rfl
  | _ => cases phrase

theorem Spells.switchDefault {branches : List Branch} (h : Spells i (.defaultCase branches) o) :
    ∃ otherwise : Option Block, SwitchDefault i otherwise o ∧
      List.Forall₂ Branch.IsDefault branches otherwise.toList := by
  cases h with
  | noDefault => exact ⟨none, .none, .nil⟩
  | defaultCase word body => exact ⟨some _, .some word body, .cons ⟨⟨_, rfl⟩, rfl⟩ .nil⟩

/-- A statement that is a `switch` is written as one. -/
theorem Spells.stat_switch (h : Spells i (.stat (.switch subject chain span)) o) :
    ∃ w : WrittenSwitch, w.StandsIn c span ∧ w.IsReadAs subject chain := by
  have other {i o : Place c} (h : Spells i (.assignOrCall (.switch subject chain span)) o) :
      False := by
    cases h with
    | assignment _ rest => cases rest
  cases h with
  | simple spelled => exact (other spelled).elim
  | mooc _ spelled =>
    generalize same : Stat.switch subject chain span = s at spelled
    cases spelled with
    | switchStat word value opening branches last closing =>
      cases same
      obtain ⟨cases, written, tested⟩ := branches.switchCases
      obtain ⟨otherwise, behind, isDefault⟩ := last.switchDefault
      exact ⟨⟨_, cases, otherwise⟩, .intro word value opening written behind closing rfl,
        rfl, rfl, rfl, _, _, rfl, tested, isDefault⟩
    | classOnly spelled | localClass _ spelled | exportClass _ spelled =>
      subst same
      cases spelled
    | @exportStat _ _ _ s _ _ spelled =>
      cases s with
      | switch => exact (other (by cases same; exact spelled)).elim
      | _ => cases same
    | _ => cases same

/-- There are as many branches as cases, and one more for the default. -/
theorem WrittenSwitch.IsReadAs.length_branches {w : WrittenSwitch} (h : w.IsReadAs subject chain) :
    chain.branches.length = w.cases.length + w.otherwise.toList.length := by
  obtain ⟨tested, last, same, each, behind⟩ := h.branches
  rw [same, List.length_append, each.length_eq, behind.length_eq]

theorem WrittenSwitch.IsReadAs.chosenBlock {w : WrittenSwitch} (h : w.IsReadAs subject chain)
    {m : Type → Type} [Monad m] [LawfulMonad m] (tests : Tests m) :
    chosenBlock tests chain.branches = firstMatch tests.meets w.otherwise w.cases := by
  obtain ⟨tested, last, same, each, behind⟩ := h.branches
  rw [same, chosenBlock_tested tests each behind]

end Written

/-- The subject, the chain and the span of a `switch`. -/
def Stat.switch? : Stat → Option (Declaration × Conditional × Span)
  | .switch subject chain span => some (subject, chain, span)
  | _ => none

theorem Stat.mem_switch? {stats : List Stat} {subject : Declaration} {chain : Conditional}
    {span : Span} (h : (subject, chain, span) ∈ stats.filterMap switch?) :
    .switch subject chain span ∈ stats := by
  obtain ⟨s, among, found⟩ := List.mem_filterMap.1 h
  cases s with
  | switch => cases found; exact among
  | _ => cases found

namespace Session

variable {source : List UInt8} {name : String} {settings : Settings}

/-- **What a `switch` chooses.**  Wherever a `switch` stands in the tree of a source that is analysed
without diagnostics, its subject is bound to one local, and its chain has one branch for each case
that is written, which compares this local with each value in turn, and one for the default.  The
chain is evaluated as the `switch` is written, whatever the comparisons give and do; where they do
nothing besides, it comes to the block of the first case with a value that equals the subject, and
else to the default. -/
theorem analyze_switch (clean : (start source name settings).analyze.1.errors = []) :
    ∃ c : Text, c.settings = settings ∧ tokenize source settings.dialect = .ok c.tokens ∧
      ∀ subject chain span,
        .switch subject chain span ∈ (start source name settings).analyze.1.block.statements →
        ∃ w : WrittenSwitch, w.StandsIn c span ∧ w.IsReadAs subject chain ∧
          chain.branches.length = w.cases.length + w.otherwise.toList.length ∧
          (∀ (m : Type → Type) [Monad m] [LawfulMonad m] (tests : Tests m),
            chosenBlock tests chain.branches = firstMatch tests.meets w.otherwise w.cases) ∧
          ∀ tests : Tests Id, chosenBlock tests chain.branches = pure
            (((w.cases.find? (·.values.any tests.meets)).map (·.body)).or w.otherwise) := by
  obtain ⟨c, settings, tokens, o, -, spelled⟩ := analyze_spells clean
  refine ⟨c, settings, tokens, fun subject chain span among => ?_⟩
  rcases spelled.statsSpelled _ among with ⟨_, _, ⟨⟩⟩ | ⟨_, _, spelled⟩
  obtain ⟨w, stands, read⟩ := spelled.stat_switch
  refine ⟨w, stands, read, read.length_branches, fun m _ _ tests => read.chosenBlock tests,
    fun tests => ?_⟩
  rw [read.chosenBlock]
  exact firstMatch_pure tests.meets w.otherwise w.cases

/-- Two values of one case, one of another, and a default -/
theorem analyze_switch_default :
    let source := "switch x \x7b case 1, 2: a() case 3: b() default: c() \x7d".toUTF8.toList
    let stats := (start source "" { dialect := .mooc }).analyze.1.block.statements
    ∃ c : Text, tokenize source .mooc = .ok c.tokens ∧ ∃ subject chain span,
      .switch subject chain span ∈ stats ∧
      chain.branches.map (·.condition.alternatives.length) = [2, 1, 1] ∧
      ∃ w : WrittenSwitch, w.StandsIn c span ∧ w.IsReadAs subject chain ∧
        ∀ tests : Tests Id, chosenBlock tests chain.branches = pure
          (((w.cases.find? (·.values.any tests.meets)).map (·.body)).or w.otherwise) := by
  intro source stats
  have read : (stats.filterMap Stat.switch?).map
      (fun (_, chain, _) => chain.branches.map (·.condition.alternatives.length)) = [[2, 1, 1]] := by
    decide +kernel
  obtain ⟨⟨subject, chain, span⟩, among, lengths⟩ :=
    List.mem_map.1 (read ▸ List.mem_singleton_self _)
  have among := Stat.mem_switch? among
  obtain ⟨c, -, tokens, switches⟩ :=
    @analyze_switch source "" { dialect := .mooc } (by decide +kernel)
  obtain ⟨w, stands, isRead, -, -, chooses⟩ := switches subject chain span among
  exact ⟨c, tokens, subject, chain, span, among, lengths, w, stands, isRead, chooses⟩

end Session

end LuaChunk
