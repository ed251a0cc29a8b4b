import LuaChunk.Proofs.Layout.Printable
import LuaChunk.Proofs.Tree.Brackets
import LuaChunk.Proofs.Tree.Statements

/-!
# Trees that fit are trees that can be written

Whether a well-formed tree can be written is a question about its expressions, its statements and
its blocks, each taken by itself.
-/

set_option autoImplicit false

namespace LuaChunk

/-- What is asked of an expression, whatever its parts are.  Where a cap on the fields of tables is
known, nothing is asked of a table. -/
@[grind =]
def Exp.Fits (cap : Option Nat) (d : Demand) : Exp → Prop
  | .integer value _ => d.exact = true → 0 ≤ value
  | .float value _ => value.isNegative = false ∧ (d.exact = true → value.isFinite = true)
  | .name text _ => Identifier .lua text
  | .unary op operand _ => d.exact = false → op = .neg → operand.isNegative = false
  | .table keys _ _ => cap = none → keys.length ≤ d.fields
  | .function body _ => ∀ p ∈ body.params, Identifier .lua p.name
  | .call c _ => ∀ p ∈ c.method, Identifier .lua p.name
  | .bad _ => False
  | .nil _ | .bool _ _ | .vararg _ | .string _ _ | .binary _ _ _ _ | .index _ _ _ | .paren _ _ =>
    True

/-- What is asked of a declaration: names, of which none is exported and at most one is closed. -/
@[grind]
structure Declaration.Fits (d : Declaration) : Prop where
  some : d.names ≠ []
  names : ∀ p ∈ d.names, Identifier .lua p.name
  plain : .exported ∉ d.attrs
  single : d.attrs.count .close ≤ 1

/-- What is asked of a statement, whatever its parts are. -/
@[grind =]
def Stat.Fits : Stat → Prop
  | .label name _ | .goto name _ => Identifier .lua name
  | .doBlock kind _ _ => kind = .plain
  | .numericFor var _ _ _ _ _ => Identifier .lua var.name
  | .genericFor vars _ _ _ => ∀ p ∈ vars, Identifier .lua p.name
  | .assign assignment => assignment.attr = .regular
  | .declare declaration | .importNames declaration => declaration.Fits
  | .localFunction name body _ =>
    Identifier .lua name.name ∧ ∀ p ∈ body.params, Identifier .lua p.name
  | .call c _ | .importCall c _ => ∀ p ∈ c.method, Identifier .lua p.name
  | .switch subject cases _ => subject.Fits ∧ cases.branches ≠ []
  | .empty | .classDecl _ | .exportAll _ => False
  | .breakLoop _ | .whileLoop _ _ _ | .repeatLoop _ _ _ | .conditional _ => True

/-- What is asked of a block: its statements stay apart, and none leaves a loop that is not there. -/
@[grind]
structure Block.Fits (w : Site) (b : Block) : Prop where
  apart : b.stats.IsChain Stat.Apart
  breaks : ∀ span, .breakLoop span ∈ b.stats → w.InLoop

section

variable (cap : Option Nat) (d : Demand) (around : List Body)

/-- An expression is well formed, and everything in it fits. -/
@[grind]
structure Exp.Suits (e : Exp) : Prop where
  wellFormed : e.WellFormed cap
  exps : ∀ x ∈ e.exps, x.Fits cap d
  statements : ∀ s ∈ e.statements, s.Fits
  blocks : ∀ w b, (w, b) ∈ e.blocks around → b.Fits w

/-- A statement is well formed, and everything in it fits. -/
@[grind]
structure Stat.Suits (s : Stat) : Prop where
  wellFormed : s.WellFormed cap
  exps : ∀ x ∈ s.exps, x.Fits cap d
  own : s.Fits
  statements : ∀ t ∈ s.inner, t.Fits
  blocks : ∀ w b, (w, b) ∈ s.blocks around → b.Fits w
  breaks : ∀ span, s = .breakLoop span → (Site.inner around).InLoop

/-- A block is well formed, and everything in it fits. -/
@[grind]
structure Block.Suits (w : Site) (b : Block) : Prop where
  wellFormed : b.WellFormed cap
  exps : ∀ x ∈ b.exps, x.Fits cap d
  statements : ∀ s ∈ b.statements, s.Fits
  blocks : ∀ v a, (v, a) ∈ b.blocks w → a.Fits v

end

variable {cap : Option Nat} {d : Demand}

theorem Exp.Suits.own {around : List Body} {e : Exp} (h : e.Suits cap d around) : e.Fits cap d :=
  h.exps e List.mem_cons_self

theorem Exp.endsOpen_of_isPrefix {e : Exp} (h : e.isPrefix = true) : e.endsOpen = true := by
  cases e <;> first | rfl | cases h

theorem Exp.isTarget_of_fits {e : Exp} (h : e.isTarget = true) (fits : e.Fits cap d) : e.IsTarget := by
  cases e with
  | name => exact .name _ _
  | index => exact .index _ _ _
  | bad => exact fits.elim
  | _ => cases h

/-- What is written as it is has no sign. -/
theorem Exp.isNegative_of_fits {e : Exp} (exact : d.exact = true) (fits : e.Fits cap d) :
    e.isNegative = false := by
  cases e with
  | integer value => exact decide_eq_false (Int64.not_lt.2 (fits exact))
  | _ => rfl

/-! ## The keys of a table -/

theorem mem_keysStatements {keys : List (Option Exp)} {s : Stat} :
    s ∈ keysStatements keys ↔ ∃ key, some key ∈ keys ∧ s ∈ key.statements := by
  rw [keysStatements_eq, mem_keys]

theorem mem_keysBlocks {around : List Body} {keys : List (Option Exp)} {p : Site × Block} :
    p ∈ keysBlocks around keys ↔ ∃ key, some key ∈ keys ∧ p ∈ key.blocks around := by
  rw [keysBlocks_eq, mem_keys]

/-! ## Whole trees -/

attribute [local grind =] Exp.statements Call.statements Branch.statements Conditional.statements
  Declaration.statements Stat.inner expsStatements_eq keysStatements_eq statsStatements_eq
  branchesStatements_eq FunctionBody.statements_eq Block.statements_eq Assignment.statements_eq
  mem_keysExps mem_keysStatements mem_keysBlocks

theorem printable_cases (within : ∀ n, cap = some n → n ≤ d.fields) :
    TreeCases (fun e => ∀ around, e.Suits cap d around → e.Printable d around)
      (fun s => ∀ around, s.Suits cap d around → s.Printable d around)
      (fun b => ∀ w, b.Suits cap d w → b.Printable d w.around) where
  nil span _ _ := .nil span
  bool value span _ _ := .bool value span
  vararg span _ _ := .vararg span
  integer value span _ h := .integer span h.own
  float value span _ h := .float span h.own.1 h.own.2
  string text span _ _ := .string text span
  name name span _ h := .name span h.own
  unary op span e operand _ h := by
    refine .unary span (fun neg => ?_) (operand _ (by grind))
    cases exact : d.exact with
    | false => exact h.own exact neg
    | true => exact Exp.isNegative_of_fits exact (h.exps e (by simp))
  binary op span _ _ left right _ h := .binary op span
    (left _ (by grind))
    (right _ (by grind))
  table span ks vs keys values _ h := by
    refine .table span (by grind) ?_ (fun key among => keys key among _ (by grind))
      (fun value among => values value among _ (by grind))
    cases known : cap with
    | none => exact h.own known
    | some n => exact (h.wellFormed.2.1 n known).trans (within n known)
  function params isVararg isMethod owner name span _ block _ h :=
    .function isVararg isMethod owner name span h.own
      (block (.body .function _) (by grind))
  callExp method span _ _ callee args _ h := .call span (Exp.endsOpen_of_isPrefix (by grind)) h.own
    (callee _ (by grind))
    (fun arg among => args arg among _ (by grind))
  index span _ _ object key _ h := .index span (Exp.endsOpen_of_isPrefix (by grind))
    (object _ (by grind))
    (key _ (by grind))
  paren span _ inner _ h := .paren span (inner _ (by grind))
  bad _ _ h := h.own.elim
  empty _ h := h.own.elim
  breakLoop span _ h := .breakLoop span (h.breaks span rfl)
  label name span _ h := .label span h.own
  goto name span _ h := .goto span h.own
  doBlock kind span _ body _ h := by
    obtain rfl : kind = .plain := h.own
    exact .doBlock span (body (.inner _) (by grind))
  whileLoop span _ _ condition body _ h := .whileLoop span
    (condition _ (by grind))
    (body (.body .loop _) (by grind))
  repeatLoop span _ _ condition body _ h := .repeatLoop span
    (condition _ (by grind))
    (body (.body .loop _) (by grind))
  conditional span bs branches _ h := by
    refine .conditional span (by grind) ?_ ?_ <;> rintro ⟨condition, body⟩ among
    · exact (branches _ among).1 _ (by grind)
    · exact (branches _ among).2 (.inner _) (by grind)
  numericFor var span _ _ _ _ init limit step body _ h := .numericFor span h.own
    (init _ (by grind))
    (limit _ (by grind))
    (step _ (by grind))
    (body (.body .loop _) (by grind))
  genericFor vars span _ _ iterables body _ h := .genericFor span (by grind) h.own (by grind)
    (fun e among => iterables e among _ (by grind))
    (body (.body .loop _) (by grind))
  assign attr span ts vs targets values _ h := by
    obtain rfl : attr = .regular := h.own
    have fits (e : Exp) (among : e ∈ ts) : e.Fits cap d := by grind
    exact .assign span (by grind) (fun e among => Exp.isTarget_of_fits (by grind) (fits e among))
      (fun e among => targets e among _ (by grind)) (by grind)
      (fun e among => values e among _ (by grind))
  declare names attrs span vs values _ h := .declare span h.own.some (by grind) h.own.names
    h.own.plain h.own.single
    (fun e among => values e among _ (by grind))
  localFunction name params isVararg isMethod owner own span _ block _ h :=
    .localFunction span h.own.1 (.function isVararg isMethod owner own span h.own.2
      (block (.body .function _) (by grind)))
  callStat method span _ _ callee args _ h :=
    .callStat (.call span (Exp.endsOpen_of_isPrefix (by grind)) h.own
      (callee _ (by grind))
      (fun arg among => args arg among _ (by grind)))
  classDecl _ _ h := h.own.elim
  importCall method span _ _ callee args _ h :=
    .importCall (.call span (Exp.endsOpen_of_isPrefix (by grind)) h.own
      (callee _ (by grind))
      (fun arg among => args arg among _ (by grind)))
  importNames names attrs span vs values _ h :=
    .importNames (.declare span h.own.some (by grind) h.own.names h.own.plain h.own.single
      (fun e among => values e among _ (by grind)))
  exportAll _ _ h := h.own.elim
  switch names attrs place cases span vs bs values branches _ h := by
    refine .switch span (.declare place h.own.1.some (by grind) h.own.1.names h.own.1.plain
      h.own.1.single fun e among => values e among _ (by grind))
      (.conditional cases h.own.2 ?_ ?_) <;> rintro ⟨condition, body⟩ among
    · exact (branches _ among).1 _ (by grind)
    · exact (branches _ among).2 (.inner _) (by grind)
  block returns span ss stats es w h := by
    have own : Block.Fits w ⟨ss, returns, span⟩ := h.blocks w _ (by simp [Block.blocks_eq])
    refine .block span (fun s among => stats s among _ ⟨by grind, by grind, by grind, by grind,
      by grind [Block.blocks_eq], ?_⟩) own.apart ?_
    · rintro place rfl
      exact own.breaks place among
    · rintro es rfl e among
      exact es e among _ ⟨by grind, by grind, by grind, by grind [Block.blocks_eq]⟩

/-- **Trees that fit can be written.** -/
theorem Block.Suits.printable {w : Site} {b : Block} (h : b.Suits cap d w)
    (within : ∀ n, cap = some n → n ≤ d.fields) : b.Printable d w.around :=
  (printable_cases within).ofBlock b w h

/-! ## Expressions without functions -/

mutual

/-- Where there is no function there are neither statements nor blocks. -/
theorem Exp.FunctionFree.bare (around : List Body) :
    ∀ {e : Exp}, e.FunctionFree → e.statements = [] ∧ e.blocks around = []
  | .unary _ _ _, h => (Exp.functionFree_unary.1 h).bare around
  | .binary _ _ _ _, h => by
    obtain ⟨left, right⟩ := Exp.functionFree_binary.1 h
    simp [Exp.statements, Exp.blocks, left.bare around, right.bare around]
  | .table _ _ _, h => by
    obtain ⟨keys, values⟩ := Exp.functionFree_table.1 h
    simp only [Exp.statements, Exp.blocks, keysBare around keys, expsBare around values,
      List.append_nil, and_self]
  | .function _ _, h => (Exp.not_functionFree_function h).elim
  | .call ⟨_, _, _⟩ _, h => by
    obtain ⟨callee, args⟩ := Exp.functionFree_call.1 h
    simp only [Exp.statements, Exp.blocks, Call.statements, Call.blocks, callee.bare around,
      expsBare around args, List.append_nil, and_self]
  | .index _ _ _, h => by
    obtain ⟨object, key⟩ := Exp.functionFree_index.1 h
    simp [Exp.statements, Exp.blocks, object.bare around, key.bare around]
  | .paren _ _, h => (Exp.functionFree_paren.1 h).bare around
  | .nil _, _ | .bool _ _, _ | .vararg _, _ | .integer _ _, _ | .float _ _, _ | .string _ _, _
  | .name _ _, _ | .bad _, _ => ⟨rfl, rfl⟩

theorem expsBare (around : List Body) : ∀ {es : List Exp}, (∀ e ∈ es, e.FunctionFree) →
    expsStatements es = [] ∧ expsBlocks around es = []
  | [], _ => ⟨rfl, rfl⟩
  | _ :: _, h => by
    obtain ⟨first, later⟩ := List.forall_mem_cons.1 h
    simp only [expsStatements, expsBlocks, first.bare around, expsBare around later,
      List.append_nil, and_self]

theorem keysBare (around : List Body) : ∀ {keys : List (Option Exp)},
    (∀ key, some key ∈ keys → key.FunctionFree) →
      keysStatements keys = [] ∧ keysBlocks around keys = []
  | [], _ => ⟨rfl, rfl⟩
  | none :: rest, h => @keysBare around rest fun key among => h key (.tail _ among)
  | some key :: rest, h => by
    have first := h key List.mem_cons_self
    have later := @keysBare around rest fun key among => h key (.tail _ among)
    simp only [keysStatements, keysBlocks, first.bare around, later, List.append_nil, and_self]

end

/-- **Expressions that fit can be written.** -/
theorem Exp.FunctionFree.printable {e : Exp} (functions : e.FunctionFree)
    (wellFormed : e.WellFormed cap) (fits : ∀ x ∈ e.exps, x.Fits cap d)
    (within : ∀ n, cap = some n → n ≤ d.fields) (around : List Body) : e.Printable d around := by
  obtain ⟨statements, blocks⟩ := functions.bare around
  have suits : e.Suits cap d around :=
    ⟨wellFormed, fits, by simp [statements], by simp [blocks]⟩
  exact (printable_cases within).exp e around suits

end LuaChunk
