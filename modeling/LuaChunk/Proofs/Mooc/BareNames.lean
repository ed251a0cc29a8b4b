import LuaChunk.Proofs.Spelling.Chunk
import LuaChunk.Proofs.Spelling.Inner

/-!
# Bare lists of names

In Mooc a list of targets without a value declares the plain names in it.  Targets that are no plain
names are left out of the declaration, so that it may hold no name at all; all other declarations of a
tree have names.
-/

set_option autoImplicit false

namespace LuaChunk

/-! ## Declarations of plain names -/

/-- A plain name, as one that may be declared. -/
def Exp.param? : Exp → Option Param
  | .name text span => some ⟨text, span⟩
  | _ => none

namespace Parser

variable {targets : List Exp} {span : Span}

theorem names_implicitLocals (targets : List Exp) (span : Span) :
    (implicitLocals targets span).names = targets.filterMap Exp.param? := by
  unfold implicitLocals
  refine congrArg (List.filterMap · targets) (funext fun e => ?_)
  cases e <;> rfl

theorem attrs_implicitLocals (targets : List Exp) (span : Span) :
    (implicitLocals targets span).attrs =
      List.replicate (implicitLocals targets span).names.length .exported :=
  List.map_const' ..

/-- There are as many names as targets only if all targets are plain names. -/
theorem length_names_implicitLocals_iff :
    (implicitLocals targets span).names.length = targets.length ↔
      ∀ e ∈ targets, (Exp.param? e).isSome = true := by
  rw [names_implicitLocals, List.filterMap_length_eq_length]

/-- There are no names only if no target is a plain name. -/
theorem names_implicitLocals_eq_nil_iff :
    (implicitLocals targets span).names = [] ↔ ∀ e ∈ targets, Exp.param? e = none := by
  rw [names_implicitLocals, List.filterMap_eq_nil_iff]

end Parser

/-- The declarations that a statement makes itself. -/
def Stat.declarations : Stat → List Declaration
  | .declare d | .importNames d => [d]
  | .switch subject _ _ => [subject]
  | .classDecl d => d.vars
  | _ => []

/-! ## Statements that begin with an operand -/

section Statements

variable {c : Text} {i o : Place c} {s : Stat} {d : Declaration}

/-- Targets with commas between them. -/
inductive TargetList (i : Place c) : List Exp → Place c → Prop
  | intro {first j ts o} : Spells i (.prefixExp first) j → first.IsTarget →
      Spells j (.targets ts) o → TargetList i (first :: ts) o

/-- What a statement is that begins with an operand. -/
inductive OperandStat (i : Place c) : Stat → Place c → Prop
  | call {call span o} : Spells i (.prefixExp (.call call span)) o →
      OperandStat i (.call call (i.head.span.merge o.now)) o
  | assigned {targets j t k vs o} : TargetList i targets j → Takes .assign j t k →
      Spells k (.exps vs) o →
      OperandStat i (.assign ⟨targets, vs, .regular, i.head.span.merge o.now⟩) o
  | compound {target j op t k u l v o} : TargetList i [target] j →
      BinaryOp.ofCompound? t.kind = some op → Takes t.kind j t k → Takes .assign k u l →
      Spells l (.exp v) o →
      OperandStat i (.assign (.compound op target v (i.head.span.merge o.now))) o
  | bare {targets o} : TargetList i targets o →
      OperandStat i (.declare (Parser.implicitLocals targets (i.head.span.merge o.now))) o

theorem Spells.operandStat (h : Spells i (.assignOrCall s) o) : OperandStat i s o := by
  cases h with
  | callStat spelled => exact .call spelled
  | assignment first rest =>
    cases rest with
    | compound target op sign assign value =>
      exact .compound ⟨first, target, .noTargets⟩ op sign assign value
    | plain target others assign values => exact .assigned ⟨first, target, others⟩ assign values
    | bare _ target others => exact .bare ⟨first, target, others⟩

/-- What is declared is what the targets say: their plain names in order, exported and without
values. -/
structure Declaration.Exports (d : Declaration) (targets : List Exp) : Prop where
  some : targets ≠ []
  names : d.names = targets.filterMap Exp.param?
  attrs : d.attrs = List.replicate d.names.length .exported
  values : d.values = []
  /-- There is a name for each target only if all targets are plain names. -/
  all : d.names.length = targets.length ↔ ∀ e ∈ targets, (Exp.param? e).isSome = true
  /-- There are no names only if no target is a plain name. -/
  none : d.names = [] ↔ ∀ e ∈ targets, Exp.param? e = none

/-- The declaration is the one of a list of targets that stands in the text without a value. -/
inductive Declaration.Bare (c : Text) (d : Declaration) (targets : List Exp) : Prop
  | intro {i o : Place c} : TargetList i targets o →
      d = Parser.implicitLocals targets (i.head.span.merge o.now) → d.Bare c targets

theorem Declaration.Bare.exports {targets : List Exp} (h : d.Bare c targets) : d.Exports targets := by
  obtain ⟨⟨-, -, -⟩, rfl⟩ := h
  exact ⟨List.cons_ne_nil _ _, Parser.names_implicitLocals _ _, Parser.attrs_implicitLocals _ _, rfl,
    Parser.length_names_implicitLocals_iff, Parser.names_implicitLocals_eq_nil_iff⟩

/-- The names of a declaration stand behind `local`. -/
inductive Declaration.Local (c : Text) (d : Declaration) : Prop
  | intro {i j k : Place c} {t : Token} : Takes .kwLocal i t j →
      Spells j (.attrNames d.names d.attrs) k → d.Local c

theorem Spells.attrNames_ne_nil {ns : List Param} {as : List Attribute}
    (h : Spells i (.attrNames ns as) o) : ns ≠ [] := by
  cases h with
  | oneAttrName => exact List.cons_ne_nil _ _
  | moreAttrNames => exact List.concat_ne_nil _ _

theorem OperandStat.bare_of_declare (h : OperandStat i (.declare d) o) :
    ∃ targets, d.Bare c targets := by
  cases h with
  | bare targets => exact ⟨_, targets, rfl⟩

/-- A statement that declares names is one with `local` or a bare list. -/
theorem Spells.declare_cases (h : Spells i (.stat (.declare d)) o) :
    d.Local c ∨ ∃ targets, d.Bare c targets := by
  cases h with
  | localDecl word names _ => exact .inl ⟨word, names⟩
  | simple spelled => exact .inr spelled.operandStat.bare_of_declare
  | mooc _ spelled =>
    generalize same : Stat.declare d = s at spelled
    cases spelled with
    | classOnly spelled | localClass _ spelled | exportClass _ spelled =>
      subst same
      cases spelled
    | @exportStat _ _ _ s _ _ spelled =>
      cases s with
      | declare =>
        cases same
        exact .inr spelled.operandStat.bare_of_declare
      | _ => cases same
    | _ => cases same

/-- The locals of a class have names. -/
theorem Spells.names_classVars_ne_nil {start : Span} {isExported : Bool}
    (h : Spells i (.classStat start isExported s) o) : ∀ d ∈ s.declarations, d.names ≠ [] := by
  cases h with
  | classStat => simp [Stat.declarations, Parser.classLocal]

theorem OperandStat.declarations_cases (h : OperandStat i s o) (membership : d ∈ s.declarations) :
    ∃ targets, d.Bare c targets := by
  cases h with
  | bare targets =>
    obtain rfl := List.mem_singleton.1 membership
    exact ⟨_, targets, rfl⟩
  | _ => cases membership

@[simp]
theorem Parser.declarations_exported (s : Stat) : (exported s).declarations = s.declarations := by
  cases s <;> rfl

/-- Whatever a statement declares has names, or is a bare list. -/
theorem Spells.declarations_cases (h : Spells i (.stat s) o) (membership : d ∈ s.declarations) :
    d.names ≠ [] ∨ ∃ targets, d.Bare c targets := by
  cases h with
  | localDecl _ names _ =>
    obtain rfl := List.mem_singleton.1 membership
    exact .inl names.attrNames_ne_nil
  | simple spelled => exact .inr (spelled.operandStat.declarations_cases membership)
  | mooc _ spelled =>
    cases spelled with
    | switchStat =>
      obtain rfl := List.mem_singleton.1 membership
      exact .inl (List.cons_ne_nil _ _)
    | classOnly spelled | localClass _ spelled | exportClass _ spelled =>
      exact .inl (spelled.names_classVars_ne_nil d membership)
    | exportStat _ spelled =>
      rw [Parser.declarations_exported] at membership
      exact .inr (spelled.operandStat.declarations_cases membership)
    | importWhole _ names | importKeys _ names =>
      obtain rfl := List.mem_singleton.1 membership
      exact .inl names.attrNames_ne_nil
    | _ => cases membership
  | _ => cases membership

/-! ## Statements that begin with a keyword -/

theorem Spells.kind_functionStat {start : Span} {attr : Attribute} {isStatic : Bool} {a : Assignment}
    (h : Spells i (.functionStat start attr isStatic a) o) :
    i.head.kind = .kwStatic ∨ i.head.kind = c.dialect.functionWord := by
  cases h with
  | functionStat static word =>
    unfold TakesIf at static
    split at static
    · obtain ⟨t, static⟩ := static
      exact .inl static.kind_eq
    · exact .inr (static ▸ word.kind_eq)

theorem Spells.kind_classStat {start : Span} {isExported : Bool}
    (h : Spells i (.classStat start isExported s) o) :
    i.head.kind = .kwClass ∨ i.head.kind = .kwStruct ∨ i.head.kind = .kwExtension := by
  cases h with
  | classStat kind word =>
    rw [word.kind_eq]
    exact kind

/-- Other statements begin with a keyword or a sign of their own. -/
theorem Spells.operandStat_of_begins (h : Spells i (.stat s) o)
    (begins : i.head.kind = .identifier ∨ i.head.kind = .lparen) : OperandStat i s o := by
  have keyword {kind : TokenKind} {t : Token} {j : Place c} (word : Takes kind i t j)
      (other : kind ≠ .identifier ∧ kind ≠ .lparen) : False := by
    rcases begins with begins | begins
    · exact other.1 (word.kind_eq.symm.trans begins)
    · exact other.2 (word.kind_eq.symm.trans begins)
  cases h with
  | simple spelled => exact spelled.operandStat
  | semi word | breakStat word | label word | goto word | doStat word | whileStat word
  | repeatStat word | ifStat word | numericFor word | genericFor word | localFunction word
  | localDecl word => exact (keyword word (by decide)).elim
  | functionAssign spelled =>
    have other (d : Dialect) : d.functionWord ≠ .identifier ∧ d.functionWord ≠ .lparen := by
      cases d <;> decide
    rcases spelled.kind_functionStat with kind | kind
    · simp [kind] at begins
    · rw [kind] at begins
      exact (begins.elim (other _).1 (other _).2).elim
  | mooc _ spelled =>
    cases spelled with
    | classOnly spelled =>
      rcases spelled.kind_classStat with kind | kind | kind <;> simp [kind] at begins
    | continueStat _ word | deferStat word | guardStat word | switchStat word | localClass word
    | exportClass word | exportAll word | exportFunction word | exportStat word | importCall word
    | importWhole word | importKeys word => exact (keyword word (by decide)).elim

end Statements

/-! ## Declarations of a chunk -/

def Stat.declare? : Stat → Option Declaration
  | .declare d => some d
  | _ => none

theorem Stat.mem_declare? {stats : List Stat} {d : Declaration}
    (h : d ∈ stats.filterMap declare?) : .declare d ∈ stats := by
  obtain ⟨s, among, found⟩ := List.mem_filterMap.1 h
  cases s with
  | declare => cases found; exact among
  | _ => cases found

namespace Session

variable {source : List UInt8} {name : String} {settings : Settings}

/-- **Bare lists of names.**  In a source that is analysed without diagnostics a statement that begins
with an operand is a call, an assignment, or a list of targets without a value, wherever it stands in
the tree. Such a list declares those of its targets that are plain names, in order and exported, so
that it has a name for each target only if all of them are plain names, and no name at all if none
is. Other statements that declare names are written with `local`, and no other declaration of the
tree is without names. -/
theorem analyze_bare_list (clean : (start source name settings).analyze.1.errors = []) :
    ∃ c : Text, c.settings = settings ∧ tokenize source settings.dialect = .ok c.tokens ∧
      ∀ s ∈ (start source name settings).analyze.1.block.statements,
        ((∃ depth span, s = .label (continueLabel depth) span) ∨
          ∃ i o : Place c, Spells i (.stat s) o ∧
            (i.head.kind = .identifier ∨ i.head.kind = .lparen → OperandStat i s o)) ∧
        (∀ d, s = .declare d →
          d.Local c ∨ ∃ targets, d.Bare c targets ∧ d.Exports targets) ∧
        ∀ d ∈ s.declarations,
          d.names ≠ [] ∨ ∃ targets, d.Bare c targets ∧ d.Exports targets := by
  obtain ⟨c, settings, tokens, o, -, spelled⟩ := analyze_spells clean
  refine ⟨c, settings, tokens, fun s among => ?_⟩
  rcases spelled.statsSpelled _ among with ⟨depth, span, rfl⟩ | ⟨i, o, spelled⟩
  · exact ⟨.inl ⟨depth, span, rfl⟩, nofun, nofun⟩
  · refine ⟨.inr ⟨i, o, spelled, spelled.operandStat_of_begins⟩, ?_, fun d membership => ?_⟩
    · rintro d rfl
      exact spelled.declare_cases.imp_right fun ⟨targets, bare⟩ => ⟨targets, bare, bare.exports⟩
    · exact (spelled.declarations_cases membership).imp_right
        fun ⟨targets, bare⟩ => ⟨targets, bare, bare.exports⟩

/-- Two plain names -/
theorem analyze_bare_list_names :
    let source := "a, b".toUTF8.toList
    let stats := (start source "" { dialect := .mooc }).analyze.1.block.statements
    ∃ c : Text, tokenize source .mooc = .ok c.tokens ∧ ∃ d, .declare d ∈ stats ∧
      d.names.map (·.name) = ["a", "b"] ∧
      (d.Local c ∨ ∃ targets, d.Bare c targets ∧ d.Exports targets) := by
  intro source stats
  have read : (stats.filterMap Stat.declare?).map (·.names.map (·.name)) = [["a", "b"]] := by
    decide +kernel
  obtain ⟨d, among, names⟩ := List.mem_map.1 (read ▸ List.mem_singleton_self _)
  have among := Stat.mem_declare? among
  obtain ⟨c, -, tokens, each⟩ :=
    @analyze_bare_list source "" { dialect := .mooc } (by decide +kernel)
  exact ⟨c, tokens, d, among, names, (each _ among).2.1 d rfl⟩

/-- A single target that is no plain name: a declaration without names, and no complaint -/
theorem analyze_bare_list_field :
    let analysis := (start "a.b".toUTF8.toList "" { dialect := .mooc }).analyze.1
    analysis.errors = [] ∧ ∃ d, .declare d ∈ analysis.block.statements ∧ d.names = [] := by
  intro analysis
  have read : (analysis.block.statements.filterMap Stat.declare?).map (·.names) = [[]] := by
    decide +kernel
  obtain ⟨d, among, none⟩ := List.mem_map.1 (read ▸ List.mem_singleton_self _)
  exact ⟨by decide +kernel, d, Stat.mem_declare? among, none⟩

end Session

end LuaChunk
