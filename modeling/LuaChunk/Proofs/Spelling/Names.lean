import LuaChunk.Proofs.Lexer.Identifiers
import LuaChunk.Proofs.Number.Sign
import LuaChunk.Proofs.Spelling.Loops
import LuaChunk.Proofs.Tree.Expressions

/-!
# Names of spelled trees

In a tree that tokens spell, the names are names and the numbers have no sign.  Mooc reserves all
words that Lua does, so its names are also names of Lua.
-/

set_option autoImplicit false

namespace LuaChunk

variable {c : Text} {i j k o : Place c}

/-- A name of Mooc is one of Lua. -/
theorem Identifier.lua {d : Dialect} {text : String} (h : Identifier d text) :
    Identifier .lua text := by
  refine ⟨h.first, h.all, ?_⟩
  have free := h.free
  unfold Dialect.keyword? at *
  rw [List.find?_eq_none] at *
  cases d with
  | lua => exact free
  | mooc => exact fun kind among => free kind (List.mem_append_left _ among)

/-! ## Names that no token spells -/

theorem Identifier.self : Identifier .lua "self" :=
  ⟨⟨'s', by decide, by decide⟩, by rw [← List.all_eq_true]; rfl, by decide⟩

theorem Identifier.require : Identifier .lua "require" :=
  ⟨⟨'r', by decide, by decide⟩, by rw [← List.all_eq_true]; rfl, by decide⟩

theorem Identifier.switchSubject : Identifier .lua LuaChunk.switchSubject :=
  ⟨⟨'_', by decide, by decide⟩, by rw [← List.all_eq_true]; rfl, by decide⟩

/-! ## Expressions -/

/-- What an expression holds itself can be written in Lua. -/
def Exp.Legible : Exp → Prop
  | .name text _ => Identifier .lua text
  | .float value _ => value.isNegative = false
  | .function body _ => ∀ p ∈ body.params, Identifier .lua p.name
  | .call c _ => ∀ p ∈ c.method, Identifier .lua p.name
  | .bad _ => False
  | .nil _ | .bool _ _ | .vararg _ | .integer _ _ | .string _ _ | .unary _ _ _ | .binary _ _ _ _
  | .table _ _ _ | .index _ _ _ | .paren _ _ => True

section Legible

variable {span : Span}

@[simp]
theorem Exp.legible_name {text : String} : (name text span).Legible ↔ Identifier .lua text :=
  Iff.rfl

@[simp]
theorem Exp.legible_float {value : Binary64} :
    (float value span).Legible ↔ value.isNegative = false :=
  Iff.rfl

@[simp]
theorem Exp.legible_function {body : FunctionBody} :
    (function body span).Legible ↔ ∀ p ∈ body.params, Identifier .lua p.name :=
  Iff.rfl

@[simp]
theorem Exp.legible_call {c : Call} :
    (call c span).Legible ↔ ∀ p ∈ c.method, Identifier .lua p.name :=
  Iff.rfl

/-- What holds no name and no number of its own. -/
@[simp]
theorem Exp.legible_nil : (nil span).Legible := trivial

@[simp]
theorem Exp.legible_bool {value : Bool} : (bool value span).Legible := trivial

@[simp]
theorem Exp.legible_vararg : (vararg span).Legible := trivial

@[simp]
theorem Exp.legible_integer {value : Int64} : (integer value span).Legible := trivial

@[simp]
theorem Exp.legible_string {text : String} : (string text span).Legible := trivial

@[simp]
theorem Exp.legible_unary {op : UnaryOp} {operand : Exp} : (unary op operand span).Legible :=
  trivial

@[simp]
theorem Exp.legible_binary {op : BinaryOp} {left right : Exp} :
    (binary op left right span).Legible :=
  trivial

@[simp]
theorem Exp.legible_table {keys : List (Option Exp)} {values : List Exp} :
    (table keys values span).Legible :=
  trivial

@[simp]
theorem Exp.legible_index {object key : Exp} : (index object key span).Legible := trivial

@[simp]
theorem Exp.legible_paren {inner : Exp} : (paren inner span).Legible := trivial

end Legible

theorem forall_flatMap {α β : Type} {p : β → Prop} {f : α → List β} {xs : List α} :
    (xs.flatMap f).Forall p ↔ ∀ x ∈ xs, (f x).Forall p := by
  simp only [List.forall_iff_forall_mem, List.mem_flatMap]
  grind

/-- What holds of all that the fields of a table hold, holds where fields are left out. -/
theorem Parser.forall_capped {α β : Type} {p : β → Prop} {f : α → List β} {xs : List α}
    {cap : Option Nat} (h : (xs.flatMap f).Forall p) :
    ((capped cap xs).flatMap f).Forall p :=
  forall_flatMap.2 fun x among => forall_flatMap.1 h x (mem_of_mem_capped among)

/-- The expressions inside a phrase.  An assignment has its first target before it. -/
def Phrase.expressions : Phrase → List Exp
  | .exp e | .prefixExp e | .table e | .step e | .parent e => e.exps
  | .exps es | .args es | .initializer es | .targets es => expsExps es
  | .field f => keysExps [f.1] ++ f.2.exps
  | .openFields fs | .fields fs => keysExps (fs.map (·.1)) ++ expsExps (fs.map (·.2))
  | .names _ | .params _ _ | .attr _ | .attrNames _ _ => []
  | .functionBody _ body => body.exps
  | .assignRest _ _ s | .assignOrCall s | .stat s | .moocStat s | .classStat _ _ s => s.exps
  | .loopBody b | .block b | .caseBody b => b.exps
  | .branch b => b.exps
  | .branches bs | .otherwise bs | .cases bs | .defaultCase bs => branchesExps bs
  | .dottedName f | .functionName _ f => f.target.exps
  | .functionStat _ _ _ a => a.exps
  | .stats ss => statsExps ss
  | .returns rs => expsExps (rs.getD [])
  | .members _ ms => assignmentsExps ms

/-- What is said of the names in a phrase that tokens spell. -/
def Phrase.Legible : Phrase → Prop
  | .names ns | .params ns _ | .attrNames ns _ => ∀ p ∈ ns, Identifier .lua p.name
  | .functionBody _ body =>
    (∀ p ∈ body.params, Identifier .lua p.name) ∧ body.exps.Forall Exp.Legible
  | .exps es => es ≠ [] ∧ (expsExps es).Forall Exp.Legible
  | .assignRest _ first s => first.exps.Forall Exp.Legible → s.exps.Forall Exp.Legible
  | .members owner ms => Identifier .lua owner → (assignmentsExps ms).Forall Exp.Legible
  | p => p.expressions.Forall Exp.Legible

theorem Exp.legible_switchCase {values : List Exp} (some : values ≠ []) (span : Span)
    (h : (expsExps values).Forall Exp.Legible) :
    ((switchCase? values).getD (.bad span)).exps.Forall Exp.Legible := by
  have fold (tests : List Exp) (first : Exp) (own : first.exps.Forall Exp.Legible)
      (each : (expsExps tests).Forall Exp.Legible) :
      (tests.foldl (fun chain test =>
        .binary .or chain test (chain.span.merge test.span)) first).exps.Forall Exp.Legible := by
    induction tests generalizing first with
    | nil => exact own
    | cons test rest inductionHypothesis =>
      exact inductionHypothesis _ (by simp_all) (by simp_all)
  cases values with
  | nil => exact absurd rfl some
  | cons first rest =>
    rw [switchCase?, List.map_cons]
    refine fold _ _ ?_ ?_
    · simp_all [Identifier.switchSubject]
    · simp_all [Identifier.switchSubject, forall_flatMap]

/-! ## Imports -/

/-- A table that values are taken from has a name. -/
def ImportSource.Legible : ImportSource → Prop
  | .library _ => True
  | .table name => Identifier .lua name

theorem ImportSource.legible_member {source : ImportSource} (h : source.Legible) (key : String)
    (span : Span) : (source.member key span).exps.Forall Exp.Legible := by
  cases source with
  | library name => simp [member, Call.require, Identifier.require]
  | table name => simpa [member] using (show Identifier .lua name from h)

theorem Parser.legible_importWhole {source : ImportSource} (h : source.Legible)
    (word token : Token) : (importWhole source word token).exps.Forall Exp.Legible := by
  cases source with
  | library name => simp [importWhole, Call.require, Identifier.require]
  | table name => simpa [importWhole] using (show Identifier .lua name from h)

theorem KeyList.legible {source : ImportSource} (h : source.Legible) {names : List Param}
    {values : List Exp} {isFirst : Bool} (keys : KeyList source names i values isFirst o) :
    (expsExps values).Forall Exp.Legible := by
  have member (key : String) (span : Span) := ImportSource.legible_member h key span
  induction keys with
  | start => simp
  | key _ _ _ inductionHypothesis => simp_all [-Exp.exps]
  | @none _ isFirst _ _ _ _ _ inductionHypothesis =>
    cases isFirst <;> simp_all [-Exp.exps, forall_flatMap]

theorem Keys.legible {source : ImportSource} (h : source.Legible) {names : List Param}
    {values : List Exp} (keys : Keys source names i values o) :
    (expsExps values).Forall Exp.Legible := by
  have member (key : String) (span : Span) := ImportSource.legible_member h key span
  cases keys with
  | key list _ =>
    have list := list.legible h
    simp_all [-Exp.exps]
  | @none _ isFirst _ list =>
    have list := list.legible h
    cases isFirst <;> simp_all [-Exp.exps, forall_flatMap]

/-! ## Phrases -/

attribute [local simp] Phrase.Legible Phrase.expressions

/-- Where names are read, what they say is said in names of Lua. -/
theorem Spells.legible (own : ∀ name, c.Names name → Identifier .lua name) {p : Phrase}
    (h : Spells i p o) : p.Legible := by
  have named {i o : Place c} {t : Token} (h : Takes .identifier i t o) : Identifier .lua t.text :=
    own _ h.names
  have taken {i o : Place c} {t : Token} {source : ImportSource} (h : Takes t.kind i t o)
      (same : ImportSource.OfToken t source) : source.Legible := by
    cases same with
    | library _ => trivial
    | table kind => exact named (by rwa [kind] at h)
  induction h with
  | float _ read => simpa using Numeral.unsigned_read read
  | name t | oneName t | firstName t | parent _ t => simpa using named t
  | method _ _ n | shorthand _ _ n =>
    have name := named n
    simp_all
  | moreNames _ _ n | moreAttrNames _ _ n =>
    have name := named n
    simp_all [or_imp]
  | oneAttrName n =>
    have name := named n
    simp_all
  | table _ _ _ fs =>
    simp only [Phrase.Legible, Phrase.expressions, expsExps_eq, keysExps_eq, List.forall_append,
      List.forall_cons, Exp.exps, Exp.inside] at fs ⊢
    exact ⟨Exp.legible_table, Parser.forall_capped fs.1, Parser.forall_capped fs.2⟩
  | compound => simp_all [Assignment.compound]
  | bare => simp [Parser.implicitLocals]
  | dottedName | methodName => simp_all [Parser.FunctionName.member, Exp.field]
  | memberName _ _ owner => simp_all [Exp.field]
  | @functionStat _ _ _ _ _ _ _ f =>
    cases method : f.isMethod <;> simp_all [Parser.FunctionName.named, Identifier.self]
  | @moreStats _ _ _ s => cases s <;> simp_all [Stat.isEmpty]
  | guardStat => simp_all [Exp.negate]
  | moreCases _ _ _ _ bs vs b =>
    have condition span := Exp.legible_switchCase vs.1 span vs.2
    simp_all
  | fieldMember _ t _ => simp_all [Exp.field]
  | classStat _ _ n =>
    have name := named n
    simp_all [Parser.classLocal]
  | @exportStat _ _ _ s => cases s <;> simp_all [Parser.exported]
  | importCall => simp [Call.require, Identifier.require]
  | importWhole _ _ _ word source =>
    simpa using Parser.legible_importWhole (taken word source) _ _
  | importKeys _ _ _ word source _ keys => simpa using keys.legible (taken word source)
  | _ => simp_all

/-! ## Labels that no source holds -/

/-- The label of a `continue` is a name in its form, though no source need hold it. -/
theorem Identifier.continueLabel (depth : Nat) : Identifier .lua (continueLabel depth) := by
  have text : (LuaChunk.continueLabel depth).toList =
      "__continue".toList ++ Nat.toDigits 10 depth := by
    rw [LuaChunk.continueLabel, String.toList_append, Numeral.toList_toString_nat]
  have first : (LuaChunk.continueLabel depth).toList.head? = some '_' := by
    rw [text]
    rfl
  refine ⟨⟨'_', first, by decide⟩, fun c among => ?_, ?_⟩
  · rw [text, List.mem_append] at among
    rcases among with word | number
    · have all : "__continue".toList.all isNameChar = true := rfl
      exact List.all_eq_true.1 all c word
    · have digit := (Lexeme.ofChar_of_isDigit (Numeral.digits_toDigits depth c number)).2
      simp [isNameChar, Byte.isNamePart, digit]
  · cases found : Dialect.lua.keyword? (LuaChunk.continueLabel depth) with
    | none => rfl
    | some kind =>
      obtain ⟨among, spelled⟩ := Dialect.mem_keywords_of_keyword? found
      have all : ∀ kind ∈ Dialect.lua.keywords, kind.spelling.toList.head? ≠ some '_' := by
        decide +kernel
      exact absurd (spelled ▸ first) (all kind among)

/-! ## Statements -/

/-- Names are declared, of which one at most is closed, and in Lua all have attributes of Lua. -/
structure Declaration.Legible (d : Dialect) (declaration : Declaration) : Prop where
  names : ∀ p ∈ declaration.names, Identifier .lua p.name
  single : declaration.attrs.count .close ≤ 1
  plain : d = .lua → declaration.names ≠ [] ∧ .exported ∉ declaration.attrs

/-- What a statement holds itself can be written in Lua if the dialect is Lua; its names can be in
either dialect. -/
def Stat.Legible (d : Dialect) : Stat → Prop
  | .label name _ | .goto name _ => Identifier .lua name
  | .doBlock kind _ _ => d = .lua → kind = .plain
  | .numericFor var _ _ _ _ _ => Identifier .lua var.name
  | .genericFor vars _ _ _ => ∀ p ∈ vars, Identifier .lua p.name
  | .assign a => a.attr = .regular ∨ d = .mooc ∧ a.attr = .exported
  | .declare declaration => declaration.Legible d
  | .importNames declaration => d = .mooc ∧ declaration.Legible .lua
  | .localFunction name body _ =>
    Identifier .lua name.name ∧ ∀ p ∈ body.params, Identifier .lua p.name
  | .call c _ => ∀ p ∈ c.method, Identifier .lua p.name
  | .importCall c _ => d = .mooc ∧ ∀ p ∈ c.method, Identifier .lua p.name
  | .switch subject _ _ => d = .mooc ∧ subject.Legible .lua
  | .classDecl _ | .exportAll _ => d = .mooc
  | .empty => False
  | .breakLoop _ | .whileLoop _ _ _ | .repeatLoop _ _ _ | .conditional _ => True

/-- What is said of the statements in a phrase that tokens spell. -/
def Phrase.StatsLegible (d : Dialect) : Phrase → Prop
  | .attr a => a ≠ .exported
  | .attrNames ns as => ns ≠ [] ∧ .exported ∉ as ∧ as.count .close ≤ 1
  | .functionStat _ mark _ a => a.attr = mark ∧ a.statements.Forall (Stat.Legible d)
  | .assignRest _ first s => first.exps.Forall Exp.Legible →
      first.statements.Forall (Stat.Legible d) → s.Legible d ∧ s.inner.Forall (Stat.Legible d)
  | .members owner ms =>
    Identifier .lua owner → (assignmentsStatements ms).Forall (Stat.Legible d)
  | .stat s => s.isEmpty = false → s.Legible d ∧ s.inner.Forall (Stat.Legible d)
  | .moocStat s | .classStat _ _ s => d = .mooc → s.Legible d ∧ s.inner.Forall (Stat.Legible d)
  | p => p.statements.Forall (Stat.Legible d)

attribute [local simp] Phrase.StatsLegible Phrase.statements Stat.Legible

theorem Parser.legible_implicitLocals {targets : List Exp} {d : Dialect}
    (h : (expsExps targets).Forall Exp.Legible) (mooc : d = .mooc) (span : Span) :
    (implicitLocals targets span).Legible d where
  names p among := by
    rw [expsExps_eq, forall_flatMap] at h
    obtain ⟨e, inside, same⟩ := List.mem_filterMap.1 among
    cases e with
    | name text place =>
      obtain rfl : ⟨text, place⟩ = p := Option.some.inj same
      exact (List.forall_iff_forall_mem.1 (h _ inside) _ List.mem_cons_self :)
    | _ => cases same
  single := by simp [implicitLocals, List.count_replicate]
  plain lua := absurd (mooc.symm.trans lua) (by decide)

theorem Spells.statsLegible (own : ∀ name, c.Names name → Identifier .lua name) {p : Phrase}
    (h : Spells i p o) : p.StatsLegible c.dialect := by
  have named {i o : Place c} {t : Token} (h : Takes .identifier i t o) : Identifier .lua t.text :=
    own _ h.names
  induction h with
  | table _ _ _ fs =>
    simp only [Phrase.StatsLegible, Phrase.statements, expsStatements_eq, keysStatements_eq,
      List.forall_append, Exp.statements] at fs ⊢
    exact ⟨Parser.forall_capped fs.1, Parser.forall_capped fs.2⟩
  | attr _ _ _ word =>
    rintro rfl
    cases word
  | @oneAttrName _ _ _ a => cases a <;> simp_all
  | @moreAttrNames _ _ _ _ _ _ _ _ a => cases a <;> simp_all [List.count_eq_zero]
  | compound => simp_all [Assignment.compound]
  | @bare _ _ _ _ _ mooc _ ts =>
    intro first _
    have targets := ts.legible own
    have all : (expsExps (_ :: _)).Forall Exp.Legible := List.forall_append.2 ⟨first, targets⟩
    exact ⟨Parser.legible_implicitLocals all mooc _, trivial⟩
  | dottedName | methodName => simp_all [Parser.FunctionName.member]
  | functionStat => simp_all [Parser.FunctionName.named]
  | semi => rintro ⟨⟩
  | @moreStats _ _ _ s _ _ _ ss last =>
    cases empty : s.isEmpty with
    | true => simpa [empty] using ss
    | false => simpa [empty, -Stat.Legible] using And.intro ss (last empty)
  | label _ n | goto _ n | numericFor _ n =>
    have name := named n
    simp_all
  | localFunction _ _ n body =>
    have name := named n
    have function := body.legible own
    simp_all
  | callStat call =>
    have call := call.legible own
    simp_all
  | genericFor _ ns =>
    have names := ns.legible own
    simp_all
  | localDecl _ ns _ attrs vs =>
    have names := ns.legible own
    exact fun _ => ⟨⟨names, attrs.2.2, fun _ => ⟨attrs.1, attrs.2.1⟩⟩, vs⟩
  | assignment f =>
    have first := f.legible own
    simp_all
  | labelledBlock | continueStat => simp_all [Identifier.continueLabel]
  | moreCases => simp_all [Exp.statements_switchCase]
  | switchStat _ _ _ _ _ _ e bs last =>
    refine fun mooc => ⟨⟨mooc, ?_, by simp, fun _ => by simp⟩, ?_⟩
    · simpa using Identifier.switchSubject
    · simp_all
  | fieldMember _ _ _ ms rest =>
    intro owner
    have later := rest (by simpa [Exp.field] using owner) (by simp)
    have before := ms owner
    simp_all
  | classStat _ _ n =>
    have name := named n
    intro mooc
    simp_all [Parser.classLocal]
  | @exportStat _ _ _ s =>
    intro mooc
    cases s <;> simp_all [Parser.exported]
  | importCall => simp [Call.require]
  | importWhole _ ns _ _ _ attrs =>
    have names := ns.legible own
    refine fun mooc => ⟨⟨mooc, names, attrs.2.2, fun _ => ⟨attrs.1, attrs.2.1⟩⟩, ?_⟩
    simp [Parser.statements_importWhole]
  | importKeys _ ns _ _ _ _ keys _ _ attrs =>
    have names := ns.legible own
    refine fun mooc => ⟨⟨mooc, names, attrs.2.2, fun _ => ⟨attrs.1, attrs.2.1⟩⟩, ?_⟩
    rw [Stat.inner, Declaration.statements, keys.statements]
    trivial
  | deferStat | guardStat | exportFunction =>
    intro mooc
    simp_all
  | _ => simp_all

end LuaChunk
