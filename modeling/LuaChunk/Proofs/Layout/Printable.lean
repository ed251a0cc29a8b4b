import LuaChunk.Proofs.Layout.Fragments
import LuaChunk.Proofs.Spelling.Basic
import LuaChunk.Proofs.Tree.Blocks
import LuaChunk.Proofs.Tree.Expressions
import LuaChunk.Proofs.Tree.Induction
import LuaChunk.Proofs.Tree.WellFormed

/-!
# Trees that can be written in Lua

A tree can be written if its names are names, if it holds nothing that only Mooc has or that stands
for a fault, and if the text of no part goes on with that of the next.  Where a statement ends in an
expression that can be called, the next must not begin with a parenthesis, for no separator is
written between them; and two signs in a row would begin a comment.  To be read again as it is, a
tree also has no number that is written as an expression of another kind.
-/

set_option autoImplicit false

namespace LuaChunk

namespace Exp

/-- The text begins with a sign. -/
def isNegative : Exp → Bool
  | integer value _ => value < 0
  | _ => false

/-- Parentheses after the text would call it. -/
def endsOpen : Exp → Bool
  | name _ _ | unary _ _ _ | binary _ _ _ _ | call _ _ | index _ _ _ | paren _ _ => true
  | float value _ => !value.isFinite
  | _ => false

/-- The text begins with a parenthesis. -/
def startsParen : Exp → Bool
  | unary _ _ _ | binary _ _ _ _ | paren _ _ => true
  | call ⟨callee, _, _⟩ _ => callee.startsParen
  | index object _ _ => object.startsParen
  | _ => false

end Exp

namespace Stat

/-- Parentheses after the text would call what it ends in. -/
def endsOpen : Stat → Bool
  | repeatLoop _ condition _ => condition.endsOpen
  | assign a => a.values.getLast?.any (·.endsOpen)
  | declare d | importNames d => d.values.getLast?.any (·.endsOpen)
  | call _ _ | importCall _ _ => true
  | _ => false

/-- The text begins with a parenthesis. -/
def startsParen : Stat → Bool
  | assign a => a.targets.head?.any (·.startsParen)
  | call c _ | importCall c _ => c.callee.startsParen
  | _ => false

/-- Written one after the other, the second statement is no part of the first. -/
def Apart (s t : Stat) : Prop := s.endsOpen = true → t.startsParen = false

instance (s t : Stat) : Decidable (s.Apart t) := inferInstanceAs (Decidable (_ → _))

end Stat

/-- What is asked of a tree that is to be written. -/
structure Demand where
  /-- The fields that a table may have. -/
  fields : Nat
  /-- The text is to be read as the same tree. -/
  exact : Bool

mutual

/-- Expressions that can be written inside some bodies. -/
inductive Exp.Printable (d : Demand) : List Body → Exp → Prop
  | nil {around} (span : Span) : Exp.Printable d around (.nil span)
  | bool {around} (value : Bool) (span : Span) : Exp.Printable d around (.bool value span)
  | vararg {around} (span : Span) : Exp.Printable d around (.vararg span)
  | integer {around} {value : Int64} (span : Span) : (d.exact = true → 0 ≤ value) →
      Exp.Printable d around (.integer value span)
  | float {around} {value : Binary64} (span : Span) : value.isNegative = false →
      (d.exact = true → value.isFinite = true) → Exp.Printable d around (.float value span)
  | string {around} (text : String) (span : Span) : Exp.Printable d around (.string text span)
  | name {around} {name : String} (span : Span) : Identifier .lua name →
      Exp.Printable d around (.name name span)
  | unary {around op operand} (span : Span) : (op = .neg → operand.isNegative = false) →
      operand.Printable d around → Exp.Printable d around (.unary op operand span)
  | binary {around left right} (op : BinaryOp) (span : Span) : left.Printable d around →
      right.Printable d around → Exp.Printable d around (.binary op left right span)
  | table {around keys values} (span : Span) : keys.length = values.length →
      keys.length ≤ d.fields → (∀ key, some key ∈ keys → key.Printable d around) →
      (∀ value ∈ values, value.Printable d around) →
      Exp.Printable d around (.table keys values span)
  | function {around} {params : List Param} {block} (isVararg isMethod : Bool)
      (owner name : Option String) (span : Span) : (∀ p ∈ params, Identifier .lua p.name) →
      block.Printable d (.function :: around) →
      Exp.Printable d around (.function ⟨params, isVararg, isMethod, block, owner, name⟩ span)
  | call {around callee} {method : Option Param} {args} (span : Span) : callee.endsOpen = true →
      (∀ p ∈ method, Identifier .lua p.name) → callee.Printable d around →
      (∀ arg ∈ args, arg.Printable d around) →
      Exp.Printable d around (.call ⟨callee, method, args⟩ span)
  | index {around object key} (span : Span) : object.endsOpen = true →
      object.Printable d around → key.Printable d around →
      Exp.Printable d around (.index object key span)
  | paren {around inner} (span : Span) : inner.Printable d around →
      Exp.Printable d around (.paren inner span)

/-- Statements that can be written inside some bodies. -/
inductive Stat.Printable (d : Demand) : List Body → Stat → Prop
  | breakLoop {around} (span : Span) : (Site.inner around).InLoop → Stat.Printable d around (.breakLoop span)
  | label {around} {name : String} (span : Span) : Identifier .lua name →
      Stat.Printable d around (.label name span)
  | goto {around} {name : String} (span : Span) : Identifier .lua name →
      Stat.Printable d around (.goto name span)
  | doBlock {around body} (span : Span) : body.Printable d around →
      Stat.Printable d around (.doBlock .plain body span)
  | whileLoop {around condition body} (span : Span) : condition.Printable d around →
      body.Printable d (.loop :: around) → Stat.Printable d around (.whileLoop condition body span)
  | repeatLoop {around condition body} (span : Span) : condition.Printable d around →
      body.Printable d (.loop :: around) → Stat.Printable d around (.repeatLoop body condition span)
  | conditional {around branches} (span : Span) : branches ≠ [] →
      (∀ branch ∈ branches, branch.condition.Printable d around) →
      (∀ branch ∈ branches, branch.body.Printable d around) →
      Stat.Printable d around (.conditional ⟨branches, span⟩)
  | numericFor {around} {var : Param} {init limit step body} (span : Span) :
      Identifier .lua var.name → init.Printable d around → limit.Printable d around →
      step.Printable d around → body.Printable d (.loop :: around) →
      Stat.Printable d around (.numericFor var init limit step body span)
  | genericFor {around} {vars : List Param} {iterables body} (span : Span) : vars ≠ [] →
      (∀ p ∈ vars, Identifier .lua p.name) → iterables ≠ [] →
      (∀ e ∈ iterables, e.Printable d around) → body.Printable d (.loop :: around) →
      Stat.Printable d around (.genericFor vars iterables body span)
  | assign {around targets values} (span : Span) : targets ≠ [] →
      (∀ e ∈ targets, e.IsTarget) → (∀ e ∈ targets, e.Printable d around) → values ≠ [] →
      (∀ e ∈ values, e.Printable d around) →
      Stat.Printable d around (.assign ⟨targets, values, .regular, span⟩)
  | declare {around} {names : List Param} {attrs : List Attribute} {values} (span : Span) :
      names ≠ [] → attrs.length = names.length → (∀ p ∈ names, Identifier .lua p.name) →
      .exported ∉ attrs → attrs.count .close ≤ 1 → (∀ e ∈ values, e.Printable d around) →
      Stat.Printable d around (.declare ⟨names, attrs, values, span⟩)
  | localFunction {around} {name : Param} {body : FunctionBody} (span : Span) :
      Identifier .lua name.name → (Exp.function body span).Printable d around →
      Stat.Printable d around (.localFunction name body span)
  | callStat {around} {call : Call} {span : Span} : (Exp.call call span).Printable d around →
      Stat.Printable d around (.call call span)
  | importCall {around} {call : Call} {span : Span} : (Exp.call call span).Printable d around →
      Stat.Printable d around (.importCall call span)
  | importNames {around} {declaration : Declaration} :
      (Stat.declare declaration).Printable d around →
      Stat.Printable d around (.importNames declaration)
  | switch {around} {subject : Declaration} {cases : Conditional} (span : Span) :
      (Stat.declare subject).Printable d around →
      (Stat.conditional cases).Printable d around →
      Stat.Printable d around (.switch subject cases span)

/-- Blocks that can be written, with some bodies around their statements. -/
inductive Block.Printable (d : Demand) : List Body → Block → Prop
  | block {around} {stats : List Stat} {returns : Option (List Exp)} (span : Span) :
      (∀ s ∈ stats, s.Printable d around) → stats.IsChain Stat.Apart →
      (∀ es ∈ returns, ∀ e ∈ es, e.Printable d around) →
      Block.Printable d around ⟨stats, returns, span⟩

end

/-- An expression can be written in a block that returns it. -/
theorem Exp.Printable.returned {d : Demand} {around : List Body} {e : Exp}
    (h : e.Printable d around) : Block.Printable d around ⟨[], some [e], .synthetic⟩ :=
  .block .synthetic (List.forall_mem_nil _) .nil (by simpa using h)

end LuaChunk
