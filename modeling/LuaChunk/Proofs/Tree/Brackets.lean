import LuaChunk.Proofs.Tree.Expressions
import LuaChunk.Proofs.Tree.Recast

/-!
# Parentheses around operators

A text shows every operator in parentheses, and whoever reads the text finds these in the tree.
They hide nothing: a tree is known by the one that has them.
-/

set_option autoImplicit false

namespace LuaChunk

/-- The expression, wherever it stands. -/
abbrev Exp.unplaced (e : Exp) : Exp := e.recast (fun _ => .synthetic) none

/-! ## Expressions without functions -/

namespace Exp

def isFunction : Exp → Bool
  | function _ _ => true
  | _ => false

def FunctionFree (e : Exp) : Prop := ∀ f ∈ e.exps, f.isFunction = false

instance (e : Exp) : Decidable e.FunctionFree := inferInstanceAs (Decidable (∀ f ∈ _, _))

section

variable {op : UnaryOp} {op' : BinaryOp} {e l r : Exp} {keys : List (Option Exp)} {es : List Exp}
  {method : Option Param} {body : FunctionBody} {span : Span}

@[simp]
theorem functionFree_unary : (unary op e span).FunctionFree ↔ e.FunctionFree := by
  simp [FunctionFree, isFunction]

@[simp]
theorem functionFree_binary :
    (binary op' l r span).FunctionFree ↔ l.FunctionFree ∧ r.FunctionFree := by
  grind [FunctionFree, isFunction]

@[simp]
theorem functionFree_table : (table keys es span).FunctionFree ↔
    (∀ key, some key ∈ keys → key.FunctionFree) ∧ ∀ value ∈ es, value.FunctionFree := by
  grind [FunctionFree, isFunction, mem_keysExps]

@[simp]
theorem not_functionFree_function : ¬ (function body span).FunctionFree := by
  simp [FunctionFree, isFunction]

@[simp]
theorem functionFree_call : (call ⟨e, method, es⟩ span).FunctionFree ↔
    e.FunctionFree ∧ ∀ arg ∈ es, arg.FunctionFree := by
  grind [FunctionFree, isFunction]

@[simp]
theorem functionFree_index :
    (index l r span).FunctionFree ↔ l.FunctionFree ∧ r.FunctionFree := by
  grind [FunctionFree, isFunction]

@[simp]
theorem functionFree_paren : (paren e span).FunctionFree ↔ e.FunctionFree := by
  simp [FunctionFree, isFunction]

end

end Exp

/-! ## Operators in parentheses -/

mutual

/-- Every operator stands in one more pair of parentheses.  Functions are left as they are. -/
def Exp.bracketed : Exp → Exp
  | .unary op operand span => .paren (.unary op operand.bracketed span) span
  | .binary op left right span => .paren (.binary op left.bracketed right.bracketed span) span
  | .table keys values span => .table (keysBracketed keys) (expsBracketed values) span
  | .call call span => .call call.bracketed span
  | .index object key span => .index object.bracketed key.bracketed span
  | .paren inner span => .paren inner.bracketed span
  | .nil span => .nil span
  | .bool value span => .bool value span
  | .vararg span => .vararg span
  | .integer value span => .integer value span
  | .float value span => .float value span
  | .string text span => .string text span
  | .name name span => .name name span
  | .function body span => .function body span
  | .bad span => .bad span

def expsBracketed : List Exp → List Exp
  | [] => []
  | e :: rest => e.bracketed :: expsBracketed rest

def keysBracketed : List (Option Exp) → List (Option Exp)
  | [] => []
  | none :: rest => none :: keysBracketed rest
  | some key :: rest => some key.bracketed :: keysBracketed rest

def Call.bracketed : Call → Call
  | ⟨callee, method, args⟩ => ⟨callee.bracketed, method, expsBracketed args⟩

end

attribute [simp] Exp.bracketed Call.bracketed

@[simp]
theorem expsBracketed_eq (es : List Exp) : expsBracketed es = es.map Exp.bracketed := by
  induction es with
  | nil => rfl
  | cons e rest inductionHypothesis => simp [expsBracketed, inductionHypothesis]

@[simp]
theorem keysBracketed_eq (keys : List (Option Exp)) :
    keysBracketed keys = keys.map (·.map Exp.bracketed) := by
  induction keys with
  | nil => rfl
  | cons key rest inductionHypothesis => cases key <;> simp [keysBracketed, inductionHypothesis]

/-! ## Parentheses taken away -/

mutual

/-- Every operator in parentheses loses one pair of them. -/
def Exp.unbracketed : Exp → Exp
  | .paren (.unary op operand span) _ => .unary op operand.unbracketed span
  | .paren (.binary op left right span) _ => .binary op left.unbracketed right.unbracketed span
  | .paren inner span => .paren inner.unbracketed span
  | .table keys values span => .table (keysUnbracketed keys) (expsUnbracketed values) span
  | .call call span => .call call.unbracketed span
  | .index object key span => .index object.unbracketed key.unbracketed span
  | e => e

def expsUnbracketed : List Exp → List Exp
  | [] => []
  | e :: rest => e.unbracketed :: expsUnbracketed rest

def keysUnbracketed : List (Option Exp) → List (Option Exp)
  | [] => []
  | none :: rest => none :: keysUnbracketed rest
  | some key :: rest => some key.unbracketed :: keysUnbracketed rest

def Call.unbracketed : Call → Call
  | ⟨callee, method, args⟩ => ⟨callee.unbracketed, method, expsUnbracketed args⟩

end

mutual

theorem Exp.unbracketed_bracketed : ∀ e : Exp, e.bracketed.unbracketed = e
  | .unary op operand span => by
    rw [Exp.bracketed, Exp.unbracketed, operand.unbracketed_bracketed]
  | .binary op left right span => by
    rw [Exp.bracketed, Exp.unbracketed, left.unbracketed_bracketed, right.unbracketed_bracketed]
  | .table keys values span => by
    rw [Exp.bracketed, Exp.unbracketed, keysUnbracketed_bracketed keys, expsUnbracketed_bracketed values]
  | .call call span => by rw [Exp.bracketed, Exp.unbracketed, call.unbracketed_bracketed]
  | .index object key span => by
    rw [Exp.bracketed, Exp.unbracketed, object.unbracketed_bracketed, key.unbracketed_bracketed]
  | .paren inner span => by
    have own := inner.unbracketed_bracketed
    cases inner <;> simp_all [Exp.unbracketed]
  | .nil _ | .bool _ _ | .vararg _ | .integer _ _ | .float _ _ | .string _ _ | .name _ _
  | .function _ _ | .bad _ => rfl

theorem expsUnbracketed_bracketed : ∀ es : List Exp, expsUnbracketed (expsBracketed es) = es
  | [] => rfl
  | e :: rest => by
    rw [expsBracketed, expsUnbracketed, e.unbracketed_bracketed, expsUnbracketed_bracketed rest]

theorem keysUnbracketed_bracketed :
    ∀ keys : List (Option Exp), keysUnbracketed (keysBracketed keys) = keys
  | [] => rfl
  | none :: rest => by rw [keysBracketed, keysUnbracketed, keysUnbracketed_bracketed rest]
  | some key :: rest => by
    rw [keysBracketed, keysUnbracketed, key.unbracketed_bracketed, keysUnbracketed_bracketed rest]

theorem Call.unbracketed_bracketed : ∀ c : Call, c.bracketed.unbracketed = c
  | ⟨callee, method, args⟩ => by
    rw [Call.bracketed, Call.unbracketed, callee.unbracketed_bracketed, expsUnbracketed_bracketed args]

end

/-- Trees that are the same with these parentheses are the same. -/
theorem Exp.bracketed_injective : Function.Injective Exp.bracketed :=
  Function.LeftInverse.injective Exp.unbracketed_bracketed

end LuaChunk
