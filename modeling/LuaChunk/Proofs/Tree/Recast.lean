import LuaChunk.Parser.Expression

/-!
# Trees with other spans and shorter tables

A tree may be looked at without its places, or with its tables cut.  Both are one function on trees,
which changes every span in one way and keeps so many fields of every table, at every depth, and
leaves everything else as it is.
-/

set_option autoImplicit false

namespace LuaChunk

open LuaChunk.Parser (capped)

def Param.recast (place : Span → Span) (p : Param) : Param := { p with span := place p.span }

section

variable (place : Span → Span) (cap : Option Nat)

mutual

def Exp.recast : Exp → Exp
  | .nil span => .nil (place span)
  | .bool value span => .bool value (place span)
  | .vararg span => .vararg (place span)
  | .integer value span => .integer value (place span)
  | .float value span => .float value (place span)
  | .string text span => .string text (place span)
  | .name name span => .name name (place span)
  | .unary op operand span => .unary op operand.recast (place span)
  | .binary op left right span => .binary op left.recast right.recast (place span)
  | .table keys values span =>
    .table (capped cap (keysRecast keys)) (capped cap (expsRecast values)) (place span)
  | .function body span => .function body.recast (place span)
  | .call call span => .call call.recast (place span)
  | .index object key span => .index object.recast key.recast (place span)
  | .paren inner span => .paren inner.recast (place span)
  | .bad span => .bad (place span)

def expsRecast : List Exp → List Exp
  | [] => []
  | e :: rest => e.recast :: expsRecast rest

def keysRecast : List (Option Exp) → List (Option Exp)
  | [] => []
  | none :: rest => none :: keysRecast rest
  | some key :: rest => some key.recast :: keysRecast rest

def FunctionBody.recast : FunctionBody → FunctionBody
  | ⟨params, isVararg, isMethod, block, owner, name⟩ =>
    ⟨params.map (·.recast place), isVararg, isMethod, block.recast, owner, name⟩

def Call.recast : Call → Call
  | ⟨callee, method, args⟩ => ⟨callee.recast, method.map (·.recast place), expsRecast args⟩

def Block.recast : Block → Block
  | ⟨stats, none, span⟩ => ⟨statsRecast stats, none, place span⟩
  | ⟨stats, some returns, span⟩ => ⟨statsRecast stats, some (expsRecast returns), place span⟩

def statsRecast : List Stat → List Stat
  | [] => []
  | s :: rest => s.recast :: statsRecast rest

def Branch.recast : Branch → Branch
  | ⟨condition, body⟩ => ⟨condition.recast, body.recast⟩

def branchesRecast : List Branch → List Branch
  | [] => []
  | b :: rest => b.recast :: branchesRecast rest

def Conditional.recast : Conditional → Conditional
  | ⟨branches, span⟩ => ⟨branchesRecast branches, place span⟩

def Assignment.recast : Assignment → Assignment
  | ⟨targets, values, attr, span⟩ => ⟨expsRecast targets, expsRecast values, attr, place span⟩

def assignmentsRecast : List Assignment → List Assignment
  | [] => []
  | a :: rest => a.recast :: assignmentsRecast rest

def Declaration.recast : Declaration → Declaration
  | ⟨names, attrs, values, span⟩ =>
    ⟨names.map (·.recast place), attrs, expsRecast values, place span⟩

def declarationsRecast : List Declaration → List Declaration
  | [] => []
  | d :: rest => d.recast :: declarationsRecast rest

def ClassDecl.recast : ClassDecl → ClassDecl
  | ⟨kind, table, parent, vars, members, span⟩ =>
    ⟨kind, table.recast, parent.recast, declarationsRecast vars, assignmentsRecast members,
      place span⟩

def Stat.recast : Stat → Stat
  | .empty => .empty
  | .breakLoop span => .breakLoop (place span)
  | .label name span => .label name (place span)
  | .goto name span => .goto name (place span)
  | .doBlock kind body span => .doBlock kind body.recast (place span)
  | .whileLoop condition body span => .whileLoop condition.recast body.recast (place span)
  | .repeatLoop body condition span => .repeatLoop body.recast condition.recast (place span)
  | .conditional chain => .conditional chain.recast
  | .numericFor var init limit step body span =>
    .numericFor (var.recast place) init.recast limit.recast step.recast body.recast (place span)
  | .genericFor vars iterables body span =>
    .genericFor (vars.map (·.recast place)) (expsRecast iterables) body.recast (place span)
  | .assign assignment => .assign assignment.recast
  | .declare declaration => .declare declaration.recast
  | .localFunction name body span => .localFunction (name.recast place) body.recast (place span)
  | .call call span => .call call.recast (place span)
  | .classDecl decl => .classDecl decl.recast
  | .importCall call span => .importCall call.recast (place span)
  | .importNames declaration => .importNames declaration.recast
  | .exportAll span => .exportAll (place span)
  | .switch subject cases span => .switch subject.recast cases.recast (place span)

end

end

attribute [simp] Exp.recast FunctionBody.recast Call.recast Branch.recast Conditional.recast
  Assignment.recast Declaration.recast ClassDecl.recast Stat.recast

/-! ## Lists of trees -/

section Lists

variable {place : Span → Span} {cap : Option Nat}

@[simp]
theorem expsRecast_eq (es : List Exp) : expsRecast place cap es = es.map (·.recast place cap) := by
  induction es with
  | nil => rfl
  | cons e rest inductionHypothesis => simp [expsRecast, inductionHypothesis]

@[simp]
theorem keysRecast_eq (keys : List (Option Exp)) :
    keysRecast place cap keys = keys.map (·.map (·.recast place cap)) := by
  induction keys with
  | nil => rfl
  | cons key rest inductionHypothesis => cases key <;> simp [keysRecast, inductionHypothesis]

@[simp]
theorem statsRecast_eq (ss : List Stat) :
    statsRecast place cap ss = ss.map (·.recast place cap) := by
  induction ss with
  | nil => rfl
  | cons s rest inductionHypothesis => simp [statsRecast, inductionHypothesis]

@[simp]
theorem branchesRecast_eq (bs : List Branch) :
    branchesRecast place cap bs = bs.map (·.recast place cap) := by
  induction bs with
  | nil => rfl
  | cons b rest inductionHypothesis => simp [branchesRecast, inductionHypothesis]

@[simp]
theorem assignmentsRecast_eq (as : List Assignment) :
    assignmentsRecast place cap as = as.map (·.recast place cap) := by
  induction as with
  | nil => rfl
  | cons a rest inductionHypothesis => simp [assignmentsRecast, inductionHypothesis]

@[simp]
theorem declarationsRecast_eq (ds : List Declaration) :
    declarationsRecast place cap ds = ds.map (·.recast place cap) := by
  induction ds with
  | nil => rfl
  | cons d rest inductionHypothesis => simp [declarationsRecast, inductionHypothesis]

@[simp]
theorem Block.recast_mk (stats : List Stat) (returns : Option (List Exp)) (span : Span) :
    (Block.mk stats returns span).recast place cap =
      ⟨stats.map (·.recast place cap), returns.map (·.map (·.recast place cap)), place span⟩ := by
  cases returns <;> simp [Block.recast]

@[simp]
theorem Exp.span_recast (e : Exp) : (e.recast place cap).span = place e.span := by
  cases e <;> rfl

@[simp]
theorem Stat.isEmpty_recast (s : Stat) : (s.recast place cap).isEmpty = s.isEmpty := by
  cases s <;> rfl

end Lists

/-! ## Nothing changed -/

section Same

/-- Cutting nothing changes nothing. -/
theorem capped_none {α : Type} (items : List α) : capped none items = items := rfl

theorem Param.recast_id (p : Param) : p.recast id = p := rfl

theorem Param.map_recast_id (ps : List Param) : ps.map (·.recast id) = ps := List.map_id ps

mutual

theorem Exp.recast_id : ∀ e : Exp, e.recast id none = e
  | .nil _ | .bool _ _ | .vararg _ | .integer _ _ | .float _ _ | .string _ _ | .name _ _ | .bad _ =>
    rfl
  | .unary op operand span => by rw [Exp.recast, operand.recast_id, id]
  | .binary op left right span => by rw [Exp.recast, left.recast_id, right.recast_id, id]
  | .table keys values span => by
    rw [Exp.recast, keysRecast_id keys, expsRecast_id values, capped_none, capped_none, id]
  | .function body span => by rw [Exp.recast, body.recast_id, id]
  | .call call span => by rw [Exp.recast, call.recast_id, id]
  | .index object key span => by rw [Exp.recast, object.recast_id, key.recast_id, id]
  | .paren inner span => by rw [Exp.recast, inner.recast_id, id]

theorem expsRecast_id : ∀ es : List Exp, expsRecast id none es = es
  | [] => rfl
  | e :: rest => by rw [expsRecast, e.recast_id, expsRecast_id rest]

theorem keysRecast_id : ∀ keys : List (Option Exp), keysRecast id none keys = keys
  | [] => rfl
  | none :: rest => by rw [keysRecast, keysRecast_id rest]
  | some key :: rest => by rw [keysRecast, key.recast_id, keysRecast_id rest]

theorem FunctionBody.recast_id : ∀ b : FunctionBody, b.recast id none = b
  | ⟨params, isVararg, isMethod, block, owner, name⟩ => by
    rw [FunctionBody.recast, block.recast_id, Param.map_recast_id]

theorem Call.recast_id : ∀ c : Call, c.recast id none = c
  | ⟨callee, none, args⟩ => by
    rw [Call.recast, callee.recast_id, expsRecast_id args, Option.map_none]
  | ⟨callee, some method, args⟩ => by
    rw [Call.recast, callee.recast_id, expsRecast_id args, Option.map_some, method.recast_id]

theorem Block.recast_id : ∀ b : Block, b.recast id none = b
  | ⟨stats, none, span⟩ => by rw [Block.recast, statsRecast_id stats, id]
  | ⟨stats, some returns, span⟩ => by
    rw [Block.recast, statsRecast_id stats, expsRecast_id returns, id]

theorem statsRecast_id : ∀ ss : List Stat, statsRecast id none ss = ss
  | [] => rfl
  | s :: rest => by rw [statsRecast, s.recast_id, statsRecast_id rest]

theorem Branch.recast_id : ∀ b : Branch, b.recast id none = b
  | ⟨condition, body⟩ => by rw [Branch.recast, condition.recast_id, body.recast_id]

theorem branchesRecast_id : ∀ bs : List Branch, branchesRecast id none bs = bs
  | [] => rfl
  | b :: rest => by rw [branchesRecast, b.recast_id, branchesRecast_id rest]

theorem Conditional.recast_id : ∀ c : Conditional, c.recast id none = c
  | ⟨branches, span⟩ => by rw [Conditional.recast, branchesRecast_id branches, id]

theorem Assignment.recast_id : ∀ a : Assignment, a.recast id none = a
  | ⟨targets, values, attr, span⟩ => by
    rw [Assignment.recast, expsRecast_id targets, expsRecast_id values, id]

theorem assignmentsRecast_id : ∀ as : List Assignment, assignmentsRecast id none as = as
  | [] => rfl
  | a :: rest => by rw [assignmentsRecast, a.recast_id, assignmentsRecast_id rest]

theorem Declaration.recast_id : ∀ d : Declaration, d.recast id none = d
  | ⟨names, attrs, values, span⟩ => by
    rw [Declaration.recast, expsRecast_id values, Param.map_recast_id, id]

theorem declarationsRecast_id : ∀ ds : List Declaration, declarationsRecast id none ds = ds
  | [] => rfl
  | d :: rest => by rw [declarationsRecast, d.recast_id, declarationsRecast_id rest]

theorem ClassDecl.recast_id : ∀ d : ClassDecl, d.recast id none = d
  | ⟨kind, table, parent, vars, members, span⟩ => by
    rw [ClassDecl.recast, table.recast_id, parent.recast_id, declarationsRecast_id vars,
      assignmentsRecast_id members, id]

theorem Stat.recast_id : ∀ s : Stat, s.recast id none = s
  | .empty | .breakLoop _ | .label _ _ | .goto _ _ | .exportAll _ => rfl
  | .doBlock kind body span => by rw [Stat.recast, body.recast_id, id]
  | .whileLoop condition body span => by
    rw [Stat.recast, condition.recast_id, body.recast_id, id]
  | .repeatLoop body condition span => by
    rw [Stat.recast, condition.recast_id, body.recast_id, id]
  | .conditional chain => by rw [Stat.recast, chain.recast_id]
  | .numericFor var init limit step body span => by
    rw [Stat.recast, init.recast_id, limit.recast_id, step.recast_id, body.recast_id,
      var.recast_id, id]
  | .genericFor vars iterables body span => by
    rw [Stat.recast, expsRecast_id iterables, body.recast_id, Param.map_recast_id, id]
  | .assign assignment => by rw [Stat.recast, assignment.recast_id]
  | .declare declaration => by rw [Stat.recast, declaration.recast_id]
  | .localFunction name body span => by rw [Stat.recast, body.recast_id, name.recast_id, id]
  | .call call span => by rw [Stat.recast, call.recast_id, id]
  | .classDecl decl => by rw [Stat.recast, decl.recast_id]
  | .importCall call span => by rw [Stat.recast, call.recast_id, id]
  | .importNames declaration => by rw [Stat.recast, declaration.recast_id]
  | .switch subject cases span => by rw [Stat.recast, subject.recast_id, cases.recast_id, id]

end

end Same

end LuaChunk
