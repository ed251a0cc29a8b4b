import LuaChunk.Proofs.Shapes.Basic
import LuaChunk.Proofs.Tree.WellFormed

/-!
# The shapes of expressions
-/

set_option autoImplicit false

namespace LuaChunk

/-- The rules of a level return well-formed trees. -/
structure Rules.Shapely (c : Settings) (r : Rules) : Prop where
  block : Parser.Yields c r.block fun b => b.WellFormed c.fieldCap
  stat : Parser.Yields c r.stat fun s => s.WellFormed c.fieldCap
  operation (limit : Nat) : Parser.Yields c (r.operation limit) fun e => e.WellFormed c.fieldCap
  functionBody (style : FunctionStyle) :
    Parser.Yields c (r.functionBody style) fun b => b.WellFormed c.fieldCap
  table : Parser.Yields c r.table fun e => e.WellFormed c.fieldCap
  parenthesised : Parser.Yields c r.parenthesised fun e => e.WellFormed c.fieldCap

namespace Parser

variable {c : Settings} {r : Rules}

theorem exp_yields (h : r.Shapely c) : Yields c r.exp fun e => e.WellFormed c.fieldCap :=
  h.operation 0

theorem expList_yields (h : r.Shapely c) :
    Yields c (expList r) fun es => es ≠ [] ∧ ∀ e ∈ es, e.WellFormed c.fieldCap := by
  refine .bind (exp_yields h) fun first holds => .map (.loop
    (fun es : Array Exp => first ∈ es.toList ∧ ∀ e ∈ es.toList, e.WellFormed c.fieldCap) (by grind)
    fun es all => ?_) (by grind)
  exact .andThen (.accepts .comma) fun _ => .ite (fun _ => .map (exp_yields h) (by grind))
    fun _ => .pure (by grind)

theorem numeral_yields : Yields c numeral fun e => e.WellFormed c.fieldCap := by
  refine .andThen .next fun token => ?_
  split
  · exact .pure (by grind)
  · exact .pure (by grind)
  · exact .andThen (.complain _ _) fun _ => .pure (by grind)

/-! ## Functions -/

theorem params_runs : Runs c params := by
  refine .andThen .peek fun kind => .andThen .isMooc fun _ => .ite (fun _ => .done _) fun _ =>
    .ite (fun _ => .andThen .next fun _ => .done _) fun _ => .andThen .expectName fun first =>
    .ending (.loop (fun _ => True) trivial fun _ _ => ?_) fun _ => trivial
  refine .andThen (.accepts .comma) fun _ => .ite (fun _ => .andThen .peek fun _ => .ite
    (fun _ => ?_) fun _ => ?_) fun _ => .done _
  · exact .andThen .next fun _ => .done _
  · exact .andThen (.expect .vararg) fun _ => .done _

theorem openFunctionBlock_runs (style : FunctionStyle) : Runs c (openFunctionBlock style) := by
  cases style with
  | ended => exact .andThen (.expect .rparen) fun _ => .done _
  | braced =>
    exact .andThen (.expect .rparen) fun _ => .andThen (.expect .lbrace) fun _ => .done _
  | anonymous => exact .andThen (.expect .kwIn) fun _ => .done _

theorem functionBody_yields (h : r.Shapely c) (style : FunctionStyle) :
    Yields c (functionBody r style) fun b => b.WellFormed c.fieldCap :=
  .andThen (.expect _) fun _ => .andThen params_runs fun (_, _) =>
    .andThen (openFunctionBlock_runs style) fun _ => .bind (.within _ _ h.block) fun _ _ =>
    .andThen (.expect _) fun _ => .pure (by grind)

theorem functionExp_yields (h : r.Shapely c) (style : FunctionStyle) (start : Span) :
    Yields c (functionExp r style start) fun e => e.WellFormed c.fieldCap :=
  .bind (h.functionBody style) fun _ _ => .ending (.since start) (by grind)

theorem atAnonymousFunction_runs : Runs c atAnonymousFunction :=
  .andThen .isMooc fun _ => .ite (fun _ => .onTokens _) fun _ => .done _

/-! ## Tables -/

/-- A field that may stand in a table. -/
@[grind =]
def FieldWellFormed (cap : Option Nat) (field : Option Exp × Exp) : Prop :=
  (∀ key, field.1 = some key → key.WellFormed cap) ∧ field.2.WellFormed cap

theorem bracketedField_yields (h : r.Shapely c) :
    Yields c (bracketedField r) (FieldWellFormed c.fieldCap) :=
  .bind (exp_yields h) fun _ _ => .andThen (.expect .rbracket) fun _ =>
    .andThen (.expect .assign) fun _ => .map (exp_yields h) (by grind)

theorem plainField_yields (h : r.Shapely c) :
    Yields c (plainField r) (FieldWellFormed c.fieldCap) := by
  refine .bind (exp_yields h) fun e _ => ?_
  split
  · exact .andThen (.accepts .assign) fun _ => .ite (fun _ => .map (exp_yields h) (by grind))
      fun _ => .pure (by grind)
  · exact .pure (by grind)

theorem atLiteralKey_runs : Runs c atLiteralKey :=
  .andThen (.onTokens _) fun _ => .ite (fun _ => .done _) fun _ => .onTokens _

theorem field_yields (h : r.Shapely c) : Yields c (field r) (FieldWellFormed c.fieldCap) := by
  refine .andThen (.accepts .lbracket) fun _ => .ite (fun _ => bracketedField_yields h) fun _ =>
    .andThen .isMooc fun _ => .ite (fun _ => plainField_yields h) fun _ =>
    .andThen atLiteralKey_runs fun _ => .ite (fun _ => ?_) fun _ =>
    .andThen (.onTokens _) fun _ => .ite (fun _ => ?_) fun _ => plainField_yields h
  · exact .bind (exp_yields h) fun _ _ => .andThen (.expect .assign) fun _ =>
      .map (exp_yields h) (by grind)
  · exact .andThen .next fun _ => .andThen .expectName fun _ => .pure (by grind)

theorem length_capped_le {α : Type} (cap : Option Nat) (items : List α) :
    ∀ n, cap = some n → (capped cap items).length ≤ n := by
  rintro n rfl
  exact List.length_take_le n items

theorem length_capped {α β : Type} (cap : Option Nat) {a : List α} {b : List β}
    (same : a.length = b.length) : (capped cap a).length = (capped cap b).length := by
  cases cap <;> simp [capped, same]

/-- Keys and values are cut alike, to the cap that the settings give. -/
theorem table_yields (h : r.Shapely c) : Yields c (table r) fun e => e.WellFormed c.fieldCap := by
  refine .andThen (.expect .lbrace) fun _ => .bind (.loop
    (fun fields => ∀ f ∈ fields.toList, FieldWellFormed c.fieldCap f) (by grind) fun fields all => ?_)
    fun fields all => .andThen (.expect .rbrace) fun _ => .andThen (.since _) fun span =>
    .map .get fun s settings => ?_
  · refine .andThen .peek fun _ => .ite (fun _ => .pure all) fun _ =>
      .bind (field_yields h) fun _ _ => .andThen .peek fun _ => .ite (fun _ => ?_) fun _ => ?_
    · exact .andThen .next fun _ => .pure (by grind)
    · exact .pure (by grind)
  · subst settings
    simp only [Exp.WellFormed, expsWellFormed_iff, keysWellFormed_iff]
    refine ⟨length_capped _ (by simp), length_capped_le _ _, ?_, ?_⟩
    · intro key kept
      grind
    · intro value kept
      grind

/-! ## Operands -/

theorem args_yields (h : r.Shapely c) :
    Yields c (args r) fun es => ∀ e ∈ es, e.WellFormed c.fieldCap := by
  refine .andThen .peek fun _ => .andThen .isMooc fun _ => .ite (fun _ => ?_) fun _ =>
    .ite (fun _ => ?_) fun _ => .andThen (.expect .lparen) fun _ => .andThen .peek fun _ => ?_
  · exact .andThen .next fun _ => .pure (by grind)
  · exact .map h.table (by grind)
  · split
    · exact .bind (P := fun es => es = []) (.pure rfl) fun _ _ =>
        .andThen (.expect .rparen) fun _ => .pure (by grind)
    · exact .bind (expList_yields h) fun _ all => .andThen (.expect .rparen) fun _ => .pure all.2

theorem atMethodCall_runs : Runs c atMethodCall :=
  .andThen .isMooc fun _ => .ite (fun _ => .done _) fun _ => .andThen .now fun _ =>
    .andThen (.peekToken 0) fun _ => .andThen (.peekToken 1) fun _ =>
    .ending (.peekToken 2) fun _ => trivial

/-- An expression that a field, an index or a call may follow. -/
@[grind =]
def IsPrefix (cap : Option Nat) (e : Exp) : Prop := e.isPrefix = true ∧ e.WellFormed cap

theorem callOf_yields (h : r.Shapely c) {callee : Exp} (holds : IsPrefix c.fieldCap callee)
    (method : Option Param) : Yields c (callOf r callee method) (IsPrefix c.fieldCap) :=
  .bind (args_yields h) fun _ _ => .ending (.since _) (by grind)

theorem suffix_yields (h : r.Shapely c) {e : Exp} (holds : IsPrefix c.fieldCap e) :
    Yields c (suffix r e) fun next => IsPrefix c.fieldCap next.value := by
  have called {callee : Exp} (holds : IsPrefix c.fieldCap callee) (method : Option Param) :
      Yields c (do return .yield (← callOf r callee method))
        fun next : ForInStep Exp => IsPrefix c.fieldCap next.value :=
    .map (callOf_yields h holds method) fun _ => id
  refine .andThen .peek fun kind => ?_
  split
  · exact .andThen .next fun _ => .andThen .expectName fun _ => .pure (by grind)
  · exact .andThen .next fun _ => .bind (exp_yields h) fun _ _ =>
      .andThen (.expect .rbracket) fun _ => .ending (.since _) (by grind)
  · exact .andThen atMethodCall_runs fun _ => .ite (fun _ => .andThen .next fun _ =>
      .andThen .expectName fun _ => called holds _) fun _ => .pure holds
  · exact called holds none
  · exact .andThen .isMooc fun _ => .ite (fun _ => .pure holds) fun _ => called holds none
  · exact .andThen .isMooc fun _ => .ite (fun _ => .pure holds) fun _ => called holds none
  · exact .pure holds

/-- What is not a prefix expression is bad. -/
theorem prefixExp_yields (h : r.Shapely c) :
    Yields c (prefixExp r) fun e => IsPrefix c.fieldCap e ∨ ∃ span, e = .bad span := by
  refine .andThen .peek fun kind => ?_
  split
  · exact .andThen .next fun _ => (Yields.loop _ (by grind) fun _ => suffix_yields h).mono
      fun _ => .inl
  · exact .andThen .next fun _ => .bind h.parenthesised fun _ _ => .andThen (.expect .rparen)
      fun _ => .andThen (.since _) fun _ => (Yields.loop _ (by grind) fun _ => suffix_yields h).mono
      fun _ => .inl
  · exact .andThen .next fun _ => .andThen (.complain _ _) fun _ => .pure (.inr ⟨_, rfl⟩)

theorem wellFormed_prefixExp (h : r.Shapely c) :
    Yields c (prefixExp r) fun e => e.WellFormed c.fieldCap :=
  (prefixExp_yields h).mono fun e shape => by
    rcases shape with ⟨_, holds⟩ | ⟨span, rfl⟩
    · exact holds
    · simp [Exp.WellFormed]

theorem literal_yields (e : Span → Exp) (leaf : ∀ s, (e s).WellFormed c.fieldCap) :
    Yields c (literal e) fun e => e.WellFormed c.fieldCap :=
  .ending .next fun _ => leaf _

theorem primary_yields (h : r.Shapely c) :
    Yields c (primary r) fun e => e.WellFormed c.fieldCap := by
  refine .andThen .peek fun kind => ?_
  split
  · exact literal_yields _ (by grind)
  · exact literal_yields _ (by grind)
  · exact literal_yields _ (by grind)
  · exact literal_yields _ (by grind)
  · exact .andThen .next fun _ => .pure (by grind)
  · exact numeral_yields
  · exact .andThen atAnonymousFunction_runs fun _ => .ite
      (fun _ => .andThen .head fun _ => functionExp_yields h _ _) fun _ => h.table
  · exact .andThen .isMooc fun _ => .ite (fun _ => wellFormed_prefixExp h) fun _ =>
      .andThen .next fun _ => functionExp_yields h _ _
  · exact .andThen .next fun _ => functionExp_yields h _ _
  · exact wellFormed_prefixExp h

theorem operand_yields (h : r.Shapely c) :
    Yields c (operand r) fun e => e.WellFormed c.fieldCap := by
  refine .andThen .peek fun kind => ?_
  split
  · exact .andThen .next fun _ => .bind (h.operation _) fun _ _ => .ending (.since _) (by grind)
  · exact primary_yields h

theorem operation_yields (h : r.Shapely c) (limit : Nat) :
    Yields c (operation r limit) fun e => e.WellFormed c.fieldCap := by
  refine .andThen .head fun start => .bind (operand_yields h) fun first holds =>
    .loop (fun e : Exp => e.WellFormed c.fieldCap) holds fun left holds => .andThen .peek fun kind => ?_
  split
  · exact .ite (fun _ => .pure holds) fun _ => .andThen .next fun _ =>
      .bind (h.operation _) fun _ _ => .ending (.since _) (by grind)
  · exact .pure holds

end Parser

end LuaChunk
