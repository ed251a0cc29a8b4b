import LuaChunk.Proofs.Anchors.Steps
import LuaChunk.Proofs.Tree.Spots

/-!
# Places of expressions

An expression stands between the mark before it and the mark after it, unless it is the placeholder
of a malformed numeral.
-/

set_option autoImplicit false

namespace LuaChunk

attribute [grind =] Span.merge Span.upTo

/-- An expression that has been read between two marks. -/
@[grind =]
def Exp.Sits (d : Dialect) (stop : Position) (m m' : Mark) (e : Exp) : Prop :=
  (e.span = .synthetic ∨ e.span.Between m.front m'.now.stop) ∧ Sound d stop (e.spots false)

/-- An expression in the text that has been read from a position on. -/
@[grind =]
def Exp.Heads (d : Dialect) (stop front : Position) (m : Mark) (e : Exp) : Prop :=
  e.span.start = front ∧ .start ≤ front ∧ front ≤ m.now.start ∧ front ≤ e.span.stop ∧
    e.span.stop ≤ m.now.stop ∧ Sound d stop (e.spots false)

/-- The rules of a level return trees with sound locations. -/
structure Rules.Anchored (d : Dialect) (stop : Position) (r : Rules) : Prop where
  block (m : Mark) : Parser.Anchors d stop m r.block fun _ b => Sound d stop b.spots
  stat (m : Mark) : Parser.Anchors d stop m r.stat fun _ s => Sound d stop s.spots
  operation (m : Mark) (limit : Nat) : Parser.Anchors d stop m (r.operation limit) (Exp.Sits d stop m)
  functionBody (m : Mark) (style : FunctionStyle) : Parser.Anchors d stop m (r.functionBody style)
    fun m' b => m.front ≤ m'.now.start ∧ Sound d stop b.spots
  table (m : Mark) : Parser.Anchors d stop m r.table (Exp.Sits d stop m)
  parenthesised (m : Mark) : Parser.Anchors d stop m r.parenthesised (Exp.Sits d stop m)

namespace Parser

variable {d : Dialect} {stop : Position} {m : Mark} {r : Rules}

theorem exp_anchors (h : r.Anchored d stop) : Anchors d stop m r.exp (Exp.Sits d stop m) :=
  h.operation m 0

/-- Expressions that stand one after the other. -/
def Successive (stop : Position) (es : List Exp) : Prop :=
  (es.map (·.span)).Pairwise fun a b =>
    a.Between .start stop → b.Between .start stop → a.start ≤ b.stop

theorem Successive.concat {es : List Exp} {e : Exp} (h : Successive stop es)
    (last : ∀ a ∈ es, a.span.Between .start stop → e.span.Between .start stop →
      a.span.start ≤ e.span.stop) : Successive stop (es ++ [e]) := by
  unfold Successive
  rw [List.map_append, List.pairwise_append]
  exact ⟨h, List.pairwise_singleton _ _, List.forall_mem_map.2 fun a among => by
    simpa using last a among⟩

theorem expList_anchors (h : r.Anchored d stop) : Anchors d stop m (expList r) fun m' es =>
    (∀ e ∈ es, e.Sits d stop m m') ∧ Successive stop es := by
  refine .bind (exp_anchors h) fun m₁ first leads sits => .map (.iterate
    (fun m' es => (∀ e ∈ es.toList, e.Sits d stop m m') ∧ Successive stop es.toList) ?_
    fun m₂ es leads₂ ⟨all, ordered⟩ => ?_) fun _ _ _ => id
  · exact fun _ => ⟨by grind, List.pairwise_singleton _ _⟩
  refine .andThen (.accepts .comma) fun m₃ _ leads₃ => .ite
    (fun _ => .map (exp_anchors h) fun m₄ e leads₄ sits => ?_) fun _ => .pure fun _ => ?_
  · refine ⟨by grind, ?_⟩
    simp only [ForInStep.value, Array.toList_push]
    exact ordered.concat (by grind)
  · exact ⟨by grind, ordered⟩

theorem numeral_anchors : Anchors d stop m numeral (Exp.Sits d stop m) := by
  refine .bind .next fun m₁ token leads took => ?_
  split
  · exact .pure fun _ => by grind [Exp.span]
  · exact .pure fun _ => by grind [Exp.span]
  · exact .complain rfl (by grind) (.pure fun _ => by grind [Exp.span])

/-! ## Functions -/

theorem params_anchors :
    Anchors d stop m params fun _ ps => ∀ p ∈ ps.1, p.span.Located stop := by
  refine .peek fun kind => .isMooc (.ite (fun _ => .pure (by simp)) fun _ => .ite
    (fun _ => .andThen .next fun _ _ _ => .pure (by simp)) fun _ => .bind .expectName
    fun m₁ first leads took => .map (.iterate (fun _ read => ∀ p ∈ read.1.toList, p.span.Located stop)
      (by grind) fun m₂ read leads₂ all => ?_) fun _ _ _ => id)
  refine .andThen (.accepts .comma) fun m₃ _ leads₃ => .ite (fun _ => .peek fun _ => .ite
    (fun _ => ?_) fun _ => ?_) fun _ => .pure fun _ => by grind
  · exact .map .next fun m₄ name leads₄ took => by grind
  · exact .andThen (.expect .vararg) fun _ _ _ => .pure fun _ => by grind

theorem openFunctionBlock_stays (style : FunctionStyle) :
    Stays d stop m (openFunctionBlock style) := by
  cases style with
  | ended => exact .andThen (.expect .rparen) fun _ _ _ => .done _
  | braced =>
    exact .andThen (.expect .rparen) fun _ _ _ => .andThen (.expect .lbrace) fun _ _ _ => .done _
  | anonymous => exact .andThen (.expect .kwIn) fun _ _ _ => .done _

theorem functionBody_anchors (h : r.Anchored d stop) (style : FunctionStyle) :
    Anchors d stop m (functionBody r style)
      fun m' b => m.front ≤ m'.now.start ∧ Sound d stop b.spots :=
  .bind (.expect _) fun m₁ _ leads took => .bind params_anchors fun m₂ (_, _) leads₂ located =>
    .andThen (openFunctionBlock_stays style) fun m₃ _ leads₃ => .bind (.within _ _ (h.block m₃))
    fun m₄ _ leads₄ sound => .bind (.expect _) fun m₅ _ leads₅ took' => .pure fun _ => by grind

theorem functionExp_anchors (h : r.Anchored d stop) (style : FunctionStyle) {start : Span}
    (low : .start ≤ start.start) (before : start.start ≤ m.front) :
    Anchors d stop m (functionExp r style start) fun m' e => e.span.start = start.start ∧
      e.span.start ≤ e.span.stop ∧ e.span.stop ≤ m'.now.stop ∧ Sound d stop (e.spots false) :=
  .bind (h.functionBody m style) fun m₁ _ leads moved => .since start (.pure fun _ => by
    grind [Exp.span])

theorem atAnonymousFunction_stays : Stays d stop m atAnonymousFunction :=
  .isMooc (.ite (fun _ => .peekWhile _ _) fun _ => .done _)

/-! ## Tables -/

/-- The parts of a field. -/
@[grind =]
def FieldSound (d : Dialect) (stop : Position) (f : Option Exp × Exp) : Prop :=
  (∀ key, f.1 = some key → Sound d stop (key.spots false)) ∧ Sound d stop (f.2.spots false)

theorem bracketedField_anchors (h : r.Anchored d stop) :
    Anchors d stop m (bracketedField r) fun _ f => FieldSound d stop f :=
  .bind (exp_anchors h) fun m₁ _ _ _ => .andThen (.expect .rbracket) fun m₂ _ _ =>
    .andThen (.expect .assign) fun m₃ _ _ => .map (exp_anchors h) fun _ _ _ _ => by grind

theorem plainField_anchors (h : r.Anchored d stop) :
    Anchors d stop m (plainField r) fun _ f => FieldSound d stop f := by
  refine .bind (exp_anchors h) fun m₁ e leads sits => ?_
  split
  · exact .andThen (.accepts .assign) fun m₂ _ leads₂ => .ite
      (fun _ => .map (exp_anchors h) fun _ _ _ _ => by grind) fun _ => .pure fun _ => by grind
  · exact .pure fun _ => by grind

theorem atLiteralKey_stays : Stays d stop m atLiteralKey :=
  .andThen (.peekPair _ _) fun _ _ _ => .ite (fun _ => .done _) fun _ => .peekPair _ _

theorem field_anchors (h : r.Anchored d stop) :
    Anchors d stop m (field r) fun _ f => FieldSound d stop f := by
  refine .andThen (.accepts .lbracket) fun m₁ _ leads => .ite (fun _ => bracketedField_anchors h)
    fun _ => .isMooc (.ite (fun _ => plainField_anchors h) fun _ => ?_)
  refine .andThen atLiteralKey_stays fun m₂ _ _ => .ite (fun _ => ?_) fun _ =>
    .andThen (.peekPair _ _) fun _ _ _ => .ite (fun _ => ?_) fun _ => plainField_anchors h
  · exact .bind (exp_anchors h) fun m₃ _ _ _ => .andThen (.expect .assign) fun m₄ _ _ =>
      .map (exp_anchors h) fun _ _ _ _ => by grind
  · exact .andThen .next fun m₃ _ _ => .bind .expectName fun m₄ _ leads took => .pure fun _ => by
      grind

theorem table_anchors (h : r.Anchored d stop) : Anchors d stop m (table r) (Exp.Sits d stop m) := by
  refine .bind (.expect .lbrace) fun m₁ _ leads took => .bind (.iterate
    (fun _ fields => ∀ f ∈ fields.toList, FieldSound d stop f) (by grind) fun m₂ fields _ all => ?_)
    fun m₃ fields leads₃ all => .bind (.expect .rbrace) fun m₄ _ leads₄ took' =>
    .since _ (.get fun s _ _ => .pure fun _ => ?_)
  · refine .peek fun _ => .ite (fun _ => .pure fun _ => all) fun _ =>
      .bind (field_anchors h) fun _ _ _ _ => .peek fun _ => .ite (fun _ => ?_) fun _ => ?_
    · exact .andThen .next fun _ _ _ => .pure fun _ => by grind
    · exact .pure fun _ => by grind
  · refine ⟨.inr (by grind [Exp.span]), ?_⟩
    simp only [Exp.spots, List.cons_append, sound_cons, sound_append, sound_keysSpots,
      sound_expsSpots]
    refine ⟨by grind, fun key kept => ?_, fun value kept => ?_⟩
    · grind
    · grind

/-! ## Operands -/

theorem args_anchors (h : r.Anchored d stop) :
    Anchors d stop m (args r) fun _ es => ∀ e ∈ es, Sound d stop (e.spots false) := by
  refine .peek fun _ => .isMooc (.ite (fun _ => ?_) fun _ => .ite (fun _ => ?_) fun _ =>
    .andThen (.expect .lparen) fun m₁ _ _ => .peek fun _ => ?_)
  · exact .bind .next fun _ _ _ _ => .pure fun _ => by grind
  · exact .map (h.table m) fun _ _ _ _ => by grind
  · split
    · exact .bind (P := fun _ es => es = []) (.pure fun _ => rfl) fun _ _ _ _ =>
        .andThen (.expect .rparen) fun _ _ _ => .pure fun _ => by grind
    · exact .bind (expList_anchors h) fun _ _ _ all => .andThen (.expect .rparen) fun _ _ _ =>
        .pure fun _ => by grind

theorem atMethodCall_stays : Stays d stop m atMethodCall :=
  .isMooc (.ite (fun _ => .done _) fun _ => .now (.peekToken 0 fun _ => .peekToken 1 fun _ =>
    .peekToken 2 fun _ => .done _))

variable {front : Position}

theorem callOf_anchors (h : r.Anchored d stop) {callee : Exp} (heads : callee.Heads d stop front m)
    {method : Option Param} (located : ∀ p ∈ method, p.span.Located stop) :
    Anchors d stop m (callOf r callee method) fun m' e => e.Heads d stop front m' :=
  .bind (args_anchors h) fun m₁ args leads all => .since _ (.pure fun _ => by
    have sound : Sound d stop (Call.spots ⟨callee, method, args⟩) := by simp; grind
    grind [Exp.span])

theorem suffix_anchors (h : r.Anchored d stop) {e : Exp} (heads : e.Heads d stop front m) :
    Anchors d stop m (suffix r e) fun m' next => next.value.Heads d stop front m' := by
  have called {m' : Mark} {callee : Exp} (heads : callee.Heads d stop front m') {method : Option Param}
      (located : ∀ p ∈ method, p.span.Located stop) :
      Anchors d stop m' (do return .yield (← callOf r callee method))
        fun m'' (next : ForInStep Exp) => next.value.Heads d stop front m'' :=
    .map (callOf_anchors h heads located) fun _ _ _ => id
  refine .peek fun kind => ?_
  split
  · exact .andThen .next fun m₁ _ leads => .bind .expectName fun m₂ name leads₂ took =>
      .pure fun _ => by grind [Exp.field, Exp.span]
  · exact .andThen .next fun m₁ _ leads => .bind (exp_anchors h) fun m₂ _ leads₂ sits =>
      .andThen (.expect .rbracket) fun m₃ _ leads₃ => .since _ (.pure fun _ => by grind [Exp.span])
  · exact .andThen atMethodCall_stays fun m₁ _ leads => .ite (fun _ => .andThen .next
      fun m₂ _ leads₂ => .bind .expectName fun m₃ name leads₃ took =>
      called (by grind) (by grind)) fun _ => .pure fun _ => by grind
  · exact called heads (by simp)
  · exact .isMooc (.ite (fun _ => .pure fun _ => heads) fun _ => called heads (by simp))
  · exact .isMooc (.ite (fun _ => .pure fun _ => heads) fun _ => called heads (by simp))
  · exact .pure fun _ => heads

theorem prefixExp_anchors (h : r.Anchored d stop) :
    Anchors d stop m (prefixExp r) fun m' e => e.Heads d stop m.front m' := by
  refine .peek fun kind => ?_
  split
  · exact .bind .next fun m₁ token leads took => .iterate (fun m' e => Exp.Heads d stop m.front m' e)
      (by grind [Exp.span]) fun m₂ e leads₂ heads => suffix_anchors h heads
  · exact .bind .next fun m₁ opening leads took => .bind (h.parenthesised m₁)
      fun m₂ inner leads₂ sits => .bind (.expect .rparen) fun m₃ _ leads₃ took' => .since _
      (.iterate (fun m' e => Exp.Heads d stop m.front m' e) (by grind [Exp.span]) fun m₄ e leads₄ heads =>
        suffix_anchors h heads)
  · exact .bind .next fun m₁ token leads took => .complain rfl (by grind)
      (.pure fun _ => by grind [Exp.span])

theorem literal_anchors (e : Span → Exp) (span : ∀ s, (e s).span = s)
    (leaf : ∀ s, (e s).spots false = [.node s]) :
    Anchors d stop m (literal e) (Exp.Sits d stop m) :=
  .map .next fun _ _ _ _ => by grind

theorem primary_anchors (h : r.Anchored d stop) :
    Anchors d stop m (primary r) (Exp.Sits d stop m) := by
  have prefixed : Anchors d stop m (prefixExp r) (Exp.Sits d stop m) :=
    (prefixExp_anchors h).mono fun _ _ _ _ => by grind
  refine .peek fun kind => ?_
  split
  · exact literal_anchors _ (fun _ => rfl) (by simp)
  · exact literal_anchors _ (fun _ => rfl) (by simp)
  · exact literal_anchors _ (fun _ => rfl) (by simp)
  · exact literal_anchors _ (fun _ => rfl) (by simp)
  · exact .bind .next fun _ _ _ _ => .pure fun _ => by grind [Exp.span]
  · exact numeral_anchors
  · exact .andThen atAnonymousFunction_stays fun m₁ _ leads => .ite (fun _ => .head fun start first low =>
      (functionExp_anchors h _ (by grind) (by grind)).mono fun _ _ _ _ => by grind) fun _ =>
      (h.table m₁).mono fun _ _ _ _ => by grind
  · exact .isMooc (.ite (fun _ => prefixed) fun _ => .bind .next fun m₁ keyword leads took =>
      (functionExp_anchors h _ (by grind) (by grind)).mono fun _ _ _ _ => by grind)
  · exact .bind .next fun m₁ keyword leads took =>
      (functionExp_anchors h _ (by grind) (by grind)).mono fun _ _ _ _ => by grind
  · exact prefixed

theorem operand_anchors (h : r.Anchored d stop) :
    Anchors d stop m (operand r) (Exp.Sits d stop m) := by
  refine .peek fun kind => ?_
  split
  · exact .bind .next fun m₁ token leads took => .bind (h.operation m₁ _) fun m₂ _ leads₂ sits =>
      .since _ (.pure fun _ => by grind [Exp.span])
  · exact primary_anchors h

theorem operation_anchors (h : r.Anchored d stop) (limit : Nat) :
    Anchors d stop m (operation r limit) (Exp.Sits d stop m) := by
  refine .head fun start first low => .bind (operand_anchors h) fun m₁ e leads sits => .iterate
    (Exp.Sits d stop m) (fun _ => sits) fun m₂ left leads₂ sits => .peek fun kind => ?_
  split
  · exact .ite (fun _ => .pure fun _ => sits) fun _ => .bind .next fun m₃ _ leads₃ took =>
      .bind (h.operation m₃ _) fun m₄ right leads₄ sits₄ => .since _ (.pure fun _ => by
        grind [Exp.span])
  · exact .pure fun _ => sits

end Parser

end LuaChunk
