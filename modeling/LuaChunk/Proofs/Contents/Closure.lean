import LuaChunk.Proofs.Contents.Basic

/-!
# What putting parsers together keeps

The parsers of all constructs are put together from a few steps.  A property of parsers that the
steps have, and that is kept by every way of putting parsers together, holds of all that gathers.
-/

set_option autoImplicit false

namespace LuaChunk.Parser

/-- The steps on tokens and on the log have the property, and so has one parser after another. -/
structure Steps (J : {α : Type} → Parser α → Prop) : Prop where
  pure {α : Type} (a : α) : J (Pure.pure a)
  bind {α β : Type} {p : Parser α} {f : α → Parser β} : J p → (∀ a, J (f a)) → J (p >>= f)
  ask {α : Type} (f : Session → α) : (∀ s cap, f (s.capped cap) = f s) → J (do return f (← get))
  onTokens {α : Type} (f : TokenStream → α × TokenStream) : J (onTokens f)
  record (d : Diagnostic) : d.overflow = false → J (record d)

/-- It is also kept by stopping, opening, repeating and going a level deeper. -/
structure Closed (J : {α : Type} → Parser α → Prop) : Prop extends Steps J where
  stop {α β : Type} (cause : Cause) (span : Span) (abort : Abort) (f : β → Parser α) :
    abort ≠ .tooDeep → J (do complain cause span; f (← throw abort))
  tooDeep {α : Type} : J (tooDeep : Parser α)
  iterate {σ : Type} {start : σ} {step : σ → Parser (ForInStep σ)} :
    (∀ x, J (step x)) → J (iterate start step)
  nested {α : Type} {p : Parser α} : J p → J (nested p)
  within {α : Type} {p : Parser α} (kind : ScopeKind) (name : String) :
    J p → J (within kind name p)
  continued : J (onScopes (·.setFound .loop .function 1))
  returned : J (onScopes noteReturn)

namespace Steps

variable {J : {α : Type} → Parser α → Prop} {α β : Type} {p q : Parser α}

theorem ite {c : Prop} [Decidable c] (h : J p) (g : J q) : J (if c then p else q) := by
  split
  · exact h
  · exact g

variable (h : Steps J)

include h

theorem map (g : J p) (f : α → β) : J (do return f (← p)) := h.bind g fun a => h.pure (f a)

theorem recordAll (errors : List LexicalError) : J (recordAll errors) := by
  induction errors with
  | nil => exact h.pure ()
  | cons e rest inductionHypothesis => exact h.bind (h.record _ rfl) fun _ => inductionHypothesis

theorem syncBefore (p : Position) : J (syncBefore p) := h.bind (h.onTokens _) h.recordAll

theorem complain (cause : Cause) (span : Span) : J (complain cause span) :=
  h.bind (h.syncBefore _) fun _ => h.record _ rfl

theorem next : J next :=
  h.bind (h.onTokens _) fun _ => ite
    (h.bind (h.onTokens _) fun _ => h.bind (h.recordAll _) fun _ => h.pure _)
    (h.bind (h.syncBefore _) fun _ => h.pure _)

theorem expectName : J expectName :=
  h.bind h.next fun _ => ite (h.bind (h.complain _ _) fun _ => h.pure _) (h.pure _)

theorem expect (kind : TokenKind) : J (expect kind) :=
  h.bind h.next fun _ => ite (h.bind (h.complain _ _) fun _ => h.pure _) (h.pure _)

theorem now : J now := h.ask _ fun _ _ => rfl

theorem since (start : Span) : J (since start) := h.map h.now _

theorem scopes : J scopes := h.ask _ fun _ _ => rfl

theorem insideLoop : J insideLoop := h.map h.scopes _

theorem head : J head := h.map (h.onTokens _) _

theorem closeBody : J closeBody :=
  h.bind (h.map (h.ask _ fun _ _ => rfl) _) fun _ => h.bind (h.expect _) fun _ => h.pure _

theorem pendingLabel : J pendingLabel :=
  h.bind h.scopes fun _ => ite (h.map h.now _) (h.pure _)

end Steps

/-- What gathers is put together from the steps. -/
theorem Gathers.closed {J : {α : Type} → Parser α → Prop} (c : Closed J) {α : Type} {w : Site}
    {k : Known} {p : Parser α} {l : α → Known} (h : Gathers w k p l) : J p := by
  induction h with
  | weaken _ _ _ inductionHypothesis => exact inductionHypothesis
  | pure a => exact c.pure a
  | bind _ _ first rest => exact c.bind first rest
  | peek => exact c.map (c.onTokens _) _
  | look => exact c.onTokens _
  | ask f same => exact c.ask f same
  | next => exact c.next
  | complain => exact c.complain _ _
  | stop cause span abort f _ _ other => exact c.stop cause span abort f other
  | tooDeep => exact c.tooDeep
  | iterate _ _ round => exact c.iterate round
  | nested _ inside => exact c.nested inside
  | within kind name _ inside => exact c.within kind name inside
  | noteReturn => exact c.returned
  | breakStat =>
    exact c.bind c.next fun _ => c.bind c.insideLoop fun _ =>
      Steps.ite (c.bind (c.complain _ _) fun _ => c.pure _) (c.pure _)
  | continueStat =>
    exact c.bind c.next fun _ => c.bind c.scopes fun _ => c.bind c.insideLoop fun _ =>
      Steps.ite (c.bind c.continued fun _ => c.pure _) (c.bind (c.complain _ _) fun _ => c.pure _)
  | deferStat _ block =>
    have rest (keyword : Token) := c.bind (c.within .function "defer" block) fun body =>
      c.bind c.closeBody fun _ => c.map (c.since keyword.span) fun span =>
        Stat.doBlock .deferred body span
    exact c.bind c.next fun _ => c.bind (c.expect _) fun _ => c.bind c.scopes fun _ =>
      Steps.ite (c.bind (c.complain _ _) fun _ => rest _) (rest _)
  | gotoStat => exact c.bind c.next fun _ => c.bind c.expectName fun _ => c.pure _
  | labelStat =>
    exact c.bind c.next fun _ => c.bind c.expectName fun _ => c.bind (c.expect _) fun _ =>
      c.map (c.since _) _
  | block _ _ stats returns =>
    exact c.bind c.head fun _ => c.bind c.now fun _ => c.bind stats fun _ =>
      c.bind c.pendingLabel fun _ => c.bind (returns {}) fun _ => c.map c.now _

end LuaChunk.Parser
