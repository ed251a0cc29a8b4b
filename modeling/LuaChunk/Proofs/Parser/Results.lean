import LuaChunk.Parser.Block

/-!
# Readings that return

What is known of a parser that has returned a result, taken apart along the parser's own text.
-/

set_option autoImplicit false

namespace LuaChunk.Parser

attribute [grind unfold] ForInStep.value

attribute [grind =] Array.toList_push

variable {α β σ : Type} {s t : Session}

theorem pure_eq_ok {a b : α} : (Pure.pure a : Parser α) s = .ok b t ↔ a = b ∧ s = t := by
  change EStateM.Result.ok a s = .ok b t ↔ _
  simp

theorem bind_eq_ok {p : Parser α} {f : α → Parser β} {b : β} :
    (p >>= f) s = .ok b t ↔ ∃ a u, p s = .ok a u ∧ f a u = .ok b t := by
  change EStateM.bind p f s = _ ↔ _
  unfold EStateM.bind
  cases p s <;> simp [and_assoc]

theorem bind_of_ok {p : Parser α} {a : α} (h : p s = .ok a t) (f : α → Parser β) :
    (p >>= f) s = f a t := by
  change EStateM.bind p f s = _
  unfold EStateM.bind
  rw [h]

theorem bind_of_error {p : Parser α} {abort : Abort} (h : p s = .error abort t) (f : α → Parser β) :
    (p >>= f) s = .error abort t := by
  change EStateM.bind p f s = _
  unfold EStateM.bind
  rw [h]

theorem nested_eq_ok {p : Parser α} {a : α} : nested p s = .ok a t ↔
    ∃ u, p { s with depth := s.depth + 1 } = .ok a u ∧ t = { u with depth := u.depth - 1 } := by
  unfold nested
  cases p { s with depth := s.depth + 1 } <;> simp [eq_comm, and_assoc]

/-- Lexical errors are recorded as they have been cut off the queue. -/
theorem syncBefore_of_cut {s : Session} {p : Position} {taken : List LexicalError}
    {tokens : TokenStream} (cut : s.tokens.takeErrorsBefore p = (taken, tokens)) :
    syncBefore p s = recordAll taken { s with tokens := tokens } := by
  have asked : onTokens (·.takeErrorsBefore p) s = .ok taken { s with tokens := tokens } := by
    simp only [onTokens, cut]
  exact bind_of_ok asked recordAll

/-- What every round of a loop keeps holds at its end. -/
theorem iterate_keeps {I : σ → Session → Prop} {step : σ → Parser (ForInStep σ)} {start end' : σ}
    (round : ∀ x u next v, I x u → step x u = .ok next v → I next.value v) (init : I start s)
    (run : iterate start step s = .ok end' t) : I end' t := by
  have rounds (clock : List Scanned) (x : σ) (u : Session) (holds : I x u)
      (run : iterateFor step clock x u = .ok end' t) : I end' t := by
    induction clock generalizing x u with
    | nil =>
      obtain ⟨next, v, once, rest⟩ := bind_eq_ok.1 run
      cases next with
      | done y | yield y =>
        obtain ⟨rfl, rfl⟩ := pure_eq_ok.1 rest
        exact round x u _ v holds once
    | cons _ clock inductionHypothesis =>
      obtain ⟨next, v, once, rest⟩ := bind_eq_ok.1 run
      cases next with
      | done y =>
        obtain ⟨rfl, rfl⟩ := pure_eq_ok.1 rest
        exact round x u _ v holds once
      | yield y => exact inductionHypothesis y v (round x u _ v holds once) rest
  exact rounds s.tokens.ahead start s init run

end LuaChunk.Parser
