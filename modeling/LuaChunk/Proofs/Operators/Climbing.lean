import LuaChunk.Analysis
import LuaChunk.Proofs.Lexer.Waiting
import LuaChunk.Proofs.Operators.Grouping

/-!
# Climbing

Reading a sequence of operands and operators gives the grouped tree.  The proof goes the other way
round: whichever grouped tree the sequence is the in-order reading of, reading the sequence gives
that tree, so there is no other.  A run over the operators of a loop is stated for whatever the loop
goes on to do, since the left operand of an operator is what the same loop has read so far.
-/

set_option autoImplicit false

namespace LuaChunk

/-! ## Runs over known tokens -/

/-- The session stands before some tokens, no lexical error waits, and this much is recorded. -/
structure Session.Before (log : ErrorLog) (tokens : List Token) (s : Session) : Prop where
  ahead : s.tokens.ahead.map (·.token) = tokens
  final : s.tokens.final.token.kind = .eof
  waiting : s.tokens.waiting = []
  log_eq : s.log = log

def firstKind : List Token → TokenKind
  | [] => .eof
  | t :: _ => t.kind

namespace Session.Before

variable {log : ErrorLog} {tokens rest : List Token} {t : Token} {s : Session}

theorem look (h : s.Before log tokens) (count : Nat) :
    Session.Before log tokens { s with tokens := s.tokens.look count } := by
  constructor
  · simp [h.ahead]
  · simp [h.final]
  · simp [h.waiting]
  · exact h.log_eq

theorem kind (h : s.Before log tokens) : (s.tokens.upcoming 0).token.kind = firstKind tokens := by
  rw [← h.ahead]
  unfold TokenStream.upcoming
  cases s.tokens.ahead with
  | nil => exact h.final
  | cons r rest => rfl

theorem next_fst (h : s.Before log (t :: rest)) : s.tokens.next.1 = t := by
  have looked := (h.look 1).ahead
  unfold TokenStream.next
  dsimp only at looked ⊢
  cases ahead : (s.tokens.look 1).ahead with
  | nil =>
    rw [ahead] at looked
    cases looked
  | cons r more =>
    rw [ahead, List.map_cons, List.cons.injEq] at looked
    exact looked.1

theorem next (h : s.Before log (t :: rest)) :
    Session.Before log rest { s with tokens := s.tokens.next.2 } := by
  constructor
  · have ahead := congrArg List.tail h.ahead
    rwa [← List.map_tail, List.tail_cons, ← s.tokens.ahead_next] at ahead
  · exact (congrArg (·.token.kind) s.tokens.final_next).trans h.final
  · exact s.tokens.waiting_next.trans h.waiting
  · exact h.log_eq

end Session.Before

namespace Parser

variable {α β σ : Type}

/-- What a run from before some tokens ends with. -/
def From (log : ErrorLog) (tokens : List Token) (p : Parser α)
    (K : EStateM.Result Abort Session α → Prop) : Prop :=
  ∀ s : Session, s.Before log tokens → K (p s)

/-- A run ends before some tokens with a result and has recorded nothing. -/
def Returned (log : ErrorLog) (rest : List Token) (P : α → Prop) :
    EStateM.Result Abort Session α → Prop
  | .ok a s => P a ∧ s.Before log rest
  | .error _ _ => False

/-- A run ends the analysis. -/
def Stopped : EStateM.Result Abort Session α → Prop
  | .ok _ _ => False
  | .error _ _ => True

/-- A run returns if something fits, and is stopped if not. -/
def Within (fits : Prop) (log : ErrorLog) (rest : List Token) (P : α → Prop)
    (result : EStateM.Result Abort Session α) : Prop :=
  (fits → Returned log rest P result) ∧ (¬ fits → Stopped result)

namespace From

variable {log : ErrorLog} {tokens rest : List Token} {p : Parser α} {f : α → Parser β}
  {P : α → Prop} {K : EStateM.Result Abort Session β → Prop}

/-- A run of two parsers goes on where the first one returns. -/
theorem bind_of {J : EStateM.Result Abort Session α → Prop} (h : From log tokens p J)
    (ok : ∀ a s, J (.ok a s) → K (f a s))
    (error : ∀ abort s, J (.error abort s) → K (.error abort s)) :
    From log tokens (p >>= f) K := by
  intro s before
  have ends := h s before
  change K (EStateM.bind p f s)
  unfold EStateM.bind
  revert ends
  cases p s with
  | ok a s' => exact ok a s'
  | error abort s' => exact error abort s'

theorem bind (h : From log tokens p (Returned log rest P))
    (k : ∀ a, P a → From log rest (f a) K) : From log tokens (p >>= f) K :=
  h.bind_of (fun a s ⟨result, after⟩ => k a result s after) fun _ _ => False.elim

theorem stop (h : From log tokens p Stopped) (k : ∀ result, Stopped result → K result) :
    From log tokens (p >>= f) K :=
  h.bind_of (fun _ _ => False.elim) fun abort s => k (.error abort s)

theorem mono {J K : EStateM.Result Abort Session α → Prop} (h : From log tokens p J)
    (sub : ∀ result, J result → K result) : From log tokens p K :=
  fun s before => sub _ (h s before)

theorem within {Q : α → Prop} {fits : Prop} (h : From log tokens p (Returned log rest P))
    (fit : fits) (sub : ∀ a, P a → Q a) : From log tokens p (Within fits log rest Q) := by
  refine h.mono fun result ends => ⟨fun _ => ?_, fun deep => absurd fit deep⟩
  cases result with
  | ok a s => exact ⟨sub a ends.1, ends.2⟩
  | error => exact ends

/-- A run that is stopped if something does not fit goes on if it does. -/
theorem within_bind {fits : Prop} (h : From log tokens p (Within fits log rest P))
    (k : fits → ∀ a, P a → From log rest (f a) K)
    (stopped : ¬ fits → ∀ result, Stopped result → K result) :
    From log tokens (p >>= f) K := by
  by_cases fit : fits
  · exact (h.mono fun _ ends => ends.1 fit).bind (k fit)
  · exact (h.mono fun _ ends => ends.2 fit).stop (stopped fit)

theorem pure {a : α} (result : P a) : From log rest (Pure.pure a) (Returned log rest P) :=
  fun _ before => ⟨result, before⟩

/-- A level deeper, a run ends as it would here. -/
theorem nested_of {J K : EStateM.Result Abort Session α → Prop} (h : From log tokens p J)
    (ok : ∀ a s, J (.ok a s) → K (.ok a { s with depth := s.depth - 1 }))
    (error : ∀ abort s, J (.error abort s) → K (.error abort { s with depth := s.depth - 1 })) :
    From log tokens (Parser.nested p) K := by
  intro s before
  have ends := h { s with depth := s.depth + 1 }
    ⟨before.ahead, before.final, before.waiting, before.log_eq⟩
  unfold Parser.nested
  revert ends
  cases p { s with depth := s.depth + 1 } with
  | ok a s' => exact ok a s'
  | error abort s' => exact error abort s'

theorem nested (h : From log tokens p (Returned log rest P)) :
    From log tokens (Parser.nested p) (Returned log rest P) :=
  h.nested_of (fun _ _ ⟨result, after⟩ =>
    ⟨result, after.ahead, after.final, after.waiting, after.log_eq⟩) fun _ _ => id

theorem nested_stopped (h : From log tokens p Stopped) :
    From log tokens (Parser.nested p) Stopped :=
  h.nested_of (fun _ _ => id) fun _ _ => id

theorem nested_within {fits : Prop} (h : From log tokens p (Within fits log rest P)) :
    From log tokens (Parser.nested p) (Within fits log rest P) := by
  by_cases fit : fits
  · exact (From.nested (h.mono fun _ ends => ends.1 fit)).within fit fun _ => id
  · refine (From.nested_stopped (h.mono fun _ ends => ends.2 fit)).mono fun _ stopped => ?_
    exact ⟨fun fits => absurd fits fit, fun _ => stopped⟩

end From

section Primitives

variable {log : ErrorLog} {tokens rest : List Token} {t : Token}

theorem peek_from : From log tokens peek (Returned log tokens (· = firstKind tokens)) :=
  fun _ before => ⟨before.kind, before.look 1⟩

theorem head_from : From log tokens head (Returned log tokens fun _ => True) :=
  fun _ before => ⟨trivial, before.look 1⟩

theorem since_from (start : Span) :
    From log tokens (since start) (Returned log tokens fun _ => True) :=
  fun _ before => ⟨trivial, before⟩

theorem syncBefore_from (p : Position) :
    From log tokens (syncBefore p) (Returned log tokens fun _ => True) := by
  intro s before
  have taken := TokenStream.takeErrorsBefore_of_waiting before.waiting p
  change Returned log tokens _ (EStateM.bind (onTokens (·.takeErrorsBefore p)) recordAll s)
  simp only [EStateM.bind, onTokens, taken]
  exact ⟨trivial, before⟩

theorem bind_stopped {p : Parser α} {f : α → Parser β} (h : ∀ a s, Stopped (f a s))
    (s : Session) : Stopped ((p >>= f) s) := by
  change Stopped (EStateM.bind p f s)
  unfold EStateM.bind
  cases p s with
  | ok a s' => exact h a s'
  | error => trivial

theorem tooDeep_from : From log tokens (tooDeep : Parser α) Stopped := by
  intro s _
  apply bind_stopped
  intro _
  apply bind_stopped
  intro _
  apply bind_stopped
  exact fun _ _ => trivial

theorem next_from (more : t.kind ≠ .eof) :
    From log (t :: rest) next (Returned log rest (· = t)) := by
  have take : From log (t :: rest) (onTokens (·.next)) (Returned log rest (· = t)) :=
    fun _ before => ⟨before.next_fst, before.next⟩
  refine take.bind ?_
  rintro _ rfl
  dsimp only
  rw [if_neg more]
  exact (syncBefore_from _).bind fun _ _ => .pure rfl

end Primitives

/-! ## Loops -/

section Loops

variable {log : ErrorLog} {tokens rest : List Token} {start x : σ}
  {step : σ → Parser (ForInStep σ)}

theorem iterate_from {K : EStateM.Result Abort Session σ → Prop}
    (h : ∀ clock : List Scanned, tokens.length ≤ clock.length →
      From log tokens (iterateFor step clock start) K) :
    From log tokens (iterate start step) K := by
  intro s before
  have same : tokens.length = s.tokens.ahead.length := by rw [← before.ahead, List.length_map]
  exact h s.tokens.ahead (Nat.le_of_eq same) s before

theorem iterateFor_done {b : σ} (h : From log tokens (step x) (Returned log rest (· = .done b)))
    (clock : List Scanned) :
    From log tokens (iterateFor step clock x) (Returned log rest (· = b)) := by
  cases clock with
  | nil =>
    refine h.bind ?_
    rintro _ rfl
    exact .pure rfl
  | cons r clock =>
    refine h.bind ?_
    rintro _ rfl
    exact .pure rfl

theorem iterateFor_yield {fits : Prop} {P : σ → Prop} {K : EStateM.Result Abort Session σ → Prop}
    (h : From log tokens (step x) (Within fits log rest fun next => ∃ y, next = .yield y ∧ P y))
    {clock : List Scanned} (more : rest.length < clock.length)
    (k : fits → ∀ y, P y → ∀ clock : List Scanned, rest.length ≤ clock.length →
      From log rest (iterateFor step clock y) K)
    (stopped : ¬ fits → ∀ result, Stopped result → K result) :
    From log tokens (iterateFor step clock x) K := by
  cases clock with
  | nil => exact absurd more (Nat.not_lt_zero _)
  | cons r clock =>
    refine h.within_bind ?_ stopped
    rintro fit _ ⟨y, rfl, result⟩
    exact k fit y result clock (Nat.le_of_lt_succ more)

end Loops

/-! ## Operands -/

/-- What may follow an operation that is read to some limit: the end of input, or an operator that
does not bind more tightly. -/
def Follows (limit : Nat) (kind : TokenKind) : Prop :=
  kind = .eof ∨ ∃ op : BinaryOp, kind = op.token ∧ op.priority ≤ limit

/-- What ends the reading of a tree to a limit ends that of its last part. -/
theorem Follows.last {limit : Nat} {kind : TokenKind} (h : Follows limit kind) {e : Exp}
    (above : e.Above limit) (small : limit ≤ 11) : Follows e.lastLimit kind := by
  rcases h with eof | ⟨op, same, loose⟩
  · exact .inl eof
  · refine .inr ⟨op, same, ?_⟩
    cases e with
    | binary q => exact Nat.le_trans loose (BinaryOp.le_rightLimit above)
    | unary => exact BinaryOp.priority_le_of_le (Nat.le_trans loose small)
    | _ => exact op.priority_le

section Operands

variable {log : ErrorLog} {rest : List Token} {limit : Nat} {r : Rules}

theorem suffix_from (follows : Follows limit (firstKind rest)) (e : Exp) :
    From log rest (suffix r e) (Returned log rest (· = .done e)) := by
  refine peek_from.bind ?_
  rintro _ rfl
  rcases follows with eof | ⟨op, same, -⟩
  · rw [eof]
    exact .pure rfl
  · rw [same]
    cases op <;> exact .pure rfl

theorem primary_from {t : Token} {e : Exp} (found : t.operand? = some e)
    (follows : Follows limit (firstKind rest)) :
    From log (t :: rest) (primary r) (Returned log rest (· = e)) := by
  unfold Token.operand? at found
  split at found
  · next identifier =>
    cases found
    have take : From log (t :: rest) next (Returned log rest (· = t)) :=
      next_from (by simp [identifier])
    refine peek_from.bind ?_
    rintro _ rfl
    rw [firstKind, identifier]
    refine peek_from.bind ?_
    rintro _ rfl
    rw [firstKind, identifier]
    refine take.bind ?_
    rintro _ rfl
    exact iterate_from fun clock _ => iterateFor_done (suffix_from follows _) clock
  · next number =>
    split at found
    · next value read =>
      cases found
      have take : From log (t :: rest) next (Returned log rest (· = t)) :=
        next_from (by simp [number])
      refine peek_from.bind ?_
      rintro _ rfl
      rw [firstKind, number]
      refine take.bind ?_
      rintro _ rfl
      rw [read]
      exact .pure rfl
    · cases found
  · cases found

end Operands

/-! ## Operators -/

/-- Every grouped tree is read back, up to spans, if it nests no deeper than some number of levels,
and otherwise the analysis is stopped. -/
def Climbs (log : ErrorLog) (levels : Nat) (operation : Nat → Parser Exp) : Prop :=
  ∀ (e : Exp) (tokens rest : List Token) (limit : Nat), e.Grouped →
    e.inorder = tokens.map Token.symbol → e.Above limit → limit ≤ 11 →
    Follows limit (firstKind rest) →
    From log (tokens ++ rest) (operation limit)
      (Within (e.nesting ≤ levels) log rest (·.shape = e.shape))

section Operators

variable {log : ErrorLog} {rest : List Token} {n : Nat} {r : Rules}

theorem operand_from {t : Token} {e : Exp} (found : t.operand? = some e) {limit : Nat}
    (follows : Follows limit (firstKind rest)) :
    From log (t :: rest) (operand r) (Returned log rest (· = e)) := by
  have noPrefix : UnaryOp.ofToken? t.kind = none := by
    unfold Token.operand? at found
    split at found
    · next identifier => rw [identifier]; rfl
    · next number => rw [number]; rfl
    · cases found
  refine peek_from.bind ?_
  rintro _ rfl
  rw [firstKind, noPrefix]
  exact primary_from found follows

theorem operand_unary_from (h : Climbs log n r.operation) {op : UnaryOp} {e : Exp} {span : Span}
    {t : Token} {tokens : List Token} (kind : t.kind = op.token)
    (inorder : e.inorder = tokens.map Token.symbol) (grouped : (Exp.unary op e span).Grouped)
    (follows : Follows UnaryOp.priority (firstKind rest)) :
    From log (t :: (tokens ++ rest)) (operand r)
      (Within (e.nesting + 1 ≤ n + 1) log rest (·.shape = (Exp.unary op e span).shape)) := by
  obtain ⟨grouped, under⟩ := grouped
  have above : e.Above UnaryOp.priority := by
    cases e with
    | binary q =>
      rw [show q = .pow from under]
      exact (by decide : UnaryOp.priority < BinaryOp.pow.priority)
    | _ => trivial
  have more : t.kind ≠ .eof := by
    rw [kind]
    cases op <;> decide
  refine peek_from.bind ?_
  rintro _ rfl
  rw [firstKind, UnaryOp.ofToken?_eq_some.2 kind]
  refine (next_from more).bind ?_
  rintro _ rfl
  refine (h e tokens rest _ grouped inorder above (by decide) follows).within_bind ?_ ?_
  · intro fits operand same
    refine (since_from _).bind fun _ _ => ?_
    refine (From.pure ?_).within (Nat.succ_le_succ fits) fun _ => id
    rw [Exp.shape, Exp.shape, same]
  · intro deep result stopped
    exact ⟨fun fits => absurd (Nat.le_of_succ_le_succ fits) deep, fun _ => stopped⟩

/-- One round of the loop reads an operator above the limit and its right operand. -/
theorem infixOp_from (h : Climbs log n r.operation) (start : Span) (left : Exp) {op : BinaryOp}
    {e : Exp} {limit : Nat} {t : Token} {tokens : List Token} (kind : t.kind = op.token)
    (above : limit < op.priority) (inorder : e.inorder = tokens.map Token.symbol)
    (grouped : e.Grouped) (right : op.TakesRight e)
    (follows : Follows op.rightLimit (firstKind rest)) :
    From log (t :: (tokens ++ rest)) (infixOp r limit start left)
      (Within (e.nesting ≤ n) log rest fun next =>
        ∃ y, next = .yield y ∧ y.shape = .binary op left.shape e.shape .synthetic) := by
  have fits : e.Above op.rightLimit := by
    cases e with
    | binary q => exact BinaryOp.takesRight_binary.1 right
    | _ => trivial
  have more : t.kind ≠ .eof := by
    rw [kind]
    cases op <;> decide
  refine peek_from.bind ?_
  rintro _ rfl
  rw [firstKind, BinaryOp.ofToken?_eq_some.2 kind]
  dsimp only
  rw [if_neg (Nat.not_le_of_lt above)]
  refine (next_from more).bind fun _ _ => ?_
  refine (h e tokens rest _ grouped inorder fits op.rightLimit_le follows).within_bind ?_ ?_
  · intro fits operand same
    refine (since_from _).bind fun _ _ => ?_
    refine (From.pure ⟨_, rfl, ?_⟩).within fits fun _ => id
    rw [Exp.shape, same]
  · intro deep result stopped
    exact ⟨fun fits => absurd fits deep, fun _ => stopped⟩

/-- The operand at the left end of a tree and every round of the loop up to its root, whatever the
loop goes on to do. -/
theorem spine_from (h : Climbs log n r.operation) {limit : Nat} {start : Span}
    {K : EStateM.Result Abort Session Exp → Prop} (e : Exp) {tokens rest : List Token}
    (grouped : e.Grouped) (inorder : e.inorder = tokens.map Token.symbol) (above : e.Above limit)
    (follows : Follows e.lastLimit (firstKind rest))
    (stopped : ¬ e.nesting ≤ n + 1 → ∀ result, Stopped result → K result)
    (k : e.nesting ≤ n + 1 → ∀ first : Exp, first.shape = e.shape → ∀ clock : List Scanned,
      rest.length ≤ clock.length →
        From log rest (iterateFor (infixOp r limit start) clock first) K) :
    From log (tokens ++ rest)
      (do let first ← operand r; iterate first (infixOp r limit start)) K := by
  induction e using Exp.operations generalizing tokens rest with
  | operand e leaf =>
    rw [Exp.inorder_operand leaf] at inorder
    obtain ⟨t, rfl, found⟩ := Token.operand_of_symbols inorder.symm
    refine (operand_from found follows).bind ?_
    rintro _ rfl
    exact iterate_from (k (by rw [Exp.nesting_operand leaf]; omega) _ rfl)
  | unary op e span =>
    rw [Exp.inorder] at inorder
    obtain ⟨t, tokens, rfl, kind, inorder⟩ := Token.operator_of_symbols inorder.symm
    refine (operand_unary_from h kind inorder grouped follows).within_bind ?_ stopped
    intro fits first same
    exact iterate_from (k fits first same)
  | binary op left right span first second =>
    obtain ⟨groupedLeft, groupedRight, takesLeft, takesRight⟩ := grouped
    rw [Exp.inorder] at inorder
    obtain ⟨before, after, rfl, inorderLeft, inorderAfter⟩ := List.map_eq_append_iff.1 inorder.symm
    obtain ⟨t, after, rfl, kind, inorderRight⟩ := Token.operator_of_symbols inorderAfter
    have loose : Follows left.lastLimit t.kind := .inr ⟨op, kind, takesLeft.le_lastLimit⟩
    rw [List.append_assoc]
    refine first groupedLeft inorderLeft.symm (takesLeft.above above) loose ?_ ?_
    · intro deep
      exact stopped fun fits => deep (Nat.le_trans (Nat.le_max_left _ _) fits)
    · intro fitsLeft acc same clock long
      have round := infixOp_from h start acc kind above inorderRight groupedRight takesRight follows
      refine iterateFor_yield round ?_ ?_ ?_
      · rw [List.cons_append, List.length_cons, List.length_append] at long
        omega
      · intro fitsRight y shape
        refine k (Nat.max_le.2 ⟨fitsLeft, Nat.succ_le_succ fitsRight⟩) y ?_
        rw [shape, same, Exp.shape]
      · intro deep
        exact stopped fun fits =>
          deep (Nat.le_of_succ_le_succ (Nat.le_trans (Nat.le_max_right _ _) fits))

theorem infixOp_done {limit : Nat} {start : Span} {left : Exp}
    (follows : Follows limit (firstKind rest)) :
    From log rest (infixOp r limit start left) (Returned log rest (· = .done left)) := by
  refine peek_from.bind ?_
  rintro _ rfl
  rcases follows with eof | ⟨op, same, loose⟩
  · rw [eof]
    exact .pure rfl
  · rw [BinaryOp.ofToken?_eq_some.2 same]
    dsimp only
    rw [if_pos loose]
    exact .pure rfl

theorem level_climbs (log : ErrorLog) (n : Nat) :
    Climbs log n (Rules.level n).operation := by
  induction n with
  | zero =>
    intro e tokens rest limit _ _ _ _ _
    refine From.mono tooDeep_from fun _ stopped => ⟨fun fits => ?_, fun _ => stopped⟩
    exact absurd e.nesting_pos (Nat.not_lt.2 fits)
  | succ n inductionHypothesis =>
    intro e tokens rest limit grouped inorder above small follows
    refine From.nested_within (head_from.bind fun start _ => ?_)
    refine spine_from inductionHypothesis e grouped inorder above (follows.last above small) ?_ ?_
    · exact fun deep _ stopped => ⟨fun fits => absurd fits deep, fun _ => stopped⟩
    · intro fits first same clock _
      refine (iterateFor_done (infixOp_done follows) clock).within fits ?_
      rintro _ rfl
      exact same

end Operators

end Parser

/-- A sequence is the in-order reading of no more than one grouped tree, up to spans. -/
theorem Session.Before.shape_eq {log : ErrorLog} {tokens : List Token} {s : Session}
    (h : s.Before log tokens) {e e' : Exp} (inorder : e.inorder = tokens.map Token.symbol)
    (inorder' : e'.inorder = tokens.map Token.symbol) (grouped : e.Grouped)
    (grouped' : e'.Grouped) : e'.shape = e.shape := by
  have levels := Parser.level_climbs log (max e.nesting e'.nesting)
  have all : s.Before log (tokens ++ []) := by rwa [List.append_nil]
  have first := (levels e tokens [] 0 grouped inorder e.above_zero (Nat.zero_le _) (.inl rfl) s
    all).1 (Nat.le_max_left _ _)
  have second := (levels e' tokens [] 0 grouped' inorder' e'.above_zero (Nat.zero_le _) (.inl rfl)
    s all).1 (Nat.le_max_right _ _)
  revert first second
  cases (Rules.level (max e.nesting e'.nesting)).operation 0 s with
  | ok a s' => exact fun first second => second.1.symm.trans first.1
  | error => exact False.elim

/-- **Climbing.**  Before a sequence of operands and operators, reading an expression gives the only
tree, up to spans, that is grouped by the operator table and has the sequence as its in-order
reading.  It takes the whole sequence and records nothing, if the tree nests no deeper than allowed;
otherwise the analysis is stopped. -/
theorem Session.exp_climbs (s : Session) {tokens : List Token} (chain : Chain tokens)
    (ahead : s.tokens.ahead.map (·.token) = tokens) (final : s.tokens.final.token.kind = .eof)
    (waiting : s.tokens.waiting = []) :
    ∃ e : Exp, e.inorder = tokens.map Token.symbol ∧ e.Grouped ∧
      (∀ e' : Exp, e'.inorder = tokens.map Token.symbol → e'.Grouped → e'.shape = e.shape) ∧
      (s.depth + e.nesting ≤ s.settings.maxNesting →
        s.exp.1 = some e ∧ s.exp.2.tokens.ahead = [] ∧ s.exp.2.errors = s.errors) ∧
      (s.settings.maxNesting < s.depth + e.nesting → s.exp.1 = none) := by
  have before : s.Before s.log tokens := ⟨ahead, final, waiting, rfl⟩
  obtain ⟨e, inorder, grouped⟩ := chain.exists_grouped
  have positive := e.nesting_pos
  have all : s.Before s.log (tokens ++ []) := by rwa [List.append_nil]
  have ends := Parser.level_climbs s.log (s.settings.maxNesting - s.depth) e tokens [] 0 grouped
    inorder e.above_zero (Nat.zero_le _) (.inl rfl) s all
  by_cases fits : s.depth + e.nesting ≤ s.settings.maxNesting
  · have returned := ends.1 (by omega)
    unfold exp
    change Parser.Returned _ _ _ (s.rules.exp s) at returned
    revert returned
    cases s.rules.exp s with
    | error => exact False.elim
    | ok a s' =>
      rintro ⟨shape, after⟩
      have inorder' : a.inorder = tokens.map Token.symbol := by
        rw [← a.inorder_shape, shape, e.inorder_shape, inorder]
      have grouped' : a.Grouped := by rwa [← a.grouped_shape, shape, e.grouped_shape]
      have nesting : a.nesting = e.nesting := by rw [← a.nesting_shape, shape, e.nesting_shape]
      refine ⟨a, inorder', grouped', ?_, ?_, ?_⟩
      · exact fun e' reading isGrouped => before.shape_eq inorder' reading grouped' isGrouped
      · intro _
        exact ⟨rfl, List.map_eq_nil_iff.1 after.ahead, congrArg (·.diagnostics.toList) after.log_eq⟩
      · intro deep
        omega
  · have stopped := ends.2 (by omega)
    refine ⟨e, inorder, grouped, ?_, fun fit => absurd fit fits, fun _ => ?_⟩
    · exact fun e' reading isGrouped => before.shape_eq inorder reading grouped isGrouped
    · unfold exp
      change Parser.Stopped (s.rules.exp s) at stopped
      revert stopped
      cases s.rules.exp s with
      | error => exact fun _ => rfl
      | ok => exact False.elim

theorem Session.exp_climbs_power :
    let s := start "-a^2".toUTF8.toList "" {}
    let tokens : List Token :=
      [ ⟨.minus, "-", ⟨⟨1, 1⟩, ⟨1, 2⟩⟩⟩, ⟨.identifier, "a", ⟨⟨1, 2⟩, ⟨1, 3⟩⟩⟩,
        ⟨.caret, "^", ⟨⟨1, 3⟩, ⟨1, 4⟩⟩⟩, ⟨.number, "2", ⟨⟨1, 4⟩, ⟨1, 5⟩⟩⟩ ]
    ∃ e : Exp, e.inorder = tokens.map Token.symbol ∧ e.Grouped ∧
      (∀ e' : Exp, e'.inorder = tokens.map Token.symbol → e'.Grouped → e'.shape = e.shape) ∧
      (s.depth + e.nesting ≤ s.settings.maxNesting →
        s.exp.1 = some e ∧ s.exp.2.tokens.ahead = [] ∧ s.exp.2.errors = s.errors) ∧
      (s.settings.maxNesting < s.depth + e.nesting → s.exp.1 = none) := by
  intro s tokens
  have chain : Chain tokens := .before .neg rfl (.between .pow rfl rfl (.operand rfl))
  apply exp_climbs s chain
  · decide +kernel
  · decide +kernel
  · decide +kernel

end LuaChunk
