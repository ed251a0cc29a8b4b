import LuaChunk.Proofs.Lexer.OnDemand

/-!
# Lookahead is invisible

A stream may be looked into and its errors may be drained at any time: the tokens that are taken,
the spans noted with them and the order of the errors depend on nothing but the number of tokens
taken.
-/

set_option autoImplicit false

namespace LuaChunk

/-- All lexical errors of a text, in the order in which reading it to the end meets them. -/
def Scanner.errors (d : Dialect) (s : Scanner) : List LexicalError :=
  (TokenStream.errorLists (s.run d).2 (s.run d).1).flatten

namespace Answer

/-- The tokens taken, the first taken first. -/
def tokens (answers : List Answer) : List Token :=
  answers.filterMap fun
    | taken t => some t
    | _ => none

/-- The errors handed out, in the order of handing out. -/
def errors (answers : List Answer) : List LexicalError :=
  answers.flatMap fun
    | drained errors => errors
    | _ => []

theorem tokens_drained (errors : List LexicalError) : tokens [drained errors] = [] := rfl

theorem errors_drained (es : List LexicalError) : errors [drained es] = es := List.append_nil es

theorem errors_taken (t : Token) : errors [taken t] = [] := rfl

end Answer

/-- The span of the token some places before the last of some tokens. -/
def Token.spanBack (tokens : List Token) (back : Nat) : Span :=
  (tokens.reverse[back]?.map (·.span)).getD .synthetic

namespace TokenStream

/-! ## What requests leave alone -/

/-- The state of a stream that has given out some tokens and errors, told from the stream at the
beginning. -/
structure Served (origin s : TokenStream) (tokens : List Token) (drained : List LexicalError) :
    Prop where
  ahead : s.ahead = origin.ahead.drop tokens.length
  final : s.final = origin.final
  found : tokens = (List.range tokens.length).map fun n => (origin.upcoming n).token
  now : s.now = Token.spanBack tokens 0
  previous : s.previous = Token.spanBack tokens 1
  errors : drained ++ s.waiting = origin.waiting
  ended : origin.ahead.length < tokens.length → 0 < s.seen

theorem previous_next (s : TokenStream) : s.next.2.previous = s.now := by
  rw [← s.now_look 1]
  unfold next
  dsimp only
  cases (s.look 1).ahead with
  | nil => rfl
  | cons r rest => rfl

namespace Served

variable {origin s : TokenStream} {tokens : List Token} {drained : List LexicalError}

theorem ofBytes (d : Dialect) (source : List UInt8) :
    (TokenStream.ofBytes d source).Served (.ofBytes d source) [] [] where
  ahead := rfl
  final := rfl
  found := rfl
  now := rfl
  previous := rfl
  errors := rfl
  ended := fun beyond => absurd beyond (Nat.not_lt_zero _)

theorem look (h : origin.Served s tokens drained) (count : Nat) :
    origin.Served (s.look count) tokens drained where
  ahead := by rw [ahead_look, h.ahead]
  final := by rw [final_look, h.final]
  found := h.found
  now := by rw [now_look, h.now]
  previous := by rw [(s.look_frame count).2.2, h.previous]
  errors := by rw [waiting_look, h.errors]
  ended := by
    intro beyond
    rw [seen_look]
    exact Nat.lt_of_lt_of_le (h.ended beyond) (Nat.le_max_left _ _)

/-- Errors are handed out from the front of those that are pending. -/
theorem drain (h : origin.Served s tokens drained) (cut : Nat) :
    origin.Served { s with pending := s.pending.drop cut } tokens
      (drained ++ s.pending.take cut) where
  ahead := h.ahead
  final := h.final
  found := h.found
  now := h.now
  previous := h.previous
  errors := by
    rw [← h.errors, waiting, waiting, List.append_assoc, ← List.append_assoc (s.pending.take cut),
      List.take_append_drop]
  ended := h.ended

theorem upcoming_eq (h : origin.Served s tokens drained) (n : Nat) :
    s.upcoming n = origin.upcoming (tokens.length + n) := by
  rw [upcoming, upcoming, h.ahead, h.final, List.getElem?_drop]

theorem next (h : origin.Served s tokens drained) :
    origin.Served s.next.2 (tokens ++ [s.next.1]) drained where
  ahead := by
    rw [ahead_next, h.ahead, List.tail_drop, List.length_append]
    rfl
  final := by rw [final_next, h.final]
  found := by
    have token : s.next.1 = (origin.upcoming tokens.length).token := by
      rw [← Nat.add_zero tokens.length, ← h.upcoming_eq]
      exact s.next_after 0
    rw [List.length_append, List.length_singleton, List.range_succ, List.map_append, ← h.found,
      token]
    rfl
  now := by
    rw [now_next, Token.spanBack, List.reverse_append]
    rfl
  previous := by
    rw [previous_next, h.now, Token.spanBack, Token.spanBack, List.reverse_append]
    rfl
  errors := by rw [waiting_next, h.errors]
  ended := by
    intro beyond
    rw [List.length_append, List.length_singleton] at beyond
    apply (Exhausted.next _).seen
    rw [h.ahead]
    exact List.drop_eq_nil_of_le (Nat.le_of_lt_succ beyond)

/-- An answer about what lies ahead gives out nothing. -/
theorem told (h : origin.Served s tokens drained) {a : Answer} (taken : Answer.tokens [a] = [])
    (errors : Answer.errors [a] = []) :
    origin.Served s (tokens ++ Answer.tokens [a]) (drained ++ Answer.errors [a]) := by
  rw [taken, errors, List.append_nil, List.append_nil]
  exact h

/-- An answer with errors has taken them from the front of the queue. -/
theorem handed (h : origin.Served s tokens drained) (cut : Nat) :
    origin.Served { s with pending := s.pending.drop cut }
      (tokens ++ Answer.tokens [.drained (s.pending.take cut)])
      (drained ++ Answer.errors [.drained (s.pending.take cut)]) := by
  rw [Answer.tokens_drained, Answer.errors_drained, List.append_nil]
  exact h.drain cut

theorem answer (h : origin.Served s tokens drained) (q : Request) :
    origin.Served (s.answer q).2 (tokens ++ Answer.tokens [(s.answer q).1])
      (drained ++ Answer.errors [(s.answer q).1]) := by
  cases q with
  | next =>
    have taken := h.next
    rw [← List.append_nil drained, ← Answer.errors_taken s.next.1] at taken
    exact taken
  | peek n => exact (h.look (n + 1)).told rfl rfl
  | peekPair first second =>
    unfold TokenStream.answer peekPair
    dsimp only
    split
    · exact (h.look 2).told rfl rfl
    · exact (h.look 1).told rfl rfl
  | peekWhile start ask =>
    unfold TokenStream.answer peekWhile
    dsimp only
    split
    · exact (h.look _).told rfl rfl
    · exact (h.look 1).told rfl rfl
  | takeErrors =>
    have all := h.handed s.pending.length
    rw [List.drop_length, List.take_length] at all
    exact all
  | takeErrorsBefore p => exact h.handed _

theorem serve (h : origin.Served s tokens drained) (requests : List Request) :
    origin.Served (serve TokenStream.answer s requests).2
      (tokens ++ Answer.tokens (serve TokenStream.answer s requests).1)
      (drained ++ Answer.errors (serve TokenStream.answer s requests).1) := by
  induction requests generalizing s tokens drained with
  | nil =>
    show origin.Served s (tokens ++ []) (drained ++ [])
    rw [List.append_nil, List.append_nil]
    exact h
  | cons q requests inductionHypothesis =>
    have later := inductionHypothesis (h.answer q)
    rw [List.append_assoc, List.append_assoc] at later
    show origin.Served _ (tokens ++ Answer.tokens ([(s.answer q).1] ++ _))
      (drained ++ Answer.errors ([(s.answer q).1] ++ _))
    rw [Answer.tokens, List.filterMap_append, Answer.errors, List.flatMap_append]
    exact later

/-- The tokens ahead are used up once the end of input has been given out. -/
theorem length_lt (h : origin.Served s tokens drained)
    (more : ∀ t ∈ origin.ahead.map (·.token), t.kind ≠ .eof)
    (eof : ∃ t ∈ tokens, t.kind = .eof) : origin.ahead.length < tokens.length := by
  obtain ⟨t, membership, kind⟩ := eof
  rw [h.found, List.mem_map] at membership
  obtain ⟨n, position, rfl⟩ := membership
  have beyond : ¬ n < origin.ahead.length := by
    intro within
    apply more (origin.upcoming n).token _ kind
    rw [upcoming, List.getElem?_eq_getElem within]
    exact List.mem_map_of_mem (List.getElem_mem within)
  exact Nat.lt_of_le_of_lt (Nat.not_lt.1 beyond) (List.mem_range.1 position)

/-- Once the end of input has been given out, every error is pending or handed out, and every
comment is noted. -/
theorem finished (h : origin.Served s tokens drained) (last : origin.ahead.length < tokens.length) :
    drained ++ s.pending = origin.waiting ∧ s.comments = origin.final.after.comments := by
  have exhausted : s.Exhausted := {
    last := by
      rw [h.ahead]
      exact List.drop_eq_nil_of_le (Nat.le_of_lt last)
    seen := h.ended last }
  constructor
  · rw [← h.errors, exhausted.waiting]
  · rw [exhausted.comments, h.final]

end Served

/-- The number of tokens taken is the number of requests for one. -/
theorem length_tokens (s : TokenStream) (requests : List Request) :
    (Answer.tokens (LuaChunk.serve answer s requests).1).length =
      requests.countP (·.isNext) := by
  induction requests generalizing s with
  | nil => rfl
  | cons q requests inductionHypothesis =>
    have onward := inductionHypothesis (s.answer q).2
    show (Answer.tokens ([(s.answer q).1] ++ _)).length = _
    rw [Answer.tokens, List.filterMap_append, List.length_append, List.countP_cons, ← onward,
      Nat.add_comm]
    cases q <;> rfl

/-! ## Two ways of reading -/

/-- The answers to some requests on a fresh stream, and the stream after them. -/
def reading (d : Dialect) (source : List UInt8) (requests : List Request) :
    List Answer × TokenStream :=
  serve answer (ofBytes d source) requests

theorem served_reading (d : Dialect) (source : List UInt8) (requests : List Request) :
    (ofBytes d source).Served (reading d source requests).2
      (Answer.tokens (reading d source requests).1)
      (Answer.errors (reading d source requests).1) :=
  (Served.ofBytes d source).serve requests

/-- What lookahead and the draining of errors leave alone: what two readings of one source have in
common. -/
structure Undisturbed (d : Dialect) (source : List UInt8) (requests requests' : List Request) :
    Prop where
  /-- The tokens taken are the same. -/
  tokens : Answer.tokens (reading d source requests).1 =
    Answer.tokens (reading d source requests').1
  /-- The spans noted are those of the last two tokens taken. -/
  spans : (reading d source requests).2.now =
      Token.spanBack (Answer.tokens (reading d source requests).1) 0 ∧
    (reading d source requests).2.previous =
      Token.spanBack (Answer.tokens (reading d source requests).1) 1
  /-- Errors are handed out in the one order of the source, and none is left out. -/
  errors : Answer.errors (reading d source requests).1 ++ (reading d source requests).2.pending <+:
    (Scanner.ofBytes source).errors d
  /-- At the end of input all errors have been met, and the comments are the same. -/
  finished : (∃ t ∈ Answer.tokens (reading d source requests).1, t.kind = .eof) →
    Answer.errors (reading d source requests).1 ++ (reading d source requests).2.pending =
        (Scanner.ofBytes source).errors d ∧
      (reading d source requests).2.comments = (reading d source requests').2.comments
  /-- A reader that scans on demand gives the same answers and shows the same of itself. -/
  onDemand : let lazily := serve OnDemand.answer (OnDemand.ofBytes d source) requests
    lazily.1 = (reading d source requests).1 ∧
      lazily.2.now = (reading d source requests).2.now ∧
      lazily.2.previous = (reading d source requests).2.previous ∧
      lazily.2.pending = (reading d source requests).2.pending ∧
      lazily.2.scanner.comments = (reading d source requests).2.comments

/-- Two readings of a source that take equally many tokens differ in nothing but how far they have
looked ahead and which errors have been handed out. -/
theorem reading_undisturbed (d : Dialect) (source : List UInt8) {requests requests' : List Request}
    (same : requests.countP (·.isNext) = requests'.countP (·.isNext)) :
    Undisturbed d source requests requests' := by
  have served := served_reading d source requests
  have served' := served_reading d source requests'
  have length : (Answer.tokens (reading d source requests).1).length =
      (Answer.tokens (reading d source requests').1).length := by
    rw [reading, reading, length_tokens, length_tokens, same]
  obtain ⟨answers, matching⟩ := (OnDemand.Matches.ofBytes d source).serve requests
  have fixed : (Scanner.ofBytes source).errors d = (ofBytes d source).waiting := rfl
  have more : ∀ t ∈ (ofBytes d source).ahead.map (·.token), t.kind ≠ .eof :=
    ((Scanner.ofBytes source).run_finds d).not_eof
  exact {
    tokens := by
      rw [served.found, served'.found, length]
    spans := ⟨served.now, served.previous⟩
    errors := by
      rw [fixed, ← served.errors, waiting, ← List.append_assoc]
      exact List.prefix_append _ _
    finished := by
      intro eof
      have last := served.length_lt more eof
      have last' := last
      rw [length] at last'
      obtain ⟨errors, comments⟩ := served.finished last
      exact ⟨errors.trans fixed.symm, comments.trans (served'.finished last').2.symm⟩
    onDemand := ⟨answers, matching.now, matching.previous, matching.pending, matching.comments⟩ }

/-- A stray byte and a comment, read with and without looking ahead. -/
theorem stray_byte_undisturbed :
    [Request.peek 1, .next, .takeErrors, .next].countP (·.isNext) =
        [Request.next, .next, .peekPair .eof .eof].countP (·.isNext) ∧
      Undisturbed .lua [0x24, 0x20, 0x2D, 0x2D]
        [.peek 1, .next, .takeErrors, .next] [.next, .next, .peekPair .eof .eof] :=
  ⟨rfl, reading_undisturbed .lua [0x24, 0x20, 0x2D, 0x2D] rfl⟩

end TokenStream

end LuaChunk
