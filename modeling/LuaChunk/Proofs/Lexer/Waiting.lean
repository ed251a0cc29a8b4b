import LuaChunk.Lexer.TokenStream

/-!
# Errors that wait

The lexical errors of a stream that nobody has taken yet are those pending and those of tokens
not looked at.  Looking ahead and taking tokens move errors from the second kind to the first and
change nothing else.
-/

set_option autoImplicit false

namespace LuaChunk.TokenStream

/-- The errors of each token ahead and of the end of input. -/
def errorLists (final : Scanned) (ahead : List Scanned) : List (List LexicalError) :=
  ahead.map (·.errors) ++ [final.errors]

/-- The errors that no one has taken, in source order. -/
def waiting (s : TokenStream) : List LexicalError :=
  s.pending ++ ((errorLists s.final s.ahead).drop s.seen).flatten

theorem errorsOf_eq (final : Scanned) (ahead : List Scanned) (skip count : Nat) :
    errorsOf final ahead skip count =
      (((errorLists final ahead).drop skip).take count).flatten := by
  fun_induction errorsOf final ahead skip count with
  | case1 => simp
  | case2 => simp [errorLists]
  | case3 => simp [errorLists]
  | case4 r rest skip count inductionHypothesis =>
    simpa [errorLists] using inductionHypothesis
  | case5 r rest count inductionHypothesis =>
    rw [inductionHypothesis]
    simp [errorLists]

@[simp]
theorem final_look (s : TokenStream) (count : Nat) : (s.look count).final = s.final := by
  unfold look
  split <;> rfl

@[simp]
theorem now_look (s : TokenStream) (count : Nat) : (s.look count).now = s.now := by
  unfold look
  split <;> rfl

/-- Looking further loses no error and changes no order. -/
@[simp]
theorem waiting_look (s : TokenStream) (count : Nat) : (s.look count).waiting = s.waiting := by
  unfold look
  split
  next more =>
    have split : (errorLists s.final s.ahead).drop count =
        ((errorLists s.final s.ahead).drop s.seen).drop (count - s.seen) := by
      rw [List.drop_drop]
      congr 1
      omega
    simp only [waiting, errorsOf_eq, split, List.append_assoc]
    rw [← List.flatten_append, List.take_append_drop]
  · rfl

/-- Taking a token drops no error: it has been looked at. -/
theorem waiting_next (s : TokenStream) : s.next.2.waiting = s.waiting := by
  rw [← waiting_look s 1]
  have seen : 1 ≤ (s.look 1).seen := by
    rw [seen_look]
    omega
  unfold next
  dsimp only
  generalize s.look 1 = looked at seen
  cases tokens : looked.ahead with
  | nil => simp [waiting, tokens]
  | cons r rest =>
    obtain ⟨count, counted⟩ := Nat.exists_eq_add_of_le seen
    simp [waiting, tokens, errorLists, counted, Nat.add_comm]

theorem ahead_next (s : TokenStream) : s.next.2.ahead = s.ahead.tail := by
  unfold next
  dsimp only
  cases tokens : (s.look 1).ahead <;> simp_all

theorem final_next (s : TokenStream) : s.next.2.final = s.final := by
  unfold next
  dsimp only
  cases (s.look 1).ahead <;> simp

theorem now_next (s : TokenStream) : s.next.2.now = s.next.1.span := by
  unfold next
  dsimp only
  cases (s.look 1).ahead with
  | nil => rfl
  | cons r rest => rfl

/-! ## Where no error waits -/

section

variable {s : TokenStream} (none : s.waiting = [])

include none

theorem takeErrors_of_waiting : s.takeErrors = ([], s) := by
  have empty : s.pending = [] := (List.append_eq_nil_iff.1 none).1
  have same : { s with pending := [] } = s := by rw [← empty]
  exact Prod.ext empty same

theorem takeErrorsBefore_of_waiting (p : Position) : s.takeErrorsBefore p = ([], s) := by
  have empty : s.pending = [] := (List.append_eq_nil_iff.1 none).1
  unfold takeErrorsBefore
  simp only [empty, List.take_nil, List.drop_nil]
  exact Prod.ext rfl (congrArg Prod.snd (takeErrors_of_waiting none) :)

end

/-! ## The end of input -/

/-- Only where no token is ahead is the end of input taken. -/
theorem ahead_eq_nil_of_next {s : TokenStream} (more : ∀ r ∈ s.ahead, r.token.kind ≠ .eof)
    (eof : s.next.1.kind = .eof) : s.ahead = [] := by
  cases ahead : s.ahead with
  | nil => rfl
  | cons r rest =>
    have first : s.next.1 = r.token := by
      unfold next
      dsimp only
      rw [ahead_look, ahead]
    rw [first] at eof
    exact absurd eof (more r (ahead ▸ List.mem_cons_self))

/-- The end of input is given again and again. -/
theorem next_of_ahead_eq_nil {s : TokenStream} (last : s.ahead = []) :
    s.next.1 = s.final.token ∧ s.next.2.ahead = [] := by
  constructor
  · unfold next
    dsimp only
    rw [ahead_look, last, final_look]
  · rw [ahead_next, last]
    rfl

/-- At the end of input, which has been looked at. -/
structure Exhausted (s : TokenStream) : Prop where
  last : s.ahead = []
  seen : 0 < s.seen

namespace Exhausted

variable {s : TokenStream}

theorem next (last : s.ahead = []) : s.next.2.Exhausted where
  last := (next_of_ahead_eq_nil last).2
  seen := by
    have seen : 1 ≤ (s.look 1).seen := by
      rw [seen_look]
      exact Nat.le_max_right _ _
    unfold TokenStream.next
    dsimp only
    rw [ahead_look, last]
    exact seen

theorem drained (h : s.Exhausted) : Exhausted { s with pending := [] } := ⟨h.last, h.seen⟩

/-- All errors have been met. -/
theorem waiting (h : s.Exhausted) : s.waiting = s.pending := by
  obtain ⟨before, seen⟩ := Nat.exists_eq_add_of_le' h.seen
  rw [TokenStream.waiting, h.last, seen]
  simp [errorLists]

/-- All comments have been met. -/
theorem comments (h : s.Exhausted) : s.comments = s.final.after.comments := by
  obtain ⟨before, seen⟩ := Nat.exists_eq_add_of_le' h.seen
  rw [TokenStream.comments, seen]
  dsimp only
  rw [upcoming, h.last]
  rfl

end Exhausted

end LuaChunk.TokenStream
