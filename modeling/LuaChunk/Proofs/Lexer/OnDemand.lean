import LuaChunk.Proofs.Lexer.Partition

/-!
# Reading on demand

A stream lays out its tokens beforehand and counts how far they have been looked at.  A reader may
as well scan a token only when it is asked for one, and keep what it has scanned too early in a
buffer.  No sequence of requests tells the two apart.
-/

set_option autoImplicit false

namespace LuaChunk

/-! ## Requests -/

/-- What may be asked of a source of tokens. -/
inductive Request where
  | next
  | peek (n : Nat)
  | peekPair (first second : TokenKind)
  | peekWhile (start : TokenKind) (ask : TokenKind → Verdict)
  | takeErrors
  | takeErrorsBefore (p : Position)

def Request.isNext : Request → Bool
  | next => true
  | _ => false

inductive Answer where
  /-- A token that has been taken. -/
  | taken (t : Token)
  /-- A token that has been looked at. -/
  | upcoming (t : Token)
  | verdict (accepted : Bool)
  | drained (errors : List LexicalError)

/-- Puts requests one after the other. -/
def serve {Reader : Type} (answer : Reader → Request → Answer × Reader) :
    Reader → List Request → List Answer × Reader
  | r, [] => ([], r)
  | r, q :: rest =>
    let (a, r) := answer r q
    let (later, r) := serve answer r rest
    (a :: later, r)

def TokenStream.answer (s : TokenStream) : Request → Answer × TokenStream
  | .next => s.next.map .taken id
  | .peek n => (s.peek n).map .upcoming id
  | .peekPair first second => (s.peekPair first second).map .verdict id
  | .peekWhile start ask => (s.peekWhile start ask).map .verdict id
  | .takeErrors => s.takeErrors.map .drained id
  | .takeErrorsBefore p => (s.takeErrorsBefore p).map .drained id

/-! ## A reader with a buffer -/

/-- A scanner with the tokens scanned and not yet taken. -/
structure OnDemand where
  dialect : Dialect
  scanner : Scanner
  buffer : List Token := []
  pending : List LexicalError := []
  now : Span := .synthetic
  previous : Span := .synthetic

namespace OnDemand

def ofBytes (d : Dialect) (bytes : List UInt8) : OnDemand :=
  { dialect := d, scanner := .ofBytes bytes }

def scan (r : OnDemand) : Token × OnDemand :=
  let next := r.scanner.scan r.dialect
  (next.token, { r with scanner := next.after, pending := r.pending ++ next.errors })

/-- Scans one token more than the buffer holds. -/
def scanAhead (r : OnDemand) : OnDemand :=
  { r.scan.2 with buffer := r.buffer ++ [r.scan.1] }

def scanTimes : Nat → OnDemand → OnDemand
  | 0, r => r
  | times + 1, r => scanTimes times r.scanAhead

/-- Scans until the buffer holds a number of tokens. -/
def fill (r : OnDemand) (count : Nat) : OnDemand := scanTimes (count - r.buffer.length) r

def next (r : OnDemand) : Token × OnDemand :=
  match r.buffer with
  | [] => (r.scan.1, { r.scan.2 with previous := r.now, now := r.scan.1.span })
  | t :: rest => (t, { r with buffer := rest, previous := r.now, now := t.span })

def peek (r : OnDemand) (n : Nat) : Token × OnDemand :=
  ((r.fill (n + 1)).buffer[n]?.getD default, r.fill (n + 1))

def peekPair (r : OnDemand) (first second : TokenKind) : Bool × OnDemand :=
  if (r.peek 0).1.kind = first then
    (((r.peek 0).2.peek 1).1.kind == second, ((r.peek 0).2.peek 1).2)
  else (false, (r.peek 0).2)

/-- Asks about the tokens from the one `n` places ahead on, each scanned when its turn comes. -/
def judge (ask : TokenKind → Verdict) : Nat → Nat → OnDemand → Bool × OnDemand
  | 0, _, r => (false, r)
  | clock + 1, n, r =>
    if (r.peek n).1.kind = .eof then (false, (r.peek n).2)
    else
      match ask (r.peek n).1.kind with
      | .proceed => judge ask clock (n + 1) (r.peek n).2
      | .accept => (true, (r.peek n).2)
      | .reject => (false, (r.peek n).2)

/-- The tokens of the buffer and the unread glyphs bound the questions. -/
def peekWhile (r : OnDemand) (start : TokenKind) (ask : TokenKind → Verdict) : Bool × OnDemand :=
  let looked := (r.peek 0).2
  if (r.peek 0).1.kind = start then
    judge ask (looked.buffer.length + looked.scanner.cursor.rest.length + 1) 1 looked
  else (false, looked)

def takeErrors (r : OnDemand) : List LexicalError × OnDemand :=
  (r.pending, { r with pending := [] })

def takeErrorsBefore (r : OnDemand) (p : Position) : List LexicalError × OnDemand :=
  let cut := TokenStream.partitionPoint
    (fun i => r.pending[i]?.any fun e => decide (e.span.start < p)) r.pending.length
  (r.pending.take cut, { r with pending := r.pending.drop cut })

def answer (r : OnDemand) : Request → Answer × OnDemand
  | .next => r.next.map .taken id
  | .peek n => (r.peek n).map .upcoming id
  | .peekPair first second => (r.peekPair first second).map .verdict id
  | .peekWhile start ask => (r.peekWhile start ask).map .verdict id
  | .takeErrors => r.takeErrors.map .drained id
  | .takeErrorsBefore p => (r.takeErrorsBefore p).map .drained id

end OnDemand

/-! ## Scanning again -/

namespace Scanner

variable {d : Dialect} {s : Scanner} {tokens : List Scanned} {final : Scanned}

/-- The end of input is scanned again as it was, and with it no comment and no error. -/
theorem scan_again (last : (s.scan d).token.kind = .eof) :
    (s.scan d).after.scan d = ⟨(s.scan d).token, [], (s.scan d).after⟩ := by
  revert last
  unfold scan
  generalize skipTrivia s.cursor.rest s [] = trivia
  obtain ⟨there, errors⟩ := trivia
  dsimp only
  cases first : there.cursor.code? 0 with
  | none =>
    have finished : there.cursor.rest = [] := by simpa [Cursor.code?] using first
    intro _
    dsimp only
    rw [finished, skipTrivia, first]
  | some b =>
    obtain ⟨_, _, kind, _⟩ := Lexeme.shows_read d first
    exact fun last => absurd last kind

namespace Finds

/-- The scanner before the token that some others come before. -/
def scannerAt (s : Scanner) (tokens : List Scanned) (final : Scanned) : Nat → Scanner
  | 0 => s
  | n + 1 => (tokens[n]?.getD final).after

theorem scan_scannerAt (h : Finds d s tokens final) (n : Nat) (within : n ≤ tokens.length) :
    (scannerAt s tokens final n).scan d = tokens[n]?.getD final := by
  induction h generalizing n with
  | eof =>
    rw [Nat.le_zero.1 within]
    rfl
  | @token s rest final _ _ inductionHypothesis =>
    cases n with
    | zero => rfl
    | succ n =>
      have onward := inductionHypothesis n (Nat.le_of_succ_le_succ within)
      cases n with
      | zero => exact onward
      | succ n => exact onward

theorem final_again (h : Finds d s tokens final) :
    final.after.scan d = ⟨final.token, [], final.after⟩ := by
  induction h with
  | eof last => exact scan_again last
  | token _ _ inductionHypothesis => exact inductionHypothesis

/-- Every token takes a glyph. -/
theorem length_le (h : Finds d s tokens final) : tokens.length ≤ s.cursor.rest.length := by
  induction h with
  | eof => exact Nat.zero_le _
  | token more _ inductionHypothesis =>
    exact Nat.lt_of_le_of_lt inductionHypothesis ((scan_advances d _).shorter more)

theorem drop (h : Finds d s tokens final) (n : Nat) (within : n ≤ tokens.length) :
    Finds d (scannerAt s tokens final n) (tokens.drop n) final := by
  induction h generalizing n with
  | eof last =>
    rw [Nat.le_zero.1 within]
    exact .eof last
  | @token s rest final more found inductionHypothesis =>
    cases n with
    | zero => exact .token more found
    | succ n =>
      have onward := inductionHypothesis n (Nat.le_of_succ_le_succ within)
      cases n with
      | zero => exact onward
      | succ n => exact onward

end Finds

end Scanner

/-! ## The two readers agree -/

namespace TokenStream

/-- The scanner after a number of the tokens ahead. -/
def scannerAt (s : TokenStream) (n : Nat) : Scanner :=
  Scanner.Finds.scannerAt s.taken s.ahead s.final n

theorem comments_eq (s : TokenStream) : s.comments = (s.scannerAt s.seen).comments := by
  unfold comments
  cases s.seen with
  | zero => rfl
  | succ n => rfl

theorem upcoming_of_le {s : TokenStream} {n : Nat} (beyond : s.ahead.length ≤ n) :
    s.upcoming n = s.final := by
  rw [upcoming, List.getElem?_eq_none beyond]
  rfl

theorem scannerAt_of_lt {s : TokenStream} {n : Nat} (beyond : s.ahead.length < n) :
    s.scannerAt n = s.final.after := by
  cases n with
  | zero => exact absurd beyond (Nat.not_lt_zero _)
  | succ n => exact congrArg Scanned.after (upcoming_of_le (Nat.le_of_lt_succ beyond))

theorem look_frame (s : TokenStream) (count : Nat) : (s.look count).dialect = s.dialect ∧
    (s.look count).taken = s.taken ∧ (s.look count).previous = s.previous := by
  unfold look
  split <;> exact ⟨rfl, rfl, rfl⟩

theorem scannerAt_look (s : TokenStream) (count n : Nat) :
    (s.look count).scannerAt n = s.scannerAt n := by
  rw [scannerAt, ahead_look, final_look, (s.look_frame count).2.1]
  rfl

theorem errorsOf_one (final : Scanned) (ahead : List Scanned) (n : Nat) :
    errorsOf final ahead n 1 =
      if n ≤ ahead.length then (ahead[n]?.getD final).errors else [] := by
  induction ahead generalizing n with
  | nil =>
    cases n with
    | zero => rfl
    | succ n => rfl
  | cons r ahead inductionHypothesis =>
    cases n with
    | zero => simp [errorsOf]
    | succ n => simp [errorsOf, inductionHypothesis]

theorem errorsOf_add (final : Scanned) (ahead : List Scanned) (skip m n : Nat) :
    errorsOf final ahead skip (m + n) =
      errorsOf final ahead skip m ++ errorsOf final ahead (skip + m) n := by
  rw [errorsOf_eq, errorsOf_eq, errorsOf_eq, List.take_add, List.flatten_append, List.drop_drop]

/-- Looking at one token more takes up its errors; beyond the end of input there are none. -/
theorem look_succ (s : TokenStream) : s.look (s.seen + 1) =
    { s with
      pending :=
        s.pending ++ if s.seen ≤ s.ahead.length then (s.upcoming s.seen).errors else []
      seen := s.seen + 1 } := by
  unfold look
  rw [if_pos (Nat.lt_succ_self _), Nat.add_sub_cancel_left, errorsOf_one]
  rfl

theorem look_of_le {s : TokenStream} {n : Nat} (h : n ≤ s.seen) : s.look n = s :=
  if_neg (Nat.not_lt.2 h)

/-- Looking twice is looking once, as far as the further look. -/
theorem look_look (s : TokenStream) {m n : Nat} (h : m ≤ n) : (s.look m).look n = s.look n := by
  by_cases first : s.seen < m
  · obtain ⟨i, rfl⟩ := Nat.exists_eq_add_of_le (Nat.le_of_lt first)
    obtain ⟨j, rfl⟩ := Nat.exists_eq_add_of_le h
    have whole : s.seen < s.seen + i + j := Nat.lt_of_lt_of_le first h
    have added := errorsOf_add s.final s.ahead s.seen i j
    cases j with
    | zero =>
      apply look_of_le
      rw [seen_look]
      exact Nat.le_max_right _ _
    | succ j =>
      have second : s.seen + i < s.seen + i + (j + 1) := Nat.lt_add_of_pos_right (Nat.succ_pos j)
      unfold look
      rw [if_pos first, if_pos second, if_pos whole, Nat.add_sub_cancel_left,
        Nat.add_sub_cancel_left, Nat.add_assoc, Nat.add_sub_cancel_left, added,
        List.append_assoc]
  · rw [look_of_le (Nat.not_lt.1 first)]

end TokenStream

namespace OnDemand

/-- Both readers have the same tokens before them and have scanned or looked equally far, except
that past the end of input the stream may have looked further than the buffer goes. -/
structure Matches (r : OnDemand) (s : TokenStream) : Prop where
  dialect : r.dialect = s.dialect
  pending : r.pending = s.pending
  now : r.now = s.now
  previous : r.previous = s.previous
  scanner : r.scanner = s.scannerAt s.seen
  buffer : r.buffer = (List.range r.buffer.length).map fun n => (s.upcoming n).token
  seen : r.buffer.length = s.seen ∧ s.seen ≤ s.ahead.length ∨
    s.ahead.length ≤ r.buffer.length ∧ s.ahead.length < s.seen ∧ r.buffer.length ≤ s.seen
  finds : Scanner.Finds s.dialect s.taken s.ahead s.final

namespace Matches

variable {r : OnDemand} {s : TokenStream}

theorem ofBytes (d : Dialect) (source : List UInt8) :
    (OnDemand.ofBytes d source).Matches (TokenStream.ofBytes d source) where
  dialect := rfl
  pending := rfl
  now := rfl
  previous := rfl
  scanner := rfl
  buffer := rfl
  seen := .inl ⟨rfl, Nat.zero_le _⟩
  finds := (Scanner.ofBytes source).run_finds d

/-- The next scan of the buffered reader is the token that the stream has at that place, with the
errors that looking there takes up. -/
theorem scan_eq (h : r.Matches s) : r.scanner.scan r.dialect =
    ⟨(s.upcoming r.buffer.length).token,
      if s.seen ≤ s.ahead.length then (s.upcoming r.buffer.length).errors else [],
      (s.upcoming r.buffer.length).after⟩ := by
  rw [h.scanner, h.dialect]
  rcases h.seen with ⟨same, within⟩ | ⟨beyond, exceeds, _⟩
  · rw [if_pos within, same]
    exact h.finds.scan_scannerAt s.seen within
  · rw [if_neg (Nat.not_le.2 exceeds), TokenStream.upcoming_of_le beyond,
      TokenStream.scannerAt_of_lt exceeds]
    exact h.finds.final_again

theorem pending_look (h : r.Matches s) : (s.look (r.buffer.length + 1)).pending =
    s.pending ++
      if s.seen ≤ s.ahead.length then (s.upcoming r.buffer.length).errors else [] := by
  rcases h.seen with ⟨same, _⟩ | ⟨_, exceeds, behind⟩
  · rw [same, TokenStream.look_succ]
  · rw [if_neg (Nat.not_le.2 exceeds), List.append_nil]
    by_cases further : r.buffer.length + 1 ≤ s.seen
    · rw [TokenStream.look_of_le further]
    · have same : r.buffer.length = s.seen := by omega
      rw [same, TokenStream.look_succ, if_neg (Nat.not_le.2 exceeds), List.append_nil]

/-- One token more in the buffer is one token more looked at. -/
theorem scanAhead (h : r.Matches s) : r.scanAhead.Matches (s.look (r.buffer.length + 1)) := by
  have scanned := h.scan_eq
  have grown : r.scanAhead.buffer.length = r.buffer.length + 1 := List.length_append
  obtain ⟨dialect, taken, previous⟩ := s.look_frame (r.buffer.length + 1)
  exact {
    dialect := h.dialect.trans dialect.symm
    pending := by
      rw [h.pending_look, ← h.pending]
      show r.pending ++ _ = _
      rw [scanned]
    now := by rw [TokenStream.now_look]; exact h.now
    previous := by rw [previous]; exact h.previous
    scanner := by
      rw [TokenStream.scannerAt_look, TokenStream.seen_look]
      show (r.scanner.scan r.dialect).after = _
      rw [scanned]
      rcases h.seen with ⟨same, _⟩ | ⟨beyond, exceeds, _⟩
      · rw [← same, Nat.max_eq_right (Nat.le_succ _)]
        rfl
      · rw [TokenStream.scannerAt_of_lt (Nat.lt_of_lt_of_le exceeds (Nat.le_max_left _ _)),
          TokenStream.upcoming_of_le beyond]
    buffer := by
      simp only [TokenStream.upcoming_look]
      rw [grown, List.range_succ, List.map_append, ← h.buffer]
      show r.buffer ++ [(r.scanner.scan r.dialect).token] = _
      rw [scanned]
      rfl
    seen := by
      rw [grown, TokenStream.ahead_look, TokenStream.seen_look]
      have seen := h.seen
      omega
    finds := by
      rw [TokenStream.ahead_look, TokenStream.final_look, dialect, taken]
      exact h.finds }

theorem fill (h : r.Matches s) (count : Nat) : (r.fill count).Matches (s.look count) := by
  unfold OnDemand.fill
  generalize times : count - r.buffer.length = more
  induction more generalizing r s with
  | zero =>
    have behind : r.buffer.length ≤ s.seen := by
      rcases h.seen with ⟨same, _⟩ | ⟨_, _, behind⟩
      · exact Nat.le_of_eq same
      · exact behind
    rw [TokenStream.look_of_le (Nat.le_trans (Nat.le_of_sub_eq_zero times) behind)]
    exact h
  | succ more inductionHypothesis =>
    have grown : r.scanAhead.buffer.length = r.buffer.length + 1 := List.length_append
    have further : r.buffer.length + 1 ≤ count := by omega
    rw [← s.look_look further]
    apply inductionHypothesis h.scanAhead
    omega

theorem length_fill (r : OnDemand) (count : Nat) : count ≤ (r.fill count).buffer.length := by
  unfold OnDemand.fill
  generalize times : count - r.buffer.length = more
  induction more generalizing r with
  | zero => exact Nat.le_of_sub_eq_zero times
  | succ more inductionHypothesis =>
    have grown : r.scanAhead.buffer.length = r.buffer.length + 1 := List.length_append
    apply inductionHypothesis
    omega

theorem peek (h : r.Matches s) (n : Nat) :
    (r.peek n).1 = (s.peek n).1 ∧ (r.peek n).2.Matches (s.peek n).2 := by
  have filled := h.fill (n + 1)
  refine ⟨?_, filled⟩
  have within := length_fill r (n + 1)
  unfold OnDemand.peek
  dsimp only
  rw [filled.buffer, List.getElem?_map, List.getElem?_range within]
  simp only [TokenStream.upcoming_look]
  rfl

/-- Taking a token is taking it out of a buffer that holds one. -/
theorem next_eq (r : OnDemand) : r.next = (r.fill 1).next := by
  obtain ⟨dialect, scanner, buffer, pending, now, previous⟩ := r
  unfold OnDemand.fill
  cases buffer with
  | nil => rfl
  | cons t rest =>
    have enough : 1 - (t :: rest).length = 0 := by
      rw [List.length_cons]
      omega
    rw [enough]
    rfl

theorem buffer_tail (h : r.Matches s) {t : Token} {rest : List Token} (held : r.buffer = t :: rest) :
    t = (s.upcoming 0).token ∧
      rest = (List.range rest.length).map fun n => (s.upcoming (n + 1)).token := by
  have buffer := h.buffer
  rw [held, List.length_cons, List.range_succ_eq_map, List.map_cons, List.map_map] at buffer
  exact List.cons.inj buffer

theorem take (h : r.Matches s) {t : Token} {rest : List Token} (held : r.buffer = t :: rest) :
    r.next.1 = s.next.1 ∧ r.next.2.Matches s.next.2 := by
  have length : r.buffer.length = rest.length + 1 := by rw [held, List.length_cons]
  have started : 1 ≤ s.seen := by
    have seen := h.seen
    omega
  obtain ⟨first, others⟩ := h.buffer_tail held
  obtain ⟨dialect, pending, now, previous, scanner, _, seen, finds⟩ := h
  unfold OnDemand.next TokenStream.next
  rw [held, TokenStream.look_of_le started]
  obtain ⟨d, taken, ahead, final, count, waiting, current, last⟩ := s
  rw [length] at seen
  cases ahead with
  | nil =>
    refine ⟨first, ?_⟩
    exact {
      dialect := dialect
      pending := pending
      now := congrArg Token.span first
      previous := now
      scanner := scanner
      buffer := others
      seen := by
        simp only [List.length_nil] at seen ⊢
        omega
      finds := finds }
  | cons x more =>
    refine ⟨first, ?_⟩
    exact {
      dialect := dialect
      pending := pending
      now := congrArg Token.span first
      previous := now
      scanner := by
        obtain ⟨before, rfl⟩ := Nat.exists_eq_add_of_le' started
        cases before with
        | zero => exact scanner
        | succ before => exact scanner
      buffer := others
      seen := by
        simp only [List.length_cons] at seen ⊢
        omega
      finds := finds.drop 1 (Nat.le_add_left 1 _) }

theorem next (h : r.Matches s) : r.next.1 = s.next.1 ∧ r.next.2.Matches s.next.2 := by
  have filled := h.fill 1
  have within := length_fill r 1
  have same : (s.look 1).next = s.next := by
    unfold TokenStream.next
    rw [s.look_look (Nat.le_refl 1)]
  rw [next_eq, ← same]
  cases held : (r.fill 1).buffer with
  | nil =>
    rw [held] at within
    exact absurd within (by decide)
  | cons t rest => exact filled.take held

theorem peekPair (h : r.Matches s) (first second : TokenKind) :
    (r.peekPair first second).1 = (s.peekPair first second).1 ∧
      (r.peekPair first second).2.Matches (s.peekPair first second).2 := by
  obtain ⟨token, looked⟩ := h.peek 0
  replace token : (r.peek 0).1 = (s.upcoming 0).token := token
  unfold OnDemand.peekPair TokenStream.peekPair
  rw [token]
  by_cases fits : (s.upcoming 0).token.kind = first
  · obtain ⟨behind, further⟩ := looked.peek 1
    replace behind : ((r.peek 0).2.peek 1).1 = (s.upcoming 1).token := by
      rw [behind, ← s.upcoming_look 1]
      rfl
    rw [if_pos fits, if_pos fits, behind]
    refine ⟨rfl, ?_⟩
    rw [← s.look_look (Nat.le_succ 1)]
    exact further
  · rw [if_neg fits, if_neg fits]
    exact ⟨rfl, looked⟩

theorem judge_count (ask : TokenKind → Verdict) (ahead : List Scanned) (n : Nat) :
    n + 1 ≤ (TokenStream.judge ask ahead n).2 := by
  induction ahead generalizing n with
  | nil => exact Nat.le_refl _
  | cons r ahead inductionHypothesis =>
    unfold TokenStream.judge
    cases ask r.token.kind with
    | proceed => exact Nat.le_trans (Nat.le_succ _) (inductionHypothesis (n + 1))
    | accept => exact Nat.le_refl _
    | reject => exact Nat.le_refl _

/-- The clock is enough as long as it counts the tokens ahead and the end of input. -/
theorem judge (ask : TokenKind → Verdict) (clock n : Nat) (h : r.Matches s)
    (enough : s.ahead.length ≤ clock + n) :
    (OnDemand.judge ask (clock + 1) n r).1 = (TokenStream.judge ask (s.ahead.drop n) n).1 ∧
      (OnDemand.judge ask (clock + 1) n r).2.Matches
        (s.look (TokenStream.judge ask (s.ahead.drop n) n).2) := by
  induction clock generalizing n r s with
  | zero =>
    obtain ⟨token, looked⟩ := h.peek n
    replace token : (r.peek n).1 = (s.upcoming n).token := token
    have beyond : s.ahead.length ≤ n := by omega
    unfold OnDemand.judge
    rw [token, TokenStream.upcoming_of_le beyond, List.drop_eq_nil_of_le beyond,
      if_pos h.finds.final_kind]
    exact ⟨rfl, looked⟩
  | succ clock inductionHypothesis =>
    obtain ⟨token, looked⟩ := h.peek n
    replace token : (r.peek n).1 = (s.upcoming n).token := token
    unfold OnDemand.judge
    rw [token]
    by_cases within : n < s.ahead.length
    · have here : s.upcoming n = s.ahead[n] := by
        rw [TokenStream.upcoming, List.getElem?_eq_getElem within]
        rfl
      have more : s.ahead[n].token.kind ≠ .eof := by
        apply h.finds.not_eof
        exact List.mem_map_of_mem (List.getElem_mem within)
      have onward := inductionHypothesis (n + 1) looked (by
        show (s.look (n + 1)).ahead.length ≤ _
        rw [TokenStream.ahead_look]
        omega)
      rw [here, if_neg more, List.drop_eq_getElem_cons within, TokenStream.judge]
      cases ask s.ahead[n].token.kind with
      | proceed =>
        have further : n + 1 ≤ (TokenStream.judge ask (s.ahead.drop (n + 1)) (n + 1)).2 :=
          Nat.le_of_succ_le (judge_count ask _ _)
        rw [← s.look_look further, ← s.ahead_look (n + 1)]
        exact onward
      | accept => exact ⟨rfl, looked⟩
      | reject => exact ⟨rfl, looked⟩
    · have beyond := Nat.not_lt.1 within
      rw [TokenStream.upcoming_of_le beyond, List.drop_eq_nil_of_le beyond,
        if_pos h.finds.final_kind]
      exact ⟨rfl, looked⟩

/-- The tokens ahead are those of the buffer and those of the unread glyphs. -/
theorem length_ahead_le (h : r.Matches s) :
    s.ahead.length ≤ r.buffer.length + r.scanner.cursor.rest.length := by
  rcases h.seen with ⟨same, within⟩ | ⟨beyond, _, _⟩
  · have unread := (h.finds.drop s.seen within).length_le
    rw [List.length_drop] at unread
    rw [h.scanner]
    exact Nat.sub_le_iff_le_add'.1 (same ▸ unread)
  · exact Nat.le_add_right_of_le beyond

theorem peekWhile (h : r.Matches s) (start : TokenKind) (ask : TokenKind → Verdict) :
    (r.peekWhile start ask).1 = (s.peekWhile start ask).1 ∧
      (r.peekWhile start ask).2.Matches (s.peekWhile start ask).2 := by
  obtain ⟨token, looked⟩ := h.peek 0
  replace token : (r.peek 0).1 = (s.upcoming 0).token := token
  unfold OnDemand.peekWhile TokenStream.peekWhile
  rw [token]
  by_cases fits : (s.upcoming 0).token.kind = start
  · rw [if_pos fits, if_pos fits]
    have enough := Nat.le_succ_of_le looked.length_ahead_le
    have judged := looked.judge ask _ 1 enough
    have further : 1 ≤ (TokenStream.judge ask (s.ahead.drop 1) 1).2 :=
      Nat.le_of_succ_le (judge_count ask _ _)
    have same : (s.peek 0).2 = s.look 1 := rfl
    rw [same, TokenStream.ahead_look, s.look_look further] at judged
    exact judged
  · rw [if_neg fits, if_neg fits]
    exact ⟨rfl, looked⟩

theorem answer (h : r.Matches s) (q : Request) :
    (r.answer q).1 = (s.answer q).1 ∧ (r.answer q).2.Matches (s.answer q).2 := by
  cases q with
  | next => exact h.next.imp_left (congrArg _)
  | peek n => exact (h.peek n).imp_left (congrArg _)
  | peekPair first second => exact (h.peekPair first second).imp_left (congrArg _)
  | peekWhile start ask => exact (h.peekWhile start ask).imp_left (congrArg _)
  | takeErrors =>
    refine ⟨congrArg _ h.pending, ?_⟩
    exact { h with pending := rfl }
  | takeErrorsBefore p =>
    unfold OnDemand.answer OnDemand.takeErrorsBefore TokenStream.answer
      TokenStream.takeErrorsBefore
    rw [h.pending]
    refine ⟨rfl, ?_⟩
    exact { h with pending := rfl }

theorem serve (h : r.Matches s) (requests : List Request) :
    (serve OnDemand.answer r requests).1 = (serve TokenStream.answer s requests).1 ∧
      (serve OnDemand.answer r requests).2.Matches (serve TokenStream.answer s requests).2 := by
  induction requests generalizing r s with
  | nil => exact ⟨rfl, h⟩
  | cons q requests inductionHypothesis =>
    obtain ⟨same, onward⟩ := h.answer q
    obtain ⟨later, final⟩ := inductionHypothesis onward
    refine ⟨?_, final⟩
    show (r.answer q).1 :: _ = (s.answer q).1 :: _
    rw [same]
    exact congrArg _ later

theorem comments (h : r.Matches s) : r.scanner.comments = s.comments := by
  rw [TokenStream.comments_eq, h.scanner]

end Matches

end OnDemand

end LuaChunk
