import LuaChunk.Proofs.Lexer.Faults
import LuaChunk.Proofs.Lexer.Kinds
import LuaChunk.Proofs.Lexer.Waiting
import Mathlib.Data.List.Basic

/-!
# The queue of pending errors

The errors that wait are the last ones of those of the tokens ahead: whoever takes a token takes all
of its errors with it.  The queue need not be sorted, as the error of a whole string comes after those
of its escapes.  So the place to cut it is found if the errors to take come first, or if the only one
of them is the first or the second.
-/

set_option autoImplicit false

namespace LuaChunk.TokenStream

/-! ## Halving -/

section Bisect

variable {holds : Nat → Bool}

/-- The place that is found is the first one, or the property holds there. -/
theorem bisect_spec (holds : Nat → Bool) (clock base size : Nat) (some : 0 < size) :
    base ≤ bisect holds clock base size ∧ bisect holds clock base size < base + size ∧
      (bisect holds clock base size = base ∨ holds (bisect holds clock base size) = true) := by
  induction clock generalizing base size with
  | zero => exact ⟨Nat.le_refl _, by simpa [bisect] using some, .inl rfl⟩
  | succ clock inductionHypothesis =>
    unfold bisect
    split
    · exact ⟨Nat.le_refl _, by omega, .inl rfl⟩
    · dsimp only
      have rest := inductionHypothesis (if holds (base + size / 2) then base + size / 2 else base)
        (size - size / 2) (by omega)
      split at rest
      next half =>
        rw [if_pos half]
        refine ⟨by omega, by omega, .inr ?_⟩
        rcases rest.2.2 with same | found
        · rw [same]
          exact half
        · exact found
      next half =>
        rw [if_neg half]
        exact ⟨rest.1, by omega, rest.2.2⟩

/-- Where a cut is made, the last index before it has the property. -/
theorem partitionPoint_cases (holds : Nat → Bool) (size : Nat) :
    partitionPoint holds size = 0 ∨
      ∃ last < size, holds last = true ∧ partitionPoint holds size = last + 1 := by
  unfold partitionPoint
  split
  · exact .inl rfl
  next some =>
    obtain ⟨-, inside, found⟩ := bisect_spec holds size 0 size (Nat.pos_of_ne_zero some)
    dsimp only
    split
    next last => exact .inr ⟨_, by omega, last, rfl⟩
    next fails =>
      refine .inl (found.resolve_right fails)

variable {last : Nat}

/-- The last index with the property is found if those before it have it too, or if there is at most
one before it. -/
theorem bisect_eq (after : ∀ i, last < i → holds i = false) (here : holds last = true)
    (before : (∀ i < last, holds i = true) ∨ last ≤ 1) (clock base size : Nat)
    (enough : size ≤ clock + 1) (low : base ≤ last) (high : last < base + size) :
    bisect holds clock base size = last := by
  induction clock generalizing base size with
  | zero =>
    unfold bisect
    omega
  | succ clock inductionHypothesis =>
    unfold bisect
    split
    · omega
    dsimp only
    split
    next half =>
      have reached : base + size / 2 ≤ last := Nat.le_of_not_lt fun past => by
        simp [after _ past] at half
      exact inductionHypothesis _ _ (by omega) reached (by omega)
    next half =>
      refine inductionHypothesis _ _ (by omega) low ?_
      have other : base + size / 2 ≠ last := fun same => half (same ▸ here)
      rcases before with all | small
      · have past : ¬ base + size / 2 < last := fun inside => half (all _ inside)
        omega
      · omega

theorem partitionPoint_eq {size : Nat} (inside : last < size)
    (after : ∀ i, last < i → holds i = false) (here : holds last = true)
    (before : (∀ i < last, holds i = true) ∨ last ≤ 1) :
    partitionPoint holds size = last + 1 := by
  unfold partitionPoint
  rw [if_neg (by omega), bisect_eq after here before size 0 size (by omega) (by omega) (by omega)]
  exact if_pos here

theorem partitionPoint_eq_zero (none : ∀ i, holds i = false) (size : Nat) :
    partitionPoint holds size = 0 := by
  refine (partitionPoint_cases holds size).resolve_right ?_
  rintro ⟨last, _, found, _⟩
  simp [none last] at found

end Bisect

/-! ## Cutting the queue -/

variable {s : TokenStream} {p : Position}

/-- Whether an error starts before a position. -/
def startsBefore (p : Position) (e : LexicalError) : Bool := decide (e.span.start < p)

/-- How many of the pending errors are taken. -/
def cut (s : TokenStream) (p : Position) : Nat :=
  partitionPoint (fun i => s.pending[i]?.any (startsBefore p)) s.pending.length

theorem takeErrorsBefore_of_cut {taken left : List LexicalError} (queue : s.pending = taken ++ left)
    (cut : s.cut p = taken.length) :
    s.takeErrorsBefore p = (taken, { s with pending := left }) := by
  change (s.pending.take (s.cut p), { s with pending := s.pending.drop (s.cut p) }) = _
  rw [cut, queue, List.take_left, List.drop_left]

/-- Some of the first errors are taken, the last of them one that starts before the position. -/
theorem takeErrorsBefore_cases (s : TokenStream) (p : Position) :
    ∃ taken left, s.pending = taken ++ left ∧
      s.takeErrorsBefore p = (taken, { s with pending := left }) ∧
      (taken = [] ∨ ∃ first e, taken = first ++ [e] ∧ e.span.start < p) := by
  rcases partitionPoint_cases (fun i => s.pending[i]?.any (startsBefore p)) s.pending.length with
    none | ⟨last, inside, found, cut⟩
  · exact ⟨[], s.pending, rfl, takeErrorsBefore_of_cut rfl none, .inl rfl⟩
  · have split := (List.take_append_drop (last + 1) s.pending).symm
    refine ⟨_, _, split, takeErrorsBefore_of_cut split ?_, .inr ⟨s.pending.take last,
      s.pending[last], (List.take_append_getElem inside).symm, ?_⟩⟩
    · rw [TokenStream.cut, cut, List.length_take]
      omega
    · simpa [inside, startsBefore] using found

/-- Errors that start before the position are all taken if they come first. -/
theorem takeErrorsBefore_sorted {early late : List LexicalError} (queue : s.pending = early ++ late)
    (before : ∀ e ∈ early, e.span.start < p) (after : ∀ e ∈ late, ¬ e.span.start < p) :
    s.takeErrorsBefore p = (early, { s with pending := late }) := by
  refine takeErrorsBefore_of_cut queue ?_
  have holds (i : Nat) : s.pending[i]?.any (startsBefore p) = decide (i < early.length) := by
    rw [queue, List.getElem?_append]
    split
    next inside =>
      have early := before _ (List.getElem_mem inside)
      simp [inside, startsBefore, early]
    next outside =>
      cases found : late[i - early.length]? with
      | none => simp [outside]
      | some e =>
        have late := after e (List.mem_of_getElem? found)
        simp [outside, startsBefore, late]
  cases size : early.length with
  | zero => exact partitionPoint_eq_zero (fun i => by simp [holds, size]) _
  | succ last =>
    refine partitionPoint_eq (by simp [queue, size]; omega) (fun i past => ?_) ?_
      (.inl fun i inside => ?_)
    · rw [holds, size]
      exact decide_eq_false (by omega)
    · rw [holds, size]
      exact decide_eq_true (by omega)
    · rw [holds, size]
      exact decide_eq_true (by omega)

/-- A single error to take is found if at most one stands before it. -/
theorem takeErrorsBefore_single {first late : List LexicalError} {e : LexicalError}
    (queue : s.pending = first ++ e :: late) (short : first.length ≤ 1)
    (here : e.span.start < p) (after : ∀ e ∈ late, ¬ e.span.start < p) :
    s.takeErrorsBefore p = (first ++ [e], { s with pending := late }) := by
  refine takeErrorsBefore_of_cut (by simp [queue]) ?_
  rw [List.length_append, List.length_singleton]
  refine partitionPoint_eq (by simp [queue]) (fun i past => ?_) ?_ (.inr short)
  · obtain ⟨k, rfl⟩ := Nat.exists_eq_add_of_lt past
    have found : s.pending[first.length + k + 1]? = late[k]? := by
      rw [queue, List.getElem?_append_right (by omega)]
      simp [show first.length + k + 1 - first.length = k + 1 by omega]
    rw [found]
    cases same : late[k]? with
    | none => rfl
    | some e =>
      have late := after e (List.mem_of_getElem? same)
      simp [startsBefore, late]
  · simp [queue, startsBefore, here]

theorem takeErrorsBefore_none (after : ∀ e ∈ s.pending, ¬ e.span.start < p) :
    s.takeErrorsBefore p = ([], s) :=
  takeErrorsBefore_sorted (List.nil_append _).symm nofun after

end TokenStream

/-! ## Where errors wait -/

namespace Scanner

theorem scan_start_le_stop (d : Dialect) (s : Scanner) :
    (s.scan d).token.span.start ≤ (s.scan d).token.span.stop := by
  unfold scan
  split
  dsimp only
  split
  · exact Position.le_refl _
  next b first => exact Position.le_of_lt (Lexeme.passes_read d first).position_lt

/-- The errors of tokens stand between the place where scanning began and the end of input. -/
theorem Finds.errors_lie {d : Dialect} {s : Scanner} {tokens : List Scanned} {final : Scanned}
    (h : Finds d s tokens final) : ∀ e ∈ (TokenStream.errorLists final tokens).flatten,
      e.Lies s.cursor.position final.token.span.stop := by
  induction h with
  | eof last => simpa [TokenStream.errorLists] using (scan_errs d _).lie
  | @token s rest final more found inductionHypothesis =>
    have advances := scan_advances d s
    obtain ⟨last, final⟩ := List.forall_mem_append.1 (found.scanned)
    obtain ⟨last, rfl⟩ := final _ (List.mem_singleton_self _)
    have stop_le := found.start_le _ (List.mem_append_right _ (List.mem_singleton_self _))
    have width := last.scan_start_le_stop d
    intro e among
    rcases List.mem_append.1 among with own | later
    · refine ((scan_errs d s).lie e own).mono (Position.le_refl _) ?_
      exact advances.stop ▸ Position.le_trans stop_le width
    · refine (inductionHypothesis e later).mono ?_ (Position.le_refl _)
      refine Position.le_trans advances.start_le ?_
      exact advances.stop ▸ Position.le_of_lt (advances.start_lt more)

end Scanner

namespace TokenStream

@[simp]
theorem dialect_look (s : TokenStream) (count : Nat) : (s.look count).dialect = s.dialect := by
  unfold look
  split <;> rfl

/-- What is kept of a token that has been taken. -/
theorem next_of_ahead_eq_cons {s : TokenStream} {r : Scanned} {rest : List Scanned}
    (ahead : s.ahead = r :: rest) : s.next.1 = r.token ∧ s.next.2.dialect = s.dialect ∧
      s.next.2.taken = r.after := by
  unfold next
  dsimp only
  rw [ahead_look, ahead]
  exact ⟨rfl, dialect_look s 1, rfl⟩

/-- The errors that wait are the last of those of the tokens ahead. -/
structure Tidy (s : TokenStream) : Prop where
  found : Scanner.Finds s.dialect s.taken s.ahead s.final
  waiting : s.waiting <:+ (errorLists s.final s.ahead).flatten

/-- Of the errors that wait, those of tokens that have been taken can be cut off. -/
theorem takeErrorsBefore_own {s : TokenStream} {own : List LexicalError} {p : Position}
    (waiting : s.waiting <:+ own ++ (errorLists s.final s.ahead).flatten)
    (before : ∀ e ∈ own, e.span.start < p)
    (after : ∀ e ∈ (errorLists s.final s.ahead).flatten, ¬ e.span.start < p) :
    ∃ taken left, s.pending = taken ++ left ∧
      s.takeErrorsBefore p = (taken, { s with pending := left }) ∧
      TokenStream.waiting { s with pending := left } <:+ (errorLists s.final s.ahead).flatten := by
  have queued {e : LexicalError} (among : e ∈ s.pending) : e ∈ s.waiting :=
    List.mem_append_left _ among
  have unseen : ((errorLists s.final s.ahead).drop s.seen).flatten <:+
      (errorLists s.final s.ahead).flatten :=
    ⟨((errorLists s.final s.ahead).take s.seen).flatten, by
      rw [← List.flatten_append, List.take_append_drop]⟩
  rcases List.suffix_or_suffix_of_suffix waiting (List.suffix_append _ _) with none | ⟨first, split⟩
  · exact ⟨[], s.pending, rfl,
      takeErrorsBefore_none fun e among => after e (none.mem (queued among)), none⟩
  · have early : ∀ e ∈ first, e.span.start < p := by
      rw [← split] at waiting
      obtain ⟨rest, same⟩ := waiting
      rw [← List.append_assoc] at same
      have own := List.append_cancel_right same
      exact fun e among => before e (own ▸ List.mem_append_right _ among)
    rcases List.append_eq_append_iff.1 split with ⟨left, queue, later⟩ | ⟨left, some, seen⟩
    · refine ⟨first, left, queue, takeErrorsBefore_sorted queue early fun e among => ?_, ?_⟩
      · exact after e (later ▸ List.mem_append_left _ among)
      · exact later ▸ List.suffix_rfl
    · have none : left = [] := by
        have length := unseen.length_le
        rw [seen, List.length_append] at length
        exact List.length_eq_zero_iff.1 (by omega)
      subst none
      rw [List.append_nil] at some
      refine ⟨first, [], by rw [some, List.append_nil],
        takeErrorsBefore_sorted (by rw [some, List.append_nil]) early nofun, ?_⟩
      exact unseen

namespace Tidy

variable {s : TokenStream}

theorem look (h : s.Tidy) (count : Nat) : (s.look count).Tidy := by
  refine ⟨?_, by simpa using h.waiting⟩
  have found := h.found
  unfold TokenStream.look
  split <;> exact found

/-- Whoever takes the first pending errors leaves the last ones. -/
theorem drop {taken left : List LexicalError} (h : s.Tidy) (queue : s.pending = taken ++ left) :
    Tidy { s with pending := left } := by
  refine ⟨h.found, List.IsSuffix.trans ⟨taken, ?_⟩ h.waiting⟩
  rw [TokenStream.waiting, TokenStream.waiting, queue, List.append_assoc]

/-- Errors that wait stand after the tokens taken. -/
theorem lie (h : s.Tidy) :
    ∀ e ∈ s.waiting, e.Lies s.taken.cursor.position s.final.token.span.stop :=
  fun e among => h.found.errors_lie e (h.waiting.mem among)

theorem upcoming_eq (h : s.Tidy) : s.upcoming 0 = s.taken.scan s.dialect := by
  obtain ⟨found, -⟩ := h
  unfold upcoming
  generalize s.ahead = ahead at found
  generalize s.final = final at found
  cases found <;> rfl

/-- The token ahead stands after the tokens taken, and not after the end of input. -/
theorem front_between (h : s.Tidy) :
    s.taken.cursor.position ≤ (s.upcoming 0).token.span.start ∧
      (s.upcoming 0).token.span.start ≤ (s.upcoming 0).token.span.stop ∧
      (s.upcoming 0).token.span.stop ≤ s.final.token.span.stop := by
  refine ⟨h.upcoming_eq ▸ (Scanner.scan_advances s.dialect s.taken).start_le,
    h.upcoming_eq ▸ s.taken.scan_start_le_stop s.dialect, ?_⟩
  obtain ⟨last, final⟩ := h.found.scanned s.final (by simp)
  have width := last.scan_start_le_stop s.dialect
  rw [← final] at width
  cases ahead : s.ahead with
  | nil => simpa [upcoming, ahead] using Position.le_refl _
  | cons r rest =>
    have ordered := h.found.ordered
    rw [ahead, List.cons_append, List.pairwise_cons] at ordered
    have before := ordered.1 s.final (by simp)
    simp only [upcoming, ahead, List.getElem?_cons_zero, Option.getD_some]
    exact Position.le_trans before width

/-- All errors of a token are cut off when it is taken. -/
theorem next {r : Scanned} {rest : List Scanned} (h : s.Tidy) (ahead : s.ahead = r :: rest) :
    s.next.2.taken.cursor.position = r.token.span.stop ∧
    ∃ taken left, s.next.2.pending = taken ++ left ∧
      s.next.2.takeErrorsBefore r.token.span.stop = (taken, { s.next.2 with pending := left }) ∧
      Tidy { s.next.2 with pending := left } := by
  obtain ⟨found, waiting⟩ := h
  rw [ahead] at found waiting
  cases found with
  | token more found =>
    have advances := Scanner.scan_advances s.dialect s.taken
    have queued : s.next.2.waiting <:+ (s.taken.scan s.dialect).errors ++
        (errorLists s.next.2.final s.next.2.ahead).flatten := by
      simpa [waiting_next, ahead_next, final_next, ahead, errorLists] using waiting
    obtain ⟨taken, left, queue, cut, later⟩ := takeErrorsBefore_own queued (fun e among => by
        have lies := (Scanner.scan_errs s.dialect s.taken).lie e among
        exact Position.lt_of_lt_of_le lies.start_lt lies.stop_le)
      (fun e among early => by
        rw [ahead_next, final_next, ahead] at among
        refine Position.not_le.2 early ?_
        exact advances.stop ▸ (found.errors_lie e among).low_le)
    obtain ⟨-, dialect, after⟩ := next_of_ahead_eq_cons ahead
    refine ⟨after ▸ advances.stop.symm, taken, left, queue, cut, ?_, later⟩
    dsimp only
    rw [dialect, after, ahead_next, final_next, ahead]
    exact found

/-- At the end of input all errors are taken. -/
theorem finish (h : s.Tidy) (last : s.ahead = []) :
    Tidy { s.next.2 with pending := [] } ∧
      TokenStream.waiting { s.next.2 with pending := [] } = [] := by
  have none := (Exhausted.next last).drained.waiting
  refine ⟨⟨?_, none ▸ List.nil_suffix⟩, none⟩
  have same : s.next.2 = { s.look 1 with previous := s.now, now := s.final.token.span } := by
    unfold TokenStream.next
    dsimp only
    rw [ahead_look, last, now_look, final_look]
  rw [same]
  exact (h.look 1).found

/-! ### Errors of the token ahead -/

/-- All that wait start after the token ahead, except for some of its own errors. -/
theorem own_errors (h : s.Tidy) : ∃ own later, s.waiting = own ++ later ∧
    own <:+ (s.upcoming 0).errors ∧
    (∀ e ∈ later, (s.upcoming 0).token.span.start < e.span.start) ∧
    ∀ e ∈ ((errorLists s.final s.ahead).drop 1).flatten,
      (s.upcoming 0).token.span.start < e.span.start := by
  have after : ∀ e ∈ ((errorLists s.final s.ahead).drop 1).flatten,
      (s.upcoming 0).token.span.start < e.span.start := by
    rw [h.upcoming_eq]
    obtain ⟨found, -⟩ := h
    generalize s.ahead = ahead at found
    generalize s.final = final at found
    cases found with
    | eof last => exact nofun
    | token more found =>
      have advances := Scanner.scan_advances s.dialect s.taken
      refine fun e among => Position.lt_of_lt_of_le (advances.start_lt more) ?_
      exact advances.stop ▸ (found.errors_lie e among).low_le
  have waiting := h.waiting
  have split : (errorLists s.final s.ahead).flatten =
      (s.upcoming 0).errors ++ ((errorLists s.final s.ahead).drop 1).flatten := by
    unfold upcoming errorLists
    cases s.ahead <;> simp
  rw [split] at waiting
  rcases List.suffix_or_suffix_of_suffix waiting (List.suffix_append _ _) with none | ⟨own, same⟩
  · exact ⟨[], s.waiting, rfl, List.nil_suffix, fun e among => after e (none.mem among), after⟩
  · refine ⟨own, _, same.symm, ?_, after, after⟩
    rw [← same] at waiting
    obtain ⟨rest, same⟩ := waiting
    rw [← List.append_assoc] at same
    exact ⟨rest, List.append_cancel_right same⟩

/-- An error that starts no later than the token ahead is the last of its errors.  If it is not the
first that waits, it is that of a whole string, and those before it are of escapes. -/
theorem head_error (h : s.Tidy) {first rest : List LexicalError} {e : LexicalError}
    (split : s.waiting = first ++ e :: rest)
    (start : e.span.start ≤ (s.upcoming 0).token.span.start) :
    (∀ x ∈ first, x.fault.isEscape = true ∧
      x.Lies (s.upcoming 0).token.span.start (s.upcoming 0).token.span.stop) ∧
    (∀ x ∈ rest, (s.upcoming 0).token.span.start < x.span.start) ∧
    (first = [] ∨ e.fault = .unterminatedString ∧ e.span = (s.upcoming 0).token.span) := by
  obtain ⟨own, later, waits, suffix, after, -⟩ := h.own_errors
  have errs := Scanner.scan_errs s.dialect s.taken
  rw [← h.upcoming_eq] at errs
  obtain ⟨escapes, whole, errors, escaped, last⟩ := errs.faults.split
  have starts {x : LexicalError} (same : x = e)
      (late : (s.upcoming 0).token.span.start < x.span.start) : False :=
    absurd (same ▸ start) (Position.not_le.2 late)
  have mine : e ∈ own := by
    have among : e ∈ own ++ later := by
      rw [← waits, split]
      simp
    exact (List.mem_append.1 among).resolve_right fun there => starts rfl (after e there)
  obtain ⟨before, rfl, sub, whole⟩ : ∃ before, own = before ++ [e] ∧ before <:+ escapes ∧
      (escapes = [] ∨ e.fault = .unterminatedString ∧ e.span = (s.upcoming 0).token.span) := by
    rw [errors] at suffix
    rcases last with rfl | ⟨x, rfl, _, whole⟩
    · rw [List.append_nil] at suffix
      exact (starts rfl (escaped e (suffix.mem mine)).2).elim
    · rcases List.suffix_concat_iff.1 suffix with rfl | ⟨before, rfl, sub⟩
      · exact absurd mine List.not_mem_nil
      · rcases List.mem_append.1 mine with here | here
        · exact (starts rfl (escaped e (sub.mem here)).2).elim
        · obtain rfl := List.mem_singleton.1 here
          exact ⟨before, rfl, sub, whole⟩
  have escape {x : LexicalError} (among : x ∈ before) := escaped x (sub.mem among)
  obtain ⟨rfl, rfl⟩ : before = first ∧ later = rest := by
    rw [split, List.append_assoc before, List.singleton_append] at waits
    have apart := (List.append_cons_inj_of_notMem (fun here => starts rfl (escape here).2)
      (fun there => starts rfl (after e there))).1 waits.symm
    exact ⟨apart.1, apart.2.2⟩
  refine ⟨fun x among => ⟨(escape among).1, ?_⟩, after, whole.imp_left fun none => ?_⟩
  · have lies := errs.lie x (errors ▸ List.mem_append_left _ (sub.mem among))
    exact ⟨Position.le_of_lt (escape among).2, lies.start_lt, lies.stop_le⟩
  · exact List.suffix_nil.1 (none ▸ sub)

/-- Which errors of the token ahead are left when those up to its start have been asked for: the one
of a whole string with at least two bad escapes. -/
theorem left_errors (h : s.Tidy) (looked : 0 < s.seen) {taken left : List LexicalError}
    (queue : s.pending = taken ++ left)
    (cut : s.takeErrorsBefore (s.upcoming 0).token.span.start.nextColumn =
      (taken, { s with pending := left })) {first rest : List LexicalError} {e : LexicalError}
    (split : TokenStream.waiting { s with pending := left } = first ++ e :: rest)
    (start : e.span.start ≤ (s.upcoming 0).token.span.start) :
    e.fault = .unterminatedString ∧ e.span = (s.upcoming 0).token.span ∧
      2 ≤ (taken ++ first).length ∧
      ∀ x ∈ taken ++ first, x.fault.isEscape = true ∧ e.span.contains x.span = true := by
  have all : s.waiting = (taken ++ first) ++ e :: rest := by
    have same : s.waiting = taken ++ TokenStream.waiting { s with pending := left } := by
      rw [TokenStream.waiting, TokenStream.waiting, queue, List.append_assoc]
    rw [same, split, List.append_assoc]
  obtain ⟨escapes, after, whole⟩ := h.head_error all start
  have long : 2 ≤ (taken ++ first).length := by
    by_contra short
    have late : e ∉ ((errorLists s.final s.ahead).drop s.seen).flatten := fun there => by
      obtain ⟨_, _, _, _, _, unseen⟩ := h.own_errors
      obtain ⟨errors, among, there⟩ := List.mem_flatten.1 there
      refine Position.not_le.2 (unseen e (List.mem_flatten.2 ⟨errors, ?_, there⟩)) start
      exact List.drop_subset_drop_left _ looked among
    obtain ⟨more, queue', later⟩ : ∃ more, s.pending = (taken ++ first) ++ e :: more ∧
        ∀ x ∈ more, x ∈ rest := by
      rcases List.append_eq_append_iff.1 all with ⟨_, _, unlooked⟩ | ⟨_ | ⟨x, more⟩, looked, there⟩
      · exact absurd (unlooked ▸ by simp) late
      · rw [List.nil_append] at there
        exact absurd (there ▸ List.mem_cons_self) late
      · obtain ⟨rfl, same⟩ := List.cons_eq_cons.1 there
        exact ⟨more, looked, fun x among => same ▸ List.mem_append_left _ among⟩
    have found := takeErrorsBefore_single queue' (by omega) (Position.lt_nextColumn_iff.2 start)
      fun x among early => absurd (Position.lt_nextColumn_iff.1 early)
        (Position.not_le.2 (after x (later x among)))
    have length := congrArg (fun p : List LexicalError × TokenStream => p.1.length)
      (cut.symm.trans found)
    simp at length
  obtain ⟨fault, place⟩ := whole.resolve_left fun none => by simp [none] at long
  refine ⟨fault, place, long, fun x among => ?_⟩
  obtain ⟨escape, lies⟩ := escapes x among
  exact ⟨escape, place ▸ Span.contains_iff.2 ⟨lies.low_le, lies.stop_le⟩⟩

end Tidy

/-! ## Streams of which no error has been taken -/

/-- All errors of the tokens ahead wait, and no others. -/
structure Intact (s : TokenStream) : Prop where
  found : Scanner.Finds s.dialect s.taken s.ahead s.final
  waiting : s.waiting = (errorLists s.final s.ahead).flatten

namespace Intact

variable {s : TokenStream}

theorem tidy (h : s.Intact) : s.Tidy := ⟨h.found, h.waiting ▸ List.suffix_rfl⟩

theorem look (h : s.Intact) (count : Nat) : (s.look count).Intact :=
  ⟨(h.tidy.look count).found, by simpa using h.waiting⟩

/-- If no error is to be taken with the next token, it has none and is no stray byte. -/
theorem next (h : s.Intact)
    (none : s.next.1.kind ≠ .eof → (s.next.2.takeErrorsBefore s.next.1.span.stop).1 = []) :
    s.next.2.Intact ∧ s.next.1.kind ≠ .illegal := by
  cases ahead : s.ahead with
  | nil =>
    obtain ⟨token, last⟩ := next_of_ahead_eq_nil ahead
    refine ⟨⟨(h.tidy.finish ahead).1.found, ?_⟩, ?_⟩
    · rw [waiting_next, h.waiting, ahead, last, final_next]
    · rw [token, h.found.final_kind]
      decide
  | cons r rest =>
    obtain ⟨token, -, -⟩ := next_of_ahead_eq_cons ahead
    have more : r.token.kind ≠ .eof := h.found.not_eof _ (by simp [ahead])
    obtain ⟨-, taken, left, queue, cut, tidy⟩ := h.tidy.next ahead
    have nothing := none (token ▸ more)
    rw [token, cut] at nothing
    obtain rfl : taken = [] := nothing
    obtain rfl : s.next.2.pending = left := queue
    have tidy : s.next.2.Tidy := tidy
    have waiting : s.next.2.waiting =
        r.errors ++ (errorLists s.next.2.final s.next.2.ahead).flatten := by
      simp [waiting_next, h.waiting, ahead, ahead_next, final_next, errorLists]
    -- What waits is no longer than the errors of the tokens that are left.
    have length := tidy.waiting.length_le
    rw [waiting, List.length_append] at length
    have clean : r.errors = [] := List.length_eq_zero_iff.1 (by omega)
    obtain ⟨scanner, rfl⟩ := h.found.scanned r (by simp [ahead])
    exact ⟨⟨tidy.found, by simpa [clean] using waiting⟩,
      token ▸ (scanner.scan_proper s.dialect clean).legal⟩

end Intact

end TokenStream

end LuaChunk
