import LuaChunk.Proofs.Lexer.Lookahead
import LuaChunk.Proofs.Lexer.Remarks

/-!
# Comments are kept by their last lines

The comments of a source stand one after the other, and a line comment ends its line.  So runs that
are kept by the lines they end on never get in the way of one another, except that of several
comments that end on one line the log keeps the last.
-/

set_option autoImplicit false

namespace LuaChunk

/-! ## The comments of a text in order -/

/-- A line ends at an offset, or the text does, and no CR LF is cut in two there. -/
structure LineEndsAt (text : List UInt8) (offset : Nat) : Prop where
  ends : ∀ b ∈ text[offset]?, Byte.isLineEnd b = true
  whole : (text.take offset).getLast? ≠ some 0x0D

theorem LineEndsAt.line_lt {text : List UInt8} {low high : Nat} (h : LineEndsAt text low)
    (lt : low < high) (within : high ≤ text.length) :
    (Position.ofOffset text low).line < (Position.ofOffset text high).line := by
  have inside : low < text.length := Nat.lt_of_lt_of_le lt within
  rw [Position.ofOffset, Position.ofOffset, Position.extract_append_drop (Nat.le_of_lt lt),
    Position.past_append _ fun last => absurd last h.whole]
  refine Position.line_lt_past _ ⟨text[low], ?_, h.ends _ (List.getElem?_eq_getElem inside)⟩
  rw [List.extract_eq_take_drop, List.head?_take, if_neg (by omega), List.head?_drop]
  exact List.getElem?_eq_getElem inside

namespace Comment.Tells

variable {body after text : List UInt8} {said : String} {single : Bool} {low middle : Nat}

theorem dashed (h : Tells body after said single) : dashes <+: body := by
  cases h with
  | closed | unfinished | line => exact List.prefix_append _ _

theorem plain (h : Tells body after said true) : ∀ b ∈ body, Byte.isLineEnd b = false := by
  cases h with
  | line plain => exact List.forall_mem_append.2 ⟨dashes_plain, plain⟩

theorem ends (h : Tells body after said true) : ∀ b ∈ after.head?, Byte.isLineEnd b = true := by
  cases h with
  | line _ ends => exact ends

section

variable (h : Tells (text.extract low middle) (text.drop middle) said single)

include h

theorem head? : (text.extract low middle).head? = some (Byte.of '-') := by
  obtain ⟨rest, same⟩ := h.dashed
  rw [← same]
  rfl

/-- A comment takes some bytes. -/
theorem offset_lt : low < middle := by
  have first := h.head?
  rw [List.extract_eq_take_drop, List.head?_take] at first
  split at first
  · cases first
  · omega

theorem getElem? : text[low]? = some (Byte.of '-') := by
  have first := h.head?
  have lt := h.offset_lt
  rwa [List.extract_eq_take_drop, List.head?_take, if_neg (by omega), List.head?_drop] at first

theorem ofOffset_eq : Position.ofOffset text middle =
    (Position.ofOffset text low).past (text.extract low middle) := by
  rw [Position.ofOffset, Position.extract_append_drop (Nat.le_of_lt h.offset_lt),
    Position.past_append _ fun _ => ?_]
  · rfl
  · rw [h.head?]
    decide

theorem start_lt : Position.ofOffset text low < Position.ofOffset text middle := by
  rw [h.ofOffset_eq]
  obtain ⟨rest, same⟩ := h.dashed
  rw [← same, show dashes ++ rest = Byte.of '-' :: (Byte.of '-' :: rest) from rfl,
    Position.past_cons _ fun carriage => absurd carriage (by decide)]
  exact Position.lt_of_lt_of_le (Position.lt_turn _ _) (Position.le_past _ _)

end

section

variable (h : Tells (text.extract low middle) (text.drop middle) said true)

include h

theorem lineEndsAt : LineEndsAt text middle where
  ends b among := h.ends b (by rwa [List.head?_drop])
  whole last := by
    have some : text.extract low middle ≠ [] := by
      intro empty
      have first := h.head?
      rw [empty] at first
      cases first
    rw [Position.extract_append_drop (Nat.le_of_lt h.offset_lt),
      List.getLast?_append_of_ne_nil _ some] at last
    exact absurd (h.plain _ (List.mem_of_getLast? last)) (by decide)

theorem line_eq : (Position.ofOffset text low).line = (Position.ofOffset text middle).line := by
  rw [h.ofOffset_eq, Position.line_past_eq _ h.plain]

end

end Comment.Tells

/-- The comments of a text from an offset on, with anything between them. -/
inductive Scattered (text : List UInt8) : Nat → List Remark → Prop
  | nil {low : Nat} : Scattered text low []
  | later {low next : Nat} {rs : List Remark} : low < next → next ≤ text.length →
      Scattered text next rs → Scattered text low rs
  | comment {low middle : Nat} {said : String} {single head : Bool} {rs : List Remark} :
      Comment.Tells (text.extract low middle) (text.drop middle) said single →
      Scattered text middle rs →
      Scattered text low
        (⟨said, ⟨.ofOffset text low, .ofOffset text middle⟩, single, head⟩ :: rs)

namespace Scattered

variable {text : List UInt8} {low : Nat} {rs : List Remark}

/-- All of them stand after the offset, and on a later line if a line ends there. -/
theorem after (h : Scattered text low rs) : ∀ r ∈ rs,
    Position.ofOffset text low ≤ r.span.start ∧
      (LineEndsAt text low → (Position.ofOffset text low).line < r.span.start.line) := by
  induction h with
  | nil => exact List.forall_mem_nil _
  | @later low next rs lt within _ inductionHypothesis =>
    intro r among
    obtain ⟨le, -⟩ := inductionHypothesis r among
    refine ⟨Position.le_trans (Position.ofOffset_le (Nat.le_of_lt lt)) le, fun ends => ?_⟩
    have line := ends.line_lt lt within
    rw [Position.le_def] at le
    omega
  | @comment low middle said single head rs tells _ inductionHypothesis =>
    have solid (ends : LineEndsAt text low) : False :=
      absurd (ends.ends _ tells.getElem?) (by decide)
    refine List.forall_mem_cons.2 ⟨⟨Position.le_refl _, fun ends => (solid ends).elim⟩, ?_⟩
    intro r among
    obtain ⟨le, -⟩ := inductionHypothesis r among
    exact ⟨Position.le_trans (Position.le_of_lt tells.start_lt) le, fun ends => (solid ends).elim⟩

theorem story (h : Scattered text low rs) : Remark.Story rs := by
  induction h with
  | nil => exact ⟨.nil, List.forall_mem_nil _⟩
  | later _ _ _ inductionHypothesis => exact inductionHypothesis
  | @comment low middle said single head rs tells rest inductionHypothesis =>
    obtain ⟨ordered, fair⟩ := inductionHypothesis
    refine ⟨.cons (fun r among => ?_) ordered, List.forall_mem_cons.2 ⟨?_, fair⟩⟩
    · obtain ⟨le, line⟩ := rest.after r among
      refine ⟨le, ?_⟩
      rintro (rfl : single = true)
      exact line tells.lineEndsAt
    · refine ⟨tells.start_lt, ?_⟩
      rintro (rfl : single = true)
      exact tells.line_eq

end Scattered

namespace Noted

variable {text : List UInt8} {line low high : Nat} {rs : List Remark}

theorem scattered (h : Noted text line low high rs) {more : List Remark}
    (rest : Scattered text high more) : Scattered text low (rs ++ more) := by
  induction h with
  | nil => exact rest
  | blank here _ _ inductionHypothesis =>
    obtain ⟨inside, -⟩ := List.getElem?_eq_some_iff.1 here
    exact .later (Nat.lt_succ_self _) inside (inductionHypothesis rest)
  | comment tells _ inductionHypothesis => exact .comment tells (inductionHypothesis rest)

theorem low_le (h : Noted text line low high rs) : low ≤ high := by
  induction h with
  | nil => exact Nat.le_refl _
  | blank _ _ _ inductionHypothesis => exact Nat.le_of_succ_le inductionHypothesis
  | comment tells _ inductionHypothesis =>
    exact Nat.le_trans (Nat.le_of_lt tells.offset_lt) inductionHypothesis

/-- A comment of the gap is at the head of its line if the token before it ends on another. -/
theorem heads (h : Noted text line low high rs) : ∀ r ∈ rs,
    r.span.start < .ofOffset text high ∧ (r.head = true ↔ line ≠ r.span.start.line) := by
  induction h with
  | nil => exact List.forall_mem_nil _
  | blank _ _ _ inductionHypothesis => exact inductionHypothesis
  | comment tells noted inductionHypothesis =>
    refine List.forall_mem_cons.2 ⟨⟨?_, bne_iff_ne⟩, inductionHypothesis⟩
    exact Position.lt_of_lt_of_le tells.start_lt (Position.ofOffset_le noted.low_le)

end Noted

namespace Annotated

variable {text : List UInt8} {low line : Nat} {pieces : List Piece} {rs : List Remark}

theorem scattered (h : Annotated text low line pieces rs) : Scattered text low rs := by
  induction h with
  | last noted => simpa using noted.scattered .nil
  | piece noted fits _ inductionHypothesis =>
    exact noted.scattered (.later fits.nonempty fits.within inductionHypothesis)

theorem low_le (h : Annotated text low line pieces rs) : ∀ p ∈ pieces, low ≤ p.start := by
  induction h with
  | last => exact List.forall_mem_nil _
  | piece noted fits _ inductionHypothesis =>
    refine List.forall_mem_cons.2 ⟨noted.low_le, fun p among => ?_⟩
    exact Nat.le_trans noted.low_le
      (Nat.le_trans (Nat.le_of_lt fits.nonempty) (inductionHypothesis p among))

theorem fits (h : Annotated text low line pieces rs) : ∀ p ∈ pieces, p.Fits text := by
  induction h with
  | last => exact List.forall_mem_nil _
  | piece _ fits _ inductionHypothesis => exact List.forall_mem_cons.2 ⟨fits, inductionHypothesis⟩

/-- A comment is at the head of its line if no token before it ends there. -/
theorem heads (h : Annotated text low line pieces rs)
    (before : line ≤ (Position.ofOffset text low).line) : ∀ r ∈ rs,
    (r.head = true ↔ line ≠ r.span.start.line ∧ ∀ p ∈ pieces,
      p.token.span.stop ≤ r.span.start → p.token.span.stop.line ≠ r.span.start.line) := by
  induction h with
  | last noted =>
    intro r among
    rw [(noted.heads r among).2]
    exact ⟨fun apart => ⟨apart, List.forall_mem_nil _⟩, And.left⟩
  | @piece low line p rest rs more noted fits annotated inductionHypothesis =>
    have stop : p.token.span.stop = .ofOffset text p.stop := by rw [fits.span]
    refine List.forall_mem_append.2 ⟨fun r among => ?_, fun r among => ?_⟩
    · obtain ⟨lt, head⟩ := noted.heads r among
      rw [head]
      refine ⟨fun apart => ⟨apart, fun q inside le => ?_⟩, And.left⟩
      -- No token ahead ends before a comment of this gap.
      have beyond : p.start ≤ q.stop := by
        rcases List.mem_cons.1 inside with rfl | later
        · exact Nat.le_of_lt fits.nonempty
        · have := fits.nonempty
          have := annotated.low_le q later
          have := (annotated.fits q later).nonempty
          omega
      rw [(List.forall_mem_cons.2 ⟨fits, annotated.fits⟩ q inside).span] at le
      have := Position.lt_of_lt_of_le lt (Position.ofOffset_le beyond)
      exact absurd le (Position.not_le.2 this)
    · obtain ⟨le, -⟩ := annotated.scattered.after r among
      have onward : (Position.ofOffset text low).line ≤ (Position.ofOffset text p.stop).line := by
        have order := Nat.le_trans noted.low_le (Nat.le_of_lt fits.nonempty)
        have le : Position.ofOffset text low ≤ Position.ofOffset text p.stop :=
          Position.ofOffset_le order
        rw [Position.le_def] at le
        omega
      rw [inductionHypothesis (stop ▸ Nat.le_refl _) r among, List.forall_mem_cons, stop]
      refine ⟨fun ⟨apart, others⟩ => ⟨?_, fun _ => apart, others⟩,
        fun ⟨_, own, others⟩ => ⟨own le, others⟩⟩
      rw [Position.le_def] at le
      omega

end Annotated

/-! ## What a log says of a text -/

/-- Each comment is one line of one run, unless another ends on the same line after it: then it is
no line of any.  A line comment is never lost so. -/
structure CommentLog.Once (rs : List Remark) (log : CommentLog) : Prop where
  count : ∀ before r after, rs = before ++ r :: after → (log.toList.flatMap (·.lines)).count r.line =
    if after.any (·.lastLine == r.lastLine) then 0 else 1
  single : ∀ r ∈ rs, r.single = true → (log.toList.flatMap (·.lines)).count r.line = 1

theorem CommentLog.once_ofRemarks {rs : List Remark} (story : Remark.Story rs) :
    (ofRemarks rs).Once rs := by
  have lines := (holds_ofRemarks story).lines
  refine ⟨?_, fun r among single => ?_⟩
  · rintro before r after rfl
    rw [lines, story.count_kept]
  · obtain ⟨before, after, rfl⟩ := List.append_of_mem among
    rw [lines, story.count_kept, story.any_of_single single]
    rfl

/-- The runs that are kept of some comments between tokens. -/
structure CommentLog.Consistent (tokens : List Token) (rs : List Remark) (log : CommentLog) :
    Prop where
  /-- A map by last lines, out of which a run is taken and put under another key as it grows, holds
  the same runs. -/
  keyed : ∀ line e, (KeyedLog.ofRemarks rs).entries line = some e ↔ e ∈ log.toList ∧ e.lastLine = line
  first : ∀ e ∈ log.toList, ∃ l rest, e.lines = l :: rest ∧ l.position = e.span.start
  /-- Several lines of one run are line comments on one line of the source after the other. -/
  several : ∀ e ∈ log.toList, 1 < e.lines.length → e.head = true ∧
    (∃ first, e.lines.map (·.position.line) = List.range' first e.lines.length ∧
      first + e.lines.length = e.lastLine + 1) ∧
    ∀ l ∈ e.lines, ∃ r ∈ rs, r.line = l ∧ r.single = true
  ordered : log.toList.Pairwise fun e f => e.lastLine < f.lastLine ∧ e.span.stop ≤ f.span.start
  /-- No token before the run ends on its first line. -/
  head : ∀ e ∈ log.toList, (e.head = true ↔ ∀ t ∈ tokens, t.span.stop ≤ e.span.start →
    t.span.stop.line ≠ e.span.start.line)
  /-- A run that grows is put under a key that is free. -/
  free : ∀ before r, before ++ [r] <+: rs → ((KeyedLog.ofRemarks before).joined? r).isSome →
    (KeyedLog.ofRemarks before).entries r.lastLine = none

namespace Annotated

variable {text : List UInt8} {pieces : List Piece} {rs met : List Remark}

/-- The comments met at any time are logged as they stand in the text. -/
theorem consistent (h : Annotated text 0 0 pieces rs) (some : met <+: rs) :
    (CommentLog.ofRemarks met).Consistent (pieces.map (·.token)) met := by
  obtain ⟨ordered, fair⟩ := h.scattered.story
  have story : Remark.Story met :=
    ⟨ordered.sublist some.sublist, fun r among => fair r (some.subset among)⟩
  have holds := CommentLog.holds_ofRemarks story
  obtain ⟨groups, flat, joins⟩ := holds.forall₂
  have among {g : List Remark} (inside : g ∈ groups) {r : Remark} (own : r ∈ g) : r ∈ met :=
    (Remark.kept_sublist met).subset (flat ▸ List.mem_flatten_of_mem inside own)
  refine ⟨KeyedLog.entries_eq_some_iff story, fun e inside => ?_, fun e inside many => ?_,
    (holds.keys story).and (holds.ordered story), fun e inside => ?_, fun before r front joins => ?_⟩
  · obtain ⟨g, -, joined⟩ := CommentRun.Joins.exists_of_mem joins inside
    obtain ⟨a, rest, rfl, start, -⟩ := joined.first
    exact ⟨a.line, rest.map Remark.line, joined.lines, start.symm⟩
  · obtain ⟨g, own, joined⟩ := CommentRun.Joins.exists_of_mem joins inside
    rw [joined.lines, List.length_map] at many
    have wholes := joined.wholes many
    obtain ⟨a, rest, same, -, head⟩ := joined.first
    have first := Bool.and_eq_true_iff.1 (wholes a (same ▸ List.mem_cons_self))
    obtain ⟨le, lines⟩ := joined.consecutive (fun r inside => story.fair r (among own inside)) wholes
    rw [joined.lines, List.length_map, List.map_map]
    refine ⟨head.trans first.2, ⟨_, lines, Nat.sub_add_cancel le⟩, ?_⟩
    rw [List.forall_mem_map]
    exact fun r inside => ⟨r, among own inside, rfl, (Bool.and_eq_true_iff.1 (wholes r inside)).1⟩
  · obtain ⟨g, own, joined⟩ := CommentRun.Joins.exists_of_mem joins inside
    obtain ⟨a, rest, rfl, start, head⟩ := joined.first
    have inside := some.subset (among own List.mem_cons_self)
    have positive : 0 ≠ a.span.start.line := by
      have le := (h.scattered.after a inside).1
      rw [Position.le_def] at le
      have start : (Position.ofOffset text 0).line = 1 := rfl
      omega
    rw [head, start, h.heads (Nat.zero_le _) a inside, List.forall_mem_map]
    exact and_iff_right positive
  · exact KeyedLog.entries_eq_none_of_joins ⟨story.ordered.sublist front.sublist,
      fun r among => story.fair r (front.subset among)⟩ joins

end Annotated

/-! ## Comments of a stream -/

namespace TokenStream

/-- A stream stands after some of the tokens that are ahead of another. -/
def GoesOn (origin s : TokenStream) : Prop :=
  s.final = origin.final ∧ ∃ n, s.taken = origin.scannerAt n ∧ s.ahead = origin.ahead.drop n

namespace GoesOn

variable {origin s : TokenStream}

theorem look (h : origin.GoesOn s) (count : Nat) : origin.GoesOn (s.look count) := by
  obtain ⟨final, n, taken, ahead⟩ := h
  refine ⟨by rw [final_look, final], n, ?_, by rw [ahead_look, ahead]⟩
  rw [(s.look_frame count).2.1, taken]

theorem next (h : origin.GoesOn s) : origin.GoesOn s.next.2 := by
  obtain ⟨final, n, taken, ahead⟩ := h.look 1
  unfold TokenStream.next
  dsimp only
  split
  · exact ⟨final, n, taken, ahead⟩
  next r rest some =>
    rw [some] at ahead
    refine ⟨final, n + 1, ?_, ?_⟩
    · have here : origin.ahead[n]? = Option.some r := by
        rw [← List.head?_drop, ← ahead]
        rfl
      rw [scannerAt, Scanner.Finds.scannerAt, here]
      rfl
    · rw [← List.drop_drop, ← ahead]
      rfl

theorem answer (h : origin.GoesOn s) (q : Request) : origin.GoesOn (s.answer q).2 := by
  cases q with
  | next => exact h.next
  | peek n => exact h.look _
  | peekPair | peekWhile =>
    simp only [TokenStream.answer, TokenStream.peekPair, TokenStream.peekWhile]
    split
    · exact h.look _
    · exact h.look _
  | takeErrors => exact h
  | takeErrorsBefore p => exact h

theorem serve (h : origin.GoesOn s) (requests : List Request) :
    origin.GoesOn (serve TokenStream.answer s requests).2 := by
  induction requests generalizing s with
  | nil => exact h
  | cons q requests inductionHypothesis => exact inductionHypothesis (h.answer q)

theorem comments (h : origin.GoesOn s) : ∃ n, s.comments = (origin.scannerAt n).comments := by
  obtain ⟨final, n, taken, ahead⟩ := h
  refine ⟨n + s.seen, ?_⟩
  unfold TokenStream.comments
  cases s.seen with
  | zero => rw [taken]; rfl
  | succ m =>
    dsimp only
    rw [upcoming, ahead, final, List.getElem?_drop]
    rfl

end GoesOn

/-- The tokens of a source cut it into pieces, and these are the comments between them. -/
structure Annotated (d : Dialect) (source : List UInt8) (pieces : List Piece) (rs : List Remark) :
    Prop where
  text : LuaChunk.Annotated (withoutMark source) 0 0 pieces rs
  tokens : pieces.map (·.token) = (ofBytes d source).ahead.map (·.token)

theorem annotated_ofBytes (d : Dialect) (source : List UInt8) : ∃ pieces rs,
    Annotated d source pieces rs ∧
      (ofBytes d source).final.after.comments = .ofRemarks rs ∧
      ∀ n, ∃ k, ((ofBytes d source).scannerAt n).comments = .ofRemarks (rs.take k) := by
  obtain ⟨pieces, rs, tokens, annotated, final, each⟩ :=
    ((Scanner.ofBytes source).run_finds d).annotated (Cursor.follows_ofBytes source)
  exact ⟨pieces, rs, ⟨annotated, tokens⟩, final, each⟩

/-- **Comments are lost to others on their line only.**  Once the end of input has been taken, every
comment of the source is one line of one run, unless another comment ends on the same line after
it. -/
theorem reading_comments_once (d : Dialect) (source : List UInt8) (requests : List Request)
    (eof : ∃ t ∈ Answer.tokens (reading d source requests).1, t.kind = .eof) :
    ∃ pieces rs, Annotated d source pieces rs ∧ (reading d source requests).2.comments.Once rs := by
  obtain ⟨pieces, rs, annotated, final, -⟩ := annotated_ofBytes d source
  have served := served_reading d source requests
  have last := served.length_lt ((Scanner.ofBytes source).run_finds d).not_eof eof
  have story := annotated.text.scattered.story
  refine ⟨pieces, rs, annotated, ?_⟩
  rw [(served.finished last).2, final]
  exact CommentLog.once_ofRemarks story

theorem reading_comments_once_arguments :
    let source := "f(--[[x]] 1, --[[y]] 2) -- z".toUTF8.toList
    let requests := List.replicate 7 Request.next
    (∃ t ∈ Answer.tokens (reading .lua source requests).1, t.kind = .eof) ∧
      ∃ pieces rs, Annotated .lua source pieces rs ∧
        (reading .lua source requests).2.comments.Once rs :=
  ⟨by decide +kernel, reading_comments_once .lua _ _ (by decide +kernel)⟩

/-- Of two comments between the arguments of a call the log has the second only. -/
theorem reading_comments_lost :
    let after := reading .lua "f(--[[x]] 1, --[[y]] 2)".toUTF8.toList (List.replicate 7 .next)
    (Answer.tokens after.1).map (·.text) = ["f", "(", "1", ",", "2", ")", ""] ∧
      (after.2.comments.toList.flatMap (·.lines)).map (·.text) = ["y"] := by
  decide +kernel

/-- **The comments are consistent.**  After any requests, the runs are those of the first comments
of the source. -/
theorem reading_comments_consistent (d : Dialect) (source : List UInt8) (requests : List Request) :
    ∃ pieces rs, Annotated d source pieces rs ∧ ∃ met, met <+: rs ∧
      (reading d source requests).2.comments = .ofRemarks met ∧
      (reading d source requests).2.comments.Consistent (pieces.map (·.token)) met := by
  obtain ⟨pieces, rs, annotated, -, each⟩ := annotated_ofBytes d source
  have onward : (ofBytes d source).GoesOn (reading d source requests).2 :=
    GoesOn.serve ⟨rfl, 0, rfl, rfl⟩ requests
  obtain ⟨n, comments⟩ := onward.comments
  obtain ⟨k, met⟩ := each n
  refine ⟨pieces, rs, annotated, rs.take k, List.take_prefix k rs, comments.trans met, ?_⟩
  rw [comments, met]
  exact annotated.text.consistent (List.take_prefix k rs)

end TokenStream

end LuaChunk
