import LuaChunk.Lexer.Comment
import Mathlib.Data.List.Induction
import Mathlib.Data.List.Nodup

/-!
# Comments by their last lines

A log keeps the comments of a text as runs, each under the line it ends on.  Of the comments that
end on one line, the log keeps the last; each of the others is replaced by the one after it.
-/

set_option autoImplicit false

namespace LuaChunk

/-- A comment as it is met. -/
structure Remark where
  text : String
  span : Span
  /-- It runs to the end of its line, with no bracket around it. -/
  single : Bool
  /-- No token ends on the line where it starts. -/
  head : Bool

namespace Remark

def line (r : Remark) : CommentLine := ⟨r.text, r.span.start⟩

def lastLine (r : Remark) : Nat := r.span.stop.line

/-- Nothing else stands on its line. -/
def whole (r : Remark) : Bool := r.single && r.head

/-- One comment is met before another, which stands on a later line if the first runs to the end of
its line. -/
structure Before (a b : Remark) : Prop where
  le : a.span.stop ≤ b.span.start
  line_lt : a.single = true → a.lastLine < b.span.start.line

/-- A comment ends after it starts, and on the same line if it runs to the end of its line. -/
structure Fair (r : Remark) : Prop where
  lt : r.span.start < r.span.stop
  line_eq : r.single = true → r.span.start.line = r.lastLine

/-- The comments that none ends on the last line of after them. -/
def kept : List Remark → List Remark
  | [] => []
  | r :: rest => if rest.any (·.lastLine == r.lastLine) then kept rest else r :: kept rest

theorem kept_concat (rs : List Remark) (r : Remark) :
    kept (rs ++ [r]) = (kept rs).filter (·.lastLine ≠ r.lastLine) ++ [r] := by
  induction rs with
  | nil => rfl
  | cons a rs inductionHypothesis =>
    by_cases own : r.lastLine = a.lastLine
    · cases later : rs.any (·.lastLine == a.lastLine) <;>
        simp [kept, own, later, inductionHypothesis]
    · cases later : rs.any (·.lastLine == a.lastLine) <;>
        simp [kept, own, Ne.symm own, later, inductionHypothesis]

/-- The last comment is kept. -/
theorem getLast?_kept (rs : List Remark) : (kept rs).getLast? = rs.getLast? := by
  rcases rs.eq_nil_or_concat with rfl | ⟨before, r, rfl⟩
  · rfl
  · rw [List.concat_eq_append, kept_concat, List.getLast?_concat, List.getLast?_concat]

theorem kept_sublist (rs : List Remark) : (kept rs).Sublist rs := by
  induction rs with
  | nil => exact .slnil
  | cons a rs inductionHypothesis =>
    unfold kept
    split
    · exact inductionHypothesis.cons a
    · exact inductionHypothesis.cons_cons a

/-- Comments as they are met one after the other. -/
structure Story (rs : List Remark) : Prop where
  ordered : rs.Pairwise Before
  fair : ∀ r ∈ rs, r.Fair

theorem Before.lastLine_le {a b : Remark} (h : a.Before b) (fair : b.Fair) :
    a.lastLine ≤ b.lastLine := by
  have le := Position.le_trans h.le (Position.le_of_lt fair.lt)
  simp only [Position.le_def] at le
  unfold lastLine
  omega

/-- Each line ends one comment at most that is kept. -/
theorem Story.kept_ordered {rs : List Remark} (h : Story rs) :
    (kept rs).Pairwise (·.lastLine < ·.lastLine) := by
  obtain ⟨ordered, fair⟩ := h
  induction rs with
  | nil => exact .nil
  | cons a rs inductionHypothesis =>
    obtain ⟨first, ordered⟩ := List.pairwise_cons.1 ordered
    have rest := inductionHypothesis ordered fun r among => fair r (.tail _ among)
    unfold kept
    split
    · exact rest
    next last =>
      refine List.pairwise_cons.2 ⟨fun b among => ?_, rest⟩
      have among := (kept_sublist rs).subset among
      have other : b.lastLine ≠ a.lastLine := fun same =>
        last (List.any_eq_true.2 ⟨b, among, beq_iff_eq.2 same⟩)
      have le := (first b among).lastLine_le (fair b (.tail _ among))
      omega

theorem Before.line_ne {a b : Remark} (h : a.Before b) (fair : a.Fair) : a.line ≠ b.line := by
  intro same
  have start : a.span.start = b.span.start := congrArg CommentLine.position same
  have lt := fair.lt
  have le := h.le
  rw [← start] at le
  exact absurd le (Position.not_le.2 lt)

/-- Of a comment there is one line if none after it ends on its last line, and none otherwise. -/
theorem Story.count_kept {before after : List Remark} {r : Remark}
    (h : Story (before ++ r :: after)) :
    ((kept (before ++ r :: after)).map line).count r.line =
      if after.any (·.lastLine == r.lastLine) then 0 else 1 := by
  induction before with
  | nil =>
    obtain ⟨first, -⟩ := List.pairwise_cons.1 h.ordered
    have absent : ((kept after).map line).count r.line = 0 := by
      rw [List.count_eq_zero, List.mem_map]
      rintro ⟨b, among, same⟩
      have among := (kept_sublist after).subset among
      exact (first b among).line_ne (h.fair r List.mem_cons_self) same.symm
    rw [List.nil_append, kept]
    split
    · exact absent
    · rw [List.map_cons, List.count_cons_self, absent]
  | cons a before inductionHypothesis =>
    obtain ⟨first, ordered⟩ := List.pairwise_cons.1 h.ordered
    have rest := inductionHypothesis ⟨ordered, fun r among => h.fair r (.tail _ among)⟩
    have other := (first r (by simp)).line_ne (h.fair a List.mem_cons_self)
    rw [List.cons_append, kept]
    split
    · exact rest
    · rw [List.map_cons, List.count_cons_of_ne other, rest]

/-- No comment ends on the line of a line comment before it. -/
theorem Story.any_of_single {before after : List Remark} {r : Remark}
    (h : Story (before ++ r :: after)) (single : r.single = true) :
    after.any (·.lastLine == r.lastLine) = false := by
  obtain ⟨-, ordered, -⟩ := List.pairwise_append.1 h.ordered
  obtain ⟨first, -⟩ := List.pairwise_cons.1 ordered
  refine List.any_eq_false.2 fun b among same => ?_
  have later := (first b among).line_lt single
  have le := Position.le_of_lt (h.fair b (by simp [among])).lt
  rw [Position.le_def] at le
  rw [beq_iff_eq] at same
  unfold lastLine at *
  omega

theorem Story.of_concat {rs : List Remark} {r : Remark} (h : Story (rs ++ [r])) :
    Story rs ∧ (∀ a ∈ rs, a.Before r) ∧ r.Fair := by
  obtain ⟨ordered, fair⟩ := h
  obtain ⟨ordered, -, before⟩ := List.pairwise_append.1 ordered
  rw [List.forall_mem_append] at fair
  exact ⟨⟨ordered, fair.1⟩, fun a among => before a among r List.mem_cons_self,
    fair.2 r List.mem_cons_self⟩

end Remark

namespace CommentLog

/-- Notes a comment. -/
def add (log : CommentLog) (r : Remark) : CommentLog := log.record r.line r.span r.head r.whole

def ofRemarks (rs : List Remark) : CommentLog := rs.foldl add {}

end CommentLog

/-- A run is made of some comments: of one, or of several that each have a line of their own, one
line after the other. -/
inductive CommentRun.Joins : List Remark → CommentRun → Prop
  | one (r : Remark) : Joins [r] ⟨[r.line], r.span, r.head⟩
  | more {group : List Remark} {r : Remark} {e : CommentRun} : Joins group e →
      (∀ a ∈ group, a.whole = true) → r.whole = true → e.lastLine + 1 = r.span.start.line →
      Joins (group ++ [r]) { e with lines := e.lines ++ [r.line], span := e.span.merge r.span }

theorem CommentRun.Joins.last {group : List Remark} {e : CommentRun} (h : e.Joins group) :
    ∃ before a, group = before ++ [a] ∧ e.span.stop = a.span.stop := by
  cases h with
  | one r => exact ⟨[], r, rfl, rfl⟩
  | @more group r => exact ⟨group, r, rfl, rfl⟩

/-- Each of several comments has its line to itself. -/
theorem CommentRun.Joins.wholes {group : List Remark} {e : CommentRun} (h : e.Joins group)
    (several : 1 < group.length) : ∀ r ∈ group, r.whole = true := by
  cases h with
  | one => exact absurd several (Nat.lt_irrefl 1)
  | more _ wholes whole => exact List.forall_mem_append.2 ⟨wholes, List.forall_mem_singleton.2 whole⟩

namespace CommentLog

/-- The comment joins the latest run. -/
structure Merges (log : CommentLog) (r : Remark) : Prop where
  whole : r.whole = true
  extendable : log.extendable = true
  adjacent : ∃ last ∈ log.runs.head?, last.lastLine + 1 = r.span.start.line

variable {log : CommentLog} {rs : List Remark} {r : Remark}

theorem put_of_ne {runs : List CommentRun} {e : CommentRun}
    (other : ∀ x ∈ runs.head?, x.lastLine ≠ e.lastLine) : put runs e = e :: runs := by
  cases runs with
  | nil => rfl
  | cons x runs =>
    have different : (x.lastLine == e.lastLine) = false := beq_false_of_ne (other x rfl)
    rw [put, List.dropWhile_cons_of_neg (by simp [different])]

theorem put_of_eq {runs : List CommentRun} {x e : CommentRun} (same : x.lastLine = e.lastLine)
    (other : ∀ y ∈ runs.head?, y.lastLine ≠ e.lastLine) : put (x :: runs) e = e :: runs := by
  rw [← put_of_ne other, put, put, List.dropWhile_cons_of_pos (by simp [same])]

theorem add_of_merges {last : CommentRun} {earlier : List CommentRun}
    (runs : log.runs = last :: earlier) (h : log.Merges r) : log.add r =
      ⟨put earlier { last with lines := last.lines ++ [r.line], span := last.span.merge r.span },
        true⟩ := by
  obtain ⟨whole, extendable, e, same, adjacent⟩ := h
  rw [runs] at same
  cases same
  simp [add, record, runs, whole, extendable, adjacent]

theorem add_of_not_merges (h : ¬ log.Merges r) :
    log.add r = ⟨put log.runs ⟨[r.line], r.span, r.head⟩, r.whole⟩ := by
  obtain ⟨runs, extendable⟩ := log
  cases runs with
  | nil => rfl
  | cons last earlier =>
    unfold add record
    dsimp only
    rw [if_neg]
    simp only [Bool.and_eq_true, beq_iff_eq]
    exact fun joins => h ⟨joins.1.1, joins.1.2, last, rfl, joins.2⟩

/-- The runs are made of the comments that are kept, and the latest goes on if the last comment has
a line of its own. -/
structure Holds (rs : List Remark) (log : CommentLog) : Prop where
  groups : ∃ groups : List (List Remark), groups.reverse.flatten = Remark.kept rs ∧
    List.Forall₂ CommentRun.Joins groups log.runs
  extendable : log.extendable = true ↔ ∃ a ∈ rs.getLast?, a.whole = true

/-- The latest run is made of some comments and the last one, those before it of others. -/
structure Latest (rs : List Remark) (last : CommentRun) (earlier : List CommentRun)
    (groups : List (List Remark)) (group : List Remark) (a : Remark) : Prop where
  flat : groups.reverse.flatten ++ (group ++ [a]) = Remark.kept rs
  own : last.Joins (group ++ [a])
  joins : List.Forall₂ CommentRun.Joins groups earlier

theorem Holds.latest (h : log.Holds rs) {last : CommentRun} {earlier : List CommentRun}
    (runs : log.runs = last :: earlier) :
    ∃ groups group a, Latest rs last earlier groups group a := by
  obtain ⟨⟨groups, flat, joins⟩, -⟩ := h
  rw [runs] at joins
  obtain ⟨⟩ | @⟨_, _, groups, _, own, joins⟩ := joins
  obtain ⟨group, a, rfl, -⟩ := own.last
  rw [List.reverse_cons, List.flatten_append, List.flatten_singleton] at flat
  exact ⟨groups, group, a, flat, own, joins⟩

namespace Latest

variable {last : CommentRun} {earlier : List CommentRun} {groups : List (List Remark)}
  {group : List Remark} {a : Remark}

theorem ends (h : Latest rs last earlier groups group a) : last.lastLine = a.lastLine := by
  obtain ⟨before, b, same, stop⟩ := h.own.last
  obtain ⟨-, same⟩ := List.append_inj' same rfl
  cases same
  exact congrArg Position.line stop

theorem getLast? (h : Latest rs last earlier groups group a) : rs.getLast? = some a := by
  rw [← Remark.getLast?_kept, ← h.flat, ← List.append_assoc, List.getLast?_concat]

variable (h : Latest rs last earlier groups group a) (story : Remark.Story rs)

include h story

theorem lt : ∀ x ∈ groups.reverse.flatten ++ group, x.lastLine < a.lastLine := by
  have ordered := h.flat ▸ story.kept_ordered
  rw [← List.append_assoc, List.pairwise_append] at ordered
  exact fun x inside => ordered.2.2 x inside a List.mem_cons_self

theorem earlier_lt : ∀ e ∈ earlier.head?, e.lastLine < a.lastLine := by
  cases joins : h.joins with
  | nil => nofun
  | @cons g e groups runs own _ =>
    rintro _ ⟨⟩
    obtain ⟨before, b, rfl, stop⟩ := own.last
    have lt := h.lt story b (by simp)
    rwa [← show e.lastLine = b.lastLine from congrArg Position.line stop] at lt

/-- Only the latest run may end on the line of a new comment. -/
theorem kept_of_ne (other : a.lastLine ≠ r.lastLine) (le : a.lastLine ≤ r.lastLine) :
    Remark.kept (rs ++ [r]) = groups.reverse.flatten ++ (group ++ [a]) ++ [r] := by
  rw [Remark.kept_concat, ← h.flat, List.filter_eq_self.2 fun x inside => decide_eq_true ?_]
  rw [← List.append_assoc, List.mem_append, List.mem_singleton] at inside
  rcases inside with before | rfl
  · have := h.lt story x before
    omega
  · exact other

theorem kept_of_eq (same : a.lastLine = r.lastLine) :
    Remark.kept (rs ++ [r]) = groups.reverse.flatten ++ group ++ [r] := by
  have own : decide (a.lastLine ≠ r.lastLine) = false := by simp [same]
  rw [Remark.kept_concat, ← h.flat, ← List.append_assoc, List.filter_append, List.filter_singleton,
    own, List.filter_eq_self.2 fun x inside => decide_eq_true ?_]
  · simp
  · have := h.lt story x inside
    omega

end Latest

/-- A comment that joins the latest run makes it longer. -/
theorem Holds.add_of_merges (h : log.Holds rs) (story : Remark.Story (rs ++ [r]))
    (merges : log.Merges r) : (log.add r).Holds (rs ++ [r]) := by
  obtain ⟨story, before, fair⟩ := story.of_concat
  obtain ⟨last, first, adjacent⟩ := merges.adjacent
  obtain ⟨earlier, runs⟩ := List.head?_eq_some_iff.1 first
  obtain ⟨groups, group, a, latest⟩ := h.latest runs
  obtain ⟨b, same, whole⟩ := h.extendable.1 merges.extendable
  obtain rfl : a = b := Option.some.inj (latest.getLast?.symm.trans same)
  have single : r.single = true := (Bool.and_eq_true_iff.1 merges.whole).1
  have next : a.lastLine + 1 = r.lastLine := by
    rw [← latest.ends, adjacent, fair.line_eq single]
  rw [CommentLog.add_of_merges runs merges, put_of_ne]
  · refine ⟨⟨(group ++ [a] ++ [r]) :: groups, ?_,
      .cons (.more latest.own ?_ merges.whole adjacent) latest.joins⟩, by simp [merges.whole]⟩
    · rw [latest.kept_of_ne story (by omega) (by omega)]
      simp
    · cases group with
      | nil => simpa using whole
      | cons => exact latest.own.wholes (by simp)
  · intro x first
    have := latest.earlier_lt story x first
    show x.lastLine ≠ r.lastLine
    omega

/-- A comment that joins no run begins one, in the place of the latest if both end on one line. -/
theorem Holds.add_of_not_merges (h : log.Holds rs) (story : Remark.Story (rs ++ [r]))
    (apart : ¬ log.Merges r) : (log.add r).Holds (rs ++ [r]) := by
  obtain ⟨story, before, fair⟩ := story.of_concat
  have goesOn : r.whole = true ↔ ∃ a ∈ (rs ++ [r]).getLast?, a.whole = true := by simp
  rw [CommentLog.add_of_not_merges apart]
  rcases runs : log.runs with _ | ⟨last, earlier⟩
  · obtain ⟨⟨groups, flat, joins⟩, -⟩ := h
    rw [runs] at joins
    cases joins
    refine ⟨⟨[[r]], ?_, .cons (.one r) .nil⟩, goesOn⟩
    rw [Remark.kept_concat, ← flat]
    rfl
  obtain ⟨groups, group, a, latest⟩ := h.latest runs
  have le := (before a (List.mem_of_getLast? latest.getLast?)).lastLine_le fair
  by_cases same : a.lastLine = r.lastLine
  · -- A run of several comments runs to the end of its last line.
    obtain rfl : group = [] := by
      by_contra several
      have whole := latest.own.wholes (by simpa using List.length_pos_iff.2 several) a (by simp)
      have single := (Bool.and_eq_true_iff.1 whole).1
      have later := (before a (List.mem_of_getLast? latest.getLast?)).line_lt single
      have le := Position.le_of_lt fair.lt
      rw [Position.le_def] at le
      unfold Remark.lastLine at *
      omega
    rw [put_of_eq (e := ⟨[r.line], r.span, r.head⟩) (latest.ends.trans same)]
    · refine ⟨⟨[r] :: groups, ?_, .cons (.one r) latest.joins⟩, goesOn⟩
      rw [latest.kept_of_eq story same]
      simp
    · intro x first
      have := latest.earlier_lt story x first
      show x.lastLine ≠ r.lastLine
      omega
  · rw [put_of_ne]
    · refine ⟨⟨[r] :: (group ++ [a]) :: groups, ?_, .cons (.one r) (.cons latest.own latest.joins)⟩,
        goesOn⟩
      rw [latest.kept_of_ne story same le]
      simp
    · rintro x ⟨⟩
      exact latest.ends ▸ same

theorem Holds.add (h : log.Holds rs) (story : Remark.Story (rs ++ [r])) :
    (log.add r).Holds (rs ++ [r]) := by
  by_cases merges : log.Merges r
  · exact h.add_of_merges story merges
  · exact h.add_of_not_merges story merges

theorem holds_ofRemarks (story : Remark.Story rs) : (ofRemarks rs).Holds rs := by
  induction rs using List.reverseRecOn with
  | nil => exact ⟨⟨[], rfl, .nil⟩, by simp [ofRemarks]⟩
  | append_singleton rs r inductionHypothesis =>
    have grown := (inductionHypothesis story.of_concat.1).add story
    rwa [ofRemarks, List.foldl_append]

/-- In source order, the runs are made of the comments that are kept. -/
theorem Holds.forall₂ (h : log.Holds rs) : ∃ groups : List (List Remark),
    groups.flatten = Remark.kept rs ∧
      List.Forall₂ CommentRun.Joins groups log.toList := by
  obtain ⟨groups, flat, joins⟩ := h.groups
  exact ⟨groups.reverse, flat, List.forall₂_reverse_iff.2 joins⟩

end CommentLog

namespace CommentRun.Joins

variable {group : List Remark} {e : CommentRun}

theorem lines (h : e.Joins group) : e.lines = group.map Remark.line := by
  induction h with
  | one => rfl
  | more _ _ _ _ inductionHypothesis => rw [List.map_append, inductionHypothesis]; rfl

theorem first (h : e.Joins group) : ∃ a rest, group = a :: rest ∧ e.span.start = a.span.start ∧
    e.head = a.head := by
  induction h with
  | one r => exact ⟨r, [], rfl, rfl, rfl⟩
  | more _ _ _ _ inductionHypothesis =>
    obtain ⟨a, rest, rfl, start, head⟩ := inductionHypothesis
    exact ⟨a, _, rfl, start, head⟩

/-- Comments that have their lines to themselves stand on one line after the other, up to the last
line of their run. -/
theorem consecutive (h : e.Joins group) (fair : ∀ r ∈ group, r.Fair)
    (whole : ∀ r ∈ group, r.whole = true) : group.length ≤ e.lastLine + 1 ∧
      group.map (·.span.start.line) = List.range' (e.lastLine + 1 - group.length) group.length := by
  have lastLine (r : Remark) (among : r ∈ group) : r.span.start.line = r.lastLine :=
    (fair r among).line_eq (Bool.and_eq_true_iff.1 (whole r among)).1
  induction h with
  | one r =>
    have own := lastLine r List.mem_cons_self
    exact ⟨Nat.le_add_left _ _, congrArg (fun n => [n]) own⟩
  | @more group r e _ wholes _ adjacent inductionHypothesis =>
    rw [List.forall_mem_append] at fair lastLine
    obtain ⟨le, lines⟩ := inductionHypothesis fair.1 wholes lastLine.1
    have own : r.lastLine = e.lastLine + 1 := by rw [adjacent, lastLine.2 r List.mem_cons_self]
    have stop : CommentRun.lastLine { e with
        lines := e.lines ++ [r.line], span := e.span.merge r.span } = e.lastLine + 1 := own
    rw [stop, List.length_append, List.length_singleton, List.map_append, lines,
      List.range'_concat, Nat.add_sub_add_right]
    refine ⟨Nat.add_le_add_right le 1, ?_⟩
    rw [Nat.one_mul, Nat.sub_add_cancel le, adjacent]
    rfl

theorem exists_of_mem {groups : List (List Remark)} {runs : List CommentRun}
    (joins : List.Forall₂ CommentRun.Joins groups runs) (among : e ∈ runs) :
    ∃ g ∈ groups, e.Joins g := by
  induction joins with
  | nil => cases among
  | @cons g f _ _ own _ inductionHypothesis =>
    rcases List.mem_cons.1 among with rfl | later
    · exact ⟨g, List.mem_cons_self, own⟩
    · obtain ⟨h, inside, joined⟩ := inductionHypothesis later
      exact ⟨h, .tail _ inside, joined⟩

/-- What holds of all remarks of one group and all of another, holds of their runs. -/
theorem pairwise {R : Remark → Remark → Prop} {S : CommentRun → CommentRun → Prop}
    (lift : ∀ g e h f, Joins g e → Joins h f → (∀ a ∈ g, ∀ b ∈ h, R a b) → S e f)
    {groups : List (List Remark)} {runs : List CommentRun} (joins : List.Forall₂ Joins groups runs)
    (ordered : groups.flatten.Pairwise R) : runs.Pairwise S := by
  induction joins with
  | nil => exact .nil
  | @cons g e groups runs own joins inductionHypothesis =>
    obtain ⟨-, ordered, across⟩ := List.pairwise_append.1 ordered
    refine List.pairwise_cons.2 ⟨fun f among => ?_, inductionHypothesis ordered⟩
    obtain ⟨h, inside, joined⟩ := exists_of_mem joins among
    exact lift g e h f own joined fun a first b second =>
      across a first b (List.mem_flatten_of_mem inside second)

theorem flatMap_lines {groups : List (List Remark)} {runs : List CommentRun}
    (joins : List.Forall₂ Joins groups runs) :
    runs.flatMap (·.lines) = groups.flatten.map Remark.line := by
  induction joins with
  | nil => rfl
  | cons own _ inductionHypothesis =>
    rw [List.flatMap_cons, own.lines, inductionHypothesis, List.flatten_cons, List.map_append]

end CommentRun.Joins

namespace CommentLog

variable {log : CommentLog} {rs : List Remark} {r : Remark}

/-- The lines of all runs are those of the comments that are kept. -/
theorem Holds.lines (h : log.Holds rs) :
    log.toList.flatMap (·.lines) = (Remark.kept rs).map Remark.line := by
  obtain ⟨groups, flat, joins⟩ := h.forall₂
  rw [← flat, CommentRun.Joins.flatMap_lines joins]

/-- Each run ends on a line of its own, and the runs stand in the order of these lines. -/
theorem Holds.keys (h : log.Holds rs) (story : Remark.Story rs) :
    log.toList.Pairwise (·.lastLine < ·.lastLine) := by
  obtain ⟨groups, flat, joins⟩ := h.forall₂
  refine CommentRun.Joins.pairwise (fun g e h f own joined across => ?_) joins
    (flat ▸ story.kept_ordered)
  obtain ⟨front, a, rfl, stop⟩ := own.last
  obtain ⟨front', b, rfl, stop'⟩ := joined.last
  have lt := across a (by simp) b (by simp)
  rwa [Remark.lastLine, ← stop, Remark.lastLine, ← stop'] at lt

/-- A comment that joins a run takes it to a line on which no run ends. -/
theorem Holds.lastLine_lt_of_merges (h : log.Holds rs) (story : Remark.Story (rs ++ [r]))
    (merges : log.Merges r) : ∀ e ∈ log.runs, e.lastLine < r.lastLine := by
  obtain ⟨story, -, fair⟩ := story.of_concat
  obtain ⟨last, latest, adjacent⟩ := merges.adjacent
  have keys := h.keys story
  have single := (Bool.and_eq_true_iff.1 merges.whole).1
  have line := fair.line_eq single
  obtain ⟨earlier, runs⟩ := List.head?_eq_some_iff.1 latest
  rw [toList, runs, List.pairwise_reverse, List.pairwise_cons] at keys
  rw [runs]
  refine List.forall_mem_cons.2 ⟨by omega, fun e among => ?_⟩
  have := keys.1 e among
  omega

/-- The runs stand one after the other. -/
theorem Holds.ordered (h : log.Holds rs) (story : Remark.Story rs) :
    log.toList.Pairwise fun e f => e.span.stop ≤ f.span.start := by
  obtain ⟨groups, flat, joins⟩ := h.forall₂
  have ordered := story.ordered.sublist (Remark.kept_sublist rs)
  refine CommentRun.Joins.pairwise (fun g e h f own joined across => ?_) joins (flat ▸ ordered)
  obtain ⟨front, a, rfl, stop⟩ := own.last
  obtain ⟨b, rest, rfl, start, -⟩ := joined.first
  rw [stop, start]
  exact (across a (by simp) b (by simp)).le

end CommentLog

/-! ## Comments by key -/

/-- Runs under the lines they end on, each put under its key and taken out by it. -/
structure KeyedLog where
  entries : Nat → Option CommentRun := fun _ => none
  /-- The line of the latest comment, and whether the next may join it. -/
  latest : Option (Nat × Bool) := none

namespace KeyedLog

/-- The run that a comment joins, with its key. -/
def joined? (log : KeyedLog) (r : Remark) : Option (Nat × CommentRun) :=
  log.latest.bind fun (line, extendable) =>
    if r.whole && extendable && line + 1 == r.span.start.line then
      (log.entries line).map (line, ·)
    else none

/-- A comment that joins a run moves it to another key; any other is put under a key of its own. -/
def add (log : KeyedLog) (r : Remark) : KeyedLog :=
  match log.joined? r with
  | some (line, e) =>
    { entries := Function.update (Function.update log.entries line none) r.lastLine
        (some { e with lines := e.lines ++ [r.line], span := e.span.merge r.span })
      latest := some (r.lastLine, true) }
  | none =>
    { entries := Function.update log.entries r.lastLine (some ⟨[r.line], r.span, r.head⟩)
      latest := some (r.lastLine, r.whole) }

def ofRemarks (rs : List Remark) : KeyedLog := rs.foldl add {}

/-- The log holds the runs that stand under the keys. -/
structure Shows (keyed : KeyedLog) (log : CommentLog) : Prop where
  entries : ∀ line, keyed.entries line = log.runs.find? (·.lastLine == line)
  latest : keyed.latest = log.runs.head?.map fun e => (e.lastLine, log.extendable)

theorem find?_put {runs : List CommentRun} {e : CommentRun} {line : Nat} (other : line ≠ e.lastLine) :
    (CommentLog.put runs e).find? (·.lastLine == line) = runs.find? (·.lastLine == line) := by
  rw [CommentLog.put, List.find?_cons_of_neg (by simpa using Ne.symm other)]
  induction runs with
  | nil => rfl
  | cons x runs inductionHypothesis =>
    by_cases same : x.lastLine = e.lastLine
    · rw [List.dropWhile_cons_of_pos (by simpa using same), inductionHypothesis,
        List.find?_cons_of_neg (by simpa [same] using Ne.symm other)]
    · rw [List.dropWhile_cons_of_neg (by simpa using same)]

variable {keyed : KeyedLog} {log : CommentLog} {rs : List Remark} {r : Remark}

theorem Shows.joined?_of_merges (h : keyed.Shows log) {last : CommentRun}
    {earlier : List CommentRun} (runs : log.runs = last :: earlier) (merges : log.Merges r) :
    keyed.joined? r = some (last.lastLine, last) := by
  obtain ⟨whole, extendable, e, same, adjacent⟩ := merges
  rw [runs] at same
  cases same
  simp [joined?, h.latest, h.entries, runs, whole, extendable, adjacent]

theorem Shows.joined?_of_not_merges (h : keyed.Shows log) (apart : ¬ log.Merges r) :
    keyed.joined? r = none := by
  unfold joined?
  rw [h.latest]
  rcases runs : log.runs with _ | ⟨last, earlier⟩
  · rfl
  · refine if_neg fun joins => apart ?_
    simp only [Bool.and_eq_true, beq_iff_eq] at joins
    exact ⟨joins.1.1, joins.1.2, last, by simp [runs], joins.2⟩

/-- A key that a run is moved to is free. -/
theorem Shows.free (h : keyed.Shows log) (holds : log.Holds rs) (story : Remark.Story (rs ++ [r]))
    (merges : log.Merges r) : keyed.entries r.lastLine = none := by
  rw [h.entries, List.find?_eq_none]
  intro e among
  have lt := holds.lastLine_lt_of_merges story merges e among
  simpa using Nat.ne_of_lt lt

theorem Shows.add (h : keyed.Shows log) (holds : log.Holds rs) (story : Remark.Story (rs ++ [r])) :
    (keyed.add r).Shows (log.add r) := by
  by_cases merges : log.Merges r
  · rcases runs : log.runs with _ | ⟨last, earlier⟩
    · obtain ⟨-, -, e, same, -⟩ := merges
      simp [runs] at same
    rw [KeyedLog.add, h.joined?_of_merges runs merges, CommentLog.add_of_merges runs merges]
    refine ⟨fun line => ?_, rfl⟩
    dsimp only
    by_cases own : line = r.lastLine
    · rw [own, Function.update_self]
      exact (List.find?_cons_of_pos (by simp [CommentRun.lastLine, Remark.lastLine, Span.merge])).symm
    rw [Function.update_of_ne own]
    refine Eq.trans ?_ (find?_put own).symm
    by_cases moved : line = last.lastLine
    · have keys := holds.keys story.of_concat.1
      rw [CommentLog.toList, runs, List.pairwise_reverse, List.pairwise_cons] at keys
      rw [moved, Function.update_self, eq_comm, List.find?_eq_none]
      intro e among
      simpa using Nat.ne_of_lt (keys.1 e among)
    · rw [Function.update_of_ne moved, h.entries, runs,
        List.find?_cons_of_neg (by simpa using Ne.symm moved)]
  · rw [KeyedLog.add, h.joined?_of_not_merges merges, CommentLog.add_of_not_merges merges]
    refine ⟨fun line => ?_, rfl⟩
    dsimp only
    by_cases own : line = r.lastLine
    · rw [own, Function.update_self]
      exact (List.find?_cons_of_pos (by simp [CommentRun.lastLine, Remark.lastLine])).symm
    · rw [Function.update_of_ne own, h.entries]
      exact (find?_put own).symm

theorem shows_ofRemarks (story : Remark.Story rs) : (ofRemarks rs).Shows (.ofRemarks rs) := by
  induction rs using List.reverseRecOn with
  | nil => exact ⟨fun _ => rfl, rfl⟩
  | append_singleton rs r inductionHypothesis =>
    obtain ⟨story', -⟩ := story.of_concat
    have grown := (inductionHypothesis story').add (CommentLog.holds_ofRemarks story') story
    rwa [ofRemarks, CommentLog.ofRemarks, List.foldl_append, List.foldl_append]

/-- A run is found under the line it ends on. -/
theorem entries_eq_some_iff (story : Remark.Story rs) (line : Nat) (e : CommentRun) :
    (ofRemarks rs).entries line = some e ↔
      e ∈ (CommentLog.ofRemarks rs).toList ∧ e.lastLine = line := by
  have keys := (CommentLog.holds_ofRemarks story).keys story
  have distinct : ((CommentLog.ofRemarks rs).toList.map CommentRun.lastLine).Nodup :=
    List.pairwise_map.2 (keys.imp Nat.ne_of_lt)
  rw [(shows_ofRemarks story).entries]
  constructor
  · intro found
    exact ⟨List.mem_reverse.2 (List.mem_of_find?_eq_some found), by simpa using List.find?_some found⟩
  · rintro ⟨among, rfl⟩
    obtain ⟨f, found⟩ := Option.isSome_iff_exists.1 ((List.find?_isSome
      (p := (·.lastLine == e.lastLine))).2 ⟨e, List.mem_reverse.1 among, beq_self_eq_true _⟩)
    have same : f.lastLine = e.lastLine := by simpa using List.find?_some found
    have inside := List.mem_reverse.2 (List.mem_of_find?_eq_some found)
    rw [found, List.inj_on_of_nodup_map distinct inside among same]

/-- A run that goes on is moved to a key that is free. -/
theorem entries_eq_none_of_joins (story : Remark.Story (rs ++ [r]))
    (joins : ((ofRemarks rs).joined? r).isSome) : (ofRemarks rs).entries r.lastLine = none := by
  obtain ⟨story', -⟩ := story.of_concat
  have shows := shows_ofRemarks story'
  refine shows.free (CommentLog.holds_ofRemarks story') story ?_
  by_contra apart
  rw [shows.joined?_of_not_merges apart] at joins
  cases joins

end KeyedLog

end LuaChunk
