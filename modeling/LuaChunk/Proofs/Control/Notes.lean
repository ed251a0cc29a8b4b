import LuaChunk.Proofs.Control.Scopes
import LuaChunk.Proofs.Parser.Moves
import Mathlib.Data.List.Forall2

/-!
# What a reading may leave in the stack

Inside the constructs that are open a reading only takes notes: a `continue` marks its loop, a
`return` the block that it closes.  `ScopeStack.Keeps` says what notes can do to the markers, and
closing a construct leaves notes in the constructs around it and nothing else (`Noted.pop`).  The
count of the chunk is the number of open loops, whatever is opened, closed or noted (`Tallied`).
-/

set_option autoImplicit false

namespace LuaChunk

/-- What reading may leave in a marker that was there before. -/
inductive Marker.Noted : Marker → Marker → Prop
  | unchanged (m : Marker) : Noted m m
  | continued (m : Marker) : m.kind = .loop → Noted m { m with count := 1 }
  | returned (m : Marker) : m.kind = .doBlock ∨ m.kind = .guardBlock → Noted m { m with count := 1 }

theorem Marker.Noted.trans {m m' m'' : Marker} (h : m.Noted m') (g : m'.Noted m'') :
    m.Noted m'' := by
  cases g with
  | unchanged => exact h
  | continued loop =>
    cases h with
    | unchanged => exact .continued m loop
    | continued => exact .continued m loop
    | returned => exact .continued m loop
  | returned block =>
    cases h with
    | unchanged => exact .returned m block
    | continued => exact .returned m block
    | returned => exact .returned m block

namespace ScopeStack

/-- From one stack to another by notes alone. -/
inductive Noted (s : ScopeStack) : ScopeStack → Prop
  | refl : Noted s s
  | continued {t : ScopeStack} : Noted s t → Noted s (t.setFound .loop .function 1)
  | returned {t : ScopeStack} : Noted s t → Noted s (Parser.noteReturn t)

/-- The markers of the second stack are those of the first, up to notes. -/
structure Keeps (s t : ScopeStack) : Prop where
  root : t.root = s.root
  inner : List.Forall₂ Marker.Noted s.inner t.inner

variable {s t u : ScopeStack} {kind : ScopeKind} {name : String}

theorem Noted.trans (h : s.Noted t) (g : t.Noted u) : s.Noted u := by
  induction g with
  | refl => exact h
  | continued _ inductionHypothesis => exact .continued inductionHypothesis
  | returned _ inductionHypothesis => exact .returned inductionHypothesis

theorem Keeps.refl (s : ScopeStack) : s.Keeps s :=
  ⟨rfl, List.forall₂_same.2 fun m _ => .unchanged m⟩

theorem Keeps.trans (h : s.Keeps t) (g : t.Keeps u) : s.Keeps u := by
  refine ⟨g.root.trans h.root, ?_⟩
  have compose {ms ns : List Marker} (first : List.Forall₂ Marker.Noted ms ns) :
      ∀ ps, List.Forall₂ Marker.Noted ns ps → List.Forall₂ Marker.Noted ms ps := by
    induction first with
    | nil => exact fun _ second => second
    | cons noted _ inductionHypothesis =>
      rintro _ (_ | ⟨again, rest⟩)
      exact .cons (noted.trans again) (inductionHypothesis _ rest)
  exact compose h.inner _ g.inner

/-- Outside of all constructs there is nothing to take notes in. -/
theorem Keeps.eq_of_outermost (h : s.Keeps t) (outermost : s.inner = []) : t = s := by
  obtain ⟨root, inner⟩ := h
  rw [outermost, List.forall₂_nil_left_iff] at inner
  cases s
  cases t
  simp_all

theorem Keeps.constructs (h : s.Keeps t) : t.constructs = s.constructs := by
  have same {ms ns : List Marker} (notes : List.Forall₂ Marker.Noted ms ns) :
      ns.map (fun m => (m.kind, m.name)) = ms.map fun m => (m.kind, m.name) := by
    induction notes with
    | nil => rfl
    | cons noted _ inductionHypothesis => cases noted <;> simp [inductionHypothesis]
  simp [ScopeStack.constructs, same h.inner, h.root]

theorem markLoop_noted (ms : List Marker) : List.Forall₂ Marker.Noted ms (markLoop ms) := by
  induction ms with
  | nil => exact .nil
  | cons m rest inductionHypothesis =>
    have same : List.Forall₂ Marker.Noted rest rest := List.forall₂_same.2 fun m _ => .unchanged m
    unfold markLoop
    split
    next loop => exact .cons (.continued m loop) same
    next =>
      split
      · exact .cons (.unchanged m) same
      · exact .cons (.unchanged m) inductionHypothesis

theorem setFound_keeps (file : s.root.kind = .file) : s.Keeps (s.setFound .loop .function 1) := by
  rw [setFound_eq_mark file]
  exact ⟨rfl, markLoop_noted s.inner⟩

theorem noteReturn_keeps (file : s.root.kind = .file) : s.Keeps (Parser.noteReturn s) := by
  obtain ⟨root, inner⟩ := s
  unfold Parser.noteReturn
  split
  next block =>
    cases inner with
    | nil => simp_all [current]
    | cons m rest => exact ⟨rfl, .cons (.returned m block) (Keeps.refl ⟨root, rest⟩).inner⟩
  next => exact .refl _

theorem Noted.keeps (h : s.Noted t) (file : s.root.kind = .file) : s.Keeps t := by
  induction h with
  | refl => exact .refl s
  | continued _ keeps => exact keeps.trans (setFound_keeps (keeps.root ▸ file))
  | returned _ keeps => exact keeps.trans (noteReturn_keeps (keeps.root ▸ file))

/-! ## Closing what was opened -/

theorem setFound_pop (file : t.root.kind = .file) :
    (t.setFound .loop .function 1).pop.2 = t.pop.2 ∨
      (t.setFound .loop .function 1).pop.2 = t.pop.2.setFound .loop .function 1 := by
  obtain ⟨root, inner⟩ := t
  cases inner with
  | nil => exact .inr (by simp [setFound, setNearest, pop])
  | cons m rest =>
    have under : (pop ⟨root, m :: rest⟩).2.root.kind = .file := by
      unfold pop
      dsimp only
      split <;> exact file
    rw [setFound_eq_mark file, setFound_eq_mark under]
    by_cases loop : m.kind = .loop
    · exact .inl (by simp [mark, markLoop, pop, loop])
    · by_cases function : m.kind = .function
      · exact .inl (by simp [mark, markLoop, pop, function])
      · exact .inr (by simp [mark, markLoop, pop, loop, function])

/-- A `return` is noted in the innermost construct only. -/
theorem noteReturn_pop (opened : t.inner ≠ []) : (Parser.noteReturn t).pop.2 = t.pop.2 := by
  obtain ⟨root, inner⟩ := t
  unfold Parser.noteReturn
  split
  · cases inner with
    | nil => exact absurd rfl opened
    | cons m rest => rfl
  · rfl

theorem root_push : (s.push kind name).root.kind = s.root.kind := by
  unfold push
  dsimp only
  split <;> rfl

/-- What is noted inside a construct reaches the constructs around it as notes. -/
theorem Noted.pop (h : (s.push kind name).Noted t) (file : s.root.kind = .file) :
    s.Noted t.pop.2 := by
  induction h with
  | refl => simpa using Noted.refl
  | @continued u noted inductionHypothesis =>
    have file : u.root.kind = .file := by
      rw [(noted.keeps (root_push.trans file)).root, root_push, file]
    rcases setFound_pop file with same | outside
    · exact same ▸ inductionHypothesis
    · exact outside ▸ .continued inductionHypothesis
  | @returned u noted inductionHypothesis =>
    have opened : u.inner ≠ [] := by
      intro none
      have inner := (noted.keeps (root_push.trans file)).inner
      rw [none] at inner
      cases inner
    exact noteReturn_pop opened ▸ inductionHypothesis

/-! ## The count of the chunk -/

/-- The chunk's own marker is at the bottom, and its count is the number of open loops. -/
structure Tallied (s : ScopeStack) (chunk : String) : Prop where
  kind : s.root.kind = .file
  name : s.root.name = chunk
  loops : s.openLoops = s.inner.countP (·.kind = .loop)

namespace Tallied

variable {chunk : String}

theorem push (h : s.Tallied chunk) (kind : ScopeKind) (name : String) :
    (s.push kind name).Tallied chunk where
  kind := root_push.trans h.kind
  name := by
    unfold ScopeStack.push
    dsimp only
    split <;> exact h.name
  loops := by
    rw [openLoops_push, h.loops]
    simp [ScopeStack.push, List.countP_cons]

/-- A loop that is closed was counted. -/
theorem openLoops_pos {m : Marker} (h : s.Tallied chunk) (innermost : s.pop.1 = some m)
    (loop : m.kind = .loop) : 0 < s.openLoops := by
  obtain ⟨root, inner⟩ := s
  cases inner with
  | nil => simp [ScopeStack.pop] at innermost
  | cons m' rest =>
    obtain rfl : m' = m := Option.some.inj innermost
    rw [h.loops]
    simp [loop]

theorem pop (h : s.Tallied chunk) : s.pop.2.Tallied chunk := by
  obtain ⟨root, inner⟩ := s
  obtain ⟨kind, name, loops⟩ := h
  cases inner with
  | nil => exact ⟨kind, name, loops⟩
  | cons m rest =>
    by_cases loop : m.kind = .loop
    · refine ⟨?_, ?_, ?_⟩ <;> simp_all [ScopeStack.pop, openLoops]
    · refine ⟨?_, ?_, ?_⟩ <;> simp_all [ScopeStack.pop, openLoops]

theorem keeps (h : s.Tallied chunk) (keeps : s.Keeps t) : t.Tallied chunk where
  kind := keeps.root ▸ h.kind
  name := keeps.root ▸ h.name
  loops := by
    have same := congrArg (List.countP fun c : ScopeKind × String => c.1 = .loop) keeps.constructs
    simp only [ScopeStack.constructs, List.countP_map, Function.comp_def, List.countP_append,
      keeps.root] at same
    unfold openLoops
    rw [keeps.root, Nat.add_right_cancel same]
    exact h.loops

end Tallied

end ScopeStack

end LuaChunk
