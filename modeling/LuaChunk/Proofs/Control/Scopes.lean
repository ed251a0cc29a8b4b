import LuaChunk.Proofs.Contents.Basic

/-!
# Open constructs and where they stand

The stack of markers follows the nesting of the tree that is being read: a stack matches a site if
its loops and functions are the bodies around the site.  Apart from the counts of blocks, which
tell nothing of the nesting, all that reading a statement leaves behind in the stack is the mark of
a loop that a `continue` has been read in.
-/

set_option autoImplicit false

namespace LuaChunk

def ScopeKind.body? : ScopeKind → Option Body
  | .loop => some .loop
  | .function => some .function
  | _ => none

theorem ScopeKind.body?_eq_loop_iff {kind : ScopeKind} :
    kind.body? = some .loop ↔ kind = .loop := by
  cases kind <;> simp [body?]

/-- The marker without a count, unless it is a loop's. -/
def Marker.bare (m : Marker) : Marker := if m.kind = .loop then m else { m with count := 0 }

@[simp]
theorem Marker.kind_bare (m : Marker) : m.bare.kind = m.kind := by
  unfold bare
  split <;> rfl

theorem Site.role_within (w : Site) (kind : ScopeKind) : (w.within kind).role = kind.body? := by
  cases kind <;> rfl

theorem Site.around_within (w : Site) (kind : ScopeKind) :
    (w.within kind).around = kind.body?.toList ++ w.around := by
  cases kind <;> rfl

namespace ScopeStack

/-- The stack without the counts of blocks. -/
def bare (s : ScopeStack) : ScopeStack := { s with inner := s.inner.map (·.bare) }

/-- Marks the innermost loop of these markers, unless a function lies between. -/
def markLoop : List Marker → List Marker
  | [] => []
  | m :: rest =>
    if m.kind = .loop then { m with count := 1 } :: rest
    else if m.kind = .function then m :: rest
    else m :: markLoop rest

/-- A `continue` has been read in the innermost loop. -/
def mark (s : ScopeStack) : ScopeStack := { s with inner := markLoop s.inner }

variable {s : ScopeStack}

theorem setFound_eq_mark (file : s.root.kind = .file) : s.setFound .loop .function 1 = s.mark := by
  obtain ⟨root, inner⟩ := s
  unfold setFound mark
  dsimp only at file ⊢
  induction inner with
  | nil => simp [setNearest, markLoop, file]
  | cons m rest inductionHypothesis =>
    simp only [setNearest, markLoop, inductionHypothesis]
    split
    · rfl
    · split <;> rfl

/-! ## Stacks without the counts of blocks -/

theorem bare_push (kind : ScopeKind) (name : String) :
    (s.push kind name).bare = s.bare.push kind name := by
  simp [push, bare, Marker.bare]

theorem bare_pop : s.pop.2.bare = s.bare.pop.2 := by
  obtain ⟨root, inner⟩ := s
  cases inner <;> simp [pop, bare]

theorem bare_mark : s.mark.bare = s.bare.mark := by
  have map (ms : List Marker) : (markLoop ms).map (·.bare) = markLoop (ms.map (·.bare)) := by
    induction ms with
    | nil => rfl
    | cons m rest inductionHypothesis =>
      simp only [markLoop, List.map_cons, Marker.kind_bare]
      split
      next loop => simp [Marker.bare, loop]
      next => split <;> simp [inductionHypothesis]
  simp [bare, mark, map]

/-- That a block returns is noted nowhere else than in its count. -/
theorem bare_noteReturn (file : s.root.kind = .file) : (Parser.noteReturn s).bare = s.bare := by
  obtain ⟨root, inner⟩ := s
  unfold Parser.noteReturn
  split
  next block =>
    cases inner with
    | nil => simp_all [current]
    | cons m rest =>
      have other : m.kind ≠ .loop := by
        rcases block with doBlock | guardBlock <;> simp_all [current]
      simp [setCurrent, bare, Marker.bare, other]
  next => rfl

theorem kind_current_bare : s.bare.current.kind = s.current.kind := by
  obtain ⟨root, inner⟩ := s
  cases inner <;> simp [current, bare]

theorem count_current_bare (loop : s.current.kind = .loop) :
    s.bare.current.count = s.current.count := by
  obtain ⟨root, inner⟩ := s
  cases inner with
  | nil => rfl
  | cons m rest =>
    have loop : m.kind = .loop := loop
    simp [current, bare, Marker.bare, loop]

/-! ## Marked stacks -/

theorem mark_mark : s.mark.mark = s.mark := by
  have again (ms : List Marker) : markLoop (markLoop ms) = markLoop ms := by
    induction ms with
    | nil => rfl
    | cons m rest inductionHypothesis =>
      simp only [markLoop]
      split
      next loop => simp [markLoop, loop]
      next other =>
        split
        next function => simp [markLoop, function]
        next plain => simp [markLoop, other, plain, inductionHypothesis]
  simp [mark, again]

/-- The mark of a loop goes with the loop, and no mark is set outside a function. -/
theorem pop_mark_push (kind : ScopeKind) (name : String) : (s.push kind name).mark.pop.2 =
    if kind.body?.isSome then s else s.mark := by
  cases kind <;> simp [mark, push, markLoop, pop, ScopeKind.body?]

theorem kinds_mark : s.mark.inner.map (·.kind) = s.inner.map (·.kind) := by
  have same (ms : List Marker) : (markLoop ms).map (·.kind) = ms.map (·.kind) := by
    induction ms with
    | nil => rfl
    | cons m rest inductionHypothesis =>
      simp only [markLoop]
      split
      · rfl
      · split <;> simp [inductionHypothesis]
  exact same s.inner

theorem kind_current_mark : s.mark.current.kind = s.current.kind := by
  obtain ⟨root, inner⟩ := s
  cases inner with
  | nil => rfl
  | cons m rest =>
    simp only [mark, markLoop, current]
    split
    · rfl
    · split <;> rfl

theorem count_current_mark (file : s.root.kind = .file) (loop : s.current.kind = .loop) :
    s.mark.current.count = 1 := by
  obtain ⟨root, inner⟩ := s
  cases inner with
  | nil => simp_all [current]
  | cons m rest =>
    have loop : m.kind = .loop := loop
    simp [mark, markLoop, current, loop]

/-! ## Sites -/

/-- The loops and functions open are the bodies around a site. -/
structure Follows (s : ScopeStack) (w : Site) : Prop where
  root : s.root.kind = .file
  loops : s.openLoops = w.loops
  around : s.inner.filterMap (·.kind.body?) = w.around

/-- The constructs open are those around a block at a site, of which nothing has been read yet. -/
structure Matches (s : ScopeStack) (w : Site) : Prop extends s.Follows w where
  role : s.current.kind.body? = w.role
  fresh : s.current.kind = .loop → s.current.count = 0

theorem file_matches (name : String) : (ofFile name).Matches .chunk :=
  { root := rfl, loops := rfl, around := rfl, role := rfl, fresh := nofun }

/-- The body of a loop lies in that loop. -/
theorem Matches.inLoop {w : Site} (h : s.Matches w) (loop : w.role = some .loop) : w.InLoop := by
  obtain ⟨root, inner⟩ := s
  have current := ScopeKind.body?_eq_loop_iff.1 (h.role.trans loop)
  unfold Site.InLoop
  rw [← h.around]
  cases inner with
  | nil => exact absurd (h.root.symm.trans current) (by decide)
  | cons m rest =>
    have current : m.kind = .loop := current
    simp [ScopeKind.body?, current]

namespace Follows

variable {w : Site}

theorem push (h : s.Follows w) (kind : ScopeKind) (name : String) :
    (s.push kind name).Matches (w.within kind) where
  root := by
    unfold ScopeStack.push
    split <;> exact h.root
  loops := by
    have loops := h.loops
    rw [openLoops_push, loops]
    cases kind <;> simp [Site.loops, Site.around_within, ScopeKind.body?]
  around := by
    rw [Site.around_within, ← h.around]
    cases kind <;> rfl
  role := (w.role_within kind).symm
  fresh _ := rfl

theorem of_kinds {s' : ScopeStack} (h : s.Follows w) (root : s'.root = s.root)
    (kinds : s'.inner.map (·.kind) = s.inner.map (·.kind)) : s'.Follows w where
  root := root ▸ h.root
  loops := by
    unfold openLoops
    exact root ▸ h.loops
  around := by
    have bodies := congrArg (List.filterMap ScopeKind.body?) kinds
    simp only [List.filterMap_map] at bodies
    exact bodies.trans h.around

theorem mark (h : s.Follows w) : s.mark.Follows w := h.of_kinds rfl kinds_mark

theorem of_bare (h : s.bare.Follows w) : s.Follows w := h.of_kinds rfl (by simp [bare])

/-- A search from inside finds a loop if the site lies in one. -/
theorem find_loop (h : s.Follows w) : (s.find? .loop .function).isSome = true ↔ w.InLoop := by
  have among (ms : List Marker) : (nearest? .loop .function (ms ++ [s.root])).isSome = true ↔
      Body.loop ∈ (ms.filterMap (·.kind.body?)).takeWhile (· ≠ .function) := by
    induction ms with
    | nil => simp [nearest?, h.root]
    | cons m rest inductionHypothesis =>
      cases kind : m.kind <;> simp [nearest?, kind, ScopeKind.body?, inductionHypothesis]
  unfold find? Site.InLoop
  rw [among, h.around]

theorem find_function (h : s.Follows w) :
    (s.find? .function .function).isNone = true ↔ ¬ w.InFunction := by
  have among (ms : List Marker) : (nearest? .function .function (ms ++ [s.root])).isNone = true ↔
      Body.function ∉ ms.filterMap (·.kind.body?) := by
    induction ms with
    | nil => simp [nearest?, h.root]
    | cons m rest inductionHypothesis =>
      cases kind : m.kind <;> simp_all [nearest?, ScopeKind.body?]
  unfold find? Site.InFunction
  rw [among, h.around]

/-- Outside all loops there is nothing to mark. -/
theorem mark_eq (h : s.Follows w) (outside : ¬ w.InLoop) : s.mark = s := by
  have same (ms : List Marker)
      (none : Body.loop ∉ (ms.filterMap (·.kind.body?)).takeWhile (· ≠ .function)) :
      markLoop ms = ms := by
    induction ms with
    | nil => rfl
    | cons m rest inductionHypothesis =>
      cases kind : m.kind <;> simp_all [markLoop, ScopeKind.body?]
  unfold Site.InLoop at outside
  rw [← h.around] at outside
  unfold ScopeStack.mark
  rw [same _ outside]

end Follows

end ScopeStack

end LuaChunk
