/-!
Places in a source text. A position is a line and a column, both counted from one, and positions
are ordered by line first. A span runs from its first position to one past its last; the span with
all four numbers zero marks a node that no source text stands behind.
-/

set_option autoImplicit false

namespace LuaChunk

structure Position where
  line : Nat
  column : Nat
  deriving DecidableEq, Repr, Inhabited

namespace Position

/-- Where reading begins. -/
def start : Position := ⟨1, 1⟩

instance : LT Position where
  lt a b := a.line < b.line ∨ (a.line = b.line ∧ a.column < b.column)

instance : LE Position where
  le a b := a.line < b.line ∨ (a.line = b.line ∧ a.column ≤ b.column)

theorem lt_def (a b : Position) :
    a < b ↔ a.line < b.line ∨ (a.line = b.line ∧ a.column < b.column) := Iff.rfl

theorem le_def (a b : Position) :
    a ≤ b ↔ a.line < b.line ∨ (a.line = b.line ∧ a.column ≤ b.column) := Iff.rfl

instance (a b : Position) : Decidable (a < b) := decidable_of_iff' _ (lt_def a b)

instance (a b : Position) : Decidable (a ≤ b) := decidable_of_iff' _ (le_def a b)

theorem le_refl (a : Position) : a ≤ a := .inr ⟨rfl, Nat.le_refl _⟩

theorem le_of_lt {a b : Position} (h : a < b) : a ≤ b := by
  simp only [lt_def, le_def] at *
  omega

theorem le_trans {a b c : Position} (h : a ≤ b) (k : b ≤ c) : a ≤ c := by
  simp only [le_def] at *
  omega

theorem le_antisymm {a b : Position} (h : a ≤ b) (k : b ≤ a) : a = b := by
  obtain ⟨line, column⟩ := a
  obtain ⟨line', column'⟩ := b
  simp only [le_def, Position.mk.injEq] at *
  omega

theorem not_le {a b : Position} : ¬ a ≤ b ↔ b < a := by
  simp only [lt_def, le_def]
  omega

def nextColumn (p : Position) : Position := ⟨p.line, p.column + 1⟩

def nextLine (p : Position) : Position := ⟨p.line + 1, 1⟩

theorem lt_nextColumn (p : Position) : p < p.nextColumn := .inr ⟨rfl, Nat.lt_succ_self _⟩

theorem lt_nextLine (p : Position) : p < p.nextLine := .inl (Nat.lt_succ_self _)

/-- No position lies between one and its next column. -/
theorem lt_nextColumn_iff {a p : Position} : a < p.nextColumn ↔ a ≤ p := by
  simp only [lt_def, le_def, nextColumn]
  omega

/-- Written `line:column`. -/
def text (p : Position) : String := toString p.line ++ ":" ++ toString p.column

end Position

structure Span where
  start : Position
  stop : Position
  deriving DecidableEq, Repr, Inhabited

namespace Span

/-- The span of a node that was not read from the source. -/
def synthetic : Span := ⟨⟨0, 0⟩, ⟨0, 0⟩⟩

/-- From the start of the first span to the end of the second. -/
def merge (first last : Span) : Span := ⟨first.start, last.stop⟩

/-- From the start of the first span up to the start of the second. -/
def upTo (first next : Span) : Span := ⟨first.start, next.start⟩

/-- Both lines are zero; the columns are not asked for. -/
def isSynthetic (s : Span) : Bool := s.start.line == 0 && s.stop.line == 0

/-- The second span lies inside the first. -/
def contains (outer inner : Span) : Bool :=
  decide (outer.start ≤ inner.start) && decide (inner.stop ≤ outer.stop)

theorem contains_iff {outer inner : Span} :
    outer.contains inner = true ↔ outer.start ≤ inner.start ∧ inner.stop ≤ outer.stop := by
  simp [contains]

theorem contains_self (s : Span) : s.contains s = true :=
  contains_iff.2 ⟨Position.le_refl _, Position.le_refl _⟩

theorem contains_trans {a b c : Span} (h : a.contains b = true) (k : b.contains c = true) :
    a.contains c = true := by
  rw [contains_iff] at *
  exact ⟨Position.le_trans h.1 k.1, Position.le_trans k.2 h.2⟩

/-- Written `line:column-line:column`. -/
def text (s : Span) : String := s.start.text ++ "-" ++ s.stop.text

end Span

end LuaChunk
