/-!
The constructs open around the place being read. A stack of markers, with the chunk itself at the
bottom: a loop's count tells that a `continue` waits for its label, the count of a `do` or `guard`
block that it returns, and the count of the chunk is the number of open loops.
-/

set_option autoImplicit false

namespace LuaChunk

inductive ScopeKind where
  | file
  | classBody
  /-- A function body or a deferred block. -/
  | function
  | loop
  | branch
  | doBlock
  | guardBlock
  deriving DecidableEq, Repr, Inhabited

structure Marker where
  kind : ScopeKind
  name : String
  count : Nat
  deriving DecidableEq, Repr, Inhabited

structure ScopeStack where
  /-- The marker of the chunk, which is never removed. -/
  root : Marker
  /-- The markers above it, the innermost first. -/
  inner : List Marker
  deriving DecidableEq, Repr, Inhabited

namespace ScopeStack

def ofFile (name : String) : ScopeStack := ⟨⟨.file, name, 0⟩, []⟩

/-- The number of loops open. -/
def openLoops (s : ScopeStack) : Nat := s.root.count

def depth (s : ScopeStack) : Nat := s.inner.length + 1

def current (s : ScopeStack) : Marker := s.inner.headD s.root

def push (s : ScopeStack) (kind : ScopeKind) (name : String) : ScopeStack :=
  { root := if kind = .loop then { s.root with count := s.root.count + 1 } else s.root
    inner := ⟨kind, name, 0⟩ :: s.inner }

/-- Removes the innermost marker, if it is not the chunk's. -/
def pop (s : ScopeStack) : Option Marker × ScopeStack :=
  match s.inner with
  | [] => (none, s)
  | m :: rest =>
    (some m,
      { root := if m.kind = .loop then { s.root with count := s.root.count - 1 } else s.root
        inner := rest })

/-- What is opened and closed again leaves no trace. -/
@[simp]
theorem pop_push (s : ScopeStack) (kind : ScopeKind) (name : String) :
    (s.push kind name).pop = (some ⟨kind, name, 0⟩, s) := by
  by_cases h : kind = .loop <;> simp [push, pop, h]

@[simp]
theorem depth_push (s : ScopeStack) (kind : ScopeKind) (name : String) :
    (s.push kind name).depth = s.depth + 1 := rfl

@[simp]
theorem current_push (s : ScopeStack) (kind : ScopeKind) (name : String) :
    (s.push kind name).current = ⟨kind, name, 0⟩ := rfl

theorem openLoops_push (s : ScopeStack) (kind : ScopeKind) (name : String) :
    (s.push kind name).openLoops = s.openLoops + if kind = .loop then 1 else 0 := by
  by_cases h : kind = .loop <;> simp [push, openLoops, h]

def setCurrent (s : ScopeStack) (count : Nat) : ScopeStack :=
  match s.inner with
  | [] => { s with root := { s.root with count := count } }
  | m :: rest => { s with inner := { m with count := count } :: rest }

/-- The nearest marker of a kind among these, seen from the first and not beyond one of the
stopping kind. -/
def nearest? (kind stop : ScopeKind) : List Marker → Option Marker
  | [] => none
  | m :: rest =>
    if m.kind = kind then some m else if m.kind = stop then none else nearest? kind stop rest

/-- The nearest marker of a kind, seen from inside and not beyond one of the stopping kind. -/
def find? (s : ScopeStack) (kind stop : ScopeKind) : Option Marker :=
  nearest? kind stop (s.inner ++ [s.root])

/-- Gives a count to the marker that a search finds. -/
def setNearest (kind stop : ScopeKind) (count : Nat) (root : Marker) :
    List Marker → ScopeStack
  | [] => ⟨if root.kind = kind then { root with count := count } else root, []⟩
  | m :: rest =>
    if m.kind = kind then ⟨root, { m with count := count } :: rest⟩
    else if m.kind = stop then ⟨root, m :: rest⟩
    else
      let below := setNearest kind stop count root rest
      { below with inner := m :: below.inner }

/-- Gives a count to the marker that `find?` finds, if it finds one. -/
def setFound (s : ScopeStack) (kind stop : ScopeKind) (count : Nat) : ScopeStack :=
  setNearest kind stop count s.root s.inner

/-- The class whose body is the innermost construct. -/
def currentClass? (s : ScopeStack) : Option String :=
  if s.current.kind = .classBody then some s.current.name else none

end ScopeStack

end LuaChunk
