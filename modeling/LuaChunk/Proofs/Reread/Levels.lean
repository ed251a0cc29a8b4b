import LuaChunk.Proofs.Reread.Primitives

/-!
# Levels that a reading needs

A parser that is built from the rules of a level needs so many levels below it.  A rule needs one
more than what it reads, and a list of readings as many as the one that needs most.
-/

set_option autoImplicit false

namespace LuaChunk

/-- Loops and functions open in the stack are the bodies around. -/
def ScopeStack.Inside (σ : ScopeStack) (around : List Body) : Prop :=
  ∃ w : Site, σ.Follows w ∧ w.around = around

namespace ScopeStack.Inside

variable {s σ : ScopeStack} {around : List Body}

theorem ofFile (name : String) : (ScopeStack.ofFile name).Inside [] :=
  ⟨.chunk, (file_matches name).toFollows, rfl⟩

theorem file (h : σ.Inside around) : σ.root.kind = .file := by
  obtain ⟨w, follows, -⟩ := h
  exact follows.root

theorem push (h : σ.Inside around) (kind : ScopeKind) (name : String) :
    (σ.push kind name).Inside (kind.body?.toList ++ around) := by
  obtain ⟨w, follows, rfl⟩ := h
  exact ⟨w.within kind, (follows.push kind name).toFollows, w.around_within kind⟩

end ScopeStack.Inside

namespace Parser

variable {α : Type}

/-- Built from the rules of a level, the parser needs so many levels. -/
def Takes (c : Bounds) (scopes : ScopeStack) (words : List Word) (p : Rules → Parser α)
    (levels : Nat) (rest : List Word) (P : α → Prop) : Prop :=
  ∀ n, Goes c scopes words (p (Rules.level n)) (levels ≤ n) rest P

/-- Readings that need levels each, and how many they need together. -/
theorem exists_levels {ι : Type} {items : List ι} {Q : ι → Nat → Prop}
    (h : ∀ x ∈ items, ∃ levels, Q x levels) :
    ∃ (levels : ι → Nat) (most : Nat), (∀ x ∈ items, Q x (levels x)) ∧
      ∀ n, (∀ x ∈ items, levels x ≤ n) ↔ most ≤ n := by
  have each (x : ι) : ∃ levels, x ∈ items → Q x levels := by
    by_cases among : x ∈ items
    · obtain ⟨levels, holds⟩ := h x among
      exact ⟨levels, fun _ => holds⟩
    · exact ⟨0, fun member => absurd member among⟩
  choose levels holds using each
  refine ⟨levels, (items.map levels).foldr max 0, holds, fun n => ?_⟩
  clear h holds
  induction items with
  | nil => simp
  | cons x rest inductionHypothesis => simp [inductionHypothesis]

namespace Takes

variable {c : Bounds} {scopes : ScopeStack} {words rest : List Word} {levels : Nat}

/-- A rule reads one level deeper, and nothing below the deepest level. -/
theorem rule {p rule : Rules → Parser α} {P : α → Prop}
    (exhausted : rule (Rules.level 0) = tooDeep)
    (deeper : ∀ n, rule (Rules.level (n + 1)) = nested (p (Rules.level n)))
    (h : Takes c scopes words p levels rest P) :
    Takes c scopes words rule (levels + 1) rest P := by
  intro n
  cases n with
  | zero =>
    rw [exhausted]
    exact Goes.tooDeep_run.congr (by simp)
  | succ n =>
    rw [deeper]
    exact (h n).nested.congr (by simp)

theorem block {P : Block → Prop} (h : Takes c scopes words Parser.block levels rest P) :
    Takes c scopes words Rules.block (levels + 1) rest P :=
  h.rule rfl fun _ => rfl

theorem stat {P : Stat → Prop} (h : Takes c scopes words Parser.stat levels rest P) :
    Takes c scopes words Rules.stat (levels + 1) rest P :=
  h.rule rfl fun _ => rfl

theorem operation {limit : Nat} {P : Exp → Prop}
    (h : Takes c scopes words (Parser.operation · limit) levels rest P) :
    Takes c scopes words (·.operation limit) (levels + 1) rest P :=
  h.rule rfl fun _ => rfl

theorem functionBody {style : FunctionStyle} {P : FunctionBody → Prop}
    (h : Takes c scopes words (Parser.functionBody · style) levels rest P) :
    Takes c scopes words (·.functionBody style) (levels + 1) rest P :=
  h.rule rfl fun _ => rfl

theorem table {P : Exp → Prop} (h : Takes c scopes words Parser.table levels rest P) :
    Takes c scopes words Rules.table (levels + 1) rest P :=
  h.rule rfl fun _ => rfl

theorem parenthesised {P : Exp → Prop} (h : Takes c scopes words Rules.exp levels rest P) :
    Takes c scopes words Rules.parenthesised (levels + 1) rest P :=
  h.rule rfl fun _ => rfl

end Takes

end Parser

end LuaChunk
