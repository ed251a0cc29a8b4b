import LuaChunk.Proofs.Grammar.Lua

/-!
# Table constructors

Table constructors with a given number of fields, and the bound on the fields of all table
constructors in a sequence of tokens.  In Lua a brace is always part of a table constructor.
-/

set_option autoImplicit false

namespace LuaChunk

namespace Grammar

namespace Derives

variable {N : Type} {g : N → List (List (Item N))} {a b items rest : List (Item N)}
  {w : List TokenKind}

/-- What two rows of items derive together falls into what each derives. -/
theorem split (h : Derives g (a ++ b) w) :
    ∃ u v, w = u ++ v ∧ Derives g a u ∧ Derives g b v := by
  generalize equality : a ++ b = row at h
  induction h generalizing a with
  | nil =>
    obtain ⟨rfl, rfl⟩ := List.append_eq_nil_iff.1 equality
    exact ⟨[], [], rfl, .nil, .nil⟩
  | @token kind _ w h inductionHypothesis =>
    rcases List.append_eq_cons_iff.1 equality with ⟨rfl, rfl⟩ | ⟨a, rfl, rfl⟩
    · exact ⟨[], kind :: w, rfl, .nil, .token h⟩
    · obtain ⟨u, v, rfl, first, second⟩ := inductionHypothesis rfl
      exact ⟨kind :: u, v, rfl, .token first, second⟩
  | @rule _ _ _ u _ membership body h _ inductionHypothesis =>
    rcases List.append_eq_cons_iff.1 equality with ⟨rfl, rfl⟩ | ⟨a, rfl, rfl⟩
    · exact ⟨[], _, rfl, .nil, .rule membership body h⟩
    · obtain ⟨v, v', rfl, first, second⟩ := inductionHypothesis rfl
      exact ⟨u ++ v, v', (List.append_assoc ..).symm, .rule membership body first, second⟩
  | @skip _ _ w h inductionHypothesis =>
    rcases List.append_eq_cons_iff.1 equality with ⟨rfl, rfl⟩ | ⟨a, rfl, rfl⟩
    · exact ⟨[], w, rfl, .nil, .skip h⟩
    · obtain ⟨u, v, rfl, first, second⟩ := inductionHypothesis rfl
      exact ⟨u, v, rfl, .skip first, second⟩
  | @take _ _ u _ part h _ inductionHypothesis =>
    rcases List.append_eq_cons_iff.1 equality with ⟨rfl, rfl⟩ | ⟨a, rfl, rfl⟩
    · exact ⟨[], _, rfl, .nil, .take part h⟩
    · obtain ⟨v, v', rfl, first, second⟩ := inductionHypothesis rfl
      exact ⟨u ++ v, v', (List.append_assoc ..).symm, .take part first, second⟩
  | @stop _ _ w h inductionHypothesis =>
    rcases List.append_eq_cons_iff.1 equality with ⟨rfl, rfl⟩ | ⟨a, rfl, rfl⟩
    · exact ⟨[], w, rfl, .nil, .stop h⟩
    · obtain ⟨u, v, rfl, first, second⟩ := inductionHypothesis rfl
      exact ⟨u, v, rfl, .stop first, second⟩
  | @more _ _ u _ part h _ inductionHypothesis =>
    rcases List.append_eq_cons_iff.1 equality with ⟨rfl, rfl⟩ | ⟨a, rfl, rfl⟩
    · exact ⟨[], _, rfl, .nil, .more part h⟩
    · obtain ⟨v, v', rfl, first, second⟩ := inductionHypothesis (a := .many _ :: a) rfl
      exact ⟨u ++ v, v', (List.append_assoc ..).symm, .more part first, second⟩

theorem many {n : Nat} (h : Derives g ((List.replicate n items).flatten ++ rest) w) :
    Derives g (.many items :: rest) w := by
  induction n generalizing w with
  | zero => exact .stop h
  | succ n inductionHypothesis =>
    rw [List.replicate_succ, List.flatten_cons, List.append_assoc] at h
    obtain ⟨u, v, rfl, first, second⟩ := h.split
    exact .more first (inductionHypothesis second)

end Derives

end Grammar

open Grammar

/-- Fields after the first, each with the separator before it. -/
def separatedItems (n : Nat) : List (Item Nonterminal) :=
  (List.replicate n [.rule .fieldsep, .rule .field]).flatten

def fieldItems : Nat → List (Item Nonterminal)
  | 0 => []
  | n + 1 => .rule .field :: (separatedItems n ++ [.opt [.rule .fieldsep]])

/-- A table constructor with some number of fields. -/
def tableItems (n : Nat) : List (Item Nonterminal) :=
  .token .lbrace :: (fieldItems n ++ [.token .rbrace])

/-- No table constructor among the tokens has more fields than the limit. -/
def TablesWithin (limit : Nat) (w : List TokenKind) : Prop :=
  ∀ n u, u <:+: w → Derives luaRules (tableItems n) u → n ≤ limit

theorem separatedItems_succ (n : Nat) :
    separatedItems (n + 1) = separatedItems n ++ [.rule .fieldsep, .rule .field] := by
  rw [separatedItems, List.replicate_succ', List.flatten_append, separatedItems]
  simp

section Length

variable {n : Nat} {rest : List (Item Nonterminal)} {w : List TokenKind}

theorem Grammar.Derives.fieldsep_length (h : Derives luaRules (.rule .fieldsep :: rest) w) :
    ∃ kind v, w = kind :: v ∧ Derives luaRules rest v := by
  cases h with
  | rule membership body h =>
    simp only [luaRules, List.mem_cons, List.not_mem_nil, or_false] at membership
    rcases membership with rfl | rfl
    · cases body with
      | token empty =>
        cases empty
        exact ⟨_, _, rfl, h⟩
    · cases body with
      | token empty =>
        cases empty
        exact ⟨_, _, rfl, h⟩

theorem Grammar.Derives.separated_length (h : Derives luaRules (separatedItems n ++ rest) w) :
    n ≤ w.length := by
  induction n generalizing w with
  | zero => exact Nat.zero_le _
  | succ n inductionHypothesis =>
    rw [separatedItems, List.replicate_succ, List.flatten_cons, List.append_assoc] at h
    obtain ⟨kind, v, rfl, field⟩ := h.fieldsep_length
    obtain ⟨u, v, rfl, -, more⟩ := Derives.split (a := [.rule Nonterminal.field]) field
    have := inductionHypothesis more
    simp
    omega

/-- A table constructor has no more fields than tokens. -/
theorem Grammar.Derives.table_length (h : Derives luaRules (tableItems n) w) : n ≤ w.length := by
  cases n with
  | zero => exact Nat.zero_le _
  | succ n =>
    cases h with
    | token h =>
      rw [fieldItems, ← List.singleton_append, List.append_assoc, List.append_assoc] at h
      obtain ⟨u, v, rfl, -, more⟩ := h.split
      have := more.separated_length
      simp
      omega

theorem TablesWithin.of_length {limit : Nat} (h : w.length ≤ limit) : TablesWithin limit w := by
  intro n u part table
  have := part.length_le
  have := table.table_length
  omega

end Length

end LuaChunk
