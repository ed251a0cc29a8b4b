import LuaChunk.Proofs.Spelling.Inner

/-!
# Bodies of loops

Wherever a loop stands in a tree that tokens spell, its body is a block that tokens spell.
-/

set_option autoImplicit false

namespace LuaChunk.Spells

variable {c : Text} {i o : Place c} {s : Stat} {b body : Block}

theorem loopBody?_assignOrCall (h : Spells i (.assignOrCall s) o) : s.loopBody? = none := by
  cases h with
  | callStat => rfl
  | assignment _ rest => cases rest <;> rfl

/-- No statement that only Mooc has is a loop. -/
theorem loopBody?_moocStat (h : Spells i (.moocStat s) o) : s.loopBody? = none := by
  have ofClass {i o : Place c} {start : Span} {isExported : Bool}
      (h : Spells i (.classStat start isExported s) o) : s.loopBody? = none := by
    cases h
    rfl
  cases h with
  | classOnly spelled | localClass _ spelled | exportClass _ spelled => exact ofClass spelled
  | @exportStat _ _ _ s _ _ spelled =>
    have none := spelled.loopBody?_assignOrCall
    cases s <;> exact none
  | _ => rfl

theorem block_of_loop (h : Spells i (.stat s) o) (loop : s.loopBody? = some body) :
    ∃ i o : Place c, Spells i (.block body) o := by
  cases h with
  | whileStat _ _ spelled | numericFor _ _ _ _ _ _ _ spelled | genericFor _ _ _ _ spelled =>
    cases loop
    cases spelled with
    | loopBody _ spelled _ => exact ⟨_, _, spelled⟩
  | repeatStat _ _ spelled =>
    cases loop
    exact ⟨_, _, spelled⟩
  | simple spelled => simp [spelled.loopBody?_assignOrCall] at loop
  | mooc _ spelled => simp [spelled.loopBody?_moocStat] at loop
  | _ => cases loop

/-- Tokens spell the bodies of all loops in a block. -/
theorem loops (h : Spells i (.block b) o) (among : s ∈ b.statements)
    (loop : s.loopBody? = some body) : ∃ i o : Place c, Spells i (.block body) o := by
  rcases h.statsSpelled s among with ⟨_, _, rfl⟩ | ⟨_, _, spelled⟩
  · cases loop
  · exact spelled.block_of_loop loop

end LuaChunk.Spells
