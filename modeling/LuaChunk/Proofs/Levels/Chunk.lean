import LuaChunk.Proofs.Anchors.Chunk
import LuaChunk.Proofs.Levels.Mooc

/-!
# Analyses with more levels

The limit on levels counts for nothing but the complaint that it is exceeded: an analysis that does
not exceed its limit is the same under any higher one.
-/

set_option autoImplicit false

namespace LuaChunk

namespace Parser

variable {r : Rules}

/-! ## Where the log spills -/

/-- A string, a stray byte or the end of input is taken at once by an expression or a statement. -/
theorem prefixExp_sinks : Sinks False (prefixExp r) :=
  .peek (.stop .next) (.stop .next) (.stop .next)

theorem primary_sinks : Sinks False (primary r) :=
  .peek (.stop .next) prefixExp_sinks prefixExp_sinks

theorem operation_sinks (limit : Nat) : Sinks False (operation r limit) :=
  Sinks.head.bind fun _ => .stop (.peek primary_sinks primary_sinks primary_sinks)

theorem functionBody_sinks (style : FunctionStyle) : Sinks False (functionBody r style) :=
  .stop (expect_sinks _)

theorem table_sinks : Sinks False (table r) := .stop (expect_sinks _)

theorem assignOrCall_sinks : Sinks False (assignOrCall r) :=
  Sinks.head.bind fun _ => .stop prefixExp_sinks

theorem stat_sinks : Sinks False (stat r) :=
  Sinks.isMooc.bind fun _ => .ite
    (fun _ => .peek assignOrCall_sinks (.stop .next) assignOrCall_sinks)
    fun _ => .peek assignOrCall_sinks (.stop .next) assignOrCall_sinks

theorem atBlockEnd_sinks : Sinks True atBlockEnd :=
  Sinks.dialect.bind fun _ => .peek .pure .pure .pure

theorem pendingLabel_sinks : Sinks True pendingLabel :=
  Sinks.scopes.bind fun _ => .ite (fun _ => Sinks.now.bind fun _ => .pure) fun _ => .pure

theorem returnStat_sinks : Sinks True (returnStat r) := .peek .pure .pure .pure

/-- At the end of input a block has nothing to take. -/
theorem block_sinks (stat : Sinks False r.stat) : Sinks True (block r) :=
  Sinks.head.bind fun _ => Sinks.now.bind fun _ => (Sinks.iterate fun _ =>
    atBlockEnd_sinks.bind fun _ => .ite (fun _ => .pure) fun _ => .stop stat).bind fun _ =>
    pendingLabel_sinks.bind fun _ => returnStat_sinks.bind fun _ => Sinks.now.bind fun _ => .pure

end Parser

namespace Rules

/-- Whatever is read where the log spills, the reading stops with what spills, or has read a block
that takes nothing. -/
structure Sinking (r : Rules) : Prop where
  block : Parser.Sinks True r.block
  stat : Parser.Sinks False r.stat
  operation (limit : Nat) : Parser.Sinks False (r.operation limit)
  functionBody (style : FunctionStyle) : Parser.Sinks False (r.functionBody style)
  table : Parser.Sinks False r.table
  parenthesised : Parser.Sinks False r.parenthesised

theorem level_sinking (n : Nat) : (level n).Sinking := by
  induction n with
  | zero =>
    exact ⟨Parser.Sinks.tooDeep.mono False.elim, .tooDeep, fun _ => .tooDeep, fun _ => .tooDeep,
      .tooDeep, .tooDeep⟩
  | succ n inductionHypothesis =>
    exact ⟨.nested (Parser.block_sinks inductionHypothesis.stat), .nested Parser.stat_sinks,
      fun limit => .nested (Parser.operation_sinks limit),
      fun style => .nested (Parser.functionBody_sinks style), .nested Parser.table_sinks,
      .nested (inductionHypothesis.operation 0)⟩

variable {n : Nat}

theorem exhausted_tracked {r' : Rules} (h : r'.Sinking) : exhausted.Tracked n r' where
  block := .tooDeep h.block
  blockAfter := by
    rintro limit e ⟨s, t, read⟩
    obtain ⟨_, _, _, read⟩ := Parser.bind_eq_ok.1 read
    obtain ⟨_, _, _, read⟩ := Parser.bind_eq_ok.1 read
    obtain ⟨_, _, _, read⟩ := Parser.bind_eq_ok.1 read
    cases read
  stat := .tooDeep h.stat
  operation limit := .tooDeep (h.operation limit)
  functionBody style := .tooDeep (h.functionBody style)
  table := .tooDeep h.table
  parenthesised := .tooDeep h.parenthesised

theorem deepen_tracked {r r' : Unit → Rules} (h : (r ()).Tracked n (r' ())) :
    (deepen r).Tracked n (deepen r') where
  block := (Parser.Tracks.nested (Parser.block_tracks h)).mono False.elim
  blockAfter _ := .nested (Parser.block_tracks h)
  stat := .nested (Parser.stat_tracks h)
  operation limit := .nested (Parser.operation_tracks h limit)
  functionBody style := .nested (Parser.functionBody_tracks h style)
  table := .nested (Parser.table_tracks h)
  parenthesised := .nested (Parser.exp_tracks h)

theorem level_tracked {low high : Nat} (le : low ≤ high) : (level low).Tracked n (level high) := by
  induction low generalizing high with
  | zero => exact exhausted_tracked (level_sinking high)
  | succ low inductionHypothesis =>
    obtain ⟨high, rfl⟩ := Nat.exists_eq_add_of_le' (Nat.lt_of_lt_of_le (Nat.succ_pos low) le)
    exact deepen_tracked (inductionHypothesis (Nat.le_of_succ_le_succ le))

end Rules

namespace Session

theorem chunk_tracks {n low high : Nat} (le : low ≤ high) :
    Parser.Tracks n False (chunk (.level low)) (chunk (.level high)) :=
  .recover (Rules.level_tracked le).block
    (fun _ => .andThen (.expect _) fun _ => .pure _) fun _ => .stop (Parser.expect_sinks _)

end Session

/-- The analysis tells that its chunk nests too deep. -/
def Analysis.ExceedsLevels (a : Analysis) : Prop :=
  ∃ d ∈ a.errors, "chunk has too many syntax levels".toList <+: d.message.toList

namespace Session

theorem TooDeep.exceedsLevels {s : Session} (h : s.TooDeep) (block : Block) (comments : CommentLog) :
    Analysis.ExceedsLevels ⟨block, comments, s.errors⟩ := by
  obtain ⟨d, told, cause⟩ := h
  refine ⟨d, told, ?_⟩
  unfold Diagnostic.message
  rw [cause]
  split
  · rw [String.toList_append]
    exact List.prefix_append _ _
  · exact List.prefix_rfl

/-- A higher limit on levels changes no analysis that does not exceed its own.  So what exceeds the
higher limit exceeds the lower one. -/
theorem analyze_maxNesting (source : List UInt8) (name : String) (settings : Settings)
    {limit : Nat} (higher : settings.maxNesting ≤ limit) :
    let low := (start source name settings).analyze.1
    let high := (start source name { settings with maxNesting := limit }).analyze.1
    (¬ low.ExceedsLevels → high = low) ∧ (high.ExceedsLevels → low.ExceedsLevels) := by
  intro low high
  have same : ¬ low.ExceedsLevels → high = low := by
    intro within
    have tracks := chunk_tracks (n := limit) higher (opened source name settings)
      opened_grounded.tidy
    have opened' : opened source name { settings with maxNesting := limit } =
        (opened source name settings).allowing limit := rfl
    simp only [low, high, analyze_start, opened'] at within ⊢
    cases first : chunk (.level settings.maxNesting) (opened source name settings) with
    | ok b s =>
      rw [first] at tracks
      rw [tracks.2]
      rfl
    | error _ s =>
      rw [first] at tracks within
      have stopped := tracks.resolve_left fun deep => within (deep.exceedsLevels _ _)
      cases second : chunk (.level limit) ((opened source name settings).allowing limit) with
      | ok b t =>
        rw [second] at stopped
        exact stopped.1.elim
      | error _ t =>
        rw [second] at stopped
        simp [stopped.1, stopped.2]
  refine ⟨same, fun exceeds => ?_⟩
  by_contra within
  exact within (same within ▸ exceeds)

/-- A block and an expression in it make two levels. -/
theorem analyze_maxNesting_return :
    let source := "return 1".toUTF8.toList
    let low := (start source "a.lua" { maxNesting := 2 }).analyze.1
    let high := (start source "a.lua" { maxNesting := 200 }).analyze.1
    low.errors = [] ∧ high = low := by
  intro source low high
  have clean : low.errors = [] := by decide +kernel
  have within : ¬ low.ExceedsLevels := by simp [Analysis.ExceedsLevels, clean]
  exact ⟨clean, (analyze_maxNesting source "a.lua" { maxNesting := 2 } (by decide)).1 within⟩

end Session

end LuaChunk
