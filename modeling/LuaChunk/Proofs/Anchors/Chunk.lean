import LuaChunk.Proofs.Anchors.Mooc
import LuaChunk.Proofs.Lexer.Partition
import LuaChunk.Proofs.Spelling.Chunk

/-!
# Places in an analysis

Whatever the source is, every diagnostic of its analysis points into it, lexical errors are listed in
the order of the text, and every node of its tree is placed in it.  Each of the last two has one
exception.
-/

set_option autoImplicit false

namespace LuaChunk

/-- Where the end of input stands. -/
def endOfInput (source : List UInt8) : Position :=
  .ofOffset (withoutMark source) (withoutMark source).length

theorem Diagnostic.orderly_of_isLexical {dialect : Dialect} {ds : List Diagnostic}
    (lexical : ∀ d ∈ ds, d.isLexical = true) : Orderly dialect ds :=
  fun listed e first _ d among syntactic => by
    have isLexical := lexical d (first.subset (List.mem_append_left _ among))
    simp [syntactic] at isLexical

theorem Spot.sound_joint_iff {d : Dialect} {stop : Position} {first last s : Span}
    (h : (Spot.joint first last s).Sound d stop) :
    s.Located stop ↔ (first = .synthetic ↔ last = .synthetic) := by
  obtain ⟨-, rfl, located, located', both⟩ := h
  have nowhere {p q : Position} (low : .start ≤ p) (high : p ≤ q) : q ≠ Span.synthetic.stop := by
    rintro rfl
    exact Mark.not_start_le_synthetic (Position.le_trans low high)
  have apart {s : Span} (between : s.Between .start stop) : s ≠ .synthetic :=
    fun same => nowhere between.1 between.2.1 (congrArg Span.stop same)
  rcases located with rfl | low <;> rcases located' with rfl | high
  · simp [Span.Located, Span.merge, Span.synthetic]
  · have mixed : ¬ (Span.synthetic.merge last).Located stop := by
      rintro (same | between)
      · exact nowhere high.1 high.2.1 (Span.mk.inj same).2
      · exact Mark.not_start_le_synthetic between.1
    simp [mixed, apart high]
  · have mixed : ¬ (first.merge .synthetic).Located stop := by
      rintro (same | between)
      · exact Mark.not_start_le_synthetic (congrArg Span.start same ▸ low.1)
      · exact nowhere low.1 between.2.1 rfl
    simp [mixed, apart low]
  · simp [apart low, apart high, Span.Located, both low high]

namespace Session

variable {source : List UInt8} {name : String} {settings : Settings}

theorem opening_follows (source : List UInt8) :
    ∃ before, (opening source).cursor.Follows (withoutMark source) before := by
  have first : (Scanner.ofBytes source).cursor.Follows (withoutMark source) [] :=
    Cursor.follows_ofBytes source
  unfold opening Scanner.skipShebang
  split
  · exact ⟨_, first.forward _⟩
  · exact ⟨_, first⟩

theorem opened_final : (opened source name settings).tokens.final.token.span =
    ⟨endOfInput source, endOfInput source⟩ := by
  obtain ⟨before, follows⟩ := opening_follows source
  have found := Scanner.run_finds settings.dialect (opening source)
  exact congrArg Token.span (found.partition follows).2

theorem opened_grounded :
    (opened source name settings).Grounded settings.dialect (endOfInput source) := by
  have found := Scanner.run_finds settings.dialect (opening source)
  have tidy : (opened source name settings).tokens.Tidy :=
    ⟨found, by simp [opened, TokenStream.waiting]⟩
  have front := tidy.front_between
  have final : (opened source name settings).tokens.final.token.span =
      ⟨endOfInput source, endOfInput source⟩ := opened_final
  rw [final] at front
  have low : .start ≤ (opened source name settings).front :=
    Position.le_trans (opening_start_le source) front.1
  have lie : ∀ e ∈ (opened source name settings).tokens.waiting,
      e.Lies .start (endOfInput source) := fun e among => by
    have lies := tidy.lie e among
    rw [final] at lies
    exact lies.mono (opening_start_le source) (Position.le_refl _)
  have before : Span.synthetic.stop < Position.start := by decide
  refine ⟨rfl, tidy, final, ⟨.inl rfl, Position.le_refl _, ?_, low, ?_⟩, fun e among => ?_, ?_, ?_⟩
  · exact Position.le_trans (Position.le_of_lt before) low
  · exact Position.le_trans front.2.1 front.2.2
  · exact Position.lt_of_lt_of_le before (lie e among).low_le
  all_goals rw [show (opened source name settings).account =
    (opened source name settings).tokens.waiting.map (·.diagnostic) from rfl]
  · exact List.forall_mem_map.2 fun e among => ⟨rfl, (lie e among).low_le,
      Position.le_of_lt (lie e among).start_lt, (lie e among).stop_le⟩
  · exact Diagnostic.orderly_of_isLexical (List.forall_mem_map.2 fun e _ => rfl)

theorem chunk_anchors {d : Dialect} {stop : Position} {m : Mark} {r : Rules} (h : r.Anchored d stop) :
    Parser.Anchors d stop m (chunk r) fun _ b => Sound d stop b.spots :=
  .bind (h.block m) fun _ _ _ sound => .andThen (.expect _) fun _ _ _ => .pure fun _ => sound

/-- The tree and the diagnostics of every analysis have their places. -/
theorem analyze_anchored (source : List UInt8) (name : String) (settings : Settings) :
    Sound settings.dialect (endOfInput source) (start source name settings).analyze.1.block.spots ∧
      Report settings.dialect (endOfInput source) (start source name settings).analyze.1.errors := by
  have anchors := chunk_anchors (Rules.level_anchored settings.maxNesting)
    (opened source name settings) opened_grounded rfl
  rw [analyze_start]
  cases result : chunk (.level settings.maxNesting) (opened source name settings) with
  | ok b s =>
    rw [result] at anchors
    exact ⟨anchors.2.2, anchors.1.errors⟩
  | error _ s =>
    rw [result] at anchors
    refine ⟨?_, anchors⟩
    simp [Block.empty, Block.spots_eq, statsSpots, Span.Located]

/-! ## Diagnostics -/

/-- Every diagnostic tells of a fault in the source and points into it, also where the analysis is
stopped. -/
theorem analyze_errors_point (source : List UInt8) (name : String) (settings : Settings) :
    ∀ d ∈ (start source name settings).analyze.1.errors,
      d.isUnreadable = false ∧ d.span.Between .start (endOfInput source) :=
  fun d among =>
    have points := (analyze_anchored source name settings).2.points d among
    ⟨points.readable, points.between⟩

/-- The complaint that ends an analysis points to the token that is too deep. -/
theorem analyze_errors_point_level :
    let source := "return 1".toUTF8.toList
    ∃ d ∈ (start source "a.lua" { maxNesting := 1 }).analyze.1.errors,
      d.cause = .tooManyLevels ∧ d.isUnreadable = false ∧
        d.span.Between .start (endOfInput source) := by
  intro source
  let level : Diagnostic := { cause := .tooManyLevels, span := ⟨⟨1, 8⟩, ⟨1, 9⟩⟩ }
  have among : level ∈ (start source "a.lua" { maxNesting := 1 }).analyze.1.errors := by
    decide +kernel
  exact ⟨level, among, rfl, analyze_errors_point _ _ _ level among⟩

/-- Lexical errors are listed before the syntax errors that they do not start after, unless they are
belated. -/
theorem analyze_errors_orderly (source : List UInt8) (name : String) (settings : Settings) :
    Diagnostic.Orderly settings.dialect (start source name settings).analyze.1.errors :=
  (analyze_anchored source name settings).2.orderly

/-- The error of a whole string comes too late where two of its escapes have errors of their own: it
is listed after the complaint that an assignment is missing at its start. -/
theorem analyze_errors_orderly_string :
    ¬ (start "a, @ \"\\q\\q".toUTF8.toList "a.lua" {}).analyze.1.errors.Pairwise fun d e =>
      d.isLexical = false → e.isLexical = true → d.span.start < e.span.start := by
  decide +kernel

/-! ## The tree -/

/-- Every node of a tree stands in the source, or nowhere.  An `or` between the labels of a case goes
from the first of them to the last, and is placed if both stand in the source or neither does. -/
theorem analyze_located (source : List UInt8) (name : String) (settings : Settings) :
    let spots := (start source name settings).analyze.1.block.spots
    (∀ s, .node s ∈ spots → s.Located (endOfInput source)) ∧
      ∀ first last s, .joint first last s ∈ spots → settings.dialect = .mooc ∧
        s = first.merge last ∧ first.Located (endOfInput source) ∧
        last.Located (endOfInput source) ∧
        (s.Located (endOfInput source) ↔ (first = .synthetic ↔ last = .synthetic)) := by
  intro spots
  have sound := (analyze_anchored source name settings).1
  refine ⟨fun s among => sound _ among, fun first last s among => ?_⟩
  have joint := sound _ among
  have placed := Spot.sound_joint_iff joint
  obtain ⟨mooc, merged, located, located', -⟩ := joint
  exact ⟨mooc, merged, located, located', placed⟩

/-- The label `1a` is no number and stands nowhere, but the `or` that begins with it ends in the
source. -/
theorem analyze_located_label :
    let source := "switch a { case 1a, 2: }".toUTF8.toList
    let label : Span := ⟨⟨1, 21⟩, ⟨1, 22⟩⟩
    let joint : Span := ⟨⟨0, 0⟩, ⟨1, 22⟩⟩
    .joint .synthetic label joint ∈
      (start source "t.mooc" { dialect := .mooc }).analyze.1.block.spots ∧
      ¬ joint.Located (endOfInput source) := by
  decide +kernel

end Session

end LuaChunk
