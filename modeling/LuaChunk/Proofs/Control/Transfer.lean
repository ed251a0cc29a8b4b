import LuaChunk.Proofs.Contents.Mooc
import LuaChunk.Proofs.Control.Verdicts
import LuaChunk.Proofs.Spelling.Chunk

/-!
# Transfers of control out of place

An analysis that is not stopped complains of a `break`, a `continue` or a `defer` exactly if it
stands, in the tree that is returned, where it has nothing to act on.
-/

set_option autoImplicit false

namespace LuaChunk

/-! ## The wording of verdicts -/

/-- No other complaint is worded like a verdict on a place. -/
theorem Cause.message_ne_of_isUsual {cause verdict : Cause} (usual : cause.isUsual = true)
    (misplaced : verdict.isMisplaced = true) : cause.message ≠ verdict.message := by
  -- Complaints that quote the source are told by their first letters, the others as a whole.
  have first : verdict.message.toList.head? ∈ [some 'b', some 'c', some 'd'] := by
    cases verdict <;> cases misplaced <;> decide +kernel
  intro same
  cases cause with
  | expected | nameExpected | unexpectedSymbol | notANumber | unknownAttribute | badImportSource =>
    rw [← same] at first
    unfold message at first
    simp at first
  | lexical fault =>
    cases fault with
    | invalidEscape | unexpectedCharacter =>
      rw [← same] at first
      unfold message LexicalFault.message at first
      simp at first
    | _ => cases verdict <;> cases misplaced <;> exact absurd same (by decide)
  | breakOutsideLoop | continueOutsideLoop | deferOutsideFunction | unreadable | other =>
    cases usual
  | _ => cases verdict <;> cases misplaced <;> exact absurd same (by decide)

theorem Cause.eq_of_message_eq {cause verdict : Cause} (own : cause.isMisplaced = true)
    (misplaced : verdict.isMisplaced = true) (same : cause.message = verdict.message) :
    cause = verdict := by
  cases verdict <;> cases misplaced <;> cases cause <;> cases own <;>
    first | rfl | exact absurd same (by decide)

/-- The analysis complains in these words of what stands at a span. -/
def Analysis.Complains (a : Analysis) (message : String) (span : Span) : Prop :=
  ∃ d ∈ a.errors, d.message = message ∧ d.span = span

/-! ## Whole chunks -/

/-- All tokens of a source, those of a faulty one included. -/
def Session.sourceTokens (source : List UInt8) (d : Dialect) : List Token :=
  ((opening source).run d).1.map (·.token)

def Scan.ofSource (source : List UInt8) (d : Dialect) : Scan :=
  have found := Scanner.run_finds d (Session.opening source)
  { tokens := Session.sourceTokens source d
    final := ((Session.opening source).run d).2.token
    final_eof := found.final_kind
    not_eof := found.not_eof
    start_lt := found.start_lt
    ordered := found.ordered_tokens }

namespace Session

variable {source : List UInt8} {name : String} {settings : Settings} {scan : Scan} {s : Session}
  {a : Analysis} {cause : Cause}

/-- A verdict can be told by its words. -/
theorem Stands.complains_iff (h : s.Stands scan) (errors : a.errors = s.errors)
    (misplaced : cause.isMisplaced = true) (span : Span) :
    a.Complains cause.message span ↔ ∃ d ∈ s.errors, d.cause = cause ∧ d.span = span := by
  unfold Analysis.Complains
  rw [errors]
  refine exists_congr fun d => and_congr_right fun membership => and_congr_left' ?_
  obtain ⟨unmarked, place⟩ := h.errors d membership
  have message : d.message = d.cause.message := by simp [Diagnostic.message, unmarked]
  rw [message]
  refine ⟨fun same => ?_, congrArg _⟩
  rcases place with usual | ⟨own, _⟩
  · exact absurd same (Cause.message_ne_of_isUsual usual misplaced)
  · exact Cause.eq_of_message_eq own misplaced same

theorem Judged.complains_iff {kind : TokenKind} {wrong : Prop} {t : Token}
    (h : s.Judged scan kind cause wrong t) (standing : s.Stands scan)
    (errors : a.errors = s.errors) (misplaced : cause.isMisplaced = true) :
    a.Complains cause.message t.span ↔ wrong :=
  (standing.complains_iff errors misplaced t.span).trans h.judges

theorem opened_stands :
    (opened source name settings).Stands (.ofSource source settings.dialect) where
  ahead := List.suffix_rfl
  final := rfl
  errors := nofun

/-- Unless an analysis stops early, all blocks of its tree are settled when it ends. -/
theorem analyze_settled (source : List UInt8) (name : String) (settings : Settings) :
    let analysis := (start source name settings).analyze.1
    let scan := Scan.ofSource source settings.dialect
    analysis.block = .empty ∨ ∃ s : Session, s.Stands scan ∧ analysis.errors = s.errors ∧
      ∀ p ∈ analysis.block.blocks .chunk, p.2.Settled scan s p.1 := by
  intro analysis scan
  have standing : (opened source name settings).Stands scan := opened_stands
  have keeps := (chunk_gathers settings.maxNesting).keeps _ (opened source name settings)
    standing (ScopeStack.file_matches name)
    { head := nofun, scopes := rfl, stats := nofun, jumps := nofun, blocks := nofun }
  have outcome : analysis = _ := analyze_start
  revert keeps outcome
  cases chunk (.level settings.maxNesting) (opened source name settings) with
  | error _ s => exact fun _ outcome => .inl (congrArg Analysis.block outcome)
  | ok b s =>
    rintro ⟨grows, holds⟩ outcome
    rw [outcome]
    exact .inr ⟨s, grows.stands standing, rfl, holds.blocks⟩

/-- **Transfers of control.**  A `break` or a `continue` is complained of exactly if no loop body
lies between it and the nearest function body, deferred block or the chunk, and a `defer` exactly
if it lies in no function body and no deferred block.  The complaint of a `defer` is about its
keyword. -/
theorem analyze_transfers (source : List UInt8) (name : String) (settings : Settings) :
    let analysis := (start source name settings).analyze.1
    let tokens := sourceTokens source settings.dialect
    ∀ p ∈ analysis.block.blocks .chunk,
      (∀ span, .breakLoop span ∈ p.2.stats →
        (analysis.Complains "break should be inside loop for/while/repeat" span ↔
          ¬ p.1.InLoop)) ∧
      (∀ t ∈ tokens, t.kind = .kwContinue → ∀ label, .goto label t.span ∈ p.2.stats →
        (analysis.Complains "continue should be inside loop for/while/repeat" t.span ↔
          ¬ p.1.InLoop)) ∧
      ∀ body span, .doBlock .deferred body span ∈ p.2.stats →
        ∃ t ∈ tokens, t.kind = .kwDefer ∧ t.span.start = span.start ∧
          (analysis.Complains "defer should be inside function body" t.span ↔
            ¬ p.1.InFunction) := by
  intro analysis tokens p among
  rcases analyze_settled source name settings with empty | ⟨s, standing, errors, settled⟩
  · have nothing : p = (.chunk, .empty) := by
      simpa [analysis, empty, Block.empty, Block.blocks_eq] using among
    subst nothing
    exact ⟨nofun, nofun, nofun⟩
  have settled := settled p among
  refine ⟨fun span membership => ?_, fun t taken kind label membership => ?_,
    fun body span membership => ?_⟩
  · obtain ⟨t, judged, rfl⟩ := settled.of_mem membership nofun
    exact judged.complains_iff standing errors rfl
  · have judged := ((settled.of_mem membership nofun).of_continue taken kind).1
    exact judged.complains_iff standing errors rfl
  · obtain ⟨t, judged, starts⟩ := settled.of_mem membership nofun
    exact ⟨t, judged.among, judged.kind, starts, judged.complains_iff standing errors rfl⟩

/-- A loop around a function is no loop to its `break`s. -/
theorem analyze_transfers_break :
    let source := "while a do f(function() break end) end".toUTF8.toList
    let analysis := (start source "" {}).analyze.1
    let span : Span := ⟨⟨1, 25⟩, ⟨1, 30⟩⟩
    ∃ p ∈ analysis.block.blocks .chunk, .breakLoop span ∈ p.2.stats ∧
      p.1.around = [.function, .loop] ∧
      analysis.Complains "break should be inside loop for/while/repeat" span := by
  intro source analysis span
  have found : (analysis.block.blocks .chunk).any (fun p => p.1.around = [.function, .loop] ∧
      p.2.stats.any fun | .breakLoop place => place = span | _ => false) = true := by
    decide +kernel
  simp only [List.any_eq_true, decide_eq_true_eq] at found
  obtain ⟨p, among, around, x, membership, same⟩ := found
  cases x with
  | breakLoop place =>
    have same : place = span := of_decide_eq_true same
    rw [same] at membership
    have verdict := (analyze_transfers source "" {} p among).1 span membership
    refine ⟨p, among, membership, around, verdict.2 ?_⟩
    rw [Site.InLoop, around]
    decide
  | _ => cases same

end Session

end LuaChunk
