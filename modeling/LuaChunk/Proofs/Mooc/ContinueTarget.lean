import LuaChunk.Proofs.Control.Transfer
import LuaChunk.Proofs.Lexer.Names
import LuaChunk.Proofs.Mooc.ContinueLabel

/-!
# Where a `continue` jumps

The body of a loop has a label exactly if a `continue` jumps there, and the label tells how many
loops the body lies in.  Where a program leaves the names of these labels alone, no other label
bears one.
-/

set_option autoImplicit false

namespace LuaChunk

/-- The name begins like those of the labels that loop bodies get. -/
def IsReserved (name : String) : Prop := "__continue".toList <+: name.toList

instance (name : String) : Decidable (IsReserved name) := inferInstanceAs (Decidable (_ <+: _))

theorem isReserved_continueLabel (depth : Nat) : IsReserved (continueLabel depth) := by
  rw [IsReserved, continueLabel, String.toList_append]
  exact List.prefix_append _ _

/-- The statement is the jump of a `continue`. -/
def Stat.IsContinue (tokens : List Token) (s : Stat) : Prop :=
  ∃ t ∈ tokens, t.kind = .kwContinue ∧ ∃ name, s = .goto name t.span

theorem Scan.isContinue_iff {scan : Scan} {x : Stat} :
    scan.isContinue x = true ↔ x.IsContinue scan.tokens := by
  cases x with
  | goto name span =>
    simp only [Scan.isContinue, List.any_eq_true, decide_eq_true_eq]
    constructor
    · rintro ⟨t, among, kind, rfl⟩
      exact ⟨t, among, kind, name, rfl⟩
    · rintro ⟨t, among, kind, _, same⟩
      exact ⟨t, among, kind, (Stat.goto.inj same).2.symm⟩
  | _ => simp [Scan.isContinue, Stat.IsContinue]

/-- No label that is written has a reserved name. -/
def Scan.Unreserved (scan : Scan) : Prop :=
  ∀ t, t ∈ scan.tokens ∨ t = scan.final → ¬ IsReserved t.text

/-- Only names and strings can be reserved. -/
theorem Scan.unreserved_ofSource {source : List UInt8} {d : Dialect}
    (h : ∀ t ∈ Session.sourceTokens source d,
      t.kind = .identifier ∨ t.kind = .string → ¬ IsReserved t.text) :
    (Scan.ofSource source d).Unreserved := by
  have underscored (r : Scanned) (found : ∃ s : Scanner, r = s.scan d)
      (reserved : IsReserved r.token.text) :
      r.token.kind = .identifier ∨ r.token.kind = .string := by
    obtain ⟨s, rfl⟩ := found
    obtain ⟨rest, same⟩ := reserved
    exact s.scan_underscore d (by rw [← same]; rfl)
  have found := Scanner.run_finds d (Session.opening source)
  rintro t (among | rfl) reserved
  · obtain ⟨r, membership, rfl⟩ := List.mem_map.1 among
    have scanned := found.scanned r (List.mem_append_left _ membership)
    exact h _ among (underscored r scanned reserved) reserved
  · have scanned := found.scanned _ (List.mem_append_right _ (List.mem_singleton_self _))
    have kind := underscored _ scanned reserved
    simp [found.final_kind] at kind

variable {scan : Scan} {s : Session} {w : Site} {b : Block}

/-- The last of the statements is the only label with a reserved name, if there is one. -/
theorem Block.Settled.exists_written (h : b.Settled scan s w) (unreserved : scan.Unreserved) :
    ∃ written place, (∀ name, IsReserved name → ∀ span, .label name span ∉ written) ∧
      b.stats = written ++ if w.role = some .loop ∧ b.jumps.any scan.isContinue = true then
        [.label (continueLabel w.loops) place] else [] := by
  obtain ⟨written, place, settled, same⟩ := h.stats
  refine ⟨written, place, fun name reserved span membership => ?_, same⟩
  obtain ⟨⟨t, among, text⟩, _⟩ := settled _ membership
  exact unreserved t among (text ▸ reserved)

/-- **Targets of `continue`.**  Let no name and no string of a source begin with `__continue`.  The
body of a loop, with as many loops around its statements as a number tells, has a label of that
number exactly if a `continue` lies in it, with no body between.  Then there is one such label and
it is the last of the statements, and each such `continue` jumps there.  No other label of the
tree begins with `__continue`. -/
theorem Session.analyze_continue_targets (source : List UInt8) (name : String) (settings : Settings)
    (unreserved : ∀ t ∈ sourceTokens source settings.dialect,
      t.kind = .identifier ∨ t.kind = .string → ¬ IsReserved t.text) :
    let analysis := (start source name settings).analyze.1
    let tokens := sourceTokens source settings.dialect
    ∀ p ∈ analysis.block.blocks .chunk,
      (p.1.role = some .loop →
        ((∃ place, .label (continueLabel p.1.loops) place ∈ p.2.stats) ↔
          ∃ x ∈ p.2.jumps, x.IsContinue tokens) ∧
        (∀ place, .label (continueLabel p.1.loops) place ∈ p.2.stats →
          ∃ before, p.2.stats = before ++ [.label (continueLabel p.1.loops) place] ∧
            ∀ other, .label (continueLabel p.1.loops) other ∉ before) ∧
        ∀ x ∈ p.2.jumps, x.IsContinue tokens →
          ∃ span, x = .goto (continueLabel p.1.loops) span) ∧
      ∀ label place, .label label place ∈ p.2.stats → IsReserved label →
        p.1.role = some .loop ∧ label = continueLabel p.1.loops := by
  intro analysis tokens p among
  rcases analyze_settled source name settings with empty | ⟨s, standing, _, settled⟩
  · have nothing : p = (.chunk, .empty) := by
      simpa [analysis, empty, Block.empty, Block.blocks_eq] using among
    subst nothing
    constructor
    · intro loop
      cases loop
    · intro label place membership
      cases membership
  have settled := settled p among
  obtain ⟨written, place, free, stats⟩ :=
    settled.exists_written (Scan.unreserved_ofSource unreserved)
  have found {label : String} {span : Span} (reserved : IsReserved label)
      (membership : .label label span ∈ p.2.stats) : (p.1.role = some .loop ∧
        p.2.jumps.any (Scan.ofSource source settings.dialect).isContinue = true) ∧
        label = continueLabel p.1.loops ∧ span = place := by
    rw [stats, List.mem_append] at membership
    have added := membership.resolve_left (free label reserved span)
    split at added
    next due => exact ⟨due, Stat.label.inj (List.mem_singleton.1 added)⟩
    next => cases added
  have reserved := isReserved_continueLabel p.1.loops
  have jumps : (p.2.jumps.any (Scan.ofSource source settings.dialect).isContinue = true) ↔
      ∃ x ∈ p.2.jumps, x.IsContinue tokens := by
    simp only [List.any_eq_true, Scan.isContinue_iff]
    rfl
  refine ⟨fun loop => ⟨⟨?_, fun jump => ⟨place, ?_⟩⟩, fun span membership => ?_,
    fun x membership jump => ?_⟩, fun label span membership reserved => ?_⟩
  · rintro ⟨span, membership⟩
    exact jumps.1 (found reserved membership).1.2
  · rw [stats, if_pos ⟨loop, jumps.2 jump⟩]
    exact List.mem_append_right _ (List.mem_singleton_self _)
  · obtain ⟨due, _, rfl⟩ := found reserved membership
    rw [if_pos due] at stats
    exact ⟨written, stats, free _ reserved⟩
  · obtain ⟨t, taken, kind, label, rfl⟩ := jump
    have target := ((settled.jumps _ membership).of_continue taken kind).2
    exact ⟨t.span, by rw [target (settled.body loop)]⟩
  · obtain ⟨due, same, _⟩ := found reserved membership
    exact ⟨due.1, same⟩

/-- Loops are counted across functions. -/
theorem Session.analyze_continue_targets_nested :
    let source := "while a { f(fn() { while b { if c { continue } } }) }".toUTF8.toList
    let analysis := (start source "" { dialect := .mooc }).analyze.1
    let tokens := sourceTokens source .mooc
    (∀ t ∈ tokens, t.kind = .identifier ∨ t.kind = .string → ¬ IsReserved t.text) ∧
      ∃ p ∈ analysis.block.blocks .chunk, p.1 = .body .loop [.function, .loop] ∧
        (∃ x ∈ p.2.jumps, x.IsContinue tokens ∧ ∃ span, x = .goto (continueLabel 2) span) ∧
        ∃ before place, p.2.stats = before ++ [.label (continueLabel 2) place] := by
  intro source analysis tokens
  let scan := Scan.ofSource source .mooc
  have unreserved : ∀ t ∈ tokens, t.kind = .identifier ∨ t.kind = .string →
      ¬ IsReserved t.text := by decide +kernel
  have found : (analysis.block.blocks .chunk).any (fun p =>
      p.1 = .body .loop [.function, .loop] ∧ p.2.jumps.any scan.isContinue) = true := by
    decide +kernel
  simp only [List.any_eq_true, decide_eq_true_eq] at found
  obtain ⟨p, among, site, x, membership, jump⟩ := found
  have jump : x.IsContinue tokens := Scan.isContinue_iff.1 jump
  have loops : p.1.loops = 2 := by rw [site]; rfl
  have targets := (analyze_continue_targets source "" { dialect := .mooc } unreserved p among).1
  rw [loops] at targets
  obtain ⟨label, last, jumps⟩ := targets (by rw [site]; rfl)
  obtain ⟨place, labelled⟩ := label.2 ⟨x, membership, jump⟩
  obtain ⟨before, stats, _⟩ := last place labelled
  exact ⟨unreserved, p, among, site, ⟨x, membership, jump, jumps x membership jump⟩,
    before, place, stats⟩

/-- A string that stands where a name is wanted is complained of and taken for one, so it is not
enough that no name is reserved. -/
theorem Session.analyze_continue_targets_string :
    let source := ":: \"__continue1\" ::".toUTF8.toList
    let analysis := (start source "" { dialect := .mooc }).analyze.1
    (∀ t ∈ sourceTokens source .mooc, t.kind = .identifier → ¬ IsReserved t.text) ∧
      ∃ p ∈ analysis.block.blocks .chunk, p.1.role = none ∧
        ∃ place, .label "__continue1" place ∈ p.2.stats := by
  intro source analysis
  have found : analysis.block.stats.any
      (fun x => (x.label?.map (·.1)) = some "__continue1") = true := by
    decide +kernel
  simp only [List.any_eq_true, decide_eq_true_eq, Option.map_eq_some_iff] at found
  obtain ⟨x, membership, ⟨_, place⟩, label, rfl⟩ := found
  refine ⟨by decide +kernel, (.chunk, analysis.block), ?_, rfl, place, ?_⟩
  · rw [Block.blocks_eq]
    exact List.mem_cons_self
  · exact Stat.eq_of_label? label ▸ membership

end LuaChunk
