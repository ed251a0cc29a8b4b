import LuaChunk.Proofs.Spelling.Chunk
import LuaChunk.Proofs.Spelling.Loops

/-!
# Where the label of a `continue` stands

A loop body with a `continue` gets a label after its last statement.  It is the only such label of
the body and follows every other statement, but a `return` of the body comes after it.
-/

set_option autoImplicit false

namespace LuaChunk

/-- The label that a loop body gets for its `continue`s.  It stands at a single token, where a label
that is written takes up three. -/
def Stat.IsContinueLabel (tokens : List Token) (s : Stat) : Prop :=
  ∃ depth, ∃ t ∈ tokens, s = .label (continueLabel depth) t.span

/-- A statement is the very last thing of a block. -/
def Block.EndsWith (b : Block) (s : Stat) : Prop :=
  (∃ before, b.stats = before ++ [s]) ∧ b.returns = none

variable {c : Text} {i j k o : Place c}

/-! ## Labels that are written -/

/-- A label that is written spans more than a token. -/
theorem Takes.not_isContinueLabel {t n u : Token} {name : String}
    (opening : Takes .doubleColon i t j) (middle : Takes .identifier j n k)
    (closing : Takes .doubleColon k u o) :
    ¬ (Stat.label name (t.span.merge o.now)).IsContinueLabel c.tokens := by
  rintro ⟨_, x, membership, label⟩
  have same : t.span.merge o.now = x.span := (Stat.label.inj label).2
  have ahead : i.ahead = t :: n :: u :: o.ahead := by
    rw [opening.ahead (by decide), middle.ahead (by decide), closing.ahead (by decide)]
  have first : t ∈ c.tokens := i.mem (by simp [ahead])
  have last : u ∈ c.tokens := i.mem (by simp [ahead])
  have before : t.span.stop ≤ u.span.start := by
    have ordered := (List.pairwise_append.1 c.ordered).1.sublist i.suffix.sublist
    rw [ahead, List.pairwise_cons] at ordered
    exact ordered.1 u (by simp)
  have starts : x.span.start = t.span.start := by rw [← same, Span.merge]
  have stops : x.span.stop = u.span.stop := by rw [← same, closing.now, Span.merge]
  rw [Text.eq_of_start_eq membership first starts] at stops
  exact Position.not_le.2 (c.start_lt u last) (stops ▸ before)

/-- No statement that a phrase adds to a block is the label of a `continue`. -/
def Phrase.WithoutLabel (c : Text) : Phrase → Prop
  | .assignRest _ _ s | .assignOrCall s | .stat s | .moocStat s | .classStat _ _ s =>
    ¬ s.IsContinueLabel c.tokens
  | .stats ss => ∀ s ∈ ss, ¬ s.IsContinueLabel c.tokens
  | _ => True

theorem Spells.withoutLabel {p : Phrase} (h : Spells i p o) : p.WithoutLabel c := by
  induction h with
  | label opening middle closing => exact opening.not_isContinueLabel middle closing
  | noStats => exact nofun
  | @moreStats _ _ _ s _ _ _ ss stat =>
    intro t membership
    rcases List.mem_append.1 membership with membership | membership
    · exact ss t membership
    · split at membership
      · cases membership
      · exact List.mem_singleton.1 membership ▸ stat
  | simple _ s => exact s
  | assignment _ _ _ s => exact s
  | mooc _ _ s => exact s
  | classOnly _ s => exact s
  | localClass _ _ s => exact s
  | exportClass _ _ s => exact s
  | @exportStat _ _ _ s _ _ _ stat =>
    cases s with
    | assign => exact nofun
    | _ => exact stat
  | _ => simp [Phrase.WithoutLabel, Stat.IsContinueLabel]

/-- The label of a `continue` comes after the statements of its block and is the only one. -/
theorem Spells.label_last {b : Block} (h : Spells i (.block b) o) {label : Stat}
    (membership : label ∈ b.stats) (found : label.IsContinueLabel c.tokens) :
    ∃ before, b.stats = before ++ [label] ∧ ∀ s ∈ before, ¬ s.IsContinueLabel c.tokens := by
  cases h with
  | block ss => exact absurd found (ss.withoutLabel label membership)
  | labelledBlock depth _ ss =>
    refine ⟨_, ?_, ss.withoutLabel⟩
    rcases List.mem_append.1 membership with written | last
    · exact absurd found (ss.withoutLabel label written)
    · rw [List.mem_singleton.1 last]

/-! ## Loops -/

/-- **Labels of `continue`.**  In the body of a loop the label of a `continue` is the last of the
statements and the only such label.  The body ends with it exactly if the body does not return. -/
theorem Session.analyze_continue_label (source : List UInt8) (name : String) (settings : Settings)
    (clean : (start source name settings).analyze.1.errors = []) :
    ∃ tokens, tokenize source settings.dialect = .ok tokens ∧
      ∀ s ∈ (start source name settings).analyze.1.block.statements, ∀ body,
        s.loopBody? = some body → ∀ label ∈ body.stats, label.IsContinueLabel tokens →
          (∃ before, body.stats = before ++ [label] ∧
            ∀ t ∈ before, ¬ t.IsContinueLabel tokens) ∧
          (body.EndsWith label ↔ body.returns = none) := by
  obtain ⟨c, rfl, tokens, o, done, spelled⟩ := analyze_spells clean
  refine ⟨c.tokens, tokens, fun s membership body loop label inside found => ?_⟩
  obtain ⟨i, o, block⟩ := spelled.loops membership loop
  obtain ⟨before, last, without⟩ := block.label_last inside found
  refine ⟨⟨before, last, without⟩, fun ends => ends.2, fun none => ⟨⟨before, last⟩, none⟩⟩

theorem Session.analyze_continue_label_while :
    let source := "while a { if b { continue } c() }".toUTF8.toList
    ∃ tokens, tokenize source .mooc = .ok tokens ∧
      ∀ s ∈ (start source "" { dialect := .mooc }).analyze.1.block.statements, ∀ body,
        s.loopBody? = some body → ∀ label ∈ body.stats, label.IsContinueLabel tokens →
          (∃ before, body.stats = before ++ [label] ∧
            ∀ t ∈ before, ¬ t.IsContinueLabel tokens) ∧
          (body.EndsWith label ↔ body.returns = none) :=
  analyze_continue_label _ "" { dialect := .mooc } (by decide +kernel)

def Stat.label? : Stat → Option (String × Span)
  | .label name span => some (name, span)
  | _ => none

theorem Stat.eq_of_label? {s : Stat} {name : String} {span : Span}
    (h : s.label? = some (name, span)) : s = .label name span := by
  cases s with
  | label => simpa [label?] using h
  | _ => cases h

/-- A body that returns goes on after the label of its `continue`. -/
theorem Session.analyze_continue_label_return :
    let source := "while a { if b { continue } return 1 }".toUTF8.toList
    let analysis := (start source "" { dialect := .mooc }).analyze.1
    analysis.errors = [] ∧ ∃ tokens, tokenize source .mooc = .ok tokens ∧
      ∃ s ∈ analysis.block.statements, ∃ body, s.loopBody? = some body ∧
        ∃ label ∈ body.stats, label.IsContinueLabel tokens ∧ ¬ body.EndsWith label := by
  intro source analysis
  let brace : Span := ⟨⟨1, 27⟩, ⟨1, 28⟩⟩
  have read : (tokenize source .mooc).toOption.any (·.any (·.span = brace)) = true := by
    decide +kernel
  have bodies : (analysis.block.statements.filterMap (·.loopBody?)).map
      (fun body => (body.stats.filterMap Stat.label?, body.returns.isSome)) =
      [([(continueLabel 1, brace)], true)] := by
    decide +kernel
  obtain ⟨body, among, same⟩ := List.mem_map.1 (bodies ▸ List.mem_singleton_self _)
  obtain ⟨s, inside, loop⟩ := List.mem_filterMap.1 among
  obtain ⟨labels, returns⟩ := Prod.mk.inj same
  obtain ⟨label, membership, found⟩ := List.mem_filterMap.1 (labels ▸ List.mem_singleton_self _)
  refine ⟨by decide +kernel, ?_⟩
  cases tokenized : tokenize source .mooc with
  | error => simp [tokenized, Except.toOption] at read
  | ok tokens =>
    obtain ⟨t, taken, place⟩ : ∃ t ∈ tokens, t.span = brace := by
      simpa [tokenized, Except.toOption] using read
    refine ⟨tokens, rfl, s, inside, body, loop, label, membership, ?_, ?_⟩
    · exact ⟨1, t, taken, place ▸ Stat.eq_of_label? found⟩
    · intro ends
      simp [ends.2] at returns

end LuaChunk
