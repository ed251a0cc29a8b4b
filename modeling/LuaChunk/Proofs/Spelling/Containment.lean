import LuaChunk.Proofs.Control.Transfer
import LuaChunk.Proofs.Mooc.ContinueLabel
import LuaChunk.Proofs.Spelling.Blocks
import LuaChunk.Proofs.Spelling.Nesting

/-!
# Where the nodes of a tree stand

In the tree of an analysis without diagnostics every part stands inside what it is part of, and the
statements of a block stand one after the other.
-/

set_option autoImplicit false

namespace LuaChunk

/-- How a block and its statements stand in a text.  A label that is not written, but made for the
`continue`s of a loop, stands where the statement before it ends. -/
structure Block.Placed (c : Text) (b : Block) : Prop where
  within : ∀ s ∈ b.stats, ∀ span ∈ s.span?, b.span.Holds span
  ordered : b.stats.Pairwise fun s t =>
    ¬ s.IsContinueLabel c.tokens → ¬ t.IsContinueLabel c.tokens →
      ∀ first ∈ s.span?, ∀ second ∈ t.span?, first.stop ≤ second.start
  /-- The block has no width exactly if it takes up no token. -/
  extent : ∃ i o : Place c, Spells i (.block b) o ∧
    (o.ahead = i.ahead ↔ b.span.start = b.span.stop)

variable {c : Text} {i j o : Place c} {b : Block} {scan : Scan} {s : Session} {w : Site}

/-! ## Blocks between places -/

theorem Place.Past.ahead_ne (h : i.Past o) : o.ahead ≠ i.ahead := by
  intro same
  have heads : o.head = i.head := by simp only [Place.head, Place.token, same]
  grind

theorem Place.blockSpan_of_past (opens : i.Opens o) (h : i.Past o) :
    i.blockSpan o = ⟨i.head.span.start, o.now.stop⟩ := by
  have := opens.start_lt (by grind)
  have further : o.now ≠ i.now := by grind
  rw [Place.blockSpan, if_neg further, Span.merge]

theorem Place.blockSpan_width (opens : i.Opens o) (h : o = i ∨ i.Past o) :
    o.ahead = i.ahead ↔ (i.blockSpan o).start = (i.blockSpan o).stop := by
  rcases h with rfl | past
  · simp [Place.blockSpan, Span.upTo]
  · rw [Place.blockSpan_of_past opens past]
    exact iff_of_false past.ahead_ne (by grind)

/-- The block of a chunk begins at the first place of the text. -/
theorem Spells.first_opens (h : Spells c.first (.block b) o) : c.first.Opens o where
  start_lt other := by
    obtain ⟨t, taken, _⟩ := (h.same_or_past.resolve_left other).reached
    obtain ⟨first, rest, tokens⟩ := List.exists_cons_of_ne_nil (List.ne_nil_of_mem taken)
    have head : c.first.head = first := by simp [Text.first, Place.head, Place.token, tokens]
    have early : c.first.now.start < .start := .inl Nat.one_pos
    have := c.start_le first (by simp [tokens])
    grind
  not_colons t among _ same := by
    have late := c.start_le t among
    have early : c.first.now.start < .start := .inl Nat.one_pos
    grind

/-! ## Labels that stand alone -/

/-- A label that is alone in its block is written. -/
theorem Block.Settled.label_written {name : String} {span : Span} (h : b.Settled scan s w)
    (alone : b.stats = [.label name span]) :
    ∃ t ∈ scan.tokens, t.kind = .doubleColon ∧ t.span.start = span.start := by
  obtain ⟨written, place, settled, same⟩ := h.stats
  have still : b.jumps = [] := by simp [alone]
  rw [still, List.any_nil, alone] at same
  simp only [Bool.false_eq_true, and_false, if_false, List.append_nil] at same
  have label : (Stat.label name span).Settled scan s w := settled _ (by simp [← same])
  exact label.2

theorem Spells.stats_eq_nil {ss : List Stat} (h : Spells i (.stats ss) i) : ss = [] := by
  cases h with
  | noStats => rfl
  | moreStats before stat => 
    have := before.same_or_past
    have := stat.past Nat.one_pos
    grind

/-! ## Blocks -/

section Stats

variable {ss : List Stat} {rs : Option (List Exp)}

theorem Spells.stats_within (h : Spells i (.stats ss) j) (returns : Spells j (.returns rs) o)
    (opens : i.Opens o) {x : Stat} (membership : x ∈ ss) {span : Span} (at' : span ∈ x.span?) :
    (i.blockSpan o).Holds span := by
  have further : j ≠ i := by
    rintro rfl
    exact absurd (h.stats_eq_nil ▸ membership) List.not_mem_nil
  have past := h.same_or_past.resolve_left further
  have rest := returns.same_or_past
  have inside : span.Inside i j := by
    have stands := h.stands
    exact stands.inside span (List.mem_filterMap.2 ⟨x, membership, at'⟩)
  rw [Place.blockSpan_of_past opens (by grind [Place.Past.trans])]
  grind

theorem Spells.stats_ordered (h : Spells i (.stats ss) j) : ss.Pairwise fun x y =>
    ∀ first ∈ x.span?, ∀ second ∈ y.span?, first.stop ≤ second.start := by
  have stands := h.stands
  exact List.pairwise_filterMap.1 stands.ordered

end Stats

/-- A block that is spelled stands where its tokens do, if no label is made for it alone. -/
theorem Spells.placed (h : Spells i (.block b) o) (opens : i.Opens o)
    (written : ∀ name span, b.stats = [.label name span] →
      ∃ t ∈ c.tokens, t.kind = .doubleColon ∧ t.span.start = span.start) : b.Placed c := by
  have extent := Place.blockSpan_width opens h.same_or_past
  have spelled := h
  cases h with
  | block stats returns =>
    exact ⟨fun x membership span => stats.stats_within returns opens membership,
      stats.stats_ordered.imp fun apart _ _ => apart, i, o, spelled, extent⟩
  | @labelledBlock _ ss j rs _ depth _ stats returns =>
    have further : j ≠ i := by
      rintro rfl
      obtain rfl := stats.stats_eq_nil
      obtain ⟨t, among, colons, starts⟩ := written _ _ rfl
      exact opens.not_colons t among colons starts
    have past := stats.same_or_past.resolve_left further
    have rest := returns.same_or_past
    obtain ⟨t, taken, place⟩ := past.reached
    refine ⟨fun x membership span at' => ?_, ?_, i, o, spelled, extent⟩
    · rcases List.mem_append.1 membership with written | last
      · exact stats.stats_within returns opens written at'
      · obtain rfl := List.mem_singleton.1 last
        obtain rfl := Option.some.inj at'
        rw [Place.blockSpan_of_past opens (by grind [Place.Past.trans])]
        grind
    · refine List.pairwise_append.2 ⟨stats.stats_ordered.imp fun apart _ _ => apart,
        List.pairwise_singleton _ _, fun x _ y last _ other => ?_⟩
      exact absurd ⟨depth, t, taken, place ▸ List.mem_singleton.1 last⟩ other

namespace Session

theorem sourceTokens_eq {source : List UInt8} {d : Dialect} {tokens : List Token}
    (h : tokenize source d = .ok tokens) : sourceTokens source d = tokens := by
  unfold tokenize at h
  dsimp only at h
  split at h
  · exact Except.ok.inj h
  · cases h

/-- **Containment.**  In the tree of an analysis without diagnostics every part stands inside what
it is part of, and so does each statement of a block.  The statements of a block stand one after
the other, without overlap, apart from a label that is made for the `continue`s of a loop.  A block
that takes up no token has no width. -/
theorem analyze_nests (source : List UInt8) (name : String) (settings : Settings)
    (clean : (start source name settings).analyze.1.errors = []) :
    let block := (start source name settings).analyze.1.block
    Nested block.parts ∧
      ∃ c : Text, c.settings = settings ∧ tokenize source settings.dialect = .ok c.tokens ∧
        ∀ p ∈ block.blocks .chunk, p.2.Placed c := by
  obtain ⟨c, rfl, tokens, o, _, spelled⟩ := analyze_spells clean
  have opens := spelled.first_opens
  have blocks := spelled.blocksSpelled.block spelled opens .chunk
  have same := sourceTokens_eq tokens
  refine ⟨spelled.nests opens.start_lt, c, rfl, tokens, fun p membership => ?_⟩
  obtain ⟨i, o, spelled, opens⟩ := blocks p membership
  refine spelled.placed opens fun label span alone => ?_
  rcases analyze_settled source name c.settings with empty | ⟨s, _, _, settled⟩
  · rw [empty, Block.blocks_eq] at membership
    obtain rfl := List.mem_singleton.1 membership
    cases alone
  · exact same ▸ (settled p membership).label_written alone

theorem analyze_nests_class :
    let source := "class A : B { x = 1 fn f(y) { while y { if x { continue } g(y) } } }"
    let block := (start source.toUTF8.toList "" { dialect := .mooc }).analyze.1.block
    Nested block.parts ∧
      ∃ c : Text, c.settings = { dialect := .mooc } ∧
        tokenize source.toUTF8.toList .mooc = .ok c.tokens ∧
        ∀ p ∈ block.blocks .chunk, p.2.Placed c :=
  analyze_nests _ "" { dialect := .mooc } (by decide +kernel)

end Session

end LuaChunk
