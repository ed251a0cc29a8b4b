import LuaChunk.Proofs.Spelling.Spans
import LuaChunk.Proofs.Tree.Blocks

/-!
# Blocks of spelled trees

Every block inside a tree that tokens spell is itself spelled by tokens, and they begin after the
token that opens it.
-/

set_option autoImplicit false

namespace LuaChunk

variable {c : Text} {i j k o : Place c}

/-! ## Places where a block begins -/

/-- A block can begin at the place, and end at the other: what is before is no part of a label, and
nothing of the block stands there. -/
structure Place.Opens (i o : Place c) : Prop where
  start_lt : o ≠ i → i.now.start < i.head.span.start
  not_colons : ∀ t ∈ c.tokens, t.kind = .doubleColon → t.span.start ≠ i.now.start

theorem Takes.opens {kind : TokenKind} {t : Token} (h : Takes kind i t j) (o : Place c)
    (other : kind ≠ .eof ∧ kind ≠ .doubleColon) : j.Opens o where
  start_lt _ := by
    have := h.past other.1
    grind
  not_colons u among colons same := by
    have taken : t ∈ c.tokens := i.mem (by simp [h.ahead other.1])
    rw [h.now] at same
    rw [Text.eq_of_start_eq among taken same, h.token_eq, h.kind_eq] at colons
    exact other.2 colons

theorem TakesIf.opens {p : Prop} [Decidable p] {kind : TokenKind} (h : TakesIf p kind i j)
    (before : i.Opens o) (other : kind ≠ .eof ∧ kind ≠ .doubleColon) : j.Opens o := by
  unfold TakesIf at h
  split at h
  · obtain ⟨t, takes⟩ := h
    exact takes.opens o other
  · exact h ▸ before

theorem Dialect.opening_opens (d : Dialect) {word : TokenKind}
    (h : word ≠ .eof ∧ word ≠ .doubleColon) :
    d.opening word ≠ .eof ∧ d.opening word ≠ .doubleColon := by
  unfold opening
  split
  · decide
  · exact h

/-- Tokens spell all these blocks. -/
def BlocksSpelled (c : Text) (blocks : List (Site × Block)) : Prop :=
  ∀ p ∈ blocks, ∃ i o : Place c, Spells i (.block p.2) o ∧ i.Opens o

section Lists

variable {a b : List (Site × Block)}

@[simp, grind .]
theorem blocksSpelled_nil : BlocksSpelled c [] := nofun

@[simp, grind =]
theorem blocksSpelled_append :
    BlocksSpelled c (a ++ b) ↔ BlocksSpelled c a ∧ BlocksSpelled c b :=
  List.forall_mem_append

theorem BlocksSpelled.capped {α : Type} {f : α → List (Site × Block)} {xs : List α}
    {cap : Option Nat} (h : BlocksSpelled c (xs.flatMap f)) :
    BlocksSpelled c ((Parser.capped cap xs).flatMap f) := by
  intro p membership
  rw [List.mem_flatMap] at membership
  obtain ⟨x, among, inside⟩ := membership
  exact h p (List.mem_flatMap.2 ⟨x, Parser.mem_of_mem_capped among, inside⟩)

end Lists

/-! ## Phrases -/

/-- The blocks inside a phrase.  A block that is a phrase is none of them. -/
def Phrase.blocks (around : List Body) : Phrase → List (Site × Block)
  | .exp e | .prefixExp e | .table e | .step e | .parent e => e.blocks around
  | .exps es | .args es | .initializer es | .targets es => expsBlocks around es
  | .field f => keysBlocks around [f.1] ++ f.2.blocks around
  | .openFields fs | .fields fs =>
    keysBlocks around (fs.map (·.1)) ++ expsBlocks around (fs.map (·.2))
  | .names _ | .params _ _ | .attr _ | .attrNames _ _ => []
  | .functionBody _ body => body.blocks around
  | .assignRest _ _ s | .assignOrCall s | .stat s | .moocStat s | .classStat _ _ s =>
    s.blocks around
  | .loopBody b => b.blocks (.body .loop around)
  | .caseBody b => b.blocks (.inner around)
  | .block b => statsBlocks around b.stats ++ expsBlocks around (b.returns.getD [])
  | .branch b => b.blocks around
  | .branches bs | .otherwise bs | .cases bs | .defaultCase bs => branchesBlocks around bs
  | .dottedName f | .functionName _ f => f.target.blocks around
  | .functionStat _ _ _ a => a.blocks around
  | .stats ss => statsBlocks around ss
  | .returns rs => expsBlocks around (rs.getD [])
  | .members _ ms => assignmentsBlocks around ms

/-- What is said of the blocks in a phrase that tokens spell. -/
def Phrase.BlocksSpelled (c : Text) : Phrase → Prop
  | .assignRest _ first s => (∀ around, LuaChunk.BlocksSpelled c (first.blocks around)) →
      ∀ around, LuaChunk.BlocksSpelled c (s.blocks around)
  | p => ∀ around, LuaChunk.BlocksSpelled c (p.blocks around)

/-- A block that tokens spell goes with the blocks inside it. -/
theorem Phrase.BlocksSpelled.block {b : Block} (h : (Phrase.block b).BlocksSpelled c)
    (spelled : Spells i (.block b) o) (opens : i.Opens o) (w : Site) :
    LuaChunk.BlocksSpelled c (b.blocks w) := by
  rw [Block.blocks_eq]
  exact List.forall_mem_cons.2 ⟨⟨i, o, spelled, opens⟩, h w.around⟩

theorem Keys.blocks {source : ImportSource} {names : List Param} {values : List Exp}
    (h : Keys source names i values o) (around : List Body) : expsBlocks around values = [] := by
  have list {isFirst : Bool} {values : List Exp} {j : Place c}
      (h : KeyList source names i values isFirst j) : expsBlocks around values = [] := by
    induction h with
    | start => rfl
    | key _ _ _ inductionHypothesis => simp_all
    | @none _ isFirst _ _ _ _ _ inductionHypothesis => cases isFirst <;> simp_all
  cases h with
  | key before _ => simpa using list before
  | @none _ isFirst _ before => cases isFirst <;> simpa using list before

theorem Spells.blocksSpelled {p : Phrase} (h : Spells i p o) : p.BlocksSpelled c := by
  induction h with
  | table _ _ _ fs =>
    intro around
    have fs := fs around
    simp only [Phrase.blocks, keysBlocks_eq, expsBlocks_eq, blocksSpelled_append,
      Exp.blocks] at fs ⊢
    exact ⟨fs.1.capped, fs.2.capped⟩
  | endedBody _ _ close spelled _ _ b =>
    exact fun _ => b.block spelled (close.opens _ (by decide)) _
  | bracedBody _ _ _ brace spelled _ _ b =>
    exact fun _ => b.block spelled (brace.opens _ (by decide)) _
  | anonymousBody _ _ word spelled _ _ b =>
    exact fun _ => b.block spelled (word.opens _ (by decide)) _
  | compound _ _ _ _ _ value =>
    intro first around
    simpa [Assignment.compound] using ⟨first around, value around⟩
  | bare => simp_all [Phrase.BlocksSpelled, Parser.implicitLocals]
  | loopBody opening spelled _ b =>
    exact fun _ => b.block spelled (opening.opens _ (Dialect.opening_opens _ (by decide))) _
  | branch _ opening spelled _ e b =>
    have body := b.block spelled (opening.opens _ (Dialect.opening_opens _ (by decide)))
    intro around
    simpa [Phrase.blocks] using ⟨e around, body (.inner around)⟩
  | otherwise word brace spelled _ b =>
    have body := b.block spelled (brace.opens (word.opens _ (by decide)) (by decide))
    intro around
    simpa [Phrase.blocks] using body (.inner around)
  | doStat word brace spelled _ b =>
    exact fun _ => b.block spelled (brace.opens (word.opens _ (by decide)) (by decide)) _
  | repeatStat word brace spelled _ _ _ b e =>
    have body := b.block spelled (brace.opens (word.opens _ (by decide)) (by decide))
    intro around
    simpa [Phrase.blocks] using ⟨body (.body .loop around), e around⟩
  | dottedName => simp_all [Phrase.BlocksSpelled, Phrase.blocks, Parser.FunctionName.member]
  | methodName => simp_all [Phrase.BlocksSpelled, Phrase.blocks, Parser.FunctionName.member]
  | functionStat => simp_all [Phrase.BlocksSpelled, Phrase.blocks, Parser.FunctionName.named]
  | moreStats _ _ before stat =>
    intro around
    rw [Phrase.blocks, statsBlocks_eq, List.flatMap_append, ← statsBlocks_eq, blocksSpelled_append]
    refine ⟨before around, ?_⟩
    split
    · exact blocksSpelled_nil
    · rw [List.flatMap_singleton]
      exact stat around
  | deferStat _ brace spelled _ b =>
    exact fun _ => b.block spelled (brace.opens _ (by decide)) _
  | guardStat _ _ _ brace spelled _ e b =>
    have body := b.block spelled (brace.opens _ (by decide))
    intro around
    simpa [Phrase.blocks] using ⟨e around, body (.inner around)⟩
  | caseBody colon spelled b => exact fun _ => b.block spelled (colon.opens _ (by decide)) _
  | moreCases => simp_all [Phrase.BlocksSpelled, Phrase.blocks, Exp.blocks_switchCase]
  | classStat => simp_all [Phrase.BlocksSpelled, Phrase.blocks, Parser.classLocal]
  | @exportStat _ _ _ s _ _ _ stat =>
    cases s with
    | assign => simpa [Phrase.BlocksSpelled, Phrase.blocks, Parser.exported] using stat
    | _ => exact stat
  | @importWhole _ _ _ _ _ _ _ _ _ _ source =>
    cases source <;> simp [Phrase.BlocksSpelled, Phrase.blocks, Parser.importWhole]
  | importKeys _ _ _ _ _ _ keys =>
    intro around
    rw [Phrase.blocks, Stat.blocks, Declaration.blocks, keys.blocks around]
    exact blocksSpelled_nil
  | _ => simp_all [Phrase.BlocksSpelled, Phrase.blocks]

end LuaChunk
