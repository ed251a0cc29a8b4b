import LuaChunk.Proofs.Parser.Results
import LuaChunk.Proofs.Tree.Blocks

/-!
# What a reading gathers

Whether or not the source is right, a parser is put together from a few kinds of steps, and what it
returns is put together from what those steps have read.  `Gathers` follows the first and keeps
account of the second: the blocks read so far, and the statements and jumps that belong to the block
being read.  A property of readings that every step keeps is kept by every parser, by one induction.
-/

set_option autoImplicit false

namespace LuaChunk

/-! ## Accounts -/

/-- A statement that is judged by its place, or has a name that is. -/
@[grind =]
def Stat.isPlain : Stat → Bool
  | .breakLoop _ | .label _ _ | .goto _ _ | .doBlock .deferred _ _ => false
  | .empty | .doBlock .plain _ _ | .whileLoop _ _ _ | .repeatLoop _ _ _ | .conditional _
  | .numericFor _ _ _ _ _ _ | .genericFor _ _ _ _ | .assign _ | .declare _ | .localFunction _ _ _
  | .call _ _ | .classDecl _ | .importCall _ _ | .importNames _ | .exportAll _ | .switch _ _ _ =>
    true

/-- What is known at some point of a reading. -/
structure Known where
  /-- The kind of the token ahead, if it has been looked at since a token was taken. -/
  head : Option TokenKind := none
  /-- Statements that stand in no block yet. -/
  stats : List Stat := []
  /-- Jumps that lie in the block being read, with no body between. -/
  jumps : List Stat := []
  blocks : List (Site × Block) := []

namespace Known

def plus (k l : Known) : Known :=
  ⟨l.head, k.stats ++ l.stats, k.jumps ++ l.jumps, k.blocks ++ l.blocks⟩

/-- A token has been taken. -/
def forget (k : Known) : Known := { k with head := none }

/-- The token ahead is of this kind. -/
def facing (k : Known) (kind : TokenKind) : Known := { k with head := some kind }

section Fields

variable (k l : Known) (kind : TokenKind)

@[simp, grind norm]
theorem head_plus : (k.plus l).head = l.head := rfl

@[simp, grind norm]
theorem stats_plus : (k.plus l).stats = k.stats ++ l.stats := rfl

@[simp, grind norm]
theorem jumps_plus : (k.plus l).jumps = k.jumps ++ l.jumps := rfl

@[simp, grind norm]
theorem blocks_plus : (k.plus l).blocks = k.blocks ++ l.blocks := rfl

@[simp, grind norm]
theorem head_forget : k.forget.head = none := rfl

@[simp, grind norm]
theorem stats_forget : k.forget.stats = k.stats := rfl

@[simp, grind norm]
theorem jumps_forget : k.forget.jumps = k.jumps := rfl

@[simp, grind norm]
theorem blocks_forget : k.forget.blocks = k.blocks := rfl

@[simp, grind norm]
theorem head_facing : (k.facing kind).head = some kind := rfl

@[simp, grind norm]
theorem stats_facing : (k.facing kind).stats = k.stats := rfl

@[simp, grind norm]
theorem jumps_facing : (k.facing kind).jumps = k.jumps := rfl

@[simp, grind norm]
theorem blocks_facing : (k.facing kind).blocks = k.blocks := rfl

end Fields

/-- The second account can be given instead of the first: it leaves out blocks that no tree holds
any longer, and has no more statements that matter. -/
structure Covers (k l : Known) : Prop where
  head : l.head = none ∨ l.head = k.head
  stats : ∀ s ∈ l.stats, s ∈ k.stats ∨ s.isPlain = true
  jumps : l.jumps = k.jumps
  blocks : ∀ b ∈ l.blocks, b ∈ k.blocks

@[grind norm]
theorem covers_iff {k l : Known} : k.Covers l ↔ (l.head = none ∨ l.head = k.head) ∧
    (∀ s ∈ l.stats, s ∈ k.stats ∨ s.isPlain = true) ∧ l.jumps = k.jumps ∧
    ∀ b ∈ l.blocks, b ∈ k.blocks :=
  ⟨fun ⟨head, stats, jumps, blocks⟩ => ⟨head, stats, jumps, blocks⟩,
    fun ⟨head, stats, jumps, blocks⟩ => ⟨head, stats, jumps, blocks⟩⟩

theorem Covers.refl (k : Known) : k.Covers k := by grind

theorem Covers.trans {k l m : Known} (h : k.Covers l) (g : l.Covers m) : k.Covers m := by grind

/-- What is left of an account outside a construct. -/
@[grind unfold]
def outside (k : Known) : ScopeKind → Known
  | .loop | .function => { blocks := k.blocks }
  | _ => { jumps := k.jumps, blocks := k.blocks }

end Known

section Trees

variable (around : List Body)

@[grind unfold]
def Stat.known (s : Stat) : Known := { stats := [s], jumps := s.jumps, blocks := s.blocks around }

/-- The account of the statements read so far of a block. -/
@[grind unfold]
def statsKnown (ss : List Stat) : Known :=
  { stats := ss, jumps := statsJumps ss, blocks := statsBlocks around ss }

end Trees

@[grind unfold]
def Block.known (w : Site) (b : Block) : Known := { jumps := b.jumps, blocks := b.blocks w }

theorem Stat.eq_empty_of_isEmpty {s : Stat} (h : s.isEmpty = true) : s = .empty := by
  cases s with
  | empty => rfl
  | _ => cases h

/-- Where the statements inside a construct stand. -/
@[grind unfold]
def Site.within (w : Site) : ScopeKind → Site
  | .loop => .body .loop w.around
  | .function => .body .function w.around
  | _ => .inner w.around

/-! ## Steps -/

/-- A complaint that is no verdict on the place of a statement, in words of its own. -/
def Cause.isUsual : Cause → Bool
  | .breakOutsideLoop | .continueOutsideLoop | .deferOutsideFunction => false
  | .unreadable _ | .other _ => false
  | _ => true

/-- The same session with another limit on the diagnostics kept. -/
def Session.capped (s : Session) (cap : Nat) : Session :=
  { s with settings := { s.settings with maxErrors := cap }, log := { s.log with cap } }

namespace Parser

/-- Where the first account is known in a block at a site, a parser that returns leads to the
second. -/
inductive Gathers : {α : Type} → Site → Known → Parser α → (α → Known) → Prop
  | weaken {α : Type} {w : Site} {k k' : Known} {p : Parser α} {l l' : α → Known} :
      k.Covers k' → Gathers w k' p l' → (∀ a, (l' a).Covers (l a)) → Gathers w k p l
  | pure {α : Type} {w : Site} {l : α → Known} (a : α) : Gathers w (l a) (Pure.pure a) l
  | bind {α β : Type} {w : Site} {k : Known} {p : Parser α} {f : α → Parser β} {l : α → Known}
      {m : β → Known} :
      Gathers w k p l → (∀ a, Gathers w (l a) (f a) m) → Gathers w k (p >>= f) m
  -- Looking
  | peek {w : Site} {k : Known} : Gathers w k peek k.facing
  | look {α : Type} {w : Site} {k : Known} {f : TokenStream → α × TokenStream} :
      (∀ t, ∃ count, (f t).2 = t.look count) → Gathers w k (onTokens f) fun _ => k
  | ask {α : Type} {w : Site} {k : Known} (f : Session → α) : (∀ s cap, f (s.capped cap) = f s) →
      Gathers w k (do return f (← get)) fun _ => k
  -- Taking and complaining
  | next {w : Site} {k : Known} : Gathers w k next fun _ => k.forget
  | complain {w : Site} {k : Known} (cause : Cause) (span : Span) : cause.isUsual = true →
      Gathers w k (complain cause span) fun _ => k.forget
  | stop {α β : Type} {w : Site} {k : Known} (cause : Cause) (span : Span) (abort : Abort)
      (f : β → Parser α) (l : α → Known) : cause.isUsual = true → abort ≠ .tooDeep →
      Gathers w k (do complain cause span; f (← throw abort)) l
  | tooDeep {α : Type} {w : Site} {k : Known} (l : α → Known) : Gathers w k tooDeep l
  -- Repeating and nesting
  | iterate {σ : Type} {w : Site} {start : σ} {step : σ → Parser (ForInStep σ)} (l : σ → Known) :
      (∀ x, Gathers w (l x) (step x) fun next => l next.value) →
      Gathers w (l start) (iterate start step) l
  | nested {α : Type} {w : Site} {k : Known} {p : Parser α} {l : α → Known} :
      Gathers w k p l → Gathers w k (nested p) l
  | within {α : Type} {w : Site} {k : Known} {p : Parser α} {l : α → Known} (kind : ScopeKind)
      (name : String) : Gathers (w.within kind) {} p l →
      Gathers w k (within kind name p) fun a => k.plus ((l a).outside kind)
  | noteReturn {w : Site} {k : Known} : Gathers w k (onScopes noteReturn) fun _ => k
  -- Statements that are judged by their place
  | breakStat {w : Site} {k : Known} :
      Gathers w (k.facing .kwBreak) breakStat fun s => k.plus (s.known w.around)
  | continueStat {w : Site} {k : Known} :
      Gathers w (k.facing .kwContinue) continueStat fun s => k.plus (s.known w.around)
  | deferStat {w : Site} {k : Known} {r : Rules} :
      Gathers (.body .function w.around) {} r.block (Block.known (.body .function w.around)) →
      Gathers w (k.facing .kwDefer) (deferStat r) fun s => k.plus (s.known w.around)
  | gotoStat {w : Site} {k : Known} :
      Gathers w (k.facing .kwGoto) gotoStat fun s => k.plus (s.known w.around)
  | labelStat {w : Site} {k : Known} :
      Gathers w (k.facing .doubleColon) labelStat fun s => k.plus (s.known w.around)
  -- Blocks
  | block {w : Site} {r : Rules} :
      Gathers w {} (Parser.iterate #[] (moreStats r)) (fun ss => statsKnown w.around ss.toList) →
      (∀ k, Gathers w k (returnStat r) fun es =>
        k.plus { blocks := expsBlocks w.around (es.getD []) }) →
      Gathers w {} (block r) (Block.known w)

namespace Gathers

variable {α β σ : Type} {w : Site} {k : Known} {p q : Parser α} {l m : α → Known}

theorem done (a : α) (covers : k.Covers (l a)) : Gathers w k (Pure.pure a) l :=
  .weaken covers (.pure a) fun _ => .refl _

/-- What is returned is no tree. -/
theorem same (a : α) : Gathers w k (Pure.pure a) fun _ => k := .pure (l := fun _ => k) a

theorem ite {c : Prop} [Decidable c] (h : c → Gathers w k p l) (g : ¬ c → Gathers w k q l) :
    Gathers w k (if c then p else q) l := by
  split
  next holds => exact h holds
  next fails => exact g fails

/-- A parser that passes on what another has read. -/
theorem map {f : α → β} {l : β → Known} (h : Gathers w k p m)
    (covers : ∀ a, (m a).Covers (l (f a))) : Gathers w k (do return f (← p)) l :=
  .bind h fun a => .done _ (covers a)

theorem loop {start : σ} {step : σ → Parser (ForInStep σ)} (l : σ → Known)
    (init : k.Covers (l start)) (round : ∀ x, Gathers w (l x) (step x) fun next => l next.value) :
    Gathers w k (Parser.iterate start step) l :=
  .weaken init (.iterate l round) fun _ => .refl _

theorem mono (h : Gathers w k p m) (covers : ∀ a, (m a).Covers (l a)) :
    Gathers w k p l :=
  .weaken (.refl k) h covers

/-! ## Steps that read no tree -/

theorem isMooc : Gathers w k isMooc fun _ => k :=
  .map (.ask (·.settings.dialect) fun _ _ => rfl) fun _ => .refl _

theorem now : Gathers w k now fun _ => k := .ask (·.tokens.now) fun _ _ => rfl

theorem since (start : Span) : Gathers w k (since start) fun _ => k :=
  .map now fun _ => .refl _

theorem scopes : Gathers w k scopes fun _ => k := .ask (·.scopes) fun _ _ => rfl

theorem peekToken (n : Nat) : Gathers w k (peekToken n) fun _ => k := .look fun _ => ⟨n + 1, rfl⟩

theorem head : Gathers w k head fun _ => k :=
  .map (peekToken 0) fun _ => .refl _

theorem peekPair (first second : TokenKind) :
    Gathers w k (onTokens (·.peekPair first second)) fun _ => k := by
  refine .look fun t => ?_
  unfold TokenStream.peekPair
  split <;> exact ⟨_, rfl⟩

theorem peekWhile (start : TokenKind) (ask : TokenKind → Verdict) :
    Gathers w k (onTokens (·.peekWhile start ask)) fun _ => k := by
  refine .look fun t => ?_
  unfold TokenStream.peekWhile
  split <;> exact ⟨_, rfl⟩

theorem expect (kind : TokenKind) : Gathers w k (expect kind) fun _ => k.forget :=
  .bind .next fun _ => .ite (fun _ => .bind (.complain _ _ rfl) fun _ => .same _) fun _ => .same _

theorem expectName : Gathers w k expectName fun _ => k.forget :=
  .bind .next fun _ => .ite (fun _ => .bind (.complain _ _ rfl) fun _ => .same _) fun _ => .same _

theorem accept (kind : TokenKind) : Gathers w k (accept kind) fun _ => k.forget :=
  .bind .peek fun _ => .ite (fun _ => .map .next fun _ => .refl _) fun _ => .done _ (by grind)

theorem accepts (kind : TokenKind) : Gathers w k (accepts kind) fun _ => k.forget :=
  .map (accept kind) fun _ => .refl _

end Gathers

end Parser

end LuaChunk
