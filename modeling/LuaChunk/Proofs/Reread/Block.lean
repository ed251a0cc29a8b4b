import LuaChunk.Proofs.Reread.Statement

/-!
# Blocks are read again

Statements are read one after the other, as no statement goes on with the next.  A statement that
only Mooc has is written as plain ones, which are read in its place.
-/

set_option autoImplicit false

open LuaChunk.Parser

namespace LuaChunk

open Fragment

namespace Stat

/-- The plain statements that a statement is written as. -/
def plain : Stat → List Stat
  | switch subject cases _ => [declare subject, conditional cases]
  | importCall c span => [call c span]
  | importNames d => [declare d]
  | s => [s]

/-- The words of a statement. -/
def words (depth : Nat) (s : Stat) : List Word := fragmentWords (s.fragments depth)

variable {s t : Stat} {d : Demand} {around : List Body}

theorem words_plain (s : Stat) (depth : Nat) : s.words depth = s.plain.flatMap (words depth) := by
  cases s <;> simp [plain, words]

theorem core_plain (s : Stat) : s.plain.flatMap core = s.core := by
  cases s <;> simp [plain]

theorem plain_ne_nil (s : Stat) : s.plain ≠ [] := by
  cases s <;> simp [plain]

theorem printable_plain (h : s.Printable d around) : ∀ p ∈ s.plain, p.Printable d around := by
  cases h with
  | importCall own => exact List.forall_mem_singleton.2 (.callStat own)
  | importNames own => exact List.forall_mem_singleton.2 own
  | switch span subject cases => simp [plain, subject, cases]
  | _ => exact List.forall_mem_singleton.2 (by constructor <;> assumption)

theorem startsParen_plain (s : Stat) : ∀ p ∈ s.plain.head?, p.startsParen = s.startsParen := by
  cases s <;> simp [plain, startsParen]

theorem endsOpen_plain (s : Stat) : ∀ p ∈ s.plain.getLast?, p.endsOpen = s.endsOpen := by
  cases s <;> simp [plain, endsOpen]

/-- The plain statements of statements that are apart are apart. -/
theorem apart_plain {stats : List Stat} (h : stats.IsChain Apart) :
    (stats.flatMap plain).IsChain Apart := by
  rw [List.flatMap_def, List.isChain_flatten (by simp [plain_ne_nil])]
  constructor
  · simp only [List.forall_mem_map]
    intro s _
    cases s <;> simp [plain, Apart, startsParen]
  · rw [List.isChain_map]
    refine h.imp fun s t apart p last q first => ?_
    rw [Apart, endsOpen_plain s p last, startsParen_plain t q first]
    exact apart

/-- What a statement begins with; a parenthesis only if it is said to. -/
theorem Printable.starter (h : s.Printable d around) (depth : Nat) (rest : List Word) :
    nextKind (s.words depth ++ rest) ∈ TokenKind.starters ∧
      (nextKind (s.words depth ++ rest) = .lparen → s.startsParen = true) := by
  -- What begins with an expression begins with one that is open.
  have begins {e : Exp} (own : e.Printable d around) (isOpen : e.endsOpen = true)
      (words : List Word) :
      nextKind (fragmentWords (e.fragments depth) ++ words) ∈ TokenKind.starters ∧
        (nextKind (fragmentWords (e.fragments depth) ++ words) = .lparen →
          e.startsParen = true) := by
    rw [own.nextKind, Exp.opening_of_endsOpen own isOpen]
    split <;> simp_all [TokenKind.starters]
  cases h with
  | @callStat _ call _ own | @importCall _ call _ own =>
    cases call
    simpa [words, startsParen, Exp.startsParen] using begins own rfl rest
  | @assign _ targets _ _ some isTarget own =>
    obtain ⟨e, others, rfl⟩ := List.exists_cons_of_ne_nil some
    simp only [List.forall_mem_cons] at isTarget own
    have isOpen : e.endsOpen = true := by
      cases isTarget.1 <;> rfl
    have first := begins own.1 isOpen
    rw [words, Stat.fragments, Assignment.fragments, expsFragments_eq, expsFragments_eq,
      fragmentWords_append, fragmentWords_separated]
    simp only [List.append_assoc]
    simpa [startsParen] using first _
  | @conditional _ branches _ some =>
    obtain ⟨b, others, rfl⟩ := List.exists_cons_of_ne_nil some
    rw [words, Stat.fragments, Conditional.fragments, fragmentWords_chain]
    simp [TokenKind.starters]
  | @importNames _ declaration own =>
    obtain ⟨names, attrs, values, span⟩ := declaration
    simp [words, TokenKind.starters]
  | @switch _ subject cases =>
    obtain ⟨names, attrs, values, span⟩ := subject
    simp [words, TokenKind.starters]
  | _ => simp [words, TokenKind.starters]

theorem Echo.list {exact : Bool} {ss as : List Stat} (h : List.Forall₂ (Stat.Echo exact) ss as)
    (asked : exact = true) : as.flatMap Stat.core = ss.flatMap Stat.core := by
  induction h with
  | nil => rfl
  | cons own _ inductionHypothesis => simp [own.core asked, inductionHypothesis]

end Stat

namespace Parser

variable {c : Bounds} {σ : ScopeStack} {depth : Nat} {around : List Body} {words rest : List Word}

/-! ## Statements -/

/-- The words of statements are those of the plain ones that they are written as. -/
theorem words_stats (stats : List Stat) (depth : Nat) :
    fragmentWords (statsFragments depth stats) = (stats.flatMap Stat.plain).flatMap (·.words depth) := by
  induction stats with
  | nil => rfl
  | cons s rest inductionHypothesis =>
    rw [statsFragments_cons, List.flatMap_cons, List.flatMap_append, ← inductionHypothesis,
      ← s.words_plain depth]
    simp [Stat.words]

theorem atBlockEnd_bind {β : Type} {f : Bool → Parser β} {F : Prop} {Q : β → Prop}
    (k : Goes c σ words (f (endsBlock .lua (nextKind words))) F rest Q) :
    Goes c σ words (atBlockEnd >>= f) F rest Q := by
  have asks : Goes c σ words atBlockEnd True words (· = endsBlock .lua (nextKind words)) :=
    Goes.dialect_bind (Goes.peek_bind (.pure rfl))
  refine asks.andThen ?_
  rintro _ rfl
  exact k

/-- Statements are read up to the end of their block. -/
theorem stats_take {stats : List Stat} (each : ∀ s ∈ stats, s.Reread c σ depth)
    (printable : ∀ s ∈ stats, s.Printable c.toDemand around) (apart : stats.IsChain Stat.Apart) :
    ∃ levels, ∀ rest, nextKind rest ∈ .kwReturn :: TokenKind.blockClosers →
      Takes c σ (stats.flatMap (·.words depth) ++ rest) (fun r => iterate #[] (moreStats r)) levels
        rest fun read => List.Forall₂ (Stat.Echo c.exact) stats read.toList := by
  have deeper (s : Stat) (among : s ∈ stats) : ∃ levels, ∀ rest, s.EndsAt (nextKind rest) →
      Takes c σ (s.words depth ++ rest) Rules.stat levels rest (s.Echo c.exact) := by
    obtain ⟨levels, reads⟩ := each s among
    exact ⟨levels + 1, fun rest ends => (reads rest ends).stat⟩
  obtain ⟨levels, most, reads, fits⟩ := exists_levels deeper
  have starts (s : Stat) (among : s ∈ stats) := (printable s among).starter depth
  have some (s : Stat) (among : s ∈ stats) : s.words depth ≠ [] := by
    intro none
    have first := (starts s among []).1
    rw [none] at first
    revert first
    decide
  -- After a statement stands the next one, or what ends the block.
  have ends (rest : List Word) (closes : nextKind rest ∈ .kwReturn :: TokenKind.blockClosers)
      (taken : List Stat) (s : Stat) (later : List Stat) (whole : taken ++ s :: later = stats) :
      s.EndsAt (nextKind (later.flatMap (·.words depth) ++ rest)) := by
    cases later with
    | nil =>
      rw [List.flatMap_nil, List.nil_append]
      refine ⟨?_, fun _ => ?_⟩ <;> (revert closes; generalize nextKind rest = kind; revert kind; decide)
    | cons t later =>
      have first := starts t (by simp [← whole]) (later.flatMap (·.words depth) ++ rest)
      rw [← whole, List.isChain_append_cons_cons] at apart
      rw [List.flatMap_cons, List.append_assoc]
      refine ⟨List.mem_cons_of_mem _ (List.mem_append_left _ first.1), fun isOpen paren => ?_⟩
      exact absurd (apart.2.1 isOpen) (by simp [first.2 paren])
  refine ⟨most, fun rest closes n => ?_⟩
  refine ((Goes.iterate (.pushes (R := Stat.Echo c.exact) (fun s => s.words depth)
    (G := (levels · ≤ n)) some (fun taken s later whole z => ?_) fun z => ?_)).mono ?_).congr
    (fits n)
  · have among : s ∈ stats := by simp [← whole]
    have starter := (starts s among (later.flatMap (·.words depth) ++ rest)).1
    refine atBlockEnd_bind ?_
    have goesOn : ∀ kind ∈ TokenKind.starters, ¬ endsBlock .lua kind = true := by decide
    rw [if_neg (goesOn _ starter)]
    refine ((reads s among _ (ends rest closes taken s later whole) n).bind fun a echo => ?_).congr
      (and_iff_left trivial)
    rw [echo.some, if_neg Bool.false_ne_true]
    exact .pure ⟨a, rfl, echo⟩
  · refine atBlockEnd_bind ?_
    have stops : ∀ kind ∈ .kwReturn :: TokenKind.blockClosers, endsBlock .lua kind = true := by decide
    rw [if_pos (stops _ closes)]
    exact .pure rfl
  · rintro z ⟨as, same, all⟩
    rwa [same]

/-! ## The end of a block -/

theorem pendingLabel_bind {β : Type} {f : List Stat → Parser β} {F : Prop} {Q : β → Prop}
    (k : Goes c σ words (f []) F rest Q) : Goes c σ words (pendingLabel >>= f) F rest Q := by
  have none : Goes c σ words pendingLabel True words (· = []) := by
    refine Goes.scopes_bind fun scopes _ quiet => ?_
    rw [if_neg (fun waits => waits.2.ne' (quiet.current waits.1))]
    exact .pure rfl
  refine none.andThen ?_
  rintro _ rfl
  exact k

/-- The words of the values that a block returns. -/
def returnWords (depth : Nat) : Option (List Exp) → List Word
  | none => []
  | some es => fragmentWords (returnFragments depth (es.map (·.fragments depth)))

theorem nextKind_returnWords {returns : Option (List Exp)}
    (closes : nextKind rest ∈ TokenKind.blockClosers) :
    nextKind (returnWords depth returns ++ rest) ∈ .kwReturn :: TokenKind.blockClosers := by
  cases returns with
  | none => exact .tail _ closes
  | some es => exact .head _

theorem returnStat_takes {returns : Option (List Exp)} (file : σ.root.kind = .file)
    (each : ∀ es ∈ returns, ∀ e ∈ es, e.Reread c σ depth)
    (printable : ∀ es ∈ returns, ∀ e ∈ es, e.Printable c.toDemand around) :
    ∃ levels, ∀ rest, nextKind rest ∈ TokenKind.blockClosers →
      Takes c σ (returnWords depth returns ++ rest) returnStat levels rest
        (Option.Rel (List.Forall₂ (Exp.Echo c.exact)) returns) := by
  have other (rest : List Word) (closes : nextKind rest ∈ TokenKind.blockClosers)
      {kind : TokenKind} (apart : kind ∉ TokenKind.blockClosers) :
      nextKind rest ≠ kind := ne_of_mem_of_not_mem closes apart
  match returns with
  | none =>
    refine ⟨0, fun rest closes => .always fun n => Goes.peek_bind ?_⟩
    rw [returnWords, List.nil_append, if_pos (other rest closes (by decide))]
    exact .pure .none
  | some [] =>
    refine ⟨0, fun rest closes => .always fun n => Goes.peek_bind ?_⟩
    have stops : ∀ kind ∈ TokenKind.blockClosers, endsBlock .lua kind = true := by decide
    have words : returnWords depth (some []) ++ rest =
        ⟨.kwReturn, TokenKind.kwReturn.spelling⟩ :: rest := by
      simp [returnWords, returnFragments]
    rw [words, nextKind_cons, if_neg (not_not.2 rfl)]
    refine Goes.noteReturn_bind file (Goes.next_bind (by decide) fun _ _ => atBlockEnd_bind ?_)
    rw [if_pos (stops _ closes)]
    exact .pure (.some .nil)
  | some (e :: es) =>
    obtain ⟨levels, list⟩ := expList_takes (List.cons_ne_nil e es) (each _ rfl)
    refine ⟨levels, fun rest closes n => Goes.peek_bind ?_⟩
    have words : returnWords depth (some (e :: es)) ++ rest =
        ⟨.kwReturn, TokenKind.kwReturn.spelling⟩ ::
          (fragmentWords (separated ((e :: es).map (·.fragments depth))) ++ rest) := by
      simp [returnWords, returnFragments]
    rw [words, nextKind_cons, if_neg (not_not.2 rfl)]
    refine Goes.noteReturn_bind file (Goes.next_bind (by decide) fun _ _ => atBlockEnd_bind ?_)
    have first (rest : List Word) : nextKind (fragmentWords (separated
        ((e :: es).map (·.fragments depth))) ++ rest) ∈ TokenKind.openers := by
      rw [fragmentWords_separated, List.append_assoc]
      exact (printable _ rfl e List.mem_cons_self).opener depth _
    have goesOn : ∀ kind ∈ TokenKind.openers, ¬ endsBlock .lua kind = true := by decide
    rw [if_neg (goesOn _ (first rest))]
    refine Goes.accepts_none_bind (ne_of_mem_of_not_mem (first rest) (by decide)) ?_
    rw [if_neg Bool.false_ne_true]
    have last (e : Exp) : e.EndsAt (nextKind rest) := Exp.endsAt_of_mem_followers
      (TokenKind.mem_followers_of_closer closes) fun _ =>
        other rest closes (by decide)
    refine ((list rest (fun e _ => last e) (other rest closes (by decide)) n).bind
      fun as all => ?_).congr
      (and_iff_left trivial)
    exact Goes.accepts_none_bind (other rest closes (by decide)) (.pure (.some all))

end Parser

namespace Block

variable {c : Bounds} {σ : ScopeStack} {depth : Nat} {around : List Body}

/-- A block is read again if its statements and the values that it returns are. -/
theorem reread {stats : List Stat} {returns : Option (List Exp)} (span : Span)
    (inside : σ.Inside around) (each : ∀ s ∈ stats, ∀ p ∈ s.plain, p.Reread c σ depth)
    (printable : ∀ s ∈ stats, s.Printable c.toDemand around) (apart : stats.IsChain Stat.Apart)
    (values : ∀ es ∈ returns, ∀ e ∈ es, e.Reread c σ depth)
    (printable' : ∀ es ∈ returns, ∀ e ∈ es, e.Printable c.toDemand around) :
    Block.Reread c σ depth ⟨stats, returns, span⟩ := by
  have each' : ∀ p ∈ stats.flatMap Stat.plain, p.Reread c σ depth := by
    simpa using fun p s among part => each s among p part
  have plain : ∀ p ∈ stats.flatMap Stat.plain, p.Printable c.toDemand around := by
    simpa using fun p s among part => Stat.printable_plain (printable s among) p part
  obtain ⟨levels, body⟩ := stats_take each' plain (Stat.apart_plain apart)
  obtain ⟨levels', closing⟩ := returnStat_takes inside.file values printable'
  refine ⟨max levels levels', fun rest closes n => ?_⟩
  have words : fragmentWords (Block.fragments depth ⟨stats, returns, span⟩) ++ rest =
      (stats.flatMap Stat.plain).flatMap (·.words depth) ++ (returnWords depth returns ++ rest) := by
    cases returns <;>
      simp only [Block.fragments, expsFragments_eq, fragmentWords_append, words_stats, returnWords,
        List.append_assoc, List.nil_append]
  rw [words]
  refine Goes.head_bind fun _ => Goes.now_bind fun _ => ?_
  refine ((body _ (nextKind_returnWords closes) n).bind (G := levels' ≤ n) fun read echo => ?_).congr
    max_le_iff.symm
  refine pendingLabel_bind ?_
  refine ((closing rest closes n).bind fun returned echo' => ?_).congr (and_iff_left trivial)
  refine Goes.now_bind fun _ => .pure fun asked => ?_
  have cores : read.toList.flatMap Stat.core = stats.flatMap Stat.core := by
    rw [Stat.Echo.list echo asked, List.flatMap_assoc]
    simp only [Stat.core_plain]
  have returned : returned.map expsCore = returns.map expsCore := by
    cases echo' with
    | none => rfl
    | some all => simp [Exp.Echo.list all asked]
  rw [Block.core_eq, Block.core_eq]
  simp only [statsCore_eq, List.append_nil, cores, returned]

end Block

end LuaChunk
