import LuaChunk.Proofs.Recursion.Mooc
import LuaChunk.Proofs.Spelling.Chunk
import Mathlib.Logic.Function.Iterate

/-!
# The parsers as equations

The parsers of the constructs hold each other without a bound of their own, except that each counts
a level of nesting.  Here they are written as the equations that they are.  The equations have one
solution, since with every unfolding a level less is left; it reads what the rules of the levels
left read, and a construct that has been read closes the levels that it has opened.
-/

set_option autoImplicit false

namespace LuaChunk

/-! ## Recursion -/

/-- One level deeper, as long as a level is left. -/
def Parser.guarded {α : Type} (p : Parser α) : Parser α := fun s =>
  if s.depth < s.settings.maxNesting then nested p s else tooDeep s

/-- A guarded parser is not used above the first level nor below the deepest. -/
theorem Parser.guarded_congr {α : Type} {p q : Parser α}
    (h : ∀ s : Session, 0 < s.depth → s.depth ≤ s.settings.maxNesting → p s = q s) :
    p.guarded = q.guarded := by
  funext s
  unfold guarded
  split
  next left =>
    have inside := h { s with depth := s.depth + 1 } (Nat.succ_pos _) left
    unfold nested
    rw [inside]
  next => rfl

namespace Rules

/-- The parsers of the constructs, each on top of the others. -/
def unfold (r : Rules) : Rules where
  block := .guarded (Parser.block r)
  stat := .guarded (Parser.stat r)
  operation limit := .guarded (Parser.operation r limit)
  functionBody style := .guarded (Parser.functionBody r style)
  table := .guarded (Parser.table r)
  parenthesised := .guarded r.exp

/-- The rules that use the nesting left wherever they are called. -/
def recursive : Rules where
  block s := s.rules.block s
  stat s := s.rules.stat s
  operation limit s := s.rules.operation limit s
  functionBody style s := s.rules.functionBody style s
  table s := s.rules.table s
  parenthesised s := s.rules.parenthesised s

/-- Two rules read the same in a session. -/
structure SameAt (s : Session) (r r' : Rules) : Prop where
  block : r.block s = r'.block s
  stat : r.stat s = r'.stat s
  operation (limit : Nat) : r.operation limit s = r'.operation limit s
  functionBody (style : FunctionStyle) : r.functionBody style s = r'.functionBody style s
  table : r.table s = r'.table s
  parenthesised : r.parenthesised s = r'.parenthesised s

namespace SameAt

variable {s : Session} {r r' r'' : Rules}

theorem symm (h : SameAt s r r') : SameAt s r' r :=
  ⟨h.block.symm, h.stat.symm, fun limit => (h.operation limit).symm,
    fun style => (h.functionBody style).symm, h.table.symm, h.parenthesised.symm⟩

theorem trans (h : SameAt s r r') (k : SameAt s r' r'') : SameAt s r r'' :=
  ⟨h.block.trans k.block, h.stat.trans k.stat,
    fun limit => (h.operation limit).trans (k.operation limit),
    fun style => (h.functionBody style).trans (k.functionBody style),
    h.table.trans k.table, h.parenthesised.trans k.parenthesised⟩

theorem recursive (s : Session) : SameAt s s.rules .recursive :=
  ⟨rfl, rfl, fun _ => rfl, fun _ => rfl, rfl, rfl⟩

/-- Rules are known by how they read. -/
theorem eq (h : ∀ s, SameAt s r r') : r = r' := by
  obtain ⟨block, stat, operation, functionBody, table, parenthesised⟩ := r
  obtain ⟨block', stat', operation', functionBody', table', parenthesised'⟩ := r'
  rw [Rules.mk.injEq]
  refine ⟨?_, ?_, ?_, ?_, ?_, ?_⟩
  · exact funext fun s => (h s).block
  · exact funext fun s => (h s).stat
  · exact funext fun limit => funext fun s => (h s).operation limit
  · exact funext fun style => funext fun s => (h s).functionBody style
  · exact funext fun s => (h s).table
  · exact funext fun s => (h s).parenthesised

end SameAt

/-- The parsers of all constructs have a property. -/
structure Each (P : {α : Type} → Parser α → Prop) (r : Rules) : Prop where
  block : P r.block
  stat : P r.stat
  operation (limit : Nat) : P (r.operation limit)
  functionBody (style : FunctionStyle) : P (r.functionBody style)
  table : P r.table
  parenthesised : P r.parenthesised

theorem exhausted_agree (c : Settings) (d : Nat) : exhausted.Agree c d exhausted where
  block _ := .tooDeep
  stat _ := .tooDeep
  operation _ _ := .tooDeep
  functionBody _ _ := .tooDeep
  table _ := .tooDeep
  parenthesised _ := .tooDeep

section Levels

variable {c : Settings} {d : Nat} {r r' : Rules}

/-- Rules that agree one level further in agree once they are put on top of each other. -/
theorem deepen_agree (h : r.Agree c (d + 1) r') :
    (deepen fun _ => r).Agree c d (deepen fun _ => r') where
  block _ := .nested (Parser.block_agree h)
  stat _ := .nested (Parser.stat_agree h)
  operation _ limit := .nested (Parser.operation_agree h limit)
  functionBody _ style := .nested (Parser.functionBody_agree h style)
  table _ := .nested (Parser.table_agree h)
  parenthesised _ := .nested (Parser.exp_agree h)

theorem level_agree (n : Nat) (c : Settings) (d : Nat) : (level n).Agree c d (level n) := by
  induction n generalizing d with
  | zero => exact exhausted_agree c d
  | succ n inductionHypothesis => exact deepen_agree (inductionHypothesis (d + 1))

/-- Agreement is a matter of the sessions under the settings at the depth. -/
theorem Agree.of_sameAt (h : r.Agree c d r)
    (same : ∀ s : Session, s.settings = c → s.depth = d → r.SameAt s r') : r.Agree c d r' where
  block k := ⟨fun s settings depth => (same s settings depth).block, (h.block k).kept⟩
  stat k := ⟨fun s settings depth => (same s settings depth).stat, (h.stat k).kept⟩
  operation k limit :=
    ⟨fun s settings depth => (same s settings depth).operation limit, (h.operation k limit).kept⟩
  functionBody k style :=
    ⟨fun s settings depth => (same s settings depth).functionBody style,
      (h.functionBody k style).kept⟩
  table k := ⟨fun s settings depth => (same s settings depth).table, (h.table k).kept⟩
  parenthesised k :=
    ⟨fun s settings depth => (same s settings depth).parenthesised, (h.parenthesised k).kept⟩

theorem Agree.sameAt {s : Session} (h : r.Agree s.settings s.depth r') : r.SameAt s r' where
  block := (h.block {}).same s rfl rfl
  stat := (h.stat {}).same s rfl rfl
  operation limit := (h.operation {} limit).same s rfl rfl
  functionBody style := (h.functionBody {} style).same s rfl rfl
  table := (h.table {}).same s rfl rfl
  parenthesised := (h.parenthesised {}).same s rfl rfl

end Levels

end Rules

namespace Parser.Agree

variable {α : Type} {c : Settings} {d : Nat} {k : Headway} {p q : Parser α} {l : α → Headway}

theorem guarded_of_lt (left : d < c.maxNesting) (h : Agree c (d + 1) k p q l) :
    Agree c d k (Parser.nested p) (Parser.guarded q) l where
  same s settings depth := by
    have deeper : s.depth < s.settings.maxNesting := by rw [settings, depth]; exact left
    rw [Parser.guarded, if_pos deeper]
    exact h.nested.same s settings depth
  kept := h.nested.kept

theorem guarded_of_le (none : c.maxNesting ≤ d) :
    Agree c d k Parser.tooDeep (Parser.guarded q) l where
  same s settings depth := by
    have deepest : ¬ s.depth < s.settings.maxNesting := by
      rw [settings, depth]
      exact Nat.not_lt.2 none
    rw [Parser.guarded, if_neg deepest]
  kept := Agree.tooDeep.kept

end Parser.Agree

namespace Rules

variable {c : Settings} {d : Nat} {r r' : Rules}

/-- On top of rules that read one level further in like those of that level, the equations give
the rules of this one. -/
theorem unfold_agree
    (h : d < c.maxNesting → (level (c.maxNesting - (d + 1))).Agree c (d + 1) r) :
    (level (c.maxNesting - d)).Agree c d r.unfold := by
  by_cases left : d < c.maxNesting
  · have next : c.maxNesting - d = c.maxNesting - (d + 1) + 1 := by omega
    rw [next, level_succ]
    exact {
      block := fun _ => .guarded_of_lt left (Parser.block_agree (h left))
      stat := fun _ => .guarded_of_lt left (Parser.stat_agree (h left))
      operation := fun _ limit => .guarded_of_lt left (Parser.operation_agree (h left) limit)
      functionBody := fun _ style =>
        .guarded_of_lt left (Parser.functionBody_agree (h left) style)
      table := fun _ => .guarded_of_lt left (Parser.table_agree (h left))
      parenthesised := fun _ => .guarded_of_lt left (Parser.exp_agree (h left)) }
  · have none := Nat.not_lt.1 left
    rw [Nat.sub_eq_zero_of_le none, level_zero]
    exact {
      block := fun _ => .guarded_of_le none
      stat := fun _ => .guarded_of_le none
      operation := fun _ _ => .guarded_of_le none
      functionBody := fun _ _ => .guarded_of_le none
      table := fun _ => .guarded_of_le none
      parenthesised := fun _ => .guarded_of_le none }

theorem recursive_agree (c : Settings) (d : Nat) :
    (level (c.maxNesting - d)).Agree c d recursive := by
  apply (level_agree _ c d).of_sameAt
  rintro s rfl rfl
  exact .recursive s

/-- With more equations than levels left, what stands below them is never reached. -/
theorem unfold_iterate_agree (below : Rules) {n : Nat} (enough : c.maxNesting - d < n) :
    (level (c.maxNesting - d)).Agree c d (unfold^[n] below) := by
  induction n generalizing d with
  | zero => exact absurd enough (Nat.not_lt_zero _)
  | succ n inductionHypothesis =>
    rw [Function.iterate_succ_apply']
    apply unfold_agree
    intro left
    apply inductionHypothesis
    omega

theorem unfold_iterate_sameAt (below : Rules) {s : Session} {n : Nat}
    (enough : s.settings.maxNesting - s.depth < n) : SameAt s (unfold^[n] below) recursive :=
  (unfold_iterate_agree below enough).sameAt.symm.trans (.recursive s)

theorem recursive_eq_unfold : recursive = recursive.unfold := by
  apply SameAt.eq
  intro s
  have one := unfold_agree fun _ => recursive_agree s.settings (s.depth + 1)
  exact (SameAt.recursive s).symm.trans one.sameAt

/-- The equations have one solution: any solution is its own unfolding, as often as it takes. -/
theorem eq_unfold_iff : r = r.unfold ↔ r = recursive := by
  constructor
  · intro h
    apply SameAt.eq
    intro s
    have unrolled := unfold_iterate_sameAt r (Nat.lt_succ_self (s.settings.maxNesting - s.depth))
    rwa [Function.iterate_fixed h.symm] at unrolled
  · rintro rfl
    exact recursive_eq_unfold

end Rules

/-! ## Sessions in the course of a reading -/

namespace Session

/-- A single end of input closes the tokens ahead. -/
structure Closed (s : Session) : Prop where
  final : s.tokens.final.token.kind = .eof
  endsOnce : s.EndsOnce

theorem Closed.start (source : List UInt8) (name : String) (settings : Settings) :
    (Session.start source name settings).Closed where
  final := (Scanner.run_finds settings.dialect (.ofBytes source)).final_kind
  endsOnce := (Scanner.run_finds settings.dialect (.ofBytes source)).all
    (P := fun r => r.token.kind ≠ .eof) fun _ more => more

theorem Closed.opened (source : List UInt8) (name : String) (settings : Settings) :
    (Session.opened source name settings).Closed where
  final := (Scanner.run_finds settings.dialect (opening source)).final_kind
  endsOnce := opened_endsOnce

theorem Closed.headway {s s' : Session} {k : Headway} (h : s.Closed)
    (holds : k.Holds s.tokens.ahead s'.tokens) : s'.Closed where
  final := holds.ended
  endsOnce := fun r membership => h.endsOnce r (holds.suffix.mem membership)

end Session

/-- A parser comes back to the depth that it was called at, and to a place further on or the same
in the tokens. -/
def Parser.Returns {α : Type} (p : Parser α) : Prop := ∀ s a s', p s = .ok a s' →
  s'.depth = s.depth ∧ (s.Closed → s'.Closed ∧ s'.tokens.ahead <:+ s.tokens.ahead)

namespace Parser.Agree

variable {α : Type} {c : Settings} {d : Nat} {k : Headway} {p q : Parser α} {l : α → Headway}

theorem right (h : Agree c d k p q l) : Agree c d k q q l where
  same _ _ _ := rfl
  kept s settings depth := by
    rw [← h.same s settings depth]
    exact h.kept s settings depth

theorem returned {s s' : Session} {a : α} (h : Agree s.settings s.depth k p q l)
    (round : p s = .ok a s') :
    s.Keeps s' ∧ ∀ origin, k.Holds origin s.tokens → (l a).Holds origin s'.tokens := by
  have kept := h.kept s rfl rfl
  rw [round] at kept
  exact kept

end Parser.Agree

theorem Parser.Returns.of_agree {α : Type} {p : Parser α} {l : Settings → Nat → α → Headway}
    (h : ∀ c d, Agree c d {} p p (l c d)) : p.Returns := by
  intro s a s' round
  obtain ⟨keeps, headway⟩ := (h s.settings s.depth).returned round
  refine ⟨keeps.depth, fun closed => ?_⟩
  have reached := headway s.tokens.ahead (.here closed.final)
  exact ⟨closed.headway reached, reached.suffix⟩

namespace Rules

theorem Agree.right {c : Settings} {d : Nat} {r r' : Rules} (h : r.Agree c d r') :
    r'.Agree c d r' where
  block k := (h.block k).right
  stat k := (h.stat k).right
  operation k limit := (h.operation k limit).right
  functionBody k style := (h.functionBody k style).right
  table k := (h.table k).right
  parenthesised k := (h.parenthesised k).right

theorem recursive_agree_self (c : Settings) (d : Nat) : recursive.Agree c d recursive :=
  (recursive_agree c d).right

theorem recursive_returns : recursive.Each Parser.Returns where
  block := .of_agree fun c d => (recursive_agree_self c d).block {}
  stat := .of_agree fun c d => (recursive_agree_self c d).stat {}
  operation limit := .of_agree fun c d => (recursive_agree_self c d).operation {} limit
  functionBody style := .of_agree fun c d => (recursive_agree_self c d).functionBody {} style
  table := .of_agree fun c d => (recursive_agree_self c d).table {}
  parenthesised := .of_agree fun c d => (recursive_agree_self c d).parenthesised {}

end Rules

namespace Session

theorem chunk_agree {c : Settings} {d : Nat} {k : Headway} {r r' : Rules} (h : r.Agree c d r') :
    Parser.Agree c d k (chunk r) (chunk r') fun _ => k.pass.take := by
  apply Parser.Agree.bind (h.block k)
  intro block
  exact .give (.expect .eof)

end Session

end LuaChunk
