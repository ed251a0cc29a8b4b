import LuaChunk.Number.Numeral
import LuaChunk.Tree.Basic

/-!
# Grouping by the operator table

A sequence of operands with binary operators between them, and prefix operators before them, is the
in-order reading of many trees.  Exactly one of them is grouped the way the table of priorities
asks for; here it is shown that there is one.
-/

set_option autoImplicit false

namespace LuaChunk

/-! ## Operators as tokens -/

def UnaryOp.token : UnaryOp → TokenKind
  | neg => .minus
  | not => .kwNot
  | len => .hash
  | bnot => .tilde

theorem UnaryOp.ofToken?_eq_some {kind : TokenKind} {op : UnaryOp} :
    ofToken? kind = some op ↔ kind = op.token := by
  constructor
  · intro found
    unfold ofToken? at found
    split at found <;> cases found <;> rfl
  · rintro rfl
    cases op <;> rfl

def BinaryOp.token : BinaryOp → TokenKind
  | add => .plus
  | sub => .minus
  | mul => .star
  | div => .slash
  | idiv => .doubleSlash
  | mod => .percent
  | pow => .caret
  | concat => .concat
  | shl => .shiftLeft
  | shr => .shiftRight
  | band => .ampersand
  | bxor => .tilde
  | bor => .pipe
  | lt => .less
  | le => .lessEqual
  | gt => .greater
  | ge => .greaterEqual
  | eq => .equal
  | ne => .notEqual
  | and => .kwAnd
  | or => .kwOr

theorem BinaryOp.ofToken?_eq_some {kind : TokenKind} {op : BinaryOp} :
    ofToken? kind = some op ↔ kind = op.token := by
  constructor
  · intro found
    unfold ofToken? at found
    split at found <;> cases found <;> rfl
  · rintro rfl
    cases op <;> rfl

/-! ## Sequences of operands and operators -/

def Token.operand? (t : Token) : Option Exp :=
  match t.kind with
  | .identifier => some (.name t.text t.span)
  | .number =>
    match Numeral.read? t.text with
    | some (.integer value) => some (.integer value t.span)
    | _ => none
  | _ => none

/-- Operands separated by binary operators, each after any number of prefix operators. -/
inductive Chain : List Token → Prop
  | operand {t e} : t.operand? = some e → Chain [t]
  | before {t rest} (op : UnaryOp) : t.kind = op.token → Chain rest → Chain (t :: rest)
  | between {t e u rest} (op : BinaryOp) : t.operand? = some e → u.kind = op.token → Chain rest →
      Chain (t :: u :: rest)

/-- What an in-order reading of a tree consists of. -/
inductive Symbol where
  | operand (e : Exp)
  | operator (kind : TokenKind)

def Token.symbol (t : Token) : Symbol :=
  match t.operand? with
  | some e => .operand e
  | none => .operator t.kind

/-- A tree of operators read from left to right. -/
def Exp.inorder : Exp → List Symbol
  | .unary op operand _ => .operator op.token :: operand.inorder
  | .binary op left right _ => left.inorder ++ .operator op.token :: right.inorder
  | e => [.operand e]

/-! ## Grouped trees -/

/-- What a binary operator may have on its left: an operator that binds more tightly, or as tightly
if they are applied from the left.  A power has no prefix operator there. -/
def BinaryOp.TakesLeft (p : BinaryOp) : Exp → Prop
  | .binary q _ _ _ =>
    p.priority < q.priority ∨ p.priority = q.priority ∧ p.isRightAssoc = false
  | .unary _ _ _ => p ≠ .pow
  | _ => True

/-- What a binary operator may have on its right: an operator that binds more tightly, or as tightly
if they are applied from the right. -/
def BinaryOp.TakesRight (p : BinaryOp) : Exp → Prop
  | .binary q _ _ _ =>
    p.priority < q.priority ∨ p.priority = q.priority ∧ p.isRightAssoc = true
  | _ => True

/-- Of the binary operators only a power stands under a prefix operator. -/
def Exp.UnderPrefix : Exp → Prop
  | .binary q _ _ _ => q = .pow
  | _ => True

/-- All operators of a tree are grouped by the operator table. -/
def Exp.Grouped : Exp → Prop
  | .unary _ operand _ => operand.Grouped ∧ operand.UnderPrefix
  | .binary p left right _ => left.Grouped ∧ right.Grouped ∧ p.TakesLeft left ∧ p.TakesRight right
  | _ => True

/-- A tree without the spans of its operators. -/
def Exp.shape : Exp → Exp
  | .unary op operand _ => .unary op operand.shape .synthetic
  | .binary op left right _ => .binary op left.shape right.shape .synthetic
  | e => e

/-- The levels of nesting that reading a tree of operators takes: one for each prefix operator and
each right operand around a node. -/
def Exp.nesting : Exp → Nat
  | .unary _ operand _ => operand.nesting + 1
  | .binary _ left right _ => max left.nesting (right.nesting + 1)
  | _ => 1

theorem Exp.nesting_pos (e : Exp) : 0 < e.nesting := by
  cases e with
  | binary op left right => exact Nat.lt_of_lt_of_le (Nat.succ_pos _) (Nat.le_max_right _ _)
  | _ => exact Nat.succ_pos _

/-! ## Operands -/

namespace Exp

def isOperation : Exp → Bool
  | .unary _ _ _ | .binary _ _ _ _ => true
  | _ => false

/-- Trees of operators grow from operands. -/
theorem operations {motive : Exp → Prop} (operand : ∀ e, e.isOperation = false → motive e)
    (unary : ∀ op operand span, motive operand → motive (.unary op operand span))
    (binary : ∀ op left right span, motive left → motive right →
      motive (.binary op left right span)) (e : Exp) : motive e := by
  induction e using inorder.induct with
  | case1 op e span inductionHypothesis => exact unary op e span inductionHypothesis
  | case2 op left right span first second => exact binary op left right span first second
  | case3 e notUnary notBinary =>
    apply operand
    unfold isOperation
    split
    · exact (notUnary _ _ _ rfl).elim
    · exact (notBinary _ _ _ _ rfl).elim
    · rfl

variable {e : Exp} (h : e.isOperation = false)

include h

theorem inorder_operand : e.inorder = [.operand e] := by
  cases e <;> first | rfl | cases h

theorem shape_operand : e.shape = e := by
  cases e <;> first | rfl | cases h

theorem nesting_operand : e.nesting = 1 := by
  cases e <;> first | rfl | cases h

end Exp

/-! ## Shapes

Spans of operators say nothing of how a tree is grouped. -/

namespace Exp

theorem inorder_shape (e : Exp) : e.shape.inorder = e.inorder := by
  induction e using operations with
  | operand e leaf => rw [shape_operand leaf]
  | unary op operand span inductionHypothesis => rw [shape, inorder, inorder, inductionHypothesis]
  | binary op left right span first second => rw [shape, inorder, inorder, first, second]

theorem nesting_shape (e : Exp) : e.shape.nesting = e.nesting := by
  induction e using operations with
  | operand e leaf => rw [shape_operand leaf]
  | unary op operand span inductionHypothesis => rw [shape, nesting, nesting, inductionHypothesis]
  | binary op left right span first second => rw [shape, nesting, nesting, first, second]

theorem grouped_shape (e : Exp) : e.shape.Grouped ↔ e.Grouped := by
  induction e using operations with
  | operand e leaf => rw [shape_operand leaf]
  | unary op operand span inductionHypothesis =>
    rw [shape, Grouped, Grouped, inductionHypothesis]
    cases operand <;> rfl
  | binary op left right span first second =>
    rw [shape, Grouped, Grouped, first, second]
    have onLeft : op.TakesLeft left.shape ↔ op.TakesLeft left := by cases left <;> rfl
    have onRight : op.TakesRight right.shape ↔ op.TakesRight right := by cases right <;> rfl
    rw [onLeft, onRight]

end Exp

/-! ## Limits

The limit to which a right operand is read says the same as the table, with one number less where
operators are applied from the right. -/

namespace BinaryOp

variable {p q : BinaryOp} {left right : Exp} {span : Span}

theorem isRightAssoc_iff (op : BinaryOp) :
    op.isRightAssoc = true ↔ op.priority = 12 ∨ op.priority = 8 := by
  cases op <;> decide

theorem takesLeft_binary :
    p.TakesLeft (.binary q left right span) ↔ p.priority ≤ q.rightLimit := by
  have := q.priority_pos
  have := p.isRightAssoc_iff
  have := q.isRightAssoc_iff
  unfold TakesLeft rightLimit
  cases h : p.isRightAssoc <;> cases k : q.isRightAssoc <;> simp_all <;> omega

theorem takesRight_binary :
    p.TakesRight (.binary q left right span) ↔ p.rightLimit < q.priority := by
  have := p.priority_pos
  unfold TakesRight rightLimit
  cases p.isRightAssoc
  · simp
  · simp
    omega

theorem priority_le (op : BinaryOp) : op.priority ≤ 12 := by cases op <;> decide

theorem priority_le_of_ne_pow {op : BinaryOp} (h : op ≠ .pow) :
    op.priority ≤ UnaryOp.priority := by
  cases op <;> first | exact absurd rfl h | decide

/-- No operator has a priority between powers and prefix operators. -/
theorem priority_le_of_le {op : BinaryOp} (h : op.priority ≤ 11) :
    op.priority ≤ UnaryOp.priority := by
  apply priority_le_of_ne_pow
  rintro rfl
  exact absurd h (by decide)

theorem rightLimit_le_priority (op : BinaryOp) : op.rightLimit ≤ op.priority := by
  cases op <;> decide

theorem le_rightLimit {op : BinaryOp} {limit : Nat} (h : limit < op.priority) :
    limit ≤ op.rightLimit := by
  unfold rightLimit
  split
  · exact Nat.le_sub_one_of_lt h
  · exact Nat.le_of_lt h

theorem rightLimit_le (op : BinaryOp) : op.rightLimit ≤ 11 := by cases op <;> decide

end BinaryOp

/-- The outermost operator binds more tightly than a limit. -/
def Exp.Above (limit : Nat) : Exp → Prop
  | .binary op _ _ _ => limit < op.priority
  | _ => True

theorem Exp.above_zero (e : Exp) : e.Above 0 := by
  cases e with
  | binary op => exact op.priority_pos
  | _ => trivial

/-- The limit to which the end of a tree is read, which keeps what follows out of it. -/
def Exp.lastLimit : Exp → Nat
  | .binary op _ _ _ => op.rightLimit
  | .unary _ _ _ => UnaryOp.priority
  | _ => 12

namespace BinaryOp.TakesLeft

variable {p : BinaryOp} {e : Exp} {limit : Nat}

/-- An operator ends the reading of what may stand on its left. -/
theorem le_lastLimit (h : p.TakesLeft e) : p.priority ≤ e.lastLimit := by
  cases e with
  | binary q => exact takesLeft_binary.1 h
  | unary => exact priority_le_of_ne_pow h
  | _ => exact p.priority_le

theorem above (h : p.TakesLeft e) (k : limit < p.priority) : e.Above limit := by
  cases e with
  | binary q =>
    exact Nat.lt_of_lt_of_le k (Nat.le_trans (takesLeft_binary.1 h) q.rightLimit_le_priority)
  | _ => trivial

end BinaryOp.TakesLeft

/-! ## A grouped tree for every sequence -/

theorem Token.isOperation_operand {t : Token} {e : Exp} (h : t.operand? = some e) :
    e.isOperation = false := by
  unfold operand? at h
  split at h
  · rw [← Option.some.inj h]
    rfl
  · split at h
    · rw [← Option.some.inj h]
      rfl
    · cases h
  · cases h

theorem Token.symbol_operand {t : Token} {e : Exp} (h : t.operand? = some e) :
    t.symbol = .operand e := by
  rw [symbol, h]

theorem Token.symbol_unary {t : Token} {op : UnaryOp} (h : t.kind = op.token) :
    t.symbol = .operator op.token := by
  have none : t.operand? = none := by
    unfold operand?
    rw [h]
    cases op <;> rfl
  rw [symbol, none, h]

theorem Token.symbol_binary {t : Token} {op : BinaryOp} (h : t.kind = op.token) :
    t.symbol = .operator op.token := by
  have none : t.operand? = none := by
    unfold operand?
    rw [h]
    cases op <;> rfl
  rw [symbol, none, h]

theorem Token.operand_of_symbols {tokens : List Token} {e : Exp}
    (h : tokens.map symbol = [.operand e]) : ∃ t, tokens = [t] ∧ t.operand? = some e := by
  obtain ⟨t, rfl, same⟩ := List.map_eq_singleton_iff.1 h
  refine ⟨t, rfl, ?_⟩
  unfold symbol at same
  split at same
  · next found => rw [found, Symbol.operand.inj same]
  · cases same

theorem Token.operator_of_symbols {tokens : List Token} {kind : TokenKind} {symbols : List Symbol}
    (h : tokens.map symbol = .operator kind :: symbols) :
    ∃ t rest, tokens = t :: rest ∧ t.kind = kind ∧ symbols = rest.map symbol := by
  obtain ⟨t, rest, rfl, same, more⟩ := List.map_eq_cons_iff.1 h
  refine ⟨t, rest, rfl, ?_, more.symm⟩
  unfold symbol at same
  split at same
  · cases same
  · exact Symbol.operator.inj same

namespace Exp

/-- A tree with a prefix operator before it, which holds the first operand and its powers. -/
def prefixed (op : UnaryOp) : Exp → Exp
  | .binary p left right span =>
    if p = .pow then .unary op (.binary p left right span) .synthetic
    else .binary p (left.prefixed op) right .synthetic
  | e => .unary op e .synthetic

/-- A tree with an operand and an operator before it. -/
def joined (first : Exp) (p : BinaryOp) : Exp → Exp
  | .binary q left right span =>
    if q.priority ≤ p.rightLimit then .binary q (first.joined p left) right .synthetic
    else .binary p first (.binary q left right span) .synthetic
  | e => .binary p first e .synthetic

end Exp

section Prefixed

variable {op : UnaryOp} {p : BinaryOp} {e : Exp}

theorem Exp.prefixed_operand (h : e.isOperation = false) :
    e.prefixed op = .unary op e .synthetic := by
  cases e <;> first | rfl | cases h

theorem Exp.inorder_prefixed (op : UnaryOp) (e : Exp) :
    (e.prefixed op).inorder = .operator op.token :: e.inorder := by
  induction e using operations with
  | operand e h => rw [prefixed_operand h, inorder]
  | unary => rfl
  | binary p left right span inductionHypothesis =>
    unfold prefixed
    split
    · rfl
    · rw [inorder, inductionHypothesis]
      rfl

theorem BinaryOp.TakesLeft.prefixed (h : p.TakesLeft e) (plain : p ≠ .pow) :
    p.TakesLeft (e.prefixed op) := by
  cases e with
  | binary q =>
    unfold Exp.prefixed
    split
    · exact plain
    · exact h
  | _ => exact plain

theorem Exp.Grouped.prefixed (h : e.Grouped) : (e.prefixed op).Grouped := by
  induction e using operations with
  | operand e leaf =>
    rw [prefixed_operand leaf]
    refine ⟨h, ?_⟩
    cases e <;> first | exact trivial | cases leaf
  | unary => exact ⟨h, trivial⟩
  | binary p left right span inductionHypothesis =>
    obtain ⟨l, r, takesLeft, takesRight⟩ := h
    unfold Exp.prefixed
    split
    · next power => exact ⟨⟨l, r, takesLeft, takesRight⟩, power⟩
    · next plain => exact ⟨inductionHypothesis l, r, takesLeft.prefixed plain, takesRight⟩

end Prefixed

section Joined

variable {p q : BinaryOp} {first e : Exp}

theorem Exp.joined_operand (h : e.isOperation = false) :
    first.joined p e = .binary p first e .synthetic := by
  cases e <;> first | rfl | cases h

theorem Exp.inorder_joined (leaf : first.isOperation = false) (p : BinaryOp) (e : Exp) :
    (first.joined p e).inorder = .operand first :: .operator p.token :: e.inorder := by
  induction e using operations with
  | operand e h =>
    rw [joined_operand h, inorder, inorder_operand leaf]
    rfl
  | unary =>
    rw [joined, inorder, inorder, inorder_operand leaf]
    · rfl
    · exact nofun
  | binary q left right span inductionHypothesis =>
    unfold joined
    split
    · rw [inorder, inductionHypothesis]
      rfl
    · rw [inorder, inorder_operand leaf]
      rfl

theorem BinaryOp.TakesLeft.joined (h : q.TakesLeft e) (loose : q.priority ≤ p.rightLimit) :
    q.TakesLeft (first.joined p e) := by
  cases e with
  | binary =>
    unfold Exp.joined
    split
    · exact h
    · exact takesLeft_binary.2 loose
  | _ => exact takesLeft_binary.2 loose

theorem Exp.Grouped.joined (leaf : first.isOperation = false) (h : e.Grouped) :
    (first.joined p e).Grouped := by
  have start : first.Grouped ∧ p.TakesLeft first := by
    cases first <;> first | exact ⟨trivial, trivial⟩ | cases leaf
  induction e using operations with
  | operand e last =>
    rw [joined_operand last]
    refine ⟨start.1, h, start.2, ?_⟩
    cases e <;> first | exact trivial | cases last
  | unary => exact ⟨start.1, h, start.2, trivial⟩
  | binary q left right span inductionHypothesis =>
    obtain ⟨l, r, takesLeft, takesRight⟩ := h
    unfold Exp.joined
    split
    · next loose => exact ⟨inductionHypothesis l, r, takesLeft.joined loose, takesRight⟩
    · next tight =>
      refine ⟨start.1, ⟨l, r, takesLeft, takesRight⟩, start.2, ?_⟩
      exact BinaryOp.takesRight_binary.2 (Nat.lt_of_not_le tight)

end Joined

theorem Chain.exists_grouped {tokens : List Token} (h : Chain tokens) :
    ∃ e : Exp, e.inorder = tokens.map Token.symbol ∧ e.Grouped := by
  induction h with
  | @operand t e found =>
    have leaf := Token.isOperation_operand found
    refine ⟨e, ?_, ?_⟩
    · rw [Exp.inorder_operand leaf, List.map_singleton, Token.symbol_operand found]
    · cases e <;> first | exact trivial | cases leaf
  | @before t rest op kind _ inductionHypothesis =>
    obtain ⟨e, inorder, grouped⟩ := inductionHypothesis
    refine ⟨e.prefixed op, ?_, grouped.prefixed⟩
    rw [Exp.inorder_prefixed, inorder, List.map_cons, Token.symbol_unary kind]
  | @between t first u rest op found kind _ inductionHypothesis =>
    have leaf := Token.isOperation_operand found
    obtain ⟨e, inorder, grouped⟩ := inductionHypothesis
    refine ⟨first.joined op e, ?_, grouped.joined leaf⟩
    rw [Exp.inorder_joined leaf, inorder, List.map_cons, List.map_cons,
      Token.symbol_operand found, Token.symbol_binary kind]

end LuaChunk
