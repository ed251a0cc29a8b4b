import LuaChunk.Proofs.Layout.Spacing
import LuaChunk.Proofs.Reread.Levels
import LuaChunk.Proofs.Tree.Brackets
import LuaChunk.Proofs.Tree.Core

/-!
# Expressions are read again

The words of an expression that can be written are read as that expression, if what stands after
them does not go on with it.
-/

set_option autoImplicit false

namespace LuaChunk

open Fragment

/-! ## What an expression begins with, and what ends it -/

namespace TokenKind

/-- Expressions are written with such a word first. -/
def openers : List TokenKind := [.kwNil, .kwTrue, .kwFalse, .vararg, .minus, .number, .string,
  .identifier, .lparen, .lbrace, .kwFunction]

/-- No expression goes on with it. -/
def closers : List TokenKind :=
  [.comma, .rparen, .rbracket, .rbrace, .kwThen, .kwDo]

end TokenKind

namespace Exp

/-- As an operand the expression does not go on with such a word. -/
structure StopsAt (e : Exp) (kind : TokenKind) : Prop where
  suffix : e.endsOpen = true → kind.isSuffix = false
  power : e.isNegative = true → kind ≠ .caret

/-- The expression does not go on with such a word. -/
structure EndsAt (e : Exp) (kind : TokenKind) : Prop where
  suffix : e.endsOpen = true → kind.isSuffix = false
  operator : BinaryOp.ofToken? kind = none

variable {e : Exp} {kind : TokenKind}

theorem EndsAt.stopsAt (h : e.EndsAt kind) : e.StopsAt kind := by
  refine ⟨h.suffix, fun _ => ?_⟩
  rintro rfl
  cases h.operator

theorem endsAt_of_mem_closers (h : kind ∈ TokenKind.closers) : e.EndsAt kind := by
  refine ⟨fun _ => ?_, ?_⟩ <;> (revert kind; decide)

/-- The kind of the first word; what cannot be written has none. -/
def opening : Exp → TokenKind
  | nil _ => .kwNil
  | bool value _ => if value then .kwTrue else .kwFalse
  | vararg _ => .vararg
  | integer value _ => if value.toInt < 0 then .minus else .number
  | float value _ => if value.isFinite then .number else .identifier
  | string _ _ => .string
  | name _ _ => .identifier
  | unary _ _ _ | binary _ _ _ _ | paren _ _ => .lparen
  | table _ _ _ => .lbrace
  | function _ _ => .kwFunction
  | call ⟨callee, _, _⟩ _ => callee.opening
  | index object _ _ => object.opening
  | bad _ => .eof

theorem opening_of_endsOpen {d : Demand} {around : List Body} : ∀ {e : Exp},
    e.Printable d around → e.endsOpen = true →
      e.opening = if e.startsParen then .lparen else .identifier
  | .float value _, _, h => by
    have infinite : value.isFinite = false := by simpa [endsOpen] using h
    simp [opening, startsParen, infinite]
  | .call ⟨_, _, _⟩ _, .call _ isOpen _ callee _, _ => by
    have own := opening_of_endsOpen callee isOpen
    exact own
  | .index _ _ _, .index _ isOpen object _, _ => by
    have own := opening_of_endsOpen object isOpen
    exact own
  | .name _ _, _, _ | .unary _ _ _, _, _ | .binary _ _ _ _, _, _ | .paren _ _, _, _ => rfl

theorem opening_mem {d : Demand} {around : List Body} (h : e.Printable d around) :
    e.opening ∈ TokenKind.openers := by
  by_cases isOpen : e.endsOpen = true
  · rw [opening_of_endsOpen h isOpen]
    split <;> decide
  · cases h with
    | bool | integer | float =>
      unfold opening
      split <;> decide
    | nil | vararg | string | table | function => simp [opening, TokenKind.openers]
    | name | unary | binary | call | index | paren => exact absurd rfl isOpen

theorem Printable.nextKind {d : Demand} {around : List Body} (depth : Nat) (rest : List Word) :
    ∀ {e : Exp}, e.Printable d around →
      LuaChunk.nextKind (fragmentWords (e.fragments depth) ++ rest) = e.opening
  | .nil _, _ | .vararg _, _ | .string _ _, _ | .table _ _ _, _ | .function _ _, _
  | .bool true _, _ | .bool false _, _ | .name _ _, _ | .unary _ _ _, _ | .binary _ _ _ _, _
  | .paren _ _, _ => rfl
  | .integer value _, _ => by
    rw [Exp.fragments, opening]
    unfold integerFragments
    split <;> rfl
  | .float value _, _ => by
    rw [Exp.fragments, opening]
    split <;> rfl
  | .call ⟨callee, _, _⟩ _, .call _ _ _ own _ => by
    simp only [Exp.fragments, Call.fragments, fragmentWords_append, List.append_assoc]
    exact own.nextKind depth _
  | .index object _ _, .index _ _ own _ => by
    simp only [Exp.fragments, fragmentWords_append, List.append_assoc]
    exact own.nextKind depth _

theorem Printable.opener {d : Demand} {around : List Body} (h : e.Printable d around)
    (depth : Nat) (rest : List Word) :
    LuaChunk.nextKind (fragmentWords (e.fragments depth) ++ rest) ∈ TokenKind.openers := by
  rw [h.nextKind]
  exact opening_mem h

end Exp

namespace Parser

variable {c : Bounds} {σ : ScopeStack} {words rest : List Word} {levels : Nat} {P Q : Exp → Prop}

/-! ## Operators -/

theorem infixOp_stops {r : Rules} {limit : Nat} {start : Span} {left : Exp}
    (below : ∀ op, BinaryOp.ofToken? (nextKind rest) = some op → op.priority ≤ limit) :
    Goes.Rounds c σ rest (infixOp r limit start) left True rest (· = left) := by
  refine .done (Goes.peek_bind ?_)
  cases found : BinaryOp.ofToken? (nextKind rest) with
  | none => exact .pure ⟨left, rfl, rfl⟩
  | some op =>
    dsimp only
    rw [if_pos (below op found)]
    exact .pure ⟨left, rfl, rfl⟩

namespace Takes

/-- An operand and no operator. -/
theorem operation_of_operand {limit : Nat} (h : Takes c σ words operand levels rest P)
    (below : ∀ op, BinaryOp.ofToken? (nextKind rest) = some op → op.priority ≤ limit) :
    Takes c σ words (Parser.operation · limit) levels rest P := by
  intro n
  refine Goes.head_bind fun start => ?_
  refine ((h n).bind fun first result => ?_).congr (and_iff_left trivial)
  refine (Goes.iterate (infixOp_stops below)).mono ?_
  rintro _ rfl
  exact result

/-- A whole expression. -/
theorem exp (h : Takes c σ words operand levels rest P)
    (ends : BinaryOp.ofToken? (nextKind rest) = none) :
    Takes c σ words Rules.exp (levels + 1) rest P := by
  refine (h.operation_of_operand fun op found => ?_).operation
  rw [ends] at found
  cases found

/-- An operand, an operator above the limit and its right operand. -/
theorem operation_binary {limit : Nat} {more : List Word} {levels' : Nat} (op : BinaryOp)
    (left : Takes c σ words operand levels (⟨op.token, op.token.spelling⟩ :: (more ++ rest)) P)
    (right : Takes c σ (more ++ rest) operand levels' rest Q) (above : limit < op.priority)
    (ends : BinaryOp.ofToken? (nextKind rest) = none) :
    Takes c σ words (Parser.operation · limit) (max levels (levels' + 1)) rest
      fun a => ∃ l r span, a = .binary op l r span ∧ P l ∧ Q r := by
  have below (limit : Nat) (op : BinaryOp) (found : BinaryOp.ofToken? (nextKind rest) = some op) :
      op.priority ≤ limit := by
    rw [ends] at found
    cases found
  have right : Takes c σ (more ++ rest) (·.operation op.rightLimit) (levels' + 1) rest Q :=
    (right.operation_of_operand (below _)).operation
  have step (n : Nat) (start : Span) (l : Exp) (first : P l) :
      Goes c σ (⟨op.token, op.token.spelling⟩ :: (more ++ rest)) (infixOp (Rules.level n) limit start l)
        (levels' + 1 ≤ n) rest
        fun o => ∃ a, o = .yield a ∧ ∃ l r span, a = .binary op l r span ∧ P l ∧ Q r := by
    refine Goes.peek_bind ?_
    rw [nextKind_cons, BinaryOp.ofToken?_eq_some.2 rfl]
    dsimp only
    rw [if_neg (Nat.not_le.2 above)]
    refine Goes.next_bind (by cases op <;> decide) fun _ _ => ?_
    refine ((right n).bind fun r second => ?_).congr (and_iff_left trivial)
    exact Goes.since_bind fun span => .pure ⟨_, rfl, l, r, span, rfl, first, second⟩
  intro n
  refine Goes.head_bind fun start => ?_
  refine ((left n).bind (G := levels' + 1 ≤ n) fun l first => ?_).congr (by simp)
  have shorter : rest.length < (⟨op.token, op.token.spelling⟩ :: (more ++ rest)).length := by
    simp only [List.length_cons, List.length_append]
    omega
  refine (Goes.iterate (.yield (step n start l first) shorter fun a result => ?_)).congr
    (and_iff_left trivial)
  refine (infixOp_stops (below _)).mono ?_
  rintro _ rfl
  exact result

theorem operand_unary (op : UnaryOp)
    (h : Takes c σ words (Parser.operation · UnaryOp.priority) levels rest P) :
    Takes c σ (⟨op.token, op.token.spelling⟩ :: words) operand (levels + 1) rest
      fun a => ∃ e span, a = .unary op e span ∧ P e := by
  intro n
  refine Goes.peek_bind ?_
  rw [nextKind_cons, UnaryOp.ofToken?_eq_some.2 rfl]
  refine Goes.next_bind (by cases op <;> decide) fun _ _ => ?_
  refine ((h.operation n).bind fun e inner => ?_).congr (and_iff_left trivial)
  exact Goes.since_bind fun span => .pure ⟨e, span, rfl, inner⟩

end Takes

/-! ## Fields, indices and calls -/

theorem suffix_stops {r : Rules} {e : Exp} (stops : (nextKind rest).isSuffix = false) :
    Goes.Rounds c σ rest (suffix r) e True rest (· = e) := by
  refine .done (Goes.peek_bind ?_)
  have done : Goes c σ rest (pure (.done e)) True rest fun n : ForInStep Exp =>
      ∃ y, n = .done y ∧ y = e := .pure ⟨e, rfl, rfl⟩
  revert stops
  cases nextKind rest <;> first | exact fun _ => done | exact nofun

/-- After these words the reading goes on with what belongs to an operand. -/
def Spine (c : Bounds) (σ : ScopeStack) (words : List Word) (levels : Nat) (P : Exp → Prop) :
    Prop :=
  ∀ (n : Nat) (rest : List Word) (F : Prop) (rest' : List Word) (Q : Exp → Prop),
    (∀ a, P a → Goes.Rounds c σ rest (suffix (Rules.level n)) a F rest' Q) →
      Goes c σ (words ++ rest) (prefixExp (Rules.level n)) (levels ≤ n ∧ F) rest' Q

namespace Spine

theorem name (text : String) :
    Spine c σ [⟨.identifier, text⟩] 0 fun a => ∃ span, a = .name text span := by
  intro n rest F rest' Q further
  refine Goes.congr (F := F) ?_ (by simp)
  refine Goes.peek_bind (Goes.next_bind (by simp) fun t word => Goes.iterate (further _ ⟨t.span, ?_⟩))
  exact congrArg (Exp.name · t.span) (congrArg Word.text word)

theorem paren (h : ∀ rest, Takes c σ (words ++ ⟨.rparen, TokenKind.rparen.spelling⟩ :: rest)
    (Parser.operation · 0) levels (⟨.rparen, TokenKind.rparen.spelling⟩ :: rest) P) :
    Spine c σ (⟨.lparen, TokenKind.lparen.spelling⟩ :: words ++
      [⟨.rparen, TokenKind.rparen.spelling⟩]) (levels + 2)
      fun a => ∃ e span, a = .paren e span ∧ P e := by
  intro n rest F rest' Q further
  rw [List.cons_append, List.cons_append, List.append_assoc, List.singleton_append]
  have inner := (h rest).operation.parenthesised n
  refine Goes.peek_bind (Goes.next_bind (by decide) fun t word => inner.bind fun e result => ?_)
  refine Goes.expect_bind rfl (by decide) fun _ _ => Goes.since_bind fun span => Goes.iterate ?_
  exact further _ ⟨e, span, rfl, result⟩

theorem index {more : List Word} {levels' : Nat} (h : Spine c σ words levels P)
    (key : ∀ rest, Takes c σ (more ++ ⟨.rbracket, TokenKind.rbracket.spelling⟩ :: rest) operand
      levels' (⟨.rbracket, TokenKind.rbracket.spelling⟩ :: rest) Q) :
    Spine c σ (words ++ (⟨.lbracket, TokenKind.lbracket.spelling⟩ :: more ++
      [⟨.rbracket, TokenKind.rbracket.spelling⟩])) (max levels (levels' + 1))
      fun a => ∃ o k span, a = .index o k span ∧ P o ∧ Q k := by
  intro n rest F rest' R further
  have step (o : Exp) (result : P o) :
      Goes c σ (⟨.lbracket, TokenKind.lbracket.spelling⟩ ::
        (more ++ ⟨.rbracket, TokenKind.rbracket.spelling⟩ :: rest)) (suffix (Rules.level n) o)
        (levels' + 1 ≤ n) rest
        fun next => ∃ a, next = .yield a ∧ ∃ o k span, a = .index o k span ∧ P o ∧ Q k := by
    refine Goes.peek_bind (Goes.next_bind (by decide) fun _ _ => ?_)
    refine (((key rest).exp rfl n).bind fun k inner => ?_).congr (and_iff_left trivial)
    refine Goes.expect_bind rfl (by decide) fun _ _ => Goes.since_bind fun span => ?_
    exact .pure ⟨_, rfl, o, k, span, rfl, result, inner⟩
  have whole := h n _ _ rest' R fun o result => .yield (step o result) (by simp; omega) further
  simpa [and_assoc] using whole

/-- A call of what has been read, with the name of a method before the arguments if there is
one. -/
theorem call {more : List Word} {levels' : Nat} {A : List Exp → Prop} {method : Option Param}
    (h : Spine c σ words levels P)
    (arguments : ∀ rest, Takes c σ (⟨.lparen, TokenKind.lparen.spelling⟩ :: (more ++ rest)) args
      levels' rest A) :
    Spine c σ (words ++ (fragmentWords (methodFragments method) ++
      ⟨.lparen, TokenKind.lparen.spelling⟩ :: more)) (max levels levels')
      fun a => ∃ o m as span, a = .call ⟨o, m, as⟩ span ∧ P o ∧
        m.map Param.core = method.map Param.core ∧ A as := by
  intro n rest F rest' R further
  have called (o : Exp) (m : Option Param) :
      Goes c σ (⟨.lparen, TokenKind.lparen.spelling⟩ :: (more ++ rest)) (callOf (Rules.level n) o m)
        (levels' ≤ n) rest fun a => ∃ as span, a = .call ⟨o, m, as⟩ span ∧ A as := by
    refine ((arguments rest n).bind fun as inner => ?_).congr (and_iff_left trivial)
    exact Goes.since_bind fun span => .pure ⟨as, span, rfl, inner⟩
  have step (o : Exp) (result : P o) :
      Goes c σ (fragmentWords (methodFragments method) ++
        ⟨.lparen, TokenKind.lparen.spelling⟩ :: (more ++ rest)) (suffix (Rules.level n) o)
        (levels' ≤ n) rest
        fun next => ∃ a, next = .yield a ∧ ∃ o m as span, a = .call ⟨o, m, as⟩ span ∧ P o ∧
          m.map Param.core = method.map Param.core ∧ A as := by
    cases method with
    | none =>
      refine Goes.peek_bind ?_
      refine (called o none).map ?_
      rintro _ ⟨as, span, rfl, inner⟩
      exact ⟨_, rfl, o, none, as, span, rfl, result, rfl, inner⟩
    | some p =>
      refine Goes.peek_bind ?_
      have method : Goes c σ (⟨.colon, TokenKind.colon.spelling⟩ :: ⟨.identifier, p.name⟩ ::
          ⟨.lparen, TokenKind.lparen.spelling⟩ :: (more ++ rest)) atMethodCall True
          (⟨.colon, TokenKind.colon.spelling⟩ :: ⟨.identifier, p.name⟩ ::
          ⟨.lparen, TokenKind.lparen.spelling⟩ :: (more ++ rest)) (· = true) :=
        Goes.isMooc_bind (.pure rfl)
      refine method.andThen ?_
      rintro _ rfl
      refine Goes.next_bind (by decide) fun _ _ => Goes.expectName_bind fun t name => ?_
      refine (called o (some ⟨t.text, t.span⟩)).map ?_
      rintro _ ⟨as, span, rfl, inner⟩
      exact ⟨_, rfl, o, _, as, span, rfl, result, by simp [name], inner⟩
  have whole := h n _ _ rest' R fun o result => .yield (step o result) (by simp; omega) further
  simpa [and_assoc] using whole

/-- A name or a parenthesised expression with what follows it. -/
theorem prefixExp (h : Spine c σ words levels P) (stops : (nextKind rest).isSuffix = false) :
    Takes c σ (words ++ rest) Parser.prefixExp levels rest P := by
  intro n
  refine (h n rest True rest P fun a result => ?_).congr (and_iff_left trivial)
  refine (suffix_stops stops).mono ?_
  rintro _ rfl
  exact result

/-- An operand that begins with a name or a parenthesis. -/
theorem operand (h : Spine c σ words levels P)
    (first : nextKind (words ++ rest) = .identifier ∨ nextKind (words ++ rest) = .lparen)
    (stops : (nextKind rest).isSuffix = false) :
    Takes c σ (words ++ rest) Parser.operand levels rest P := by
  intro n
  have prefixed := h.prefixExp stops n
  refine Goes.peek_bind ?_
  rcases first with name | paren
  · rw [name]
    refine Goes.peek_bind ?_
    rw [name]
    exact prefixed
  · rw [paren]
    refine Goes.peek_bind ?_
    rw [paren]
    exact prefixed

end Spine

end Parser

/-! ## What is read -/

/-- What has been read is a target or a call if the written expression is one, and it is the same
if that is asked; its operators have the parentheses that they are written with. -/
structure Exp.Echo (exact : Bool) (e a : Exp) : Prop where
  target : e.IsTarget → a.IsTarget
  call : ∀ own span, e = .call own span → ∃ own span, a = .call own span
  core : exact = true → a.core = e.core
  bracketed : exact = true → e.FunctionFree → a.unplaced = e.unplaced.bracketed

/-- The words of an expression are read, before a word that stops it. -/
def Exp.Reread (c : Bounds) (σ : ScopeStack) (depth : Nat) (e : Exp) : Prop :=
  ∃ levels, ∀ rest, e.StopsAt (nextKind rest) →
    Parser.Takes c σ (fragmentWords (e.fragments depth) ++ rest) Parser.operand levels rest (e.Echo c.exact)

theorem nextKind_flatMap {α : Type} {kind : TokenKind} {text : String} (f : α → List Word)
    (xs : List α) (rest : List Word) :
    nextKind (xs.flatMap (fun x => ⟨kind, text⟩ :: f x) ++ rest) =
      if xs = [] then nextKind rest else kind := by
  cases xs <;> simp

namespace Parser

variable {c : Bounds} {σ : ScopeStack} {depth : Nat}

theorem exp_takes {e : Exp} (h : e.Reread c σ depth) : ∃ levels, ∀ rest, e.EndsAt (nextKind rest) →
    Takes c σ (fragmentWords (e.fragments depth) ++ rest) Rules.exp levels rest (e.Echo c.exact) := by
  obtain ⟨levels, reads⟩ := h
  exact ⟨levels + 1, fun rest ends => (reads rest ends.stopsAt).exp ends.operator⟩

/-! ## Lists of expressions -/

theorem expList_takes {es : List Exp} (some : es ≠ []) (each : ∀ e ∈ es, e.Reread c σ depth) :
    ∃ levels, ∀ rest, (∀ e ∈ es.getLast?, e.EndsAt (nextKind rest)) → nextKind rest ≠ .comma →
      Takes c σ (fragmentWords (separated (es.map (·.fragments depth))) ++ rest) expList levels
        rest (List.Forall₂ (Exp.Echo c.exact) es) := by
  obtain ⟨levels, most, reads, fits⟩ := exists_levels fun e among => exp_takes (each e among)
  obtain ⟨first, others, rfl⟩ := List.exists_cons_of_ne_nil some
  refine ⟨most, fun rest last stop n => ?_⟩
  have own (taken : List Exp) (e : Exp) (later : List Exp)
      (whole : taken ++ e :: later = first :: others) :=
    reads e (whole ▸ by simp) (later.flatMap (fun e => ⟨.comma, TokenKind.comma.spelling⟩ ::
      fragmentWords (e.fragments depth)) ++ rest) <| by
      rw [nextKind_flatMap]
      split
      next none => exact last e (by simp [← whole, none])
      next => exact Exp.endsAt_of_mem_closers (by decide)
  rw [fragmentWords_separated, List.append_assoc]
  refine ((own [] first others rfl n).bind (G := ∀ e ∈ others, levels e ≤ n)
    fun a echo => ?_).congr (by simpa using fits n)
  refine (Goes.iterate (.pushes (R := Exp.Echo c.exact) (fun e => ⟨.comma, TokenKind.comma.spelling⟩ ::
    fragmentWords (e.fragments depth)) (by simp) (fun taken e later whole z => ?_) fun z => ?_)).map
    (P := fun z => ∃ as, z.toList = #[a].toList ++ as ∧ List.Forall₂ (Exp.Echo c.exact) others as) ?_
  · refine Goes.accepts_bind rfl (by decide) ?_
    rw [if_pos rfl]
    have read := own (first :: taken) e later (by simp [← whole]) n
    exact (read.bind fun a echo => .pure ⟨a, rfl, echo⟩).congr (and_iff_left trivial)
  · exact Goes.accepts_none_bind stop (.pure rfl)
  · rintro z ⟨as, same, all⟩
    rw [same]
    exact .cons echo all

/-! ## Arguments -/

theorem args_takes {es : List Exp} (each : ∀ e ∈ es, e.Reread c σ depth)
    (first : ∀ e ∈ es, ∀ rest,
      nextKind (fragmentWords (e.fragments depth) ++ rest) ∈ TokenKind.openers) :
    ∃ levels, ∀ rest, Takes c σ (⟨.lparen, TokenKind.lparen.spelling⟩ ::
      (fragmentWords (separated (es.map (·.fragments depth))) ++
        ⟨.rparen, TokenKind.rparen.spelling⟩ :: rest)) args levels rest
      (List.Forall₂ (Exp.Echo c.exact) es) := by
  cases es with
  | nil =>
    refine ⟨0, fun rest n => Goes.congr (F := True) ?_ (by simp)⟩
    refine Goes.peek_bind (Goes.isMooc_bind ?_)
    refine Goes.expect_bind rfl (by decide) fun _ _ => Goes.peek_bind ?_
    exact Goes.expect_bind rfl (by decide) fun _ _ => .pure .nil
  | cons e es =>
    obtain ⟨levels, reads⟩ := expList_takes (List.cons_ne_nil e es) each
    refine ⟨levels, fun rest n => ?_⟩
    refine Goes.peek_bind (Goes.isMooc_bind ?_)
    refine Goes.expect_bind rfl (by decide) fun _ _ => Goes.peek_bind ?_
    have some : nextKind (fragmentWords (separated ((e :: es).map (·.fragments depth))) ++
        ⟨.rparen, TokenKind.rparen.spelling⟩ :: rest) ≠ .rparen := by
      rw [fragmentWords_separated, List.append_assoc]
      exact ne_of_mem_of_not_mem (first e List.mem_cons_self _) (by decide)
    rw [if_neg some]
    have closed (e : Exp) : e.EndsAt .rparen := Exp.endsAt_of_mem_closers (by decide)
    refine ((reads (⟨.rparen, TokenKind.rparen.spelling⟩ :: rest) (fun e _ => closed e)
      (by simp) n).bind fun as all => ?_).congr (and_iff_left trivial)
    exact Goes.expect_bind rfl (by decide) fun _ _ => .pure all

/-! ## Tables -/

/-- A field is read with its key, if it has one. -/
structure FieldEcho (exact : Bool) (field read : Option Exp × Exp) : Prop where
  key : Option.Rel (Exp.Echo exact) field.1 read.1
  value : field.2.Echo exact read.2

theorem field_takes {key : Option Exp} {value : Exp} (keyed : ∀ k ∈ key, k.Reread c σ depth)
    (h : value.Reread c σ depth) (first : ∀ rest,
      nextKind (fragmentWords (value.fragments depth) ++ rest) ∈ TokenKind.openers) :
    ∃ levels, ∀ rest, nextKind rest = .comma ∨ nextKind rest = .rbrace →
      Takes c σ (fragmentWords (fieldFragments (key.map (·.fragments depth))
        (value.fragments depth)) ++ rest) field levels rest (FieldEcho c.exact (key, value)) := by
  obtain ⟨levels, reads⟩ := exp_takes h
  have ends (rest : List Word) (next : nextKind rest = .comma ∨ nextKind rest = .rbrace) :
      value.EndsAt (nextKind rest) := by
    rcases next with same | same <;> (rw [same]; exact Exp.endsAt_of_mem_closers (by decide))
  cases key with
  | none =>
    refine ⟨levels, fun rest next n => ?_⟩
    have other : nextKind (fragmentWords (value.fragments depth) ++ rest) ≠ .lbracket :=
      ne_of_mem_of_not_mem (first rest) (by decide)
    have stop : nextKind rest ≠ .assign := by rcases next with same | same <;> simp [same]
    refine Goes.accepts_none_bind other ?_
    rw [if_neg Bool.false_ne_true]
    refine Goes.isMooc_bind ?_
    refine ((reads rest (ends rest next) n).bind fun a echo => ?_).congr (and_iff_left trivial)
    have plain : Goes c σ rest (pure (none, a)) True rest (FieldEcho c.exact (none, value)) :=
      .pure ⟨.none, echo⟩
    cases a with
    | name text span =>
      refine Goes.accepts_none_bind stop ?_
      exact plain
    | _ => exact plain
  | some key =>
    obtain ⟨levels', reads'⟩ := exp_takes (keyed key rfl)
    refine ⟨max levels' levels, fun rest next n => ?_⟩
    simp only [Option.map_some, fieldFragments, fragmentWords_sym, fragmentWords_append,
      fragmentWords_space, List.cons_append, List.append_assoc]
    refine Goes.accepts_bind rfl (by decide) ?_
    rw [if_pos rfl]
    have closed : key.EndsAt .rbracket := Exp.endsAt_of_mem_closers (by decide)
    refine ((reads' (⟨.rbracket, TokenKind.rbracket.spelling⟩ :: _) closed n).bind
      (G := levels ≤ n) fun k echo => ?_).congr (by simp)
    refine Goes.expect_bind rfl (by decide) fun _ _ => Goes.expect_bind rfl (by decide) fun _ _ => ?_
    refine ((reads rest (ends rest next) n).bind fun a echo' => ?_).congr (and_iff_left trivial)
    exact .pure ⟨.some echo, echo'⟩

/-- The fields of a table, each with the fragments of its key. -/
def tableFields (depth : Nat) (field : Option Exp × Exp) : List Fragment :=
  fieldFragments (field.1.map (·.fragments depth)) (field.2.fragments depth)

theorem capped_of_length_le {α : Type} {cap : Nat} {items : List α} (h : items.length ≤ cap) :
    capped (some cap) items = items := List.take_of_length_le h

section

variable {r : Rules} {words rest : List Word} {F : Prop} {P : Option Exp × Exp → Prop}
  (z : Array (Option Exp × Exp))

theorem moreFields_comma (some : nextKind words ≠ .rbrace)
    (read : Goes c σ words (field r) F (⟨.comma, TokenKind.comma.spelling⟩ :: rest) P) :
    Goes c σ words (moreFields r z) F rest fun n => ∃ f, n = .yield (z.push f) ∧ P f := by
  refine Goes.peek_bind ?_
  rw [if_neg some]
  refine (read.bind fun f result => Goes.peek_bind ?_).congr (and_iff_left trivial)
  exact Goes.next_bind (by decide) fun _ _ => .pure ⟨f, rfl, result⟩

theorem moreFields_rbrace (some : nextKind words ≠ .rbrace)
    (read : Goes c σ words (field r) F (⟨.rbrace, TokenKind.rbrace.spelling⟩ :: rest) P) :
    Goes c σ words (moreFields r z) F (⟨.rbrace, TokenKind.rbrace.spelling⟩ :: rest)
      fun n => ∃ f, n = .done (z.push f) ∧ P f := by
  refine Goes.peek_bind ?_
  rw [if_neg some]
  refine (read.bind fun f result => Goes.peek_bind ?_).congr (and_iff_left trivial)
  exact .pure ⟨f, rfl, result⟩

/-- What follows the fields. -/
theorem closeTable_run {fields : List (Option Exp × Exp)} (few : fields.length ≤ c.fields)
    (all : List.Forall₂ (FieldEcho c.exact) fields z.toList) (opening : Span) :
    Goes c σ (⟨.rbrace, TokenKind.rbrace.spelling⟩ :: rest) (do
      let _ ← expect .rbrace
      let span ← since opening
      let cap := (← get).settings.fieldCap
      let keys := capped cap (z.toList.map (·.1))
      let values := capped cap (z.toList.map (·.2))
      return .table keys values span : Parser Exp) True rest
      fun a => ∃ read span, a = .table (read.map (·.1)) (read.map (·.2)) span ∧
        List.Forall₂ (FieldEcho c.exact) fields read := by
  refine Goes.expect_bind rfl (by decide) fun _ _ => Goes.since_bind fun span =>
    Goes.get_bind fun s faces => .pure ⟨z.toList, span, ?_, all⟩
  have cap : s.settings.fieldCap = some s.settings.tableFieldLimit := by
    unfold Settings.fieldCap
    rw [faces.lua]
  have short : z.toList.length ≤ s.settings.tableFieldLimit :=
    (all.length_eq ▸ few).trans faces.fields
  rw [cap, capped_of_length_le (by simpa using short), capped_of_length_le (by simpa using short)]

end

theorem table_takes {fields : List (Option Exp × Exp)} (few : fields.length ≤ c.fields)
    (keyed : ∀ f ∈ fields, ∀ k ∈ f.1, k.Reread c σ depth)
    (each : ∀ f ∈ fields, f.2.Reread c σ depth)
    (first : ∀ f ∈ fields, ∀ rest,
      nextKind (fragmentWords (f.2.fragments depth) ++ rest) ∈ TokenKind.openers) :
    ∃ levels, ∀ rest, Takes c σ (⟨.lbrace, TokenKind.lbrace.spelling⟩ ::
      (fragmentWords (separated (fields.map (tableFields depth))) ++
        ⟨.rbrace, TokenKind.rbrace.spelling⟩ :: rest)) table levels rest
      fun a => ∃ read span, a = .table (read.map (·.1)) (read.map (·.2)) span ∧
        List.Forall₂ (FieldEcho c.exact) fields read := by
  obtain ⟨levels, most, reads, fits⟩ := exists_levels fun f among =>
    field_takes (keyed f among) (each f among) (first f among)
  refine ⟨most, fun rest n => Goes.expect_bind rfl (by decide) fun opening _ => ?_⟩
  have other (f : Option Exp × Exp) (among : f ∈ fields) (words : List Word) :
      nextKind (fragmentWords (tableFields depth f) ++ words) ≠ .rbrace := by
    obtain ⟨key, value⟩ := f
    cases key with
    | none => exact ne_of_mem_of_not_mem (first _ among words) (by decide)
    | some key => nofun
  have rounds : Goes.Rounds c σ (fragmentWords (separated (fields.map (tableFields depth))) ++
      ⟨.rbrace, TokenKind.rbrace.spelling⟩ :: rest) (moreFields (Rules.level n)) #[] (most ≤ n)
      (⟨.rbrace, TokenKind.rbrace.spelling⟩ :: rest)
      fun z => List.Forall₂ (FieldEcho c.exact) fields z.toList := by
    rcases fields.eq_nil_or_concat with rfl | ⟨init, last, rfl⟩
    · refine .done ((Goes.peek_bind ?_).congr (F := True) (by simpa using fits n))
      exact .pure ⟨_, rfl, .nil⟩
    · rw [List.concat_eq_append] at *
      rw [fragmentWords_separated_concat, List.append_assoc]
      refine (Goes.Rounds.each (fun f => fragmentWords (tableFields depth f) ++
          [⟨.comma, TokenKind.comma.spelling⟩])
        (fun taken (z : Array (Option Exp × Exp)) => List.Forall₂ (FieldEcho c.exact) taken z.toList)
        (by simp) (fun taken f later whole z all => ?_) (fun z all => .done ?_) .nil).congr
        (F := (∀ f ∈ init, levels f ≤ n) ∧ levels last ≤ n)
        (by simpa [or_imp, forall_and] using fits n)
      · have among : f ∈ init ++ [last] := by simp [← whole]
        rw [List.append_assoc, List.singleton_append]
        refine (moreFields_comma z (other f among _) (reads f among _ (.inl rfl) n)).mono ?_
        rintro _ ⟨a, rfl, own⟩
        exact ⟨_, rfl, by simpa using List.rel_append all (.cons own .nil)⟩
      · have among : last ∈ init ++ [last] := by simp
        refine (moreFields_rbrace z (other last among _) (reads last among _ (.inr rfl) n)).mono ?_
        rintro _ ⟨a, rfl, own⟩
        exact ⟨_, rfl, by simpa using List.rel_append all (.cons own .nil)⟩
  refine ((Goes.iterate rounds).bind fun z all => ?_).congr (and_iff_left trivial)
  exact closeTable_run z few all opening.span

/-! ## Functions -/

/-- Whether the parameters are those that were written. -/
structure ParamsEcho (names : List Param) (isVararg : Bool) (read : List Param × Bool) :
    Prop where
  names : read.1.map Param.core = names.map Param.core
  isVararg : read.2 = isVararg

theorem moreParams_rounds {p : Param} {ps : List Param} {isVararg : Bool} {rest : List Word}
    {first : Param} (same : first.core = p.core) :
    Goes.Rounds c σ ((ps.flatMap fun p => [⟨.comma, TokenKind.comma.spelling⟩,
        ⟨.identifier, p.name⟩]) ++ ((if isVararg then [⟨.comma, TokenKind.comma.spelling⟩,
        ⟨.vararg, TokenKind.vararg.spelling⟩] else []) ++
        ⟨.rparen, TokenKind.rparen.spelling⟩ :: rest)) moreParams (#[first], false) True
      (⟨.rparen, TokenKind.rparen.spelling⟩ :: rest)
      fun z => ParamsEcho (p :: ps) isVararg (z.1.toList, z.2) := by
  refine Goes.Rounds.congr (F := (∀ q ∈ ps, True) ∧ True) (.each
    (fun p => [⟨.comma, TokenKind.comma.spelling⟩, ⟨.identifier, p.name⟩])
    (fun taken (z : Array Param × Bool) => ParamsEcho (p :: taken) false (z.1.toList, z.2))
    (by simp) (fun taken q later whole z holds => ?_) (fun z holds => .done ?_) ?_) (by simp)
  · rw [List.cons_append, List.singleton_append]
    refine Goes.accepts_bind rfl (by decide) ?_
    rw [if_pos rfl]
    refine Goes.peek_bind ?_
    rw [nextKind_cons, if_pos rfl]
    refine Goes.next_bind (by simp) fun t word => .pure ⟨_, rfl, ?_, rfl⟩
    have name : t.text = q.name := congrArg Word.text word
    simp [holds.names, name]
  · cases isVararg with
    | false =>
      refine Goes.accepts_none_bind (by simp) ?_
      exact .pure ⟨z, rfl, holds⟩
    | true =>
      rw [if_pos rfl, List.cons_append, List.singleton_append]
      refine Goes.accepts_bind rfl (by decide) ?_
      rw [if_pos rfl]
      refine Goes.peek_bind ?_
      rw [nextKind_cons, if_neg (by decide)]
      exact Goes.expect_bind rfl (by decide) fun _ _ => .pure ⟨_, rfl, holds.names, rfl⟩
  · exact ⟨congrArg ([·]) same, rfl⟩

theorem params_run {names : List Param} {isVararg : Bool} {rest : List Word} :
    Goes c σ (fragmentWords (separated
        (namesFragments names ++ if isVararg then [[sym .vararg]] else [])) ++
        ⟨.rparen, TokenKind.rparen.spelling⟩ :: rest) params True
      (⟨.rparen, TokenKind.rparen.spelling⟩ :: rest) (ParamsEcho names isVararg) := by
  cases names with
  | nil =>
    cases isVararg with
    | false => exact Goes.peek_bind (Goes.isMooc_bind (.pure ⟨rfl, rfl⟩))
    | true =>
      refine Goes.peek_bind (Goes.isMooc_bind ?_)
      exact Goes.next_bind (by decide) fun _ _ => .pure ⟨rfl, rfl⟩
  | cons p ps =>
    have words : fragmentWords (separated (namesFragments (p :: ps) ++
        if isVararg then [[sym .vararg]] else [])) = ⟨.identifier, p.name⟩ ::
          ((ps.flatMap fun p => [⟨.comma, TokenKind.comma.spelling⟩, ⟨.identifier, p.name⟩]) ++
            if isVararg then [⟨.comma, TokenKind.comma.spelling⟩,
              ⟨.vararg, TokenKind.vararg.spelling⟩] else []) := by
      have listed := fragmentWords_separated id [ident p.name]
        (namesFragments ps ++ if isVararg then [[sym .vararg]] else [])
      simp only [List.map_id] at listed
      cases isVararg <;> simpa [namesFragments, List.flatMap_map] using listed
    rw [words, List.cons_append, List.append_assoc]
    refine Goes.peek_bind (Goes.isMooc_bind ?_)
    refine Goes.expectName_bind fun t name => ?_
    have same : Param.core ⟨t.text, t.span⟩ = p.core := by simp [name]
    exact (Goes.iterate (moreParams_rounds same)).map fun z holds => holds

end Parser

/-- Words that close a block. -/
def TokenKind.blockClosers : List TokenKind := [.kwEnd, .kwElseif, .kwUntil, .eof]

/-- What has been read is the same if that is asked. -/
def Block.Echo (exact : Bool) (b a : Block) : Prop := exact = true → a.core = b.core

/-- The words of a block are read, before a word that closes it. -/
def Block.Reread (c : Bounds) (σ : ScopeStack) (depth : Nat) (b : Block) : Prop :=
  ∃ levels, ∀ rest, nextKind rest ∈ TokenKind.blockClosers →
    Parser.Takes c σ (fragmentWords (b.fragments depth) ++ rest) Parser.block levels rest (b.Echo c.exact)

/-- What has been read is the same if that is asked. -/
def FunctionBody.Echo (exact : Bool) (body read : FunctionBody) : Prop :=
  exact = true → read.core = body.core

def FunctionBody.Reread (c : Bounds) (σ : ScopeStack) (depth : Nat) (body : FunctionBody) : Prop :=
  ∃ levels, ∀ rest, Parser.Takes c σ (fragmentWords (body.fragments depth) ++ rest)
    (·.functionBody .ended) levels rest (body.Echo c.exact)

namespace Parser

variable {c : Bounds} {σ : ScopeStack} {depth : Nat}

theorem functionBody_takes {body : FunctionBody}
    (h : body.block.Reread c (σ.push .function "function") (depth + 1)) :
    body.Reread c σ depth := by
  obtain ⟨levels, reads⟩ := h
  obtain ⟨names, isVararg, isMethod, block, owner, name⟩ := body
  refine ⟨levels + 2, fun rest => Takes.functionBody fun n => ?_⟩
  simp only [FunctionBody.fragments, enclosedFragments, fragmentWords_sym, fragmentWords_append,
    fragmentWords_newline, fragmentWords_indent, fragmentWords_nil, List.cons_append,
    List.append_assoc, List.nil_append]
  have inner := (reads (⟨.kwEnd, TokenKind.kwEnd.spelling⟩ :: rest) (by simp [TokenKind.blockClosers])).block n
  refine Goes.expect_bind rfl (by decide) fun _ _ => params_run.andThen fun read same => ?_
  have opened : Goes c σ (⟨.rparen, TokenKind.rparen.spelling⟩ ::
      (fragmentWords (block.fragments (depth + 1)) ++ ⟨.kwEnd, TokenKind.kwEnd.spelling⟩ :: rest))
      (openFunctionBlock .ended) True
      (fragmentWords (block.fragments (depth + 1)) ++ ⟨.kwEnd, TokenKind.kwEnd.spelling⟩ :: rest)
      fun _ => True := Goes.expect_bind rfl (by decide) fun _ _ => .pure trivial
  refine opened.andThen fun _ _ => ((inner.within .function "function").bind fun a echo => ?_).congr
    (and_iff_left trivial)
  refine Goes.expect_bind rfl (by decide) fun _ _ => .pure fun exact => ?_
  have block : a.core = block.core := echo exact
  rw [FunctionBody.core, FunctionBody.core, same.names, same.isVararg, block]

end Parser

end LuaChunk
