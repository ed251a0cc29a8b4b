import LuaChunk.Proofs.Number.Integers
import LuaChunk.Proofs.Reread.Expression

/-!
# Each form of expression is read again

Expressions that can be called are read with what belongs to them, and all expressions as operands.
-/

set_option autoImplicit false

open LuaChunk.Parser

namespace LuaChunk

open Fragment

/-- After the words of the expression the reading goes on with what belongs to it. -/
def Exp.Rooted (c : Bounds) (σ : ScopeStack) (depth : Nat) (e : Exp) : Prop :=
  ∃ levels, Parser.Spine c σ (fragmentWords (e.fragments depth)) levels (e.Echo c.exact)

theorem Exp.Echo.list {exact : Bool} {es as : List Exp} (h : List.Forall₂ (Exp.Echo exact) es as)
    (asked : exact = true) : as.map Exp.core = es.map Exp.core := by
  induction h with
  | nil => rfl
  | cons own _ inductionHypothesis => simp [own.core asked, inductionHypothesis]

theorem Exp.Echo.bracketed_list {exact : Bool} {es as : List Exp}
    (h : List.Forall₂ (Exp.Echo exact) es as) (asked : exact = true)
    (plain : ∀ e ∈ es, e.FunctionFree) :
    as.map Exp.unplaced = es.map (·.unplaced.bracketed) := by
  induction h with
  | nil => rfl
  | cons own _ inductionHypothesis =>
    obtain ⟨first, others⟩ := List.forall_mem_cons.1 plain
    simp only [List.map_cons, own.bracketed asked first, inductionHypothesis others]

theorem Parser.FieldEcho.lists {exact : Bool} {fields read : List (Option Exp × Exp)}
    (h : List.Forall₂ (Parser.FieldEcho exact) fields read) (asked : exact = true) :
    keysCore (read.map (·.1)) = keysCore (fields.map (·.1)) ∧
      expsCore (read.map (·.2)) = expsCore (fields.map (·.2)) := by
  induction h with
  | nil => exact ⟨rfl, rfl⟩
  | @cons field read _ _ own _ inductionHypothesis =>
    obtain ⟨key, value⟩ := field
    obtain ⟨key', value'⟩ := read
    have value := own.value.core asked
    cases own.key with
    | none => simp_all
    | some same => simp_all [same.core asked]

theorem Parser.FieldEcho.bracketed_lists {exact : Bool} {fields read : List (Option Exp × Exp)}
    (h : List.Forall₂ (Parser.FieldEcho exact) fields read) (asked : exact = true)
    (keys : ∀ key, some key ∈ fields.map (·.1) → key.FunctionFree)
    (values : ∀ value ∈ fields.map (·.2), value.FunctionFree) :
    (read.map (·.1)).map (·.map Exp.unplaced) =
        (fields.map (·.1)).map (·.map (·.unplaced.bracketed)) ∧
      (read.map (·.2)).map Exp.unplaced = (fields.map (·.2)).map (·.unplaced.bracketed) := by
  induction h with
  | nil => exact ⟨rfl, rfl⟩
  | @cons field read _ _ own _ inductionHypothesis =>
    obtain ⟨key, value⟩ := field
    obtain ⟨key', value'⟩ := read
    obtain ⟨first, others⟩ := List.forall_mem_cons.1 values
    obtain ⟨keysSame, valuesSame⟩ :=
      inductionHypothesis (fun key among => keys key (.tail _ among)) others
    have value := own.value.bracketed asked first
    cases own.key with
    | none => simp_all
    | some same => simp_all [same.bracketed asked (keys _ List.mem_cons_self)]

namespace Parser

variable {c : Bounds} {σ : ScopeStack} {depth : Nat}

theorem Takes.always {α : Type} {words rest : List Word} {p : Rules → Parser α} {P : α → Prop}
    (h : ∀ n, Goes c σ words (p (Rules.level n)) True rest P) : Takes c σ words p 0 rest P :=
  fun n => (h n).congr (by simp)

theorem Takes.mono {α : Type} {words rest : List Word} {p : Rules → Parser α} {P Q : α → Prop}
    {levels : Nat} (h : Takes c σ words p levels rest P) (sub : ∀ a, P a → Q a) :
    Takes c σ words p levels rest Q :=
  fun n => (h n).mono sub

theorem Spine.mono {words : List Word} {levels : Nat} {P Q : Exp → Prop}
    (h : Spine c σ words levels P) (sub : ∀ a, P a → Q a) : Spine c σ words levels Q :=
  fun n rest F rest' R further => h n rest F rest' R fun a result => further a (sub a result)

theorem atAnonymousFunction_bind {β : Type} {words rest : List Word} {f : Bool → Parser β}
    {F : Prop} {Q : β → Prop} (k : Goes c σ words (f false) F rest Q) :
    Goes c σ words (atAnonymousFunction >>= f) F rest Q := by
  have plain : Goes c σ words atAnonymousFunction True words (· = false) :=
    Goes.isMooc_bind (.pure rfl)
  refine plain.andThen ?_
  rintro _ rfl
  exact k

/-! ## Numerals -/

/-- The expression that a numeral stands for. -/
def ofNumeral (span : Span) : Numeral → Exp
  | .integer value => .integer value span
  | .float value => .float value span

theorem numeral_takes {text : String} {value : Numeral} (h : Numeral.read? text = some value)
    (rest : List Word) : Takes c σ (⟨.number, text⟩ :: rest) operand 0 rest
      fun a => ∃ span, a = ofNumeral span value := by
  refine .always fun n => Goes.peek_bind (Goes.peek_bind (Goes.next_bind (by simp) fun t word => ?_))
  have same : t.text = text := congrArg Word.text word
  rw [same, h]
  cases value <;> exact .pure ⟨t.span, rfl⟩

end Parser

namespace Exp

variable {c : Bounds} {σ : ScopeStack} {depth : Nat}

/-! ## Literals -/

theorem reread_nil (span : Span) : (nil span).Reread c σ depth := by
  refine ⟨0, fun rest _ => .always fun n => Goes.peek_bind (Goes.peek_bind ?_)⟩
  exact Goes.next_bind (by decide) fun t _ => .pure ⟨nofun, nofun, fun _ => rfl, fun _ _ => rfl⟩

theorem reread_bool (value : Bool) (span : Span) : (bool value span).Reread c σ depth := by
  refine ⟨0, fun rest _ => .always fun n => ?_⟩
  cases value <;>
    exact Goes.peek_bind (Goes.peek_bind (Goes.next_bind (by decide) fun t _ =>
      .pure ⟨nofun, nofun, fun _ => rfl, fun _ _ => rfl⟩))

theorem reread_vararg (span : Span) : (vararg span).Reread c σ depth := by
  refine ⟨0, fun rest _ => .always fun n => Goes.peek_bind (Goes.peek_bind ?_)⟩
  exact Goes.next_bind (by decide) fun t _ => .pure ⟨nofun, nofun, fun _ => rfl, fun _ _ => rfl⟩

theorem reread_string (text : String) (span : Span) : (string text span).Reread c σ depth := by
  refine ⟨0, fun rest _ => .always fun n => Goes.peek_bind (Goes.peek_bind ?_)⟩
  refine Goes.next_bind (by simp) fun t word => .pure ?_
  have same : t.text = text := congrArg Word.text word
  exact ⟨nofun, nofun, fun _ => by simp [same], fun _ _ => by simp [same]⟩

theorem fragmentWords_negative {value : Int64} (span : Span) (h : value.toInt < 0) (depth : Nat) :
    fragmentWords ((integer value span).fragments depth) =
      [⟨UnaryOp.neg.token, UnaryOp.neg.token.spelling⟩,
        ⟨.number, toString value.toInt.natAbs⟩] := by
  simp [integerFragments, h, UnaryOp.token]

theorem reread_integer {value : Int64} (span : Span) (exact : c.exact = true → 0 ≤ value) :
    (integer value span).Reread c σ depth := by
  by_cases negative : value.toInt < 0
  · have reads := Numeral.read?_toString value.toInt.natAbs
    refine ⟨1, fun rest stops => ?_⟩
    have tight (op : BinaryOp) (found : BinaryOp.ofToken? (nextKind rest) = some op) :
        op.priority ≤ UnaryOp.priority := by
      have kind := BinaryOp.ofToken?_eq_some.1 found
      have other := stops.power (by simpa [isNegative, Int64.lt_iff_toInt_lt] using negative)
      rw [kind] at other
      cases op <;> first | decide | exact absurd rfl other
    have whole := (numeral_takes (c := c) (σ := σ) reads rest).operation_of_operand tight
    rw [fragmentWords_negative span negative depth]
    refine (whole.operand_unary .neg).mono ?_
    rintro _ ⟨e, own, rfl, -⟩
    have never (asked : c.exact = true) : False :=
      absurd (exact asked) (by simpa [Int64.le_iff_toInt_le] using negative)
    exact ⟨by rintro ⟨⟩, by simp, fun asked => (never asked).elim, fun asked => (never asked).elim⟩
  · have small : value.toInt.natAbs < 2 ^ 63 := by
      have := value.toInt_lt
      omega
    have words (rest : List Word) : fragmentWords ((integer value span).fragments depth) ++ rest =
        ⟨.number, toString value.toInt.natAbs⟩ :: rest := by
      simp [integerFragments, negative]
    refine ⟨0, fun rest _ => ?_⟩
    rw [words]
    have read := Numeral.read?_toString value.toInt.natAbs
    rw [if_pos small] at read
    refine (numeral_takes read rest).mono ?_
    rintro _ ⟨own, rfl⟩
    have same : Int64.ofNat value.toInt.natAbs = value := by
      rw [← Int64.toInt_inj, Int64.toInt_ofNat_of_lt small]
      omega
    exact ⟨by rintro ⟨⟩, by simp, fun _ => by simp [ofNumeral, same],
      fun _ _ => by simp [ofNumeral, same]⟩

/-- A float that is written in digits. -/
theorem reread_float {value : Binary64} (span : Span) (unsigned : value.isNegative = false)
    (finite : value.isFinite = true) : (float value span).Reread c σ depth := by
  obtain ⟨m, e, meaning⟩ : ∃ m e, value.meaning = .finite false m e := by
    rcases Binary64.meaning_cases unsigned with nan | infinite | some
    · simp [Binary64.isFinite, nan] at finite
    · simp [Binary64.isFinite, infinite] at finite
    · exact some
  refine ⟨0, fun rest _ => ?_⟩
  have words : fragmentWords ((float value span).fragments depth) ++ rest =
      ⟨.number, value.text⟩ :: rest := by
    simp [finite]
  rw [words]
  refine (numeral_takes (Binary64.read?_text meaning) rest).mono ?_
  rintro _ ⟨own, rfl⟩
  exact ⟨by rintro ⟨⟩, by simp, fun _ => rfl, fun _ _ => rfl⟩

/-! ## Expressions that can be called -/

variable {around : List Body}

theorem Rooted.reread {e : Exp} (h : e.Rooted c σ depth) (isOpen : e.endsOpen = true)
    (printable : e.Printable c.toDemand around) : e.Reread c σ depth := by
  obtain ⟨levels, reads⟩ := h
  refine ⟨levels, fun rest stops => reads.operand ?_ (stops.suffix isOpen)⟩
  rw [printable.nextKind, opening_of_endsOpen printable isOpen]
  split
  · exact .inr rfl
  · exact .inl rfl

theorem rooted_name (text : String) (span : Span) : (name text span).Rooted c σ depth := by
  refine ⟨0, (Spine.name text).mono ?_⟩
  rintro _ ⟨own, rfl⟩
  exact ⟨fun _ => .name _ _, nofun, fun _ => rfl, fun _ _ => rfl⟩

/-- A number that is written as a name. -/
theorem rooted_float {value : Binary64} (span : Span) (infinite : value.isFinite = false)
    (exact : c.exact = true → value.isFinite = true) : (float value span).Rooted c σ depth := by
  have words : fragmentWords ((float value span).fragments depth) =
      [⟨.identifier, value.text⟩] := by
    simp [infinite]
  refine ⟨0, ?_⟩
  rw [words]
  refine (Spine.name value.text).mono ?_
  rintro _ ⟨own, rfl⟩
  have never (asked : c.exact = true) : False := by simp [exact asked] at infinite
  exact ⟨nofun, nofun, fun asked => (never asked).elim, fun asked => (never asked).elim⟩

/-- What an expression in parentheses is read as. -/
theorem Echo.paren {e a : Exp} {P : Exp → Prop} (read : ∃ inner span, a = .paren inner span ∧ P inner)
    (own : ∀ inner, P inner → c.exact = true → inner.core = e.core ∧
      (e.FunctionFree → .paren inner.unplaced .synthetic = e.unplaced.bracketed))
    (target : ¬ e.IsTarget) (call : ∀ own span, e ≠ .call own span) : e.Echo c.exact a := by
  obtain ⟨inner, span, rfl, result⟩ := read
  exact ⟨fun is => absurd is target, fun own span same => absurd same (call own span),
    fun asked => (own inner result asked).1, fun asked => (own inner result asked).2⟩

theorem rooted_paren {inner : Exp} (span : Span) (h : inner.Reread c σ depth) :
    (paren inner span).Rooted c σ depth := by
  obtain ⟨levels, reads⟩ := h
  have closed : inner.EndsAt .rparen := endsAt_of_mem_closers (by decide)
  have words : fragmentWords ((paren inner span).fragments depth) =
      ⟨.lparen, TokenKind.lparen.spelling⟩ :: fragmentWords (inner.fragments depth) ++
        [⟨.rparen, TokenKind.rparen.spelling⟩] := by
    simp
  refine ⟨levels + 2, ?_⟩
  rw [words]
  refine (Spine.paren fun rest => ((reads (⟨.rparen, _⟩ :: rest) closed.stopsAt).operation_of_operand
    nofun)).mono fun a read => .paren read (fun _ echo asked => ⟨echo.core asked, fun plain => ?_⟩)
    nofun nofun
  have same := echo.bracketed asked (functionFree_paren.1 plain)
  simp only [Exp.recast, Exp.bracketed, same]

theorem rooted_unary {op : UnaryOp} {operand : Exp} (span : Span) (h : operand.Reread c σ depth) :
    (unary op operand span).Rooted c σ depth := by
  obtain ⟨levels, reads⟩ := h
  have closed : operand.EndsAt .rparen := endsAt_of_mem_closers (by decide)
  have words : fragmentWords ((unary op operand span).fragments depth) =
      ⟨.lparen, TokenKind.lparen.spelling⟩ :: (⟨op.token, op.token.spelling⟩ ::
        fragmentWords (operand.fragments depth)) ++ [⟨.rparen, TokenKind.rparen.spelling⟩] := by
    by_cases word : op = .not <;> simp [word]
  refine ⟨levels + 3, ?_⟩
  rw [words]
  refine (Spine.paren fun rest => (((reads (⟨.rparen, _⟩ :: rest)
    closed.stopsAt).operation_of_operand nofun).operand_unary op).operation_of_operand nofun).mono
    fun a read => .paren read ?_ nofun nofun
  rintro _ ⟨e, own, rfl, echo⟩ asked
  refine ⟨by simp [echo.core asked], fun plain => ?_⟩
  have same := echo.bracketed asked (functionFree_unary.1 plain)
  simp only [Exp.recast, Exp.bracketed, same]

theorem exists_of_isNegative {e : Exp} (h : e.isNegative = true) :
    ∃ value span, e = .integer value span ∧ value.toInt < 0 := by
  cases e with
  | integer value span =>
    exact ⟨value, span, rfl, by simpa [isNegative, Int64.lt_iff_toInt_lt] using h⟩
  | _ => cases h

/-- The operands of an operator with the operator between them.  A sign before the base of a power
is read as the sign of the power. -/
theorem binary_takes {left right : Exp} (op : BinaryOp)
    (signs : c.exact = true → left.isNegative = false) (h : left.Reread c σ depth)
    (k : right.Reread c σ depth) : ∃ levels, ∀ rest, Parser.Takes c σ
      (fragmentWords (left.fragments depth) ++ ⟨op.token, op.token.spelling⟩ ::
        (fragmentWords (right.fragments depth) ++ ⟨.rparen, TokenKind.rparen.spelling⟩ :: rest))
      (operation · 0) levels (⟨.rparen, TokenKind.rparen.spelling⟩ :: rest)
      fun a => c.exact = true →
        ∃ l r own, a = .binary op l r own ∧ left.Echo c.exact l ∧ right.Echo c.exact r := by
  obtain ⟨levels, reads⟩ := h
  obtain ⟨levels', reads'⟩ := k
  have closed : right.EndsAt .rparen := endsAt_of_mem_closers (by decide)
  have second (rest : List Word) := reads' (⟨.rparen, TokenKind.rparen.spelling⟩ :: rest)
    closed.stopsAt
  by_cases power : left.isNegative = true ∧ op = .pow
  · obtain ⟨negative, rfl⟩ := power
    obtain ⟨value, own, rfl, below⟩ := exists_of_isNegative negative
    have numeral := Numeral.read?_toString value.toInt.natAbs
    refine ⟨max 0 (levels' + 1) + 1, fun rest => ?_⟩
    rw [fragmentWords_negative own below depth]
    have above : UnaryOp.priority < BinaryOp.pow.priority := by decide
    have inner := (numeral_takes numeral _).operation_binary .pow (second rest) above rfl
    refine ((inner.operand_unary .neg).operation_of_operand nofun).mono fun a _ asked => ?_
    have never := signs asked
    rw [negative] at never
    cases never
  · refine ⟨max levels (levels' + 1), fun rest => ?_⟩
    have stops : left.StopsAt op.token :=
      ⟨fun _ => by cases op <;> rfl, fun negative => by
        rintro same
        exact power ⟨negative, by cases op <;> first | rfl | cases same⟩⟩
    refine ((reads (⟨op.token, _⟩ :: _) stops).operation_binary op (second rest)
      (by cases op <;> decide) rfl).mono fun _ read _ => read

theorem rooted_binary {op : BinaryOp} {left right : Exp} (span : Span)
    (signs : c.exact = true → left.isNegative = false) (h : left.Reread c σ depth)
    (k : right.Reread c σ depth) : (binary op left right span).Rooted c σ depth := by
  obtain ⟨levels, reads⟩ := binary_takes op signs h k
  have words : fragmentWords ((binary op left right span).fragments depth) =
      ⟨.lparen, TokenKind.lparen.spelling⟩ :: (fragmentWords (left.fragments depth) ++
        ⟨op.token, op.token.spelling⟩ :: fragmentWords (right.fragments depth)) ++
        [⟨.rparen, TokenKind.rparen.spelling⟩] := by
    simp
  have own (inner : Exp) (operands : c.exact = true → ∃ l r own, inner = .binary op l r own ∧
      left.Echo c.exact l ∧ right.Echo c.exact r) (asked : c.exact = true) :
      inner.core = (binary op left right span).core ∧ ((binary op left right span).FunctionFree →
        .paren inner.unplaced .synthetic = (binary op left right span).unplaced.bracketed) := by
    obtain ⟨l, r, own, rfl, first, second⟩ := operands asked
    refine ⟨by simp [first.core asked, second.core asked], fun plain => ?_⟩
    obtain ⟨free, free'⟩ := functionFree_binary.1 plain
    have same := first.bracketed asked free
    have same' := second.bracketed asked free'
    simp only [Exp.recast, Exp.bracketed, same, same']
  refine ⟨levels + 2, ?_⟩
  rw [words]
  refine (Spine.paren fun rest => ?_).mono fun a read => .paren read own nofun nofun
  simpa using reads rest

theorem rooted_call {callee : Exp} {method : Option Param} {args : List Exp} (span : Span)
    (h : callee.Rooted c σ depth) (each : ∀ arg ∈ args, arg.Reread c σ depth)
    (printable : ∀ arg ∈ args, arg.Printable c.toDemand around) :
    (call ⟨callee, method, args⟩ span).Rooted c σ depth := by
  obtain ⟨levels, reads⟩ := h
  obtain ⟨levels', list⟩ := args_takes each fun arg among => (printable arg among).opener depth
  refine ⟨max levels levels', ?_⟩
  have words : fragmentWords ((call ⟨callee, method, args⟩ span).fragments depth) =
      fragmentWords (callee.fragments depth) ++ (fragmentWords (methodFragments method) ++
        ⟨.lparen, TokenKind.lparen.spelling⟩ ::
          (fragmentWords (separated (args.map (·.fragments depth))) ++
            [⟨.rparen, TokenKind.rparen.spelling⟩])) := by
    simp
  rw [words]
  refine (reads.call (A := List.Forall₂ (Echo c.exact) args) fun rest => ?_).mono ?_
  · simpa using list rest
  · rintro _ ⟨o, m, as, own, rfl, echo, same, all⟩
    refine ⟨nofun, fun _ _ _ => ⟨_, _, rfl⟩, fun asked => ?_, fun asked plain => ?_⟩
    · simp [echo.core asked, same, Echo.list all asked]
    · obtain ⟨free, free'⟩ := functionFree_call.1 plain
      have first := echo.bracketed asked free
      have others := Echo.bracketed_list all asked free'
      have name : m.map (·.recast fun _ => .synthetic) =
        method.map (·.recast fun _ => .synthetic) := same
      simp [first, others, name]

theorem rooted_index {object key : Exp} (span : Span) (h : object.Rooted c σ depth)
    (k : key.Reread c σ depth) : (index object key span).Rooted c σ depth := by
  obtain ⟨levels, reads⟩ := h
  obtain ⟨levels', reads'⟩ := k
  have closed : key.EndsAt .rbracket := endsAt_of_mem_closers (by decide)
  refine ⟨max levels (levels' + 1), ?_⟩
  have words : fragmentWords ((index object key span).fragments depth) =
      fragmentWords (object.fragments depth) ++ (⟨.lbracket, TokenKind.lbracket.spelling⟩ ::
        fragmentWords (key.fragments depth) ++ [⟨.rbracket, TokenKind.rbracket.spelling⟩]) := by
    simp
  rw [words]
  refine (reads.index fun rest => reads' (⟨.rbracket, _⟩ :: rest) closed.stopsAt).mono ?_
  rintro _ ⟨o, i, own, rfl, first, second⟩
  refine ⟨fun _ => .index _ _ _, nofun, fun asked => ?_, fun asked plain => ?_⟩
  · simp [first.core asked, second.core asked]
  · obtain ⟨free, free'⟩ := functionFree_index.1 plain
    have same := first.bracketed asked free
    have same' := second.bracketed asked free'
    simp only [Exp.recast, Exp.bracketed, same, same']

/-! ## Tables and functions -/

theorem reread_table {keys : List (Option Exp)} {values : List Exp} (span : Span)
    (same : keys.length = values.length) (few : keys.length ≤ c.fields)
    (keyed : ∀ key, some key ∈ keys → key.Reread c σ depth)
    (each : ∀ value ∈ values, value.Reread c σ depth)
    (printable : ∀ value ∈ values, value.Printable c.toDemand around) :
    (table keys values span).Reread c σ depth := by
  have parts (f : Option Exp × Exp) (among : f ∈ keys.zip values) : f.1 ∈ keys ∧ f.2 ∈ values :=
    List.of_mem_zip among
  have fit : (keys.zip values).length ≤ c.fields := by simpa [same] using few
  obtain ⟨levels, reads⟩ := table_takes fit
    (fun f among k own => keyed k (own ▸ (parts f among).1))
    (fun f among => each f.2 (parts f among).2)
    (fun f among => (printable f.2 (parts f among).2).opener depth)
  have fields : List.zipWith fieldFragments (keys.map (·.map (·.fragments depth)))
      (values.map (·.fragments depth)) = (keys.zip values).map (tableFields depth) := by
    rw [List.zipWith_map, ← List.map_uncurry_zip_eq_zipWith]
    rfl
  have words (rest : List Word) : fragmentWords ((table keys values span).fragments depth) ++ rest =
      ⟨.lbrace, TokenKind.lbrace.spelling⟩ ::
        (fragmentWords (separated ((keys.zip values).map (tableFields depth))) ++
          ⟨.rbrace, TokenKind.rbrace.spelling⟩ :: rest) := by
    simp [fields]
  refine ⟨levels + 1, fun rest _ n => ?_⟩
  rw [words]
  refine Goes.peek_bind (Goes.peek_bind ?_)
  refine atAnonymousFunction_bind (((reads rest).table n).mono ?_)
  rintro _ ⟨read, own, rfl, all⟩
  refine ⟨nofun, nofun, fun asked => ?_, fun asked plain => ?_⟩
  · have ⟨first, second⟩ := FieldEcho.lists all asked
    rw [core, core, first, second, List.map_fst_zip same.le, List.map_snd_zip same.ge]
  · obtain ⟨free, free'⟩ := functionFree_table.1 plain
    have ⟨first, second⟩ := FieldEcho.bracketed_lists all asked
      (by rwa [List.map_fst_zip same.le]) (by rwa [List.map_snd_zip same.ge])
    rw [List.map_fst_zip same.le] at first
    rw [List.map_snd_zip same.ge] at second
    simp [first, second, capped_none, Function.comp_def]

theorem reread_function {body : FunctionBody} (span : Span)
    (h : body.Reread c σ depth) : (function body span).Reread c σ depth := by
  obtain ⟨levels, reads⟩ := h
  refine ⟨levels, fun rest _ n => ?_⟩
  refine Goes.peek_bind (Goes.peek_bind (Goes.isMooc_bind ?_))
  refine Goes.next_bind (by decide) fun t _ => ?_
  refine ((reads rest n).bind fun a echo => ?_).congr (and_iff_left trivial)
  refine Goes.since_bind fun own => .pure ⟨nofun, nofun, fun asked => ?_, fun _ plain => ?_⟩
  · simp [echo asked]
  · exact absurd plain not_functionFree_function

end Exp

end LuaChunk
