import LuaChunk.Proofs.Reread.Operand

/-!
# Each form of statement is read again

The words of a statement that can be written are read as a statement, if the next word begins
another one or closes the block.
-/

set_option autoImplicit false

open LuaChunk.Parser

namespace LuaChunk

open Fragment

/-- Words that begin a statement. -/
def TokenKind.starters : List TokenKind := [.kwBreak, .doubleColon, .kwGoto, .kwDo, .kwWhile,
  .kwRepeat, .kwIf, .kwFor, .kwLocal, .identifier, .lparen]

/-- Words that stand after a statement. -/
def TokenKind.followers : List TokenKind := .kwReturn :: starters ++ blockClosers

theorem TokenKind.mem_followers_of_closer {kind : TokenKind} (h : kind ∈ blockClosers) :
    kind ∈ followers := List.mem_append_right _ h

/-- An expression at the end of a statement does not go on with the next one. -/
theorem Exp.endsAt_of_mem_followers {e : Exp} {kind : TokenKind} (h : kind ∈ TokenKind.followers)
    (apart : e.endsOpen = true → kind ≠ .lparen) : e.EndsAt kind := by
  have operator : BinaryOp.ofToken? kind = none := by
    clear apart
    revert kind
    decide
  have suffix : kind ≠ .lparen → kind.isSuffix = false := by
    clear apart operator
    revert kind
    decide
  exact ⟨fun isOpen => suffix (apart isOpen), operator⟩

namespace Stat

/-- The statement does not go on with such a word, which may stand after it. -/
structure EndsAt (s : Stat) (kind : TokenKind) : Prop where
  follows : kind ∈ TokenKind.followers
  apart : s.endsOpen = true → kind ≠ .lparen

/-- What has been read is no empty statement, and it is the same if that is asked. -/
structure Echo (exact : Bool) (s a : Stat) : Prop where
  some : a.isEmpty = false
  core : exact = true → a.core = s.core

/-- The words of a statement are read, before a word that may stand after it. -/
def Reread (c : Bounds) (σ : ScopeStack) (depth : Nat) (s : Stat) : Prop :=
  ∃ levels, ∀ rest, s.EndsAt (nextKind rest) → Parser.Takes c σ
    (fragmentWords (s.fragments depth) ++ rest) Parser.stat levels rest (s.Echo c.exact)

end Stat

namespace Parser

variable {c : Bounds} {σ : ScopeStack} {depth levels : Nat} {words rest : List Word}

theorem Takes.ofLua {P : Stat → Prop} (h : Takes c σ words luaStat levels rest P) :
    Takes c σ words Parser.stat levels rest P :=
  fun n => Goes.isMooc_bind (h n)

theorem insideLoop_bind {β : Type} {f : Bool → Parser β} {around : List Body} {F : Prop}
    {Q : β → Prop} (inside : σ.Inside around) (loop : (Site.inner around).InLoop)
    (k : Goes c σ words (f true) F rest Q) : Goes c σ words (insideLoop >>= f) F rest Q := by
  obtain ⟨w, follows, rfl⟩ := inside
  have asks : Goes c σ words insideLoop True words (· = true) :=
    Goes.scopes_bind fun s alike _ => .pure ((alike.insideLoop follows).2 loop)
  refine asks.andThen ?_
  rintro _ rfl
  exact k

/-! ## Bodies -/

section

variable {β : Type} {f : Unit → Parser β} {F : Prop} {Q : β → Prop}

theorem brace_bind {kind : TokenKind} (k : Goes c σ words (f ()) F rest Q) :
    Goes c σ words (brace kind >>= f) F rest Q := by
  have stays : Goes c σ words (brace kind) True words fun _ => True :=
    Goes.isMooc_bind (.pure trivial)
  exact stays.andThen fun _ _ => k

theorem openBody_bind {kind : TokenKind} {text : String} (more : kind ≠ .eof)
    (k : Goes c σ words (f ()) F rest Q) :
    Goes c σ (⟨kind, text⟩ :: words) (openBody kind >>= f) F rest Q := by
  have takes : Goes c σ (⟨kind, text⟩ :: words) (openBody kind) True words fun _ => True :=
    Goes.isMooc_bind (Goes.expect_bind rfl more fun _ _ => .pure trivial)
  exact takes.andThen fun _ _ => k

theorem closeBody_bind {text : String} (k : Goes c σ words (f ()) F rest Q) :
    Goes c σ (⟨.kwEnd, text⟩ :: words) (closeBody >>= f) F rest Q := by
  have takes : Goes c σ (⟨.kwEnd, text⟩ :: words) closeBody True words fun _ => True :=
    Goes.isMooc_bind (Goes.expect_bind rfl (by decide) fun _ _ => .pure trivial)
  exact takes.andThen fun _ _ => k

theorem functionStyle_bind {f : TokenKind × FunctionStyle → Parser β}
    (k : Goes c σ words (f (.kwFunction, .ended)) F rest Q) :
    Goes c σ words (functionStyle >>= f) F rest Q := by
  have asks : Goes c σ words functionStyle True words (· = (.kwFunction, .ended)) :=
    Goes.isMooc_bind (.pure rfl)
  refine asks.andThen ?_
  rintro _ rfl
  exact k

end

/-- A block between the word that opens it and `end`. -/
theorem loopBody_takes {body : Block} (name : String)
    (h : body.Reread c (σ.push .loop name) (depth + 1)) : ∃ levels, ∀ rest,
      Takes c σ (⟨.kwDo, TokenKind.kwDo.spelling⟩ :: (fragmentWords (body.fragments (depth + 1)) ++
        ⟨.kwEnd, TokenKind.kwEnd.spelling⟩ :: rest)) (loopBody · name) levels rest
        (body.Echo c.exact) := by
  obtain ⟨levels, reads⟩ := h
  refine ⟨levels + 1, fun rest n => ?_⟩
  have inner := (reads (⟨.kwEnd, TokenKind.kwEnd.spelling⟩ :: rest)
    (by simp [TokenKind.blockClosers])).block n
  refine openBody_bind (by decide) ?_
  refine ((inner.within .loop name).bind fun a echo => ?_).congr (and_iff_left trivial)
  exact closeBody_bind (.pure echo)

end Parser

namespace Stat

variable {c : Bounds} {σ : ScopeStack} {depth : Nat} {around : List Body}

theorem reread_break (inside : σ.Inside around) (loop : (Site.inner around).InLoop)
    (span : Span) : (breakLoop span).Reread c σ depth := by
  refine ⟨0, fun rest _ => .ofLua (.always fun n => Goes.peek_bind ?_)⟩
  refine Goes.next_bind (by decide) fun t _ => insideLoop_bind inside loop ?_
  exact .pure ⟨rfl, fun _ => rfl⟩

theorem reread_label (name : String) (span : Span) : (label name span).Reread c σ depth := by
  refine ⟨0, fun rest _ => .ofLua (.always fun n => Goes.peek_bind ?_)⟩
  refine Goes.next_bind (by decide) fun _ _ => Goes.expectName_bind fun t text => ?_
  refine Goes.expect_bind rfl (by decide) fun _ _ => Goes.since_bind fun own => ?_
  exact .pure ⟨rfl, fun _ => by simp [text]⟩

theorem reread_goto (name : String) (span : Span) : (goto name span).Reread c σ depth := by
  refine ⟨0, fun rest _ => .ofLua (.always fun n => Goes.peek_bind ?_)⟩
  refine Goes.next_bind (by decide) fun _ _ => Goes.expectName_bind fun t text => ?_
  exact .pure ⟨rfl, fun _ => by simp [text]⟩

/-! ## Statements that hold blocks -/

theorem reread_do {body : Block} (span : Span)
    (h : body.Reread c (σ.push .doBlock "do") (depth + 1)) :
    (doBlock .plain body span).Reread c σ depth := by
  obtain ⟨levels, reads⟩ := h
  refine ⟨levels + 1, fun rest _ => .ofLua fun n => ?_⟩
  have inner := (reads (⟨.kwEnd, TokenKind.kwEnd.spelling⟩ :: rest)
    (by simp [TokenKind.blockClosers])).block n
  simp only [Stat.fragments, enclosedFragments, fragmentWords_sym, fragmentWords_append,
    fragmentWords_newline, fragmentWords_indent, fragmentWords_nil, List.cons_append,
    List.append_assoc, List.nil_append]
  refine Goes.peek_bind (Goes.next_bind (by decide) fun _ _ => brace_bind ?_)
  refine ((inner.within .doBlock "do").bind fun a echo => ?_).congr (and_iff_left trivial)
  refine closeBody_bind (Goes.since_bind fun own => ?_)
  exact .pure ⟨rfl, fun asked => by simp [echo asked]⟩

theorem reread_while {condition : Exp} {body : Block} (span : Span)
    (h : condition.Reread c σ depth) (k : body.Reread c (σ.push .loop "while") (depth + 1)) :
    (whileLoop condition body span).Reread c σ depth := by
  obtain ⟨levels, reads⟩ := exp_takes h
  obtain ⟨levels', inner⟩ := loopBody_takes "while" k
  refine ⟨max levels levels', fun rest _ => .ofLua fun n => ?_⟩
  simp only [Stat.fragments, enclosedFragments, fragmentWords_sym, fragmentWords_append,
    fragmentWords_newline, fragmentWords_indent, fragmentWords_space, fragmentWords_nil,
    List.cons_append, List.append_assoc, List.nil_append]
  refine Goes.peek_bind (Goes.next_bind (by decide) fun _ _ => ?_)
  have closed : condition.EndsAt .kwDo := Exp.endsAt_of_mem_closers (by decide)
  refine ((reads (⟨.kwDo, _⟩ :: _) closed n).bind (G := levels' ≤ n) fun e echo => ?_).congr
    (by simp)
  refine ((inner rest n).bind fun a echo' => ?_).congr (and_iff_left trivial)
  refine Goes.since_bind fun own => .pure ⟨rfl, fun asked => ?_⟩
  simp [echo.core asked, echo' asked]

theorem reread_repeat {condition : Exp} {body : Block} (span : Span)
    (h : condition.Reread c σ depth) (k : body.Reread c (σ.push .loop "repeat") (depth + 1)) :
    (repeatLoop body condition span).Reread c σ depth := by
  obtain ⟨levels, reads⟩ := exp_takes h
  obtain ⟨levels', body⟩ := k
  refine ⟨max (levels' + 1) levels, fun rest ends => .ofLua fun n => ?_⟩
  simp only [Stat.fragments, enclosedFragments, fragmentWords_sym, fragmentWords_append,
    fragmentWords_newline, fragmentWords_indent, fragmentWords_space, List.cons_append,
    List.append_assoc]
  have inner := (body (⟨.kwUntil, TokenKind.kwUntil.spelling⟩ ::
    (fragmentWords (condition.fragments depth) ++ rest)) (by simp [TokenKind.blockClosers])).block n
  refine Goes.peek_bind (Goes.next_bind (by decide) fun _ _ => brace_bind ?_)
  refine ((inner.within .loop "repeat").bind (G := levels ≤ n) fun a echo' => ?_).congr (by simp)
  refine brace_bind (Goes.expect_bind rfl (by decide) fun _ _ => ?_)
  have closed := Exp.endsAt_of_mem_followers ends.follows ends.apart
  refine ((reads rest closed n).bind fun e echo => ?_).congr (and_iff_left trivial)
  refine Goes.since_bind fun own => .pure ⟨rfl, fun asked => ?_⟩
  simp [echo.core asked, echo' asked]

end Stat

/-! ## Branches -/

/-- What has been read is the same if that is asked. -/
def Branch.Echo (exact : Bool) (b a : Branch) : Prop :=
  exact = true → a.condition.core = b.condition.core ∧ a.body.core = b.body.core

/-- The words of a branch after the one that opens it. -/
def Branch.words (depth : Nat) (b : Branch) : List Word :=
  fragmentWords (b.condition.fragments depth) ++ ⟨.kwThen, TokenKind.kwThen.spelling⟩ ::
    fragmentWords (b.body.fragments (depth + 1))

theorem fragmentWords_chain (opening : TokenKind) (b : Branch) (bs : List Branch) (depth : Nat) :
    fragmentWords (chainFragments opening (branchesFragments depth (b :: bs)) depth) =
      ⟨opening, opening.spelling⟩ :: (b.words depth ++
        ((bs.flatMap fun b => ⟨.kwElseif, TokenKind.kwElseif.spelling⟩ :: b.words depth) ++
          [⟨.kwEnd, TokenKind.kwEnd.spelling⟩])) := by
  induction bs generalizing opening b with
  | nil => simp [chainFragments, enclosedFragments, Branch.words]
  | cons next bs inductionHypothesis =>
    have later := inductionHypothesis .kwElseif next
    rw [branchesFragments_eq] at later ⊢
    rw [List.map_cons, chainFragments]
    simp only [enclosedFragments, fragmentWords_sym, fragmentWords_space, fragmentWords_append,
      fragmentWords_newline, fragmentWords_indent, later]
    simp [Branch.words]

namespace Parser

variable {c : Bounds} {σ : ScopeStack} {depth : Nat}

theorem branch_takes {b : Branch} (h : b.condition.Reread c σ depth)
    (k : b.body.Reread c (σ.push .branch "if") (depth + 1)) : ∃ levels, ∀ rest,
      nextKind rest ∈ TokenKind.blockClosers →
        Takes c σ (b.words depth ++ rest) branch levels rest (b.Echo c.exact) := by
  obtain ⟨levels, reads⟩ := exp_takes h
  obtain ⟨levels', body⟩ := k
  refine ⟨max levels (levels' + 1), fun rest closes n => ?_⟩
  rw [Branch.words, List.append_assoc, List.cons_append]
  have closed : b.condition.EndsAt .kwThen := Exp.endsAt_of_mem_closers (by decide)
  refine ((reads (⟨.kwThen, _⟩ :: _) closed n).bind (G := levels' + 1 ≤ n) fun e echo => ?_).congr
    (by simp)
  refine openBody_bind (by decide) ?_
  have inner := (body rest closes).block n
  refine ((inner.within .branch "if").bind fun a echo' => ?_).congr (and_iff_left trivial)
  exact brace_bind (.pure fun asked => ⟨echo.core asked, echo' asked⟩)

end Parser

theorem Branch.Echo.list {exact : Bool} {bs as : List Branch}
    (h : List.Forall₂ (Branch.Echo exact) bs as) (asked : exact = true) :
    branchesCore as = branchesCore bs := by
  induction h with
  | nil => rfl
  | cons own _ inductionHypothesis => simp_all [own asked]

namespace Stat

variable {c : Bounds} {σ : ScopeStack} {depth : Nat} {rest : List Word}

theorem reread_conditional {branches : List Branch} (span : Span) (some : branches ≠ [])
    (conditions : ∀ b ∈ branches, b.condition.Reread c σ depth)
    (bodies : ∀ b ∈ branches, b.body.Reread c (σ.push .branch "if") (depth + 1)) :
    (conditional ⟨branches, span⟩).Reread c σ depth := by
  obtain ⟨levels, most, reads, fits⟩ := exists_levels fun b among =>
    branch_takes (conditions b among) (bodies b among)
  obtain ⟨first, others, rfl⟩ := List.exists_cons_of_ne_nil some
  refine ⟨most, fun rest ends => .ofLua fun n => ?_⟩
  -- After a branch stands the word of the next one, or `end`.
  have own (taken : List Branch) (b : Branch) (later : List Branch)
      (whole : taken ++ b :: later = first :: others) :=
    reads b (whole ▸ by simp) (later.flatMap (fun b => ⟨.kwElseif, TokenKind.kwElseif.spelling⟩ ::
      b.words depth) ++ ⟨.kwEnd, TokenKind.kwEnd.spelling⟩ :: rest) <| by
      rw [nextKind_flatMap]
      split <;> simp [TokenKind.blockClosers]
  rw [Stat.fragments, Conditional.fragments, fragmentWords_chain]
  simp only [List.cons_append, List.append_assoc, List.nil_append]
  refine Goes.peek_bind (Goes.next_bind (by decide) fun _ _ => ?_)
  refine ((own [] first others rfl n).bind (G := ∀ b ∈ others, levels b ≤ n)
    fun a echo => ?_).congr (by simpa using fits n)
  refine ((Goes.iterate (.pushes (R := Branch.Echo c.exact) (fun b =>
    ⟨.kwElseif, TokenKind.kwElseif.spelling⟩ :: b.words depth) (by simp)
    (fun taken b later whole z => ?_) fun z => ?_)).bind fun z read => ?_).congr
    (and_iff_left trivial)
  · refine Goes.accepts_bind rfl (by decide) ?_
    rw [if_pos rfl]
    have read := own (first :: taken) b later (by simp [← whole]) n
    exact (read.bind fun a echo => .pure ⟨a, rfl, echo⟩).congr (and_iff_left trivial)
  · exact Goes.accepts_none_bind (by simp) (.pure rfl)
  · obtain ⟨as, same, all⟩ := read
    have noElse : Goes c σ (⟨.kwEnd, TokenKind.kwEnd.spelling⟩ :: rest)
        (elseBranch (Rules.level n)) True (⟨.kwEnd, TokenKind.kwEnd.spelling⟩ :: rest) (· = []) :=
      Goes.accept_none_bind (by simp) (.pure rfl)
    refine noElse.andThen ?_
    rintro _ rfl
    refine Goes.isMooc_bind (Goes.expect_bind rfl (by decide) fun _ _ => ?_)
    refine Goes.since_bind fun own => .pure ⟨rfl, fun asked => ?_⟩
    have cores := Branch.Echo.list (.cons echo all) asked
    rw [Stat.core, Stat.core, Conditional.core, Conditional.core, same, List.append_nil]
    exact congrArg (fun bs => [Stat.conditional ⟨bs, .synthetic⟩]) cores

/-! ## Loops over ranges and iterators -/

theorem reread_numericFor {var : Param} {init limit step : Exp} {body : Block} (span : Span)
    (h : init.Reread c σ depth) (k : limit.Reread c σ depth) (l : step.Reread c σ depth)
    (m : body.Reread c (σ.push .loop "for") (depth + 1)) :
    (numericFor var init limit step body span).Reread c σ depth := by
  obtain ⟨levels₁, first⟩ := exp_takes h
  obtain ⟨levels₂, second⟩ := exp_takes k
  obtain ⟨levels₃, third⟩ := exp_takes l
  obtain ⟨levels₄, inner⟩ := loopBody_takes "for" m
  have closed (e : Exp) (kind : TokenKind) (among : kind ∈ TokenKind.closers) : e.EndsAt kind :=
    Exp.endsAt_of_mem_closers among
  refine ⟨max (max levels₁ levels₂) (max levels₃ levels₄), fun rest _ => .ofLua fun n => ?_⟩
  simp only [Stat.fragments, enclosedFragments, fragmentWords_sym, fragmentWords_ident,
    fragmentWords_append, fragmentWords_newline, fragmentWords_indent, fragmentWords_space,
    fragmentWords_nil, List.cons_append, List.append_assoc, List.nil_append]
  refine Goes.peek_bind (Goes.next_bind (by decide) fun _ _ => ?_)
  refine Goes.expectName_bind fun t text => Goes.peek_bind ?_
  rw [nextKind_cons, if_pos rfl]
  refine Goes.expect_bind rfl (by decide) fun _ _ => ?_
  refine ((first (⟨.comma, _⟩ :: _) (closed init .comma (by decide)) n).bind
    (G := (levels₂ ≤ n ∧ levels₃ ≤ n ∧ levels₄ ≤ n)) fun i echo₁ => ?_).congr (by omega)
  refine Goes.expect_bind rfl (by decide) fun _ _ => ?_
  refine (second (⟨.comma, _⟩ :: _) (closed limit .comma (by decide)) n).bind fun b echo₂ => ?_
  refine Goes.accepts_bind rfl (by decide) ?_
  rw [if_pos rfl]
  refine (third (⟨.kwDo, _⟩ :: _) (closed step .kwDo (by decide)) n).bind fun d echo₃ => ?_
  refine ((inner rest n).bind fun a echo₄ => ?_).congr (and_iff_left trivial)
  refine Goes.since_bind fun own => .pure ⟨rfl, fun asked => ?_⟩
  simp [text, echo₁.core asked, echo₂.core asked, echo₃.core asked, echo₄ asked]

theorem cores_of_forall₂ {names read : List Param}
    (h : List.Forall₂ (fun p q : Param => q.core = p.core) names read) :
    read.map Param.core = names.map Param.core := by
  induction h with
  | nil => rfl
  | cons own _ inductionHypothesis => simpa [inductionHypothesis] using own

/-- Names with commas between them, of which the first has been read. -/
theorem moreVars_run {names : List Param} {first : Param} (stop : nextKind rest ≠ .comma) :
    Goes c σ ((names.flatMap fun p => [⟨.comma, TokenKind.comma.spelling⟩, ⟨.identifier, p.name⟩]) ++
      rest) (iterate #[first] moreVars) True rest
      fun z => z.toList.map Param.core = first.core :: names.map Param.core := by
  refine ((Goes.iterate (.pushes (R := fun p q : Param => q.core = p.core)
    (fun p => [⟨.comma, TokenKind.comma.spelling⟩, ⟨.identifier, p.name⟩]) (by simp)
    (fun taken p later whole z => ?_) fun z => ?_)).mono ?_).congr
    (iff_true_intro fun _ _ => trivial)
  · rw [List.cons_append, List.singleton_append]
    refine Goes.accepts_bind rfl (by decide) ?_
    rw [if_pos rfl]
    exact Goes.expectName_bind fun t text => .pure ⟨_, rfl, by simp [text]⟩
  · exact Goes.accepts_none_bind stop (.pure rfl)
  · rintro z ⟨as, same, all⟩
    simp [same, cores_of_forall₂ all]

theorem reread_genericFor {vars : List Param} {iterables : List Exp} {body : Block} (span : Span)
    (some : vars ≠ []) (iterated : iterables ≠ []) (each : ∀ e ∈ iterables, e.Reread c σ depth)
    (k : body.Reread c (σ.push .loop "for") (depth + 1)) :
    (genericFor vars iterables body span).Reread c σ depth := by
  obtain ⟨var, vars, rfl⟩ := List.exists_cons_of_ne_nil some
  obtain ⟨levels, list⟩ := expList_takes iterated each
  obtain ⟨levels', inner⟩ := loopBody_takes "for" k
  refine ⟨max levels levels', fun rest _ => .ofLua fun n => ?_⟩
  have names : fragmentWords (separated (namesFragments (var :: vars))) = ⟨.identifier, var.name⟩ ::
      vars.flatMap fun p => [⟨.comma, TokenKind.comma.spelling⟩, ⟨.identifier, p.name⟩] := by
    rw [namesFragments, fragmentWords_separated]
    simp
  simp only [Stat.fragments, enclosedFragments, names, expsFragments_eq, fragmentWords_sym,
    fragmentWords_append, fragmentWords_newline, fragmentWords_indent, fragmentWords_space,
    fragmentWords_nil, List.cons_append, List.append_assoc, List.nil_append]
  refine Goes.peek_bind (Goes.next_bind (by decide) fun _ _ => ?_)
  refine Goes.expectName_bind fun t text => Goes.peek_bind ?_
  have noRange : nextKind ((vars.flatMap fun p => [⟨.comma, TokenKind.comma.spelling⟩,
      ⟨.identifier, p.name⟩]) ++ ⟨.kwIn, TokenKind.kwIn.spelling⟩ :: (fragmentWords (separated
      (iterables.map (·.fragments depth))) ++ ⟨.kwDo, TokenKind.kwDo.spelling⟩ ::
      (fragmentWords (body.fragments (depth + 1)) ++ ⟨.kwEnd, TokenKind.kwEnd.spelling⟩ :: rest))) ≠
      .assign := by
    rw [nextKind_flatMap]
    split <;> simp
  rw [if_neg noRange]
  refine (moreVars_run (by simp)).andThen fun z same => ?_
  refine Goes.expect_bind rfl (by decide) fun _ _ => ?_
  have closed (e : Exp) : e.EndsAt .kwDo := Exp.endsAt_of_mem_closers (by decide)
  refine ((list (⟨.kwDo, _⟩ :: _) (fun e _ => closed e) (by simp)
    n).bind (G := levels' ≤ n) fun es all => ?_).congr (by simp)
  refine ((inner rest n).bind fun a echo => ?_).congr (and_iff_left trivial)
  refine Goes.since_bind fun own => .pure ⟨rfl, fun asked => ?_⟩
  have same : z.toList.map Param.core = (var :: vars).map Param.core := by simpa [text] using same
  simp [same, Exp.Echo.list all asked, echo asked]

/-! ## Functions and calls -/

theorem reread_localFunction {name : Param} {body : FunctionBody} (span : Span)
    (h : body.Reread c σ depth) : (localFunction name body span).Reread c σ depth := by
  obtain ⟨levels, reads⟩ := h
  refine ⟨levels, fun rest _ => .ofLua fun n => ?_⟩
  simp only [Stat.fragments, fragmentWords_sym, fragmentWords_ident, fragmentWords_space,
    List.cons_append]
  refine Goes.peek_bind (Goes.next_bind (by decide) fun _ _ => Goes.peek_bind ?_)
  rw [nextKind_cons, if_pos rfl]
  refine functionStyle_bind (Goes.next_bind (by decide) fun _ _ => ?_)
  refine Goes.expectName_bind fun t text => ?_
  refine ((reads rest n).bind fun a echo => ?_).congr (and_iff_left trivial)
  refine Goes.since_bind fun own => .pure ⟨rfl, fun asked => ?_⟩
  have same := echo asked
  cases a
  simp_all

end Stat

/-! ## Calls and assignments -/

namespace Parser

variable {c : Bounds} {σ : ScopeStack} {depth levels : Nat} {words rest : List Word}
  {around : List Body}

theorem Takes.ofSimple {P : Stat → Prop}
    (first : nextKind words = .identifier ∨ nextKind words = .lparen)
    (h : Takes c σ words assignOrCall levels rest P) :
    Takes c σ words Parser.stat levels rest P := by
  refine .ofLua fun n => Goes.peek_bind ?_
  rcases first with name | paren
  · rw [name]
    exact h n
  · rw [paren]
    exact h n

theorem nextKind_of_endsOpen {e : Exp} (h : e.Printable c.toDemand around)
    (isOpen : e.endsOpen = true) (depth : Nat) (rest : List Word) :
    nextKind (fragmentWords (e.fragments depth) ++ rest) = .identifier ∨
      nextKind (fragmentWords (e.fragments depth) ++ rest) = .lparen := by
  rw [h.nextKind, Exp.opening_of_endsOpen h isOpen]
  split
  · exact .inr rfl
  · exact .inl rfl

theorem target_bind {β : Type} {e : Exp} {f : Exp → Parser β} {F : Prop} {Q : β → Prop}
    (h : e.IsTarget) (k : Goes c σ words (f e) F rest Q) :
    Goes c σ words (target e >>= f) F rest Q := by
  cases h <;> exact k

/-- After the first target come the others, `=` and the values. -/
theorem assignRest_takes {others values : List Exp} (some : values ≠ [])
    (targets : ∀ e ∈ others, e.IsTarget) (rooted : ∀ e ∈ others, e.Rooted c σ depth)
    (each : ∀ e ∈ values, e.Reread c σ depth) : ∃ levels, ∀ rest (start : Span) (a : Exp),
      a.IsTarget → (∀ e ∈ values.getLast?, e.EndsAt (nextKind rest)) → nextKind rest ≠ .comma →
        Takes c σ ((others.flatMap fun e => ⟨.comma, TokenKind.comma.spelling⟩ ::
            fragmentWords (e.fragments depth)) ++ ⟨.assign, TokenKind.assign.spelling⟩ ::
            (fragmentWords (separated (values.map (·.fragments depth))) ++ rest))
          (assignRest · start a) levels rest fun s => ∃ as vs span,
            s = .assign ⟨a :: as, vs, .regular, span⟩ ∧ List.Forall₂ (Exp.Echo c.exact) others as ∧
              List.Forall₂ (Exp.Echo c.exact) values vs := by
  obtain ⟨levels, most, reads, fits⟩ := exists_levels rooted
  obtain ⟨levels', list⟩ := expList_takes some each
  refine ⟨max most levels', fun rest start a isTarget last stop n => target_bind isTarget ?_⟩
  refine ((Goes.iterate (.pushes (R := Exp.Echo c.exact) (z := #[a]) (fun e =>
    ⟨.comma, TokenKind.comma.spelling⟩ :: fragmentWords (e.fragments depth)) (by simp)
    (fun taken e later whole z => ?_) fun z => ?_)).bind (G := levels' ≤ n) fun z read => ?_).congr
    ((and_congr_left' (fits n)).trans max_le_iff.symm)
  · refine Goes.accepts_bind rfl (by decide) ?_
    rw [if_pos rfl]
    have among : e ∈ others := by simp [← whole]
    have stops : (nextKind (later.flatMap (fun e => ⟨.comma, TokenKind.comma.spelling⟩ ::
        fragmentWords (e.fragments depth)) ++ ⟨.assign, TokenKind.assign.spelling⟩ ::
        (fragmentWords (separated (values.map (·.fragments depth))) ++ rest))).isSuffix = false := by
      rw [nextKind_flatMap]
      split <;> rfl
    refine (((reads e among).prefixExp stops n).bind fun b echo => ?_).congr (and_iff_left trivial)
    exact target_bind (echo.target (targets e among)) (.pure ⟨b, rfl, echo⟩)
  · exact Goes.accepts_none_bind (by simp) (.pure rfl)
  · obtain ⟨as, same, all⟩ := read
    refine Goes.peek_bind ?_
    have plain : Goes c σ (⟨.assign, TokenKind.assign.spelling⟩ ::
        (fragmentWords (separated (values.map (·.fragments depth))) ++ rest))
        (plainAssign (Rules.level n) start z.toList) (levels' ≤ n) rest fun s => ∃ as vs span,
          s = .assign ⟨a :: as, vs, .regular, span⟩ ∧ List.Forall₂ (Exp.Echo c.exact) others as ∧
            List.Forall₂ (Exp.Echo c.exact) values vs := by
      refine Goes.accepts_bind rfl (by decide) ?_
      rw [if_pos rfl, same]
      refine ((list rest last stop n).bind fun vs all' => ?_).congr (and_iff_left trivial)
      exact Goes.since_bind fun span => .pure ⟨as, vs, span, rfl, all, all'⟩
    exact plain

end Parser

namespace Stat

variable {c : Bounds} {σ : ScopeStack} {depth : Nat} {around : List Body}

theorem reread_call {call : Call} {own : Span} (span : Span)
    (h : (Exp.call call own).Rooted c σ depth)
    (printable : (Exp.call call own).Printable c.toDemand around) :
    (Stat.call call span).Reread c σ depth := by
  obtain ⟨levels, reads⟩ := h
  refine ⟨levels, fun rest ends => ?_⟩
  have stops := Exp.endsAt_of_mem_followers (e := .call call own) ends.follows ends.apart
  have first := nextKind_of_endsOpen printable rfl depth rest
  rw [Exp.fragments] at reads first
  refine .ofSimple first fun n => Goes.head_bind fun start => ?_
  refine ((reads.prefixExp (stops.suffix rfl) n).bind fun a echo => ?_).congr
    (and_iff_left trivial)
  obtain ⟨read, span', rfl⟩ := echo.call call own rfl
  refine Goes.since_bind fun own' => .pure ⟨rfl, fun asked => ?_⟩
  have same := echo.core asked
  simpa using same

theorem reread_assign {targets values : List Exp} (span : Span) (some : targets ≠ []) (given : values ≠ [])
    (isTarget : ∀ e ∈ targets, e.IsTarget) (printable : ∀ e ∈ targets, e.Printable c.toDemand around)
    (rooted : ∀ e ∈ targets, e.Rooted c σ depth) (each : ∀ e ∈ values, e.Reread c σ depth) :
    (assign ⟨targets, values, .regular, span⟩).Reread c σ depth := by
  obtain ⟨target, others, rfl⟩ := List.exists_cons_of_ne_nil some
  simp only [List.forall_mem_cons] at isTarget printable rooted
  obtain ⟨⟨levels, reads⟩, rooted⟩ := rooted
  obtain ⟨levels', assigned⟩ := assignRest_takes given isTarget.2 rooted each
  have isOpen : target.endsOpen = true := by
    cases isTarget.1 <;> rfl
  refine ⟨max levels levels', fun rest ends => ?_⟩
  have words : fragmentWords ((assign ⟨target :: others, values, .regular, span⟩).fragments depth) ++
      rest = fragmentWords (target.fragments depth) ++
        ((others.flatMap fun e => ⟨.comma, TokenKind.comma.spelling⟩ ::
          fragmentWords (e.fragments depth)) ++ ⟨.assign, TokenKind.assign.spelling⟩ ::
            (fragmentWords (separated (values.map (·.fragments depth))) ++ rest)) := by
    rw [Stat.fragments, Assignment.fragments, expsFragments_eq, expsFragments_eq,
      fragmentWords_append, fragmentWords_separated]
    simp
  rw [words]
  have first := nextKind_of_endsOpen printable.1 isOpen depth
  have stops : (nextKind (others.flatMap (fun e => ⟨.comma, TokenKind.comma.spelling⟩ ::
      fragmentWords (e.fragments depth)) ++ ⟨.assign, TokenKind.assign.spelling⟩ ::
      (fragmentWords (separated (values.map (·.fragments depth))) ++ rest))).isSuffix = false := by
    rw [nextKind_flatMap]
    split <;> rfl
  refine .ofSimple (first _) fun n => Goes.head_bind fun start => ?_
  refine ((reads.prefixExp stops n).bind (G := levels' ≤ n) fun a echo => ?_).congr max_le_iff.symm
  have read := echo.target isTarget.1
  have last (e : Exp) (among : e ∈ values.getLast?) : e.EndsAt (nextKind rest) := by
    refine Exp.endsAt_of_mem_followers ends.follows fun isOpen => ends.apart ?_
    rw [Stat.endsOpen, Option.mem_def.1 among]
    exact isOpen
  have stop : nextKind rest ≠ .comma := ne_of_mem_of_not_mem ends.follows (by decide)
  have echoes (s : Stat) (h : ∃ as vs own, s = .assign ⟨a :: as, vs, .regular, own⟩ ∧
      List.Forall₂ (Exp.Echo c.exact) others as ∧ List.Forall₂ (Exp.Echo c.exact) values vs) :
      (Stat.assign ⟨target :: others, values, .regular, span⟩).Echo c.exact s := by
    obtain ⟨as, vs, own, rfl, all, all'⟩ := h
    refine ⟨rfl, fun asked => ?_⟩
    simp [echo.core asked, Exp.Echo.list all asked, Exp.Echo.list all' asked]
  have rest := (assigned rest start a read last stop n).mono echoes
  cases read <;> exact rest

end Stat

/-! ## Local names -/

/-- A name with its attribute. -/
def markedName (p : Param × Attribute) : List Fragment := ident p.1.name :: markFragments p.2

theorem markedFragments_eq {names : List Param} {attrs : List Attribute}
    (same : attrs.length = names.length) :
    markedFragments names attrs = (names.zip attrs).map markedName := by
  induction names generalizing attrs with
  | nil => rfl
  | cons p names inductionHypothesis =>
    cases attrs with
    | nil => cases same
    | cons a attrs =>
      have later := inductionHypothesis (Nat.succ.inj same)
      simp [markedFragments, markedName, later]

namespace Parser

variable {c : Bounds} {σ : ScopeStack} {depth : Nat} {words rest : List Word}

theorem attr_run {a : Attribute} (plain : a ≠ .exported) (stop : nextKind rest ≠ .less) :
    Goes c σ (fragmentWords (markFragments a) ++ rest) attr True rest (· = a) := by
  cases a with
  | exported => exact absurd rfl plain
  | regular => exact Goes.accepts_none_bind stop (.pure rfl)
  | const =>
    refine Goes.accepts_bind rfl (by decide) (Goes.expectName_bind fun t text => ?_)
    rw [if_pos text]
    exact Goes.expect_bind rfl (by decide) fun _ _ => .pure rfl
  | close =>
    refine Goes.accepts_bind rfl (by decide) (Goes.expectName_bind fun t text => ?_)
    rw [if_neg (by rw [text]; decide), if_pos text]
    exact Goes.expect_bind rfl (by decide) fun _ _ => .pure rfl

/-- The names read are some of those written, and one to be closed has been marked. -/
structure AttrNames.Echo (taken : List (Param × Attribute)) (read : AttrNames) : Prop where
  names : read.names.toList.map Param.core = (taken.map (·.1)).map Param.core
  attrs : read.attrs.toList = taken.map (·.2)
  hasClose : read.hasClose = true → .close ∈ taken.map (·.2)

theorem AttrNames.Echo.start : AttrNames.Echo [] {} := ⟨rfl, rfl, nofun⟩

theorem AttrNames.Echo.push {taken : List (Param × Attribute)} {read : AttrNames}
    {p : Param × Attribute} {q : Param} (h : read.Echo taken) (same : q.core = p.1.core) :
    AttrNames.Echo (taken ++ [p])
      ⟨read.names.push q, read.attrs.push p.2, read.hasClose || p.2 == .close⟩ := by
  refine ⟨?_, ?_, ?_⟩
  · simpa [h.names] using same
  · simp [h.attrs]
  · intro marked
    rcases Bool.or_eq_true_iff.1 marked with earlier | own
    · simpa using .inl (by simpa using h.hasClose earlier)
    · simp [beq_iff_eq.1 own]

/-- One name with its attribute, up to what follows it. -/
theorem moreAttrNames_run {taken : List (Param × Attribute)} {read : AttrNames}
    {p : Param × Attribute} {mid : List Word} {P : ForInStep AttrNames → Prop}
    (h : read.Echo taken) (plain : p.2 ≠ .exported) (stop : nextKind mid ≠ .less)
    (single : (taken.map (·.2) ++ [p.2]).count .close ≤ 1)
    (k : ∀ y : AttrNames, y.Echo (taken ++ [p]) → Goes c σ mid
      (do if ← accepts .comma then return .yield y else return .done y) True rest P) :
    Goes c σ (fragmentWords (markedName p) ++ mid) (moreAttrNames read) True rest P := by
  refine Goes.expectName_bind fun t text => (attr_run plain stop).andThen ?_
  rintro _ rfl
  have alone : ¬ (p.2 = .close ∧ read.hasClose = true) := by
    rintro ⟨closed, marked⟩
    have earlier := List.count_pos_iff.2 (h.hasClose marked)
    rw [List.count_append, closed, List.count_singleton_self] at single
    omega
  rw [if_neg alone]
  exact k _ (h.push (by simp [text]))

theorem attrNames_run {names : List Param} {attrs : List Attribute} (some : names ≠ [])
    (same : attrs.length = names.length) (plain : .exported ∉ attrs)
    (single : attrs.count .close ≤ 1) (less : nextKind rest ≠ .less) (comma : nextKind rest ≠ .comma) :
    Goes c σ (fragmentWords (separated (markedFragments names attrs)) ++ rest) attrNames True rest
      fun read => read.1.map Param.core = names.map Param.core ∧ read.2 = attrs := by
  rw [markedFragments_eq same]
  have firsts : (names.zip attrs).map (·.1) = names := List.map_fst_zip same.ge
  have seconds : (names.zip attrs).map (·.2) = attrs := List.map_snd_zip same.le
  generalize names.zip attrs = marked at firsts seconds
  subst firsts seconds
  rcases marked.eq_nil_or_concat with rfl | ⟨init, last, rfl⟩
  · exact absurd rfl some
  rw [List.concat_eq_append] at *
  have own (taken : List (Param × Attribute)) (p : Param × Attribute)
      (later : List (Param × Attribute)) (whole : taken ++ p :: later = init ++ [last]) :
      p.2 ≠ .exported ∧ (taken.map (·.2) ++ [p.2]).count .close ≤ 1 := by
    rw [← whole] at plain single
    refine ⟨fun exported => plain ?_, ?_⟩
    · simp [exported]
    · simp only [List.map_append, List.map_cons, List.count_append, List.count_cons] at single ⊢
      simp only [List.count_nil]
      omega
  rw [fragmentWords_separated_concat, List.append_assoc]
  refine ((Goes.iterate (.each (fun p => fragmentWords (markedName p) ++
    [⟨.comma, TokenKind.comma.spelling⟩]) (fun taken read => AttrNames.Echo taken read) (by simp)
    (fun taken p later whole read holds => ?_) (fun read holds => .done ?_) .start)).map
    (P := AttrNames.Echo (init ++ [last])) ?_).congr
    (iff_true_intro ⟨fun _ _ => trivial, trivial⟩)
  · have ⟨plain, single⟩ := own taken p (later ++ [last]) (by simp [← whole])
    rw [List.append_assoc, List.singleton_append]
    refine moreAttrNames_run holds plain (by simp) single fun y echo => ?_
    refine Goes.accepts_bind rfl (by decide) ?_
    rw [if_pos rfl]
    exact .pure ⟨y, rfl, echo⟩
  · have ⟨plain, single⟩ := own init last [] rfl
    refine moreAttrNames_run holds plain less single fun y echo => ?_
    exact Goes.accepts_none_bind comma (.pure ⟨y, rfl, echo⟩)
  · exact fun read echo => ⟨echo.names, echo.attrs⟩

end Parser

namespace Stat

variable {c : Bounds} {σ : ScopeStack} {depth : Nat}

theorem reread_declare {names : List Param} {attrs : List Attribute} {values : List Exp}
    (span : Span) (some : names ≠ []) (same : attrs.length = names.length)
    (plain : .exported ∉ attrs) (single : attrs.count .close ≤ 1)
    (each : ∀ e ∈ values, e.Reread c σ depth) :
    (declare ⟨names, attrs, values, span⟩).Reread c σ depth := by
  have stops {rest : List Word} (ends : nextKind rest ∈ TokenKind.followers) {kind : TokenKind}
      (other : kind ∉ TokenKind.followers) : nextKind rest ≠ kind :=
    ne_of_mem_of_not_mem ends other
  have noFunction (rest : List Word) :
      nextKind (fragmentWords (separated (markedFragments names attrs)) ++ rest) ≠ .kwFunction := by
    obtain ⟨p, names, rfl⟩ := List.exists_cons_of_ne_nil some
    obtain ⟨a, attrs, rfl⟩ := List.exists_cons_of_length_eq_add_one same
    rw [markedFragments_eq same, List.zip_cons_cons, fragmentWords_separated]
    nofun
  by_cases none : values = []
  · subst none
    refine ⟨0, fun rest ends => .ofLua (.always fun n => ?_)⟩
    rw [Stat.fragments, Declaration.fragments]
    simp only [expsFragments_eq, valuesFragments, fragmentWords_sym, fragmentWords_space,
      List.map_nil, List.isEmpty_nil, if_true, List.append_nil, List.cons_append]
    refine Goes.peek_bind (Goes.next_bind (by decide) fun _ _ => Goes.peek_bind ?_)
    rw [if_neg (noFunction rest)]
    refine (attrNames_run some same plain single (stops ends.follows (by decide))
      (stops ends.follows (by decide))).andThen
      fun read echo => ?_
    refine Goes.accepts_none_bind (stops ends.follows (by decide)) ?_
    rw [if_neg Bool.false_ne_true]
    refine (Goes.pure (P := (· = [])) rfl).andThen ?_
    rintro _ rfl
    exact Goes.since_bind fun own => .pure ⟨rfl, fun _ => by simp [echo.1, echo.2]⟩
  · obtain ⟨levels, list⟩ := expList_takes none each
    refine ⟨levels, fun rest ends => .ofLua fun n => ?_⟩
    rw [Stat.fragments, Declaration.fragments]
    simp only [expsFragments_eq, valuesFragments, fragmentWords_sym, fragmentWords_space,
      fragmentWords_append, List.isEmpty_map, List.isEmpty_eq_false_iff.2 none, Bool.false_eq_true,
      if_false, List.cons_append, List.append_assoc]
    refine Goes.peek_bind (Goes.next_bind (by decide) fun _ _ => Goes.peek_bind ?_)
    rw [if_neg (noFunction _)]
    refine (attrNames_run some same plain single (by simp) (by simp)).andThen fun read echo => ?_
    refine Goes.accepts_bind rfl (by decide) ?_
    rw [if_pos rfl]
    have last (e : Exp) (among : e ∈ values.getLast?) : e.EndsAt (nextKind rest) := by
      refine Exp.endsAt_of_mem_followers ends.follows fun isOpen => ends.apart ?_
      rw [Stat.endsOpen, Option.mem_def.1 among]
      exact isOpen
    refine ((list rest last (stops ends.follows (by decide)) n).bind fun vs all => ?_).congr
      (and_iff_left trivial)
    refine Goes.since_bind fun own => .pure ⟨rfl, fun asked => ?_⟩
    simp [echo.1, echo.2, Exp.Echo.list all asked]

end Stat

end LuaChunk
