import LuaChunk.Proofs.Diagnostics.Records
import LuaChunk.Proofs.Grammar.Lua

/-!
# Functions and tables in braces

In Mooc a brace opens a table or a function without a name.  Which of them it is is told from the kinds
of the tokens behind it alone: names, `...` and commas up to `in`.  No table is read from such tokens
without a complaint, since reading its fields never gets past `in`, and no function from any others.
-/

set_option autoImplicit false

namespace LuaChunk

open Grammar

/-- What parameters are written with. -/
def TokenKind.isListing (kind : TokenKind) : Bool := kind ∈ [.identifier, .vararg, .comma]

/-- Names, `...` and commas, then `in`. -/
def AnonymousHeader (kinds : List TokenKind) : Prop :=
  ∃ header rest, kinds = header ++ .kwIn :: rest ∧ ∀ kind ∈ header, kind.isListing = true

namespace AnonymousHeader

variable {kind : TokenKind} {kinds : List TokenKind}

theorem ne_nil (h : AnonymousHeader kinds) : kinds ≠ [] := by
  obtain ⟨header, rest, rfl, -⟩ := h
  simp

theorem cons_iff : AnonymousHeader (kind :: kinds) ↔
    kind = .kwIn ∨ kind.isListing = true ∧ AnonymousHeader kinds := by
  constructor
  · rintro ⟨header, rest, same, listing⟩
    cases header with
    | nil => exact .inl (List.cons.inj same).1
    | cons first header =>
      obtain ⟨rfl, rfl⟩ := List.cons.inj same
      exact .inr ⟨listing _ (.head _), header, rest, rfl, fun k among => listing k (.tail _ among)⟩
  · rintro (rfl | ⟨listing, header, rest, rfl, more⟩)
    · exact ⟨[], kinds, rfl, nofun⟩
    · exact ⟨kind :: header, rest, rfl, List.forall_mem_cons.2 ⟨listing, more⟩⟩

end AnonymousHeader

/-- A scan goes by the first token that is none of those that parameters are written with. -/
theorem judge_anonymousHeader (rs : List Scanned) (count : Nat) :
    (TokenStream.judge Parser.anonymousHeader rs count).1 = true ↔
      AnonymousHeader (rs.map (·.token.kind)) := by
  induction rs generalizing count with
  | nil => exact iff_of_false Bool.false_ne_true fun header => header.ne_nil rfl
  | cons r rest inductionHypothesis =>
    rw [List.map_cons, AnonymousHeader.cons_iff, TokenStream.judge]
    generalize r.token.kind = kind
    cases asked : Parser.anonymousHeader kind with
    | proceed =>
      have listing : kind.isListing = true ∧ kind ≠ .kwIn := by
        unfold Parser.anonymousHeader at asked
        split at asked <;> first | decide | cases asked
      simp [inductionHypothesis, listing]
    | accept =>
      have word : kind = .kwIn := by
        unfold Parser.anonymousHeader at asked
        split at asked <;> first | rfl | cases asked
      simp [word]
    | reject =>
      have other : kind.isListing = false ∧ kind ≠ .kwIn := by
        refine ⟨?_, fun word => by simp [word, Parser.anonymousHeader] at asked⟩
        by_contra listing
        simp only [Bool.not_eq_false, TokenKind.isListing, List.mem_cons, List.not_mem_nil,
          or_false, decide_eq_true_eq] at listing
        rcases listing with rfl | rfl | rfl <;> simp [Parser.anonymousHeader] at asked
      simp [other]

/-! ## Parameters of the grammar -/

/-- Parts of rules for parameters. -/
inductive Listing : Item Nonterminal → Prop
  | token {kind} : kind.isListing = true → Listing (.token kind)
  | parlist : Listing (.rule .parlist)
  | namelist : Listing (.rule .namelist)
  | opt {items} : (∀ item ∈ items, Listing item) → Listing (.opt items)
  | many {items} : (∀ item ∈ items, Listing item) → Listing (.many items)

namespace Listing

theorem row {items : List (Item Nonterminal)} {n : Nonterminal} (h : Listing (.rule n))
    (among : items ∈ luaRules n) : ∀ item ∈ items, Listing item := by
  have name : Listing (.token .identifier) := .token rfl
  have comma : Listing (.token .comma) := .token rfl
  have dots : Listing (.token .vararg) := .token rfl
  cases h with
  | parlist =>
    simp only [luaRules, List.mem_cons, List.not_mem_nil, or_false] at among
    rcases among with rfl | rfl
    · simpa using ⟨Listing.namelist, .opt (by simpa using ⟨comma, dots⟩)⟩
    · simpa using dots
  | namelist =>
    simp only [luaRules, List.mem_singleton] at among
    subst among
    simpa using ⟨name, .many (by simpa using ⟨comma, name⟩)⟩

/-- Parameters are written with names, `...` and commas. -/
theorem derives {items : List (Item Nonterminal)} {w : List TokenKind}
    (h : Derives luaRules items w) (listing : ∀ item ∈ items, Listing item) :
    ∀ kind ∈ w, kind.isListing = true := by
  induction h with
  | nil => exact nofun
  | token _ inductionHypothesis =>
    obtain ⟨first, rest⟩ := List.forall_mem_cons.1 listing
    cases first with
    | token holds => exact List.forall_mem_cons.2 ⟨holds, inductionHypothesis rest⟩
  | rule membership _ _ body more =>
    obtain ⟨first, rest⟩ := List.forall_mem_cons.1 listing
    exact List.forall_mem_append.2 ⟨body (first.row membership), more rest⟩
  | skip _ inductionHypothesis | stop _ inductionHypothesis =>
    exact inductionHypothesis (List.forall_mem_cons.1 listing).2
  | take _ _ part more =>
    obtain ⟨first, rest⟩ := List.forall_mem_cons.1 listing
    cases first with
    | opt items => exact List.forall_mem_append.2 ⟨part items, more rest⟩
  | more _ _ part more =>
    obtain ⟨first, rest⟩ := List.forall_mem_cons.1 listing
    cases first with
    | many items => exact List.forall_mem_append.2 ⟨part items, more listing⟩

end Listing

/-! ## Before a header -/

/-- The kinds of the tokens that are left. -/
def TokenStream.kinds (s : TokenStream) : List TokenKind := s.ahead.map (·.token.kind)

@[simp]
theorem TokenStream.kinds_look (s : TokenStream) (count : Nat) : (s.look count).kinds = s.kinds := by
  simp [kinds]

theorem TokenStream.kinds_next (s : TokenStream) : s.next.2.kinds = s.kinds.tail := by
  rw [kinds, ahead_next, List.map_tail, kinds]

/-- A session of Mooc before a header of a function. -/
structure Session.BeforeHeader (s : Session) : Prop where
  mooc : s.settings.dialect = .mooc
  header : AnonymousHeader s.tokens.kinds

/-- A session before anything else. -/
structure Session.BeforeOther (s : Session) : Prop where
  ended : s.tokens.final.token.kind = .eof
  other : ¬ AnonymousHeader s.tokens.kinds

namespace Session

variable {s : Session} {kind : TokenKind}

theorem kinds_of_upcoming (ended : s.tokens.final.token.kind = .eof)
    (same : (s.tokens.upcoming 0).token.kind = kind) (more : kind ≠ .eof) :
    s.tokens.kinds = kind :: s.tokens.kinds.tail := by
  unfold TokenStream.upcoming at same
  unfold TokenStream.kinds
  cases ahead : s.tokens.ahead with
  | nil =>
    rw [ahead] at same
    exact absurd (same.symm.trans ended) more
  | cons r rest =>
    rw [ahead] at same
    rw [List.map_cons, List.tail_cons]
    exact congrArg (· :: _) same

namespace BeforeHeader

theorem look (h : s.BeforeHeader) (count : Nat) :
    BeforeHeader { s with tokens := s.tokens.look count } :=
  ⟨h.mooc, by simpa using h.header⟩

theorem kinds (h : s.BeforeHeader) :
    s.tokens.kinds = (s.tokens.upcoming 0).token.kind :: s.tokens.kinds.tail := by
  have more := h.header.ne_nil
  unfold TokenStream.kinds TokenStream.upcoming at *
  cases ahead : s.tokens.ahead with
  | nil => simp [ahead] at more
  | cons r rest => simp

theorem upcoming (h : s.BeforeHeader) : (s.tokens.upcoming 0).token.kind = .kwIn ∨
    (s.tokens.upcoming 0).token.kind = .identifier ∨
      (s.tokens.upcoming 0).token.kind = .vararg ∨ (s.tokens.upcoming 0).token.kind = .comma := by
  have header := h.header
  rw [h.kinds, AnonymousHeader.cons_iff] at header
  simpa [TokenKind.isListing] using header.imp_right And.left

theorem cases {kind : TokenKind}
    (h : ∃ s : Session, s.BeforeHeader ∧ (s.tokens.upcoming 0).token.kind = kind) :
    kind = .kwIn ∨ kind = .identifier ∨ kind = .vararg ∨ kind = .comma := by
  obtain ⟨s, holds, rfl⟩ := h
  exact holds.upcoming

theorem next (h : s.BeforeHeader) (other : (s.tokens.upcoming 0).token.kind ≠ .kwIn) :
    BeforeHeader { s with tokens := s.tokens.next.2 } := by
  have header := h.header
  rw [h.kinds, AnonymousHeader.cons_iff] at header
  exact ⟨h.mooc, s.tokens.kinds_next ▸ (header.resolve_left other).2⟩

end BeforeHeader

namespace BeforeOther

theorem look (h : s.BeforeOther) (count : Nat) :
    BeforeOther { s with tokens := s.tokens.look count } :=
  ⟨by simpa using h.ended, by simpa using h.other⟩

theorem upcoming_ne (h : s.BeforeOther) : (s.tokens.upcoming 0).token.kind ≠ .kwIn := by
  intro word
  have other := h.other
  rw [kinds_of_upcoming h.ended word (by decide), AnonymousHeader.cons_iff] at other
  exact other (.inl rfl)

theorem next (h : s.BeforeOther) (listing : (s.tokens.upcoming 0).token.kind.isListing = true) :
    BeforeOther { s with tokens := s.tokens.next.2 } := by
  have other := h.other
  have more : (s.tokens.upcoming 0).token.kind ≠ .eof := by
    intro ended
    simp [ended, TokenKind.isListing] at listing
  rw [kinds_of_upcoming h.ended rfl more, AnonymousHeader.cons_iff] at other
  refine ⟨s.tokens.final_next ▸ h.ended, fun header => other (.inr ⟨listing, ?_⟩)⟩
  exact s.tokens.kinds_next ▸ header

end BeforeOther

end Session

/-! ## Tables -/

namespace Parser

open Session

variable {r : Rules}

/-- Growth is the same at any site. -/
abbrev somewhere : Site := .inner []

/-- Before a header nothing but the tokens of the header is taken. -/
theorem next_header {kind : TokenKind} (other : kind ≠ .kwIn) :
    Records (fun s => s.BeforeHeader ∧ (s.tokens.upcoming 0).token.kind = kind) next
      fun _ => BeforeHeader :=
  .next fun _ holds => holds.1.next (holds.2.symm ▸ other)

theorem suffix_header (h : r.Gathers) (e : Exp) :
    Records BeforeHeader (suffix r e) fun _ => BeforeHeader := by
  refine .facing (suffix_gathers (w := somewhere) (k := {}) h e).grows (fun s h => h.look 1)
    fun kind facing => ?_
  rcases BeforeHeader.cases facing with rfl | rfl | rfl | rfl <;>
    exact Records.done (ForInStep.done e) fun _ => And.left

theorem prefixExp_header (h : r.Gathers) :
    Records BeforeHeader (prefixExp r) fun _ => BeforeHeader := by
  refine .facing (prefixExp_gathers (w := somewhere) (k := {}) h).grows (fun s h => h.look 1)
    fun kind facing => ?_
  have complaint : Records (fun s => s.BeforeHeader ∧ (s.tokens.upcoming 0).token.kind = kind)
      (do
        let token ← next
        complain (.unexpectedSymbol token.near) token.span
        return Exp.bad token.span) fun _ => BeforeHeader :=
    .bind (Q := fun _ _ => True) (.next fun _ _ => trivial) fun token =>
      .bind (.complain _ _) fun _ => .keep (Exp.bad token.span)
  rcases BeforeHeader.cases facing with rfl | rfl | rfl | rfl
  · exact complaint
  · exact .bind (next_header (by decide)) fun token =>
      .iterate (I := fun _ => BeforeHeader) (suffix_header h)
  · exact complaint
  · exact complaint

theorem primary_header (h : r.Gathers) :
    Records BeforeHeader (primary r) fun _ => BeforeHeader := by
  refine .facing (primary_gathers (w := somewhere) (k := {}) h).grows (fun s h => h.look 1)
    fun kind facing => ?_
  rcases BeforeHeader.cases facing with rfl | rfl | rfl | rfl
  · exact (prefixExp_header h).of fun _ => And.left
  · exact (prefixExp_header h).of fun _ => And.left
  · exact .bind (next_header (by decide)) fun token => .keep (Exp.vararg token.span)
  · exact (prefixExp_header h).of fun _ => And.left

theorem operand_header (h : r.Gathers) :
    Records BeforeHeader (operand r) fun _ => BeforeHeader := by
  refine .facing (operand_gathers (w := somewhere) (k := {}) h).grows (fun s h => h.look 1)
    fun kind facing => ?_
  rcases BeforeHeader.cases facing with rfl | rfl | rfl | rfl <;>
    exact (primary_header h).of fun _ => And.left

theorem infixOp_header (h : r.Gathers) (limit : Nat) (start : Span) (left : Exp) :
    Records BeforeHeader (infixOp r limit start left) fun _ => BeforeHeader := by
  refine .facing (infixOp_gathers (w := somewhere) (k := {}) h limit start left).grows
    (fun s h => h.look 1) fun kind facing => ?_
  rcases BeforeHeader.cases facing with rfl | rfl | rfl | rfl <;>
    exact Records.done (ForInStep.done left) fun _ => And.left

theorem operation_header (h : r.Gathers) (limit : Nat) :
    Records BeforeHeader (operation r limit) fun _ => BeforeHeader :=
  .bind (Q := fun _ => BeforeHeader) (.act (fun _ => rfl) (fun _ => rfl) fun _ holds => holds.look 1)
    fun start => .bind (operand_header h) fun _ =>
      .iterate (I := fun _ => BeforeHeader) (infixOp_header h limit start)

theorem level_exp_header (n : Nat) :
    Records BeforeHeader (Rules.level n).exp fun _ => BeforeHeader := by
  cases n with
  | zero => exact .tooDeep
  | succ n =>
    exact .nested (operation_header (Rules.level_gathers n) 0)
      (fun _ _ holds => ⟨holds.mooc, holds.header⟩) fun _ _ _ holds => ⟨holds.mooc, holds.header⟩

section Fields

variable {kind second : TokenKind}

theorem ne_of_header {s : Session} (h : s.BeforeHeader) (word : kind ≠ .kwIn)
    (other : kind.isListing = false) : (s.tokens.upcoming 0).token.kind ≠ kind := by
  rintro rfl
  rcases h.upcoming with same | same | same | same <;> simp [same, TokenKind.isListing] at word other

theorem accepts_header (word : kind ≠ .kwIn) (other : kind.isListing = false) :
    Records BeforeHeader (accepts kind) fun found s => s.BeforeHeader ∧ found = false :=
  .accepts (fun _ holds => holds.look 1)
    (fun _ holds same => absurd same (ne_of_header holds word other)) fun _ holds _ => ⟨holds, rfl⟩

theorem peekPair_header (word : kind ≠ .kwIn) (other : kind.isListing = false) :
    Records BeforeHeader (onTokens (·.peekPair kind second))
      fun found s => s.BeforeHeader ∧ found = false := by
  refine .peekPair fun s count holds => ⟨holds.look count, ?_⟩
  unfold TokenStream.peekPair
  rw [if_neg (ne_of_header holds word other)]

theorem atLiteralKey_header :
    Records BeforeHeader atLiteralKey fun found s => s.BeforeHeader ∧ found = false :=
  .bind (peekPair_header (by decide) rfl) fun _ => .second (.pure true)
    (peekPair_header (by decide) rfl)

variable (h : r.Gathers) (exp : Records BeforeHeader r.exp fun _ => BeforeHeader)

include h exp

theorem plainField_header : Records BeforeHeader (plainField r) fun _ => BeforeHeader := by
  refine .bind exp fun e => ?_
  split
  · exact .bind (accepts_header (by decide) rfl) fun _ => .second
      (.bind (exp_gathers (w := somewhere) (k := {}) h).grows fun _ => .pure _) (.keep _)
  · exact .keep _

theorem field_header : Records BeforeHeader (field r) fun _ => BeforeHeader := by
  have value : Grows r.exp := (exp_gathers (w := somewhere) (k := {}) h).grows
  refine .bind (accepts_header (by decide) rfl) fun _ => .second
    (bracketedField_gathers (w := somewhere) (k := {}) h).grows ?_
  refine .bind (.isMooc (Q := fun _ => BeforeHeader) fun _ holds => holds) fun mooc => .ite
    ((plainField_header h exp).of fun _ => And.left) ?_
  suffices Records BeforeHeader _ fun _ => BeforeHeader from this.of fun _ => And.left
  refine .bind atLiteralKey_header fun _ => .second
    (.bind value fun _ => .bind (Grows.steps.expect _) fun _ => .bind value fun _ => .pure _) ?_
  exact .bind (peekPair_header (by decide) rfl) fun _ => .second
    (.bind Grows.steps.next fun _ => .bind Grows.steps.expectName fun _ => .pure _)
    (plainField_header h exp)

theorem moreFields_header (fields : Array (Option Exp × Exp)) :
    Records BeforeHeader (moreFields r fields) fun _ => BeforeHeader := by
  refine .facing (moreFields_gathers (w := somewhere) (k := {}) h fields).grows
    (fun s h => h.look 1) fun kind facing => ?_
  have more : kind ≠ .rbrace := by
    rcases BeforeHeader.cases facing with rfl | rfl | rfl | rfl <;> decide
  rw [if_neg more]
  refine .bind ((field_header h exp).of fun _ => And.left) fun f => ?_
  refine .bind (Q := fun kind s => s.BeforeHeader ∧ (s.tokens.upcoming 0).token.kind = kind)
    (.peek fun s holds => ⟨holds.look 1, by simp⟩) fun kind => .ite ?_ ?_
  · refine .bind (.next (Q := fun _ => BeforeHeader) fun s holds => ?_) fun _ => .keep _
    refine holds.1.1.next fun word => ?_
    rcases holds.2 with rfl | rfl <;> simp [word] at holds
  · exact .done _ fun _ holds => holds.1.1

/-- The fields of a table end before `in`, where no brace closes it. -/
theorem table_header : Records (fun s => s.settings.dialect = .mooc ∧
      AnonymousHeader s.tokens.kinds.tail) (table r) fun _ _ => False := by
  refine .bind (Q := fun _ => BeforeHeader) (.expect fun s holds _ =>
    ⟨holds.1, s.tokens.kinds_next ▸ holds.2⟩) fun brace => ?_
  refine .bind (.iterate (I := fun _ => BeforeHeader) (moreFields_header h exp)) fun fields => ?_
  refine .bind (Q := fun _ _ => False) (.expect fun s holds same =>
    ne_of_header holds (by decide) rfl same) fun _ => .never ?_ fun _ => id
  exact .bind (Grows.steps.since _) fun _ => Grows.steps.ask _ fun _ _ => rfl

end Fields

theorem level_table_header (n : Nat) : Records (fun s => s.settings.dialect = .mooc ∧
      AnonymousHeader s.tokens.kinds.tail) (Rules.level n).table fun _ _ => False := by
  cases n with
  | zero => exact .tooDeep
  | succ n =>
    exact .nested (table_header (Rules.level_gathers n) (level_exp_header n))
      (fun _ _ holds => holds) fun _ _ _ => id

/-! ## Functions -/

theorem next_other (kind : TokenKind) (listing : kind.isListing = true) :
    Records (fun s => s.BeforeOther ∧ (s.tokens.upcoming 0).token.kind = kind) next
      fun _ => BeforeOther :=
  .next fun _ holds => holds.1.next (holds.2.symm ▸ listing)

theorem moreParams_other (read : Array Param × Bool) :
    Records BeforeOther (moreParams read) fun _ => BeforeOther := by
  refine .bind (Q := fun _ => BeforeOther) (.accepts (fun _ holds => holds.look 1)
    (fun s holds same => holds.next (same ▸ rfl)) fun _ holds _ => holds) fun more => .ite ?_ ?_
  · suffices Records BeforeOther _ fun _ => BeforeOther from this.of fun _ => And.left
    refine .bind (Q := fun kind s => s.BeforeOther ∧ (s.tokens.upcoming 0).token.kind = kind)
      (.peek fun s holds => ⟨holds.look 1, by simp⟩) fun kind => .ite ?_ ?_
    · exact .bind ((next_other .identifier rfl).of fun _ holds => holds.2 ▸ holds.1)
        fun _ => .keep _
    · exact .bind (.expect (Q := fun _ => BeforeOther) fun s holds same =>
        holds.1.1.next (same ▸ rfl)) fun _ => .keep _
  · exact .done _ fun _ => And.left

theorem params_other : Records BeforeOther params fun _ => BeforeOther := by
  refine .bind (Q := fun kind s => s.BeforeOther ∧ (s.tokens.upcoming 0).token.kind = kind)
    (.peek fun s holds => ⟨holds.look 1, by simp⟩) fun kind => ?_
  refine .bind (.isMooc (Q := fun _ s => s.BeforeOther ∧ (s.tokens.upcoming 0).token.kind = kind)
    fun _ holds => holds) fun mooc => .ite (.done _ fun _ holds => holds.1.1) (.ite ?_ ?_)
  · exact .bind (.next (Q := fun _ => BeforeOther) fun s holds =>
      holds.1.1.1.next (by rw [holds.1.1.2, holds.2]; rfl)) fun _ => .keep _
  · refine .bind (.expectName (Q := fun _ => BeforeOther) fun s holds same =>
      holds.1.1.1.next (same ▸ rfl)) fun first => ?_
    exact .bind (.iterate (I := fun _ => BeforeOther) moreParams_other) fun read => .keep _

/-- Behind the parameters of a function stands `in`. -/
theorem functionBody_other (h : r.Gathers) : Records (fun s => s.tokens.final.token.kind = .eof ∧
      ¬ AnonymousHeader s.tokens.kinds.tail) (functionBody r .anonymous) fun _ _ => False := by
  refine .bind (Q := fun _ => BeforeOther) (.expect fun s holds _ =>
    ⟨s.tokens.final_next ▸ holds.1, s.tokens.kinds_next ▸ holds.2⟩) fun brace => ?_
  refine .bind params_other fun read => ?_
  refine .bind (Q := fun _ _ => False) (.bind (Q := fun _ _ => False) (.expect fun s holds same =>
    holds.upcoming_ne same) fun _ => .keep ()) fun _ => .never ?_ fun _ => id
  exact .bind (Grows.closed.within _ _ (h.block somewhere).grows) fun _ =>
    .bind (Grows.steps.expect _) fun _ => .pure _

theorem level_functionBody_other (n : Nat) : Records (fun s => s.tokens.final.token.kind = .eof ∧
      ¬ AnonymousHeader s.tokens.kinds.tail) ((Rules.level n).functionBody .anonymous)
        fun _ _ => False := by
  cases n with
  | zero => exact .tooDeep
  | succ n =>
    exact .nested (functionBody_other (Rules.level_gathers n)) (fun _ _ holds => holds)
      fun _ _ _ => id

end Parser

/-! ## The way that is taken -/

namespace Session

open LuaChunk.Parser

variable {s : Session}

theorem peekWhile_brace (brace : (s.tokens.upcoming 0).token.kind = .lbrace) :
    ∃ accepts count, s.tokens.peekWhile .lbrace anonymousHeader = (accepts, s.tokens.look count) ∧
      (accepts = true ↔ AnonymousHeader s.tokens.kinds.tail) := by
  refine ⟨_, _, by rw [TokenStream.peekWhile, if_pos brace], ?_⟩
  rw [judge_anonymousHeader, List.drop_one, List.map_tail, TokenStream.kinds]

theorem atAnonymousFunction_brace (mooc : s.settings.dialect = .mooc)
    (brace : (s.tokens.upcoming 0).token.kind = .lbrace) :
    ∃ accepts count,
      atAnonymousFunction s = .ok accepts { s with tokens := s.tokens.look count } ∧
        (accepts = true ↔ AnonymousHeader s.tokens.kinds.tail) := by
  obtain ⟨accepts, count, asked, header⟩ := peekWhile_brace brace
  refine ⟨accepts, count, ?_, header⟩
  rw [atAnonymousFunction, isMooc_bind, mooc]
  change onTokens (·.peekWhile .lbrace anonymousHeader) s = _
  rw [onTokens, asked]

theorem primary_brace {r : Rules} {accepts : Bool} (mooc : s.settings.dialect = .mooc)
    (brace : (s.tokens.upcoming 0).token.kind = .lbrace)
    (header : accepts = true ↔ AnonymousHeader s.tokens.kinds.tail) :
    ∃ looked : TokenStream, looked.ahead = s.tokens.ahead ∧
      primary r s = (if accepts then functionExp r .anonymous (s.tokens.upcoming 0).token.span
        else r.table) { s with tokens := looked } := by
  obtain ⟨again, count, asked, header'⟩ :=
    atAnonymousFunction_brace (s := { s with tokens := s.tokens.look 1 }) mooc (by simpa using brace)
  obtain rfl : accepts = again := by
    rw [Bool.eq_iff_iff, header, header']
    simp
  cases accepts with
  | false =>
    refine ⟨(s.tokens.look 1).look count, by simp, ?_⟩
    unfold primary
    rw [peek_bind, brace]
    exact bind_of_ok asked _
  | true =>
    refine ⟨((s.tokens.look 1).look count).look 1, by simp, ?_⟩
    unfold primary
    rw [peek_bind, brace]
    refine (bind_of_ok asked _).trans ?_
    rw [if_pos rfl, head_bind]
    simp

/-- **A brace is never mistaken.**  The scan from a brace of Mooc takes no token, and finds a function
exactly if names, `...` and commas up to `in` stand behind the brace, which all parameters of the
grammar do.  Where it finds a function, reading a table instead would record something, whatever
follows; and where it finds none, reading a function would. -/
theorem anonymous_scan (mooc : s.settings.dialect = .mooc)
    (brace : (s.tokens.upcoming 0).token.kind = .lbrace)
    (ended : s.tokens.final.token.kind = .eof) :
    ∃ accepts count,
      atAnonymousFunction s = .ok accepts { s with tokens := s.tokens.look count } ∧
      (s.tokens.look count).ahead = s.tokens.ahead ∧
      (accepts = true ↔ ∃ header rest, s.tokens.kinds.tail = header ++ .kwIn :: rest ∧
        ∀ kind ∈ header, kind = .identifier ∨ kind = .vararg ∨ kind = .comma) ∧
      (∀ params rest, Derives luaRules [.opt [.rule .parlist]] params →
        s.tokens.kinds.tail = params ++ .kwIn :: rest → accepts = true) ∧
      (accepts = true → ∀ n, s.errors.length < (last ((Rules.level n).table s)).errors.length) ∧
      (accepts = false → ∀ n,
        s.errors.length < (last ((Rules.level n).functionBody .anonymous s)).errors.length) ∧
      ∀ r, ∃ looked : TokenStream, looked.ahead = s.tokens.ahead ∧
        primary r s = (if accepts then functionExp r .anonymous (s.tokens.upcoming 0).token.span
          else r.table) { s with tokens := looked } := by
  obtain ⟨accepts, count, asked, header⟩ := atAnonymousFunction_brace mooc brace
  have more {α : Type} {P : Session → Prop} {p : Parser α} (h : Records P p fun _ _ => False)
      (holds : P s) : s.errors.length < (last (p s)).errors.length := by
    have grows := ((h s).2 holds).resolve_right fun ⟨_, _, _, no⟩ => no
    simpa [errors] using grows
  refine ⟨accepts, count, asked, by simp, header.trans ?_, fun params rest derived same => ?_,
    fun found n => more (level_table_header n) ⟨mooc, header.1 found⟩,
    fun found n => more (level_functionBody_other n) ⟨ended, fun holds => ?_⟩,
    fun r => primary_brace mooc brace header⟩
  · simp [AnonymousHeader, TokenKind.isListing]
  · refine header.2 ⟨params, rest, same, Listing.derives derived ?_⟩
    simpa using Listing.opt (by simpa using Listing.parlist)
  · exact Bool.false_ne_true (found.symm.trans (header.2 holds))

/-- A function that gives its first argument back, and the rest. -/
theorem anonymous_scan_two :
    let s := start "\x7ba, ... in return a \x7d".toUTF8.toList "" { dialect := .mooc }
    (∃ count, atAnonymousFunction s = .ok true { s with tokens := s.tokens.look count }) ∧
      ∀ n, s.errors.length < (last ((Rules.level n).table s)).errors.length := by
  intro s
  obtain ⟨accepts, count, asked, -, header, -, table, -⟩ :=
    anonymous_scan (s := s) rfl (by decide +kernel) (by decide +kernel)
  have found : accepts = true := header.2
    ⟨[.identifier, .comma, .vararg], [.kwReturn, .identifier, .rbrace], by decide +kernel, by simp⟩
  exact ⟨⟨count, found ▸ asked⟩, table found⟩

end Session

end LuaChunk
