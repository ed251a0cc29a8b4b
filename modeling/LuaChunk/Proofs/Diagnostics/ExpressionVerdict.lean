import LuaChunk.CommandLine
import LuaChunk.Proofs.Grammar.Acceptance
import LuaChunk.Proofs.Replay.Fragment
import LuaChunk.Proofs.Shapes.Mooc

/-!
# What passes for an expression

The command that reads expressions goes by the root of what has been read, and by whether reading has
been stopped.  It does not ask whether anything has been complained of, nor whether a token is left.
So a text passes as soon as its first token begins an expression, or an operator stands behind it.
-/

set_option autoImplicit false

namespace LuaChunk

/-- An expression of Lua may begin with a token of this kind. -/
def TokenKind.beginsExp (kind : TokenKind) : Bool :=
  (UnaryOp.ofToken? kind).isSome || kind ∈
    [.vararg, .kwNil, .kwTrue, .kwFalse, .string, .number, .lbrace, .kwFunction, .identifier, .lparen]

namespace Parser

variable {α : Type} {r : Rules} {s t : Session} {e : Exp}

/-! ## Tokens that are left -/

theorem record_tokens {d : Diagnostic} {u : Unit} (run : record d s = .ok u t) :
    t.tokens = s.tokens := by
  have ends := record_ends d s
  rw [run] at ends
  rw [ends.2]

/-- Recording errors takes no token. -/
theorem drain_upcoming {f : TokenStream → List LexicalError × TokenStream} {u : Unit}
    (drains : ∀ t, ∃ rest, (f t).2 = { t with pending := rest })
    (run : (do recordAll (← onTokens f)) s = .ok u t) (n : Nat) :
    t.tokens.upcoming n = s.tokens.upcoming n := by
  obtain ⟨errors, v, asked, run⟩ := bind_eq_ok.1 run
  obtain ⟨rest, drained⟩ := drains s.tokens
  cases asked
  have same := Session.recordAll_tokens (f s.tokens).1 { s with tokens := (f s.tokens).2 }
  rw [run] at same
  rw [show t.tokens = _ from same, drained]
  rfl

theorem complain_upcoming {cause : Cause} {span : Span} {u : Unit}
    (run : complain cause span s = .ok u t) (n : Nat) :
    t.tokens.upcoming n = s.tokens.upcoming n := by
  obtain ⟨_, v, synced, recorded⟩ := bind_eq_ok.1 run
  rw [record_tokens recorded]
  exact drain_upcoming (fun _ => ⟨_, rfl⟩) synced n

theorem next_upcoming {a : Token} (run : next s = .ok a t) (n : Nat) :
    t.tokens.upcoming n = s.tokens.upcoming (n + 1) := by
  obtain ⟨b, u, taken, run⟩ := bind_eq_ok.1 run
  obtain ⟨rfl, rfl⟩ : s.tokens.next.1 = b ∧ { s with tokens := s.tokens.next.2 } = u := by
    cases taken
    exact ⟨rfl, rfl⟩
  have advanced : s.tokens.next.2.upcoming n = s.tokens.upcoming (n + 1) := by
    unfold TokenStream.upcoming
    rw [TokenStream.ahead_next, TokenStream.final_next, List.getElem?_tail]
  rw [← advanced]
  by_cases last : s.tokens.next.1.kind = .eof
  · rw [if_pos last, ← bind_assoc] at run
    obtain ⟨_, v, drained, run⟩ := bind_eq_ok.1 run
    obtain ⟨-, rfl⟩ := pure_eq_ok.1 run
    exact drain_upcoming (fun _ => ⟨_, rfl⟩) drained n
  · rw [if_neg last] at run
    obtain ⟨_, v, drained, run⟩ := bind_eq_ok.1 run
    obtain ⟨-, rfl⟩ := pure_eq_ok.1 run
    exact drain_upcoming (fun _ => ⟨_, rfl⟩) drained n

/-! ## Where nothing could be read -/

theorem isBad_of_isPrefix (h : e.isPrefix = true) : e.isBad = false := by
  cases e <;> first | rfl | cases h

section Fine

variable {c : Settings} (h : r.Shapely c)

include h

theorem suffixes_fine {x : Exp} (holds : IsPrefix c.fieldCap x) :
    Yields c (iterate x (suffix r)) fun e => e.isBad = false :=
  (Yields.loop _ holds fun _ => suffix_yields h).mono fun _ shape => isBad_of_isPrefix shape.1

theorem functionExp_fine (style : FunctionStyle) (start : Span) :
    Yields c (functionExp r style start) fun e => e.isBad = false :=
  .bind (h.functionBody style) fun _ _ => .ending (.since _) fun _ => rfl

theorem table_fine : Yields c (table r) fun e => e.isBad = false := by
  refine .andThen (.expect .lbrace) fun _ => .andThen (.mono (.loop (fun _ => True) trivial
    fun fields _ => ?_) fun _ _ => trivial) fun _ => .andThen (.expect .rbrace) fun _ =>
    .andThen (.since _) fun _ => .map .get fun _ _ => rfl
  exact .andThen .peek fun _ => .ite (fun _ => .done _) fun _ => .bind (field_yields h) fun _ _ =>
    .andThen .peek fun _ => .ite (fun _ => .andThen .next fun _ => .done _) fun _ => .done _

end Fine

theorem level_table_fine {c : Settings} (n : Nat) :
    Yields c (Rules.level n).table fun e => e.isBad = false := by
  cases n with
  | zero => exact .tooDeep
  | succ n => exact .nested (table_fine (Rules.level_shapely n))

theorem literal_fine {c : Settings} {exp : Span → Exp} (fine : ∀ span, (exp span).isBad = false) :
    Yields c (literal exp) fun e => e.isBad = false :=
  .ending .next fun _ => fine _

theorem numeral_fine {c : Settings} : Yields c numeral fun e => e.isBad = false := by
  refine .andThen .next fun token => ?_
  split
  · exact .pure rfl
  · exact .pure rfl
  · exact .andThen (.complain _ _) fun _ => .pure rfl

/-- A token that no name and no parenthesis is is read as nothing, and passed over. -/
theorem prefixExp_verdict (h : r.Shapely s.settings) (run : prefixExp r s = .ok e t) :
    (e.isBad = true ↔ (s.tokens.upcoming 0).token.kind ≠ .identifier ∧
        (s.tokens.upcoming 0).token.kind ≠ .lparen) ∧
      (e.isBad = true → t.tokens.upcoming 0 = s.tokens.upcoming 1) := by
  unfold prefixExp at run
  rw [peek_bind] at run
  generalize (s.tokens.upcoming 0).token.kind = kind at run ⊢
  have fine {p : Parser Exp} (yields : Yields s.settings p fun e => e.isBad = false)
      (run : p { s with tokens := s.tokens.look 1 } = .ok e t) : e.isBad = false :=
    (yields { s with tokens := s.tokens.look 1 } e t rfl run).2
  split at run
  next =>
    have read := fine (.andThen .next fun _ => suffixes_fine h (by grind)) run
    simp [read]
  next =>
    have read := fine (.andThen .next fun _ => .bind h.parenthesised fun _ _ =>
      .andThen (.expect .rparen) fun _ => .andThen (.since _) fun _ => suffixes_fine h (by grind)) run
    simp [read]
  next name paren =>
    obtain ⟨token, u, taken, run⟩ := bind_eq_ok.1 run
    obtain ⟨_, v, complained, run⟩ := bind_eq_ok.1 run
    obtain ⟨rfl, rfl⟩ := pure_eq_ok.1 run
    refine ⟨⟨fun _ => ⟨name, paren⟩, fun _ => rfl⟩, fun _ => ?_⟩
    rw [complain_upcoming complained, next_upcoming taken, TokenStream.upcoming_look]

/-- An operand could be read where an expression of Lua may begin. -/
theorem operand_verdict {n : Nat} (lua : s.settings.dialect = .lua)
    (other : (s.tokens.upcoming 0).token.kind ≠ .kwFn) (run : operand (.level n) s = .ok e t) :
    (e.isBad = true ↔ (s.tokens.upcoming 0).token.kind.beginsExp = false) ∧
      (e.isBad = true → t.tokens.upcoming 0 = s.tokens.upcoming 1) := by
  have h : (Rules.level n).Shapely s.settings := Rules.level_shapely n
  have fine {p : Parser Exp} {u : TokenStream} (yields : Yields s.settings p fun e => e.isBad = false)
      (run : p { s with tokens := u } = .ok e t) : e.isBad = false :=
    (yields { s with tokens := u } e t rfl run).2
  unfold operand at run
  rw [peek_bind] at run
  cases prefixed : UnaryOp.ofToken? (s.tokens.upcoming 0).token.kind with
  | some op =>
    rw [prefixed] at run
    have read := fine (.andThen .next fun _ => .bind (h.operation _) fun _ _ =>
      .ending (.since _) fun _ => rfl) run
    simp [read, TokenKind.beginsExp, prefixed]
  | none =>
    rw [prefixed] at run
    change primary _ _ = _ at run
    unfold primary at run
    rw [peek_bind, TokenStream.upcoming_look] at run
    have rest := prefixExp_verdict (r := .level n) (e := e) (t := t)
      (s := { s with tokens := (s.tokens.look 1).look 1 }) h
    simp only [TokenStream.upcoming_look] at rest
    generalize (s.tokens.upcoming 0).token.kind = kind at run other prefixed rest ⊢
    split at run
    next => simp [fine (literal_fine fun _ => rfl) run, TokenKind.beginsExp]
    next => simp [fine (literal_fine fun _ => rfl) run, TokenKind.beginsExp]
    next => simp [fine (literal_fine fun _ => rfl) run, TokenKind.beginsExp]
    next => simp [fine (literal_fine fun _ => rfl) run, TokenKind.beginsExp]
    next => simp [fine (.andThen .next fun _ => .pure rfl) run, TokenKind.beginsExp]
    next => simp [fine numeral_fine run, TokenKind.beginsExp]
    next =>
      have read := fine (.andThen atAnonymousFunction_runs fun _ => .ite
        (fun _ => .andThen .head fun _ => functionExp_fine h _ _) fun _ => level_table_fine n) run
      simp [read, TokenKind.beginsExp]
    next =>
      rw [isMooc_bind, show (s.settings.dialect == .mooc) = false by simp [lua]] at run
      have read := fine (.andThen .next fun _ => functionExp_fine h _ _) run
      simp [read, TokenKind.beginsExp]
    next => exact absurd rfl other
    next =>
      obtain ⟨bad, behind⟩ := rest run
      refine ⟨bad.trans ?_, behind⟩
      simp_all [TokenKind.beginsExp]

/-! ## Operators behind it -/

/-- A round of the loop over operators goes on exactly if an operator is ahead, and then there is
something. -/
theorem infixOp_verdict {start : Span} {x : Exp} {next : ForInStep Exp}
    (run : infixOp r 0 start x s = .ok next t) :
    BinaryOp.ofToken? (s.tokens.upcoming 0).token.kind = none ∧ next = .done x ∨
      BinaryOp.ofToken? (s.tokens.upcoming 0).token.kind ≠ none ∧
        ∃ y, next = .yield y ∧ y.isBad = false := by
  unfold infixOp at run
  rw [peek_bind] at run
  generalize BinaryOp.ofToken? (s.tokens.upcoming 0).token.kind = found at run ⊢
  cases found with
  | none =>
    obtain ⟨rfl, -⟩ := pure_eq_ok.1 run
    exact .inl ⟨rfl, rfl⟩
  | some op =>
    dsimp only at run
    have above : ¬ op.priority ≤ 0 := by cases op <;> decide
    rw [if_neg above] at run
    obtain ⟨_, _, _, run⟩ := bind_eq_ok.1 run
    obtain ⟨_, _, _, run⟩ := bind_eq_ok.1 run
    obtain ⟨_, _, _, run⟩ := bind_eq_ok.1 run
    obtain ⟨rfl, -⟩ := pure_eq_ok.1 run
    exact .inr ⟨nofun, _, rfl, rfl⟩

theorem operators_verdict {start : Span} {x : Exp}
    (run : iterate x (infixOp r 0 start) s = .ok e t) :
    e.isBad = true ↔
      x.isBad = true ∧ BinaryOp.ofToken? (s.tokens.upcoming 0).token.kind = none := by
  change iterateFor (infixOp r 0 start) s.tokens.ahead x s = .ok e t at run
  generalize s.tokens.ahead = clock at run
  induction clock generalizing x s with
  | nil =>
    obtain ⟨next, u, once, rest⟩ := bind_eq_ok.1 run
    rcases infixOp_verdict once with ⟨none, rfl⟩ | ⟨some, y, rfl, fine⟩
    · obtain ⟨rfl, -⟩ := pure_eq_ok.1 rest
      simp [none]
    · obtain ⟨rfl, -⟩ := pure_eq_ok.1 rest
      simp [some, fine]
  | cons _ clock inductionHypothesis =>
    obtain ⟨next, u, once, rest⟩ := bind_eq_ok.1 run
    rcases infixOp_verdict once with ⟨none, rfl⟩ | ⟨some, y, rfl, fine⟩
    · obtain ⟨rfl, -⟩ := pure_eq_ok.1 rest
      simp [none]
    · rw [inductionHypothesis rest]
      simp [some, fine]

/-- Nothing could be read exactly where no expression begins and no operator stands behind the token
that is passed over. -/
theorem exp_verdict {n : Nat} (lua : s.settings.dialect = .lua)
    (other : (s.tokens.upcoming 0).token.kind ≠ .kwFn) (run : (Rules.level n).exp s = .ok e t) :
    e.isBad = true ↔ (s.tokens.upcoming 0).token.kind.beginsExp = false ∧
      BinaryOp.ofToken? (s.tokens.upcoming 1).token.kind = none := by
  cases n with
  | zero => exact absurd run tooDeep_ne_ok
  | succ n =>
    obtain ⟨u, ran, rfl⟩ := nested_eq_ok.1 run
    change operation (.level n) 0 _ = _ at ran
    unfold operation at ran
    rw [head_bind] at ran
    obtain ⟨x, v, read, ran⟩ := bind_eq_ok.1 ran
    have operand := operand_verdict
      (s := { s with depth := s.depth + 1, tokens := s.tokens.look 1 }) lua (by simpa using other) read
    simp only [TokenStream.upcoming_look] at operand
    rw [operators_verdict ran, operand.1]
    refine and_congr_right fun begins => ?_
    rw [operand.2 (operand.1.2 begins)]

end Parser

namespace Session

variable {source : List UInt8} {name : String} {settings : Settings}

/-- Words of Mooc are names in Lua. -/
theorem start_kind_ne_kwFn (lua : settings.dialect = .lua) :
    ((start source name settings).tokens.upcoming 0).token.kind ≠ .kwFn := by
  have found := Scanner.run_finds settings.dialect (Scanner.ofBytes source)
  have reserved := found.all (P := fun r => r.token.kind ∈ TokenKind.moocKeywords →
    settings.dialect = .mooc) fun s _ => s.scan_reserved _
  intro word
  change ((Scanner.run settings.dialect (.ofBytes source)).1[0]?.getD
    (Scanner.run settings.dialect (.ofBytes source)).2).token.kind = .kwFn at word
  cases tokens : (Scanner.run settings.dialect (.ofBytes source)).1 with
  | nil => simp [tokens, found.final_kind] at word
  | cons r rest =>
    rw [tokens] at word
    have first : r.token.kind = .kwFn := by simpa [tokens] using word
    have mooc := reserved r (tokens ▸ .head _) (first ▸ by decide)
    rw [lua] at mooc
    cases mooc

end Session

namespace CommandLine

/-- Before a text that is given as an expression. -/
def opening (text : String) : Session := .start text.toUTF8.toList "" {}

/-- The text is an expression and nothing else: it is read without a complaint, up to its end. -/
def IsExpression (text : String) : Prop :=
  (opening text).exp.1.isSome = true ∧ (opening text).exp.2.errors = [] ∧
    ((opening text).exp.2.tokens.upcoming 0).token.kind = .eof

instance (text : String) : Decidable (IsExpression text) :=
  inferInstanceAs (Decidable (_ ∧ _ ∧ _))

/-- Reading is not stopped, and an expression begins there or an operator stands behind the first
token. -/
def Passes (text : String) : Prop :=
  (opening text).exp.1.isSome = true ∧
    (((opening text).tokens.upcoming 0).token.kind.beginsExp = true ∨
      BinaryOp.ofToken? ((opening text).tokens.upcoming 1).token.kind ≠ none)

instance (text : String) : Decidable (Passes text) := inferInstanceAs (Decidable (_ ∧ (_ ∨ _)))

theorem passes_iff {text : String} :
    Passes text ↔ ∃ e, (opening text).exp.1 = some e ∧ e.isBad = false := by
  unfold Passes Session.exp
  rw [show (opening text).rules = .level 200 from rfl]
  cases run : (Rules.level 200).exp (opening text) with
  | error _ t => simp
  | ok e t =>
    have verdict := Parser.exp_verdict (s := opening text) rfl (Session.start_kind_ne_kwFn rfl) run
    have fine : e.isBad = false ↔
        ((opening text).tokens.upcoming 0).token.kind.beginsExp = true ∨
          BinaryOp.ofToken? ((opening text).tokens.upcoming 1).token.kind ≠ none := by
      rw [← Bool.not_eq_true, verdict, not_and_or, Bool.not_eq_false]
    simp [fine]

/-- An expression that the tokens spell has been read as something. -/
theorem exp_isBad {c : Text} {i o : Place c} {e : Exp} (h : Spells i (.exp e) o) :
    e.isBad = false := by
  cases h with
  | prefixed spelled => exact Parser.prefixExp_isBad spelled
  | tableExp spelled => cases spelled; rfl
  | _ => rfl

/-- All tokens of a text that is an expression are one by the grammar. -/
theorem IsExpression.derives {text : String} (h : IsExpression text) :
    Passes text ∧
      Grammar.Derives luaRules [.rule .exp] ((opening text).tokens.ahead.map (·.token.kind)) := by
  obtain ⟨returns, clean, ended⟩ := h
  obtain ⟨e, found⟩ := Option.isSome_iff_exists.1 returns
  obtain ⟨c, same, tokens, o, standing, spelled⟩ :=
    Session.exp_spells (s := (opening text).exp.2) (Prod.ext found rfl) clean
  refine ⟨passes_iff.2 ⟨e, found, exp_isBad spelled⟩, ?_⟩
  have nothing : o.ahead = [] := by
    rw [standing.upcoming] at ended
    cases left : o.ahead with
    | nil => rfl
    | cons t rest =>
      have more := c.not_eof t (o.mem (by simp [left]))
      simp [Place.token, left, more] at ended
  have lua : c.dialect = .lua := congrArg Settings.dialect same
  obtain ⟨w, covered, derived⟩ := spelled.derived lua
  have all : (opening text).tokens.ahead.map (·.token.kind) = w := by
    rw [nothing, List.map_nil, List.append_nil] at covered
    have scanned : c.first.ahead = (opening text).tokens.ahead.map (·.token) := tokens
    rw [← covered, scanned, List.map_map]
    rfl
  exact all ▸ derived

theorem expr_of_passes {text : String} (h : Passes text) :
    ∃ e, analyzeExp text.toUTF8.toList = some e ∧
      expr text = { failed := false, stdout := line e.text } := by
  obtain ⟨e, found, fine⟩ := passes_iff.1 h
  have read : analyzeExp text.toUTF8.toList = some e := found
  refine ⟨e, read, ?_⟩
  unfold expr
  rw [read]
  simp [fine]

theorem expr_of_not_passes {text : String} (h : ¬ Passes text) :
    expr text = { failed := true, stderr := line (text ++ ": not an expression") } := by
  unfold expr
  cases read : analyzeExp text.toUTF8.toList with
  | none => rfl
  | some e =>
    have bad : e.isBad = true := by
      by_contra fine
      exact h (passes_iff.2 ⟨e, read, Bool.eq_false_iff.2 fine⟩)
    simp [bad]

theorem failed_expr (text : String) : (expr text).failed = !decide (Passes text) := by
  by_cases h : Passes text
  · obtain ⟨e, -, printed⟩ := expr_of_passes h
    simp [printed, h]
  · simp [expr_of_not_passes h, h]

/-- **What passes for an expression.**  A text is printed if its first token begins an expression or
an operator stands behind that token, and reading is not stopped; otherwise it is refused.  Every
text that is an expression passes, but not only those. -/
theorem expr_verdict (text : String) :
    (Passes text → ∃ e, analyzeExp text.toUTF8.toList = some e ∧
      expr text = { failed := false, stdout := line e.text }) ∧
    (¬ Passes text → expr text = { failed := true, stderr := line (text ++ ": not an expression") }) ∧
    (IsExpression text → Passes text ∧
      Grammar.Derives luaRules [.rule .exp] ((opening text).tokens.ahead.map (·.token.kind))) ∧
    ∀ files others, (run files ("expr" :: text :: others)).exit =
      if ∀ x ∈ text :: others, Passes x then 0 else 1 := by
  refine ⟨expr_of_passes, expr_of_not_passes, IsExpression.derives, fun files others => ?_⟩
  have ran : run files ("expr" :: text :: others) = report ((text :: others).map expr) := by
    simp [run, Command.ofName?, Command.outcome]
  have any : ((text :: others).map expr).any (·.failed) =
      !decide (∀ x ∈ text :: others, Passes x) := by
    rw [List.any_map, Bool.eq_iff_iff]
    simp [failed_expr]
  rw [ran, report, any]
  by_cases all : ∀ x ∈ text :: others, Passes x
  · rw [if_pos all, decide_eq_true all]
    rfl
  · rw [if_neg all, decide_eq_false all]
    rfl

/-- An operand that is missing, a token that is left, and a string that does not end. -/
theorem expr_passes_others :
    (expr "1 +" = { failed := false, stdout := "(1 + <bad>)\n" } ∧ ¬ IsExpression "1 +") ∧
    (expr "1 2" = { failed := false, stdout := "1\n" } ∧ ¬ IsExpression "1 2") ∧
    (expr "'a" = { failed := false, stdout := "\"a\"\n" } ∧ ¬ IsExpression "'a") := by
  decide +kernel

end CommandLine

end LuaChunk
