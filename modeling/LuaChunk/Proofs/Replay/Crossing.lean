import LuaChunk.Proofs.Replay.Fragment

/-!
# Known texts

The tokens ahead are known, and so is what the parsers make of them: `Parser.Crosses`, with a rule for
each way in which parsers are put together, and one for the fragments of the text that have been read
before.
-/

set_option autoImplicit false

namespace LuaChunk

/-- The kind of the token ahead. -/
def Backdrop.facing (c : Backdrop) (ts : List Token) : TokenKind :=
  nextKind ((ts ++ c.rest).map Token.word)

@[simp]
theorem Backdrop.facing_cons (c : Backdrop) (t : Token) (ts : List Token) :
    c.facing (t :: ts) = t.kind := rfl

namespace Session.Awaits

variable {c : Backdrop} {σ : ScopeStack} {t : Token} {ts : List Token} {s : Session}

theorem kind (h : s.Awaits c σ ts) : (s.tokens.upcoming 0).token.kind = c.facing ts := by
  have ahead := congrArg (List.map Token.word) h.ahead
  rw [List.map_map] at ahead
  rw [TokenStream.upcoming_kind_of_ahead h.tidy.found.final_kind ahead, ← nextKind_eq]
  rfl

theorem looked {u : TokenStream} (h : s.Awaits c σ ts) (looked : s.tokens.Looked u) :
    Session.Awaits c σ ts { s with tokens := u } where
  settings := h.settings
  log := h.log
  scopes := h.scopes
  ahead := by rw [looked.ahead, h.ahead]
  tidy := by
    induction looked with
    | refl => exact h.tidy
    | look count _ inductionHypothesis => exact inductionHypothesis.look count
  clean := by rw [looked.ahead]; exact h.clean

/-- The depth is counted apart. -/
theorem withDepth (h : s.Awaits c σ ts) (depth : Nat) :
    Session.Awaits c σ ts { s with depth := depth } :=
  ⟨h.settings, h.log, h.scopes, h.ahead, h.tidy, h.clean⟩

theorem withScopes (h : s.Awaits c σ ts) (scopes : ScopeStack) :
    Session.Awaits c scopes ts { s with scopes := scopes } :=
  ⟨h.settings, h.log, rfl, h.ahead, h.tidy, h.clean⟩

theorem next (h : s.Awaits c σ (t :: ts)) : ∃ u, Parser.next s = .ok t u ∧ u.Awaits c σ ts := by
  obtain ⟨r, rest, ahead, rfl, later⟩ := List.map_eq_cons_iff.1 h.ahead
  have clean := h.clean
  rw [ahead, List.length_cons, List.take_succ_cons] at clean
  have own : r.errors = [] := clean r (.head _)
  have left : s.tokens.next.2.ahead = rest := by rw [TokenStream.ahead_next, ahead, List.tail_cons]
  exact ⟨_, Parser.next_of_clean h.tidy ahead own, h.settings, h.log, h.scopes, left ▸ later,
    (h.tidy.next_of_clean ahead own).1, fun r among => clean r (.tail _ (left ▸ among))⟩

end Session.Awaits

/-- A name or an index, which can be assigned to. -/
def Exp.isPlace : Exp → Bool
  | .name _ _ | .index _ _ _ => true
  | _ => false

@[simp]
theorem Exp.isPlace_recast {place : Span → Span} {cap : Option Nat} (e : Exp) :
    (e.recast place cap).isPlace = e.isPlace := by
  cases e <;> rfl

theorem Exp.isPlace_of_eq {e e' : Exp} (same : e.unplaced = e'.unplaced) (place : e.isPlace = true) :
    e'.isPlace = true := by
  have kinds := congrArg isPlace same
  rw [isPlace_recast, isPlace_recast] at kinds
  exact kinds ▸ place

namespace Parser

/-- What the run over a fragment begins with stands at its head, unless nothing is taken. -/
theorem Alone.facing {α : Type} {c : Backdrop} {σ σ' : ScopeStack} {p : Parser α} {a : α}
    {follow : TokenKind} {ts : List Token} {P : TokenKind → Prop}
    (alone : Alone c.settings σ p a σ' follow ts)
    (begins : ∀ {s t : Session} {a : α}, p s = .ok a t → Quiet s t →
      P (s.tokens.upcoming 0).token.kind)
    (more : ¬ P .eof) (other : ¬ P follow) (ts' : List Token) : P (c.facing (ts ++ ts')) := by
  obtain ⟨u, v, fs, alone, -, -, -, last, same⟩ := alone
  have begins := begins alone.run alone.quietly
  have words := congrArg (List.map Token.word) alone.ahead
  rw [List.map_map, List.map_append] at words
  rw [TokenStream.upcoming_kind_of_ahead alone.final words, ← nextKind_eq] at begins
  cases fs with
  | nil =>
    unfold TokenStream.upcoming at last
    cases ahead : v.tokens.ahead with
    | nil =>
      rw [ahead] at begins
      exact absurd begins more
    | cons r rest =>
      rw [ahead] at begins last
      exact absurd (last ▸ begins) other
  | cons f fs =>
    obtain ⟨t, rest, rfl, word, -⟩ := List.map_eq_cons_iff.1 same.words.symm
    have kind : t.kind = f.kind := congrArg Word.kind word
    rw [List.cons_append, Backdrop.facing_cons, kind]
    exact begins

/-- A fragment that is an operand begins with a name or a parenthesis. -/
theorem Alone.begins {c : Backdrop} {σ σ' : ScopeStack} {r : Rules} {e : Exp} {ts : List Token}
    (alone : Alone c.settings σ (prefixExp r) e σ' .eof ts) (ts' : List Token) :
    c.facing (ts ++ ts') = .identifier ∨ c.facing (ts ++ ts') = .lparen :=
  alone.facing (P := fun kind => kind = .identifier ∨ kind = .lparen) prefixExp_begins (by decide)
    (by decide) ts'

section Targets

variable {r : Rules} {start : Span} {e : Exp}

/-- An assignment from behind its targets on. -/
def afterTargets (r : Rules) (start : Span) (targets : List Exp) : Parser Stat := do
  match BinaryOp.ofCompound? (← peek), targets with
  | some op, [target] => compound r start op target
  | some _, targets => if ← isMooc then plainAssign r start targets else badCompound r start
  | none, targets => plainAssign r start targets

theorem afterOperand_place (place : e.isPlace = true) : afterOperand r start e = (do
    let targets ← iterate #[e] (moreTargets r)
    afterTargets r start targets.toList) := by
  cases e <;> first | rfl | cases place

end Targets

variable {α β γ δ : Type}

/-- From before a text the parser comes to another one, which stands inside other constructs perhaps.
It complains of nothing, and something is known of its result. -/
def Crosses (c : Backdrop) (σ : ScopeStack) (ts : List Token) (p : Parser α) (σ' : ScopeStack)
    (ts' : List Token) (P : α → Prop) : Prop :=
  ∀ s : Session, s.Awaits c σ ts → ∃ a t, p s = .ok a t ∧ P a ∧ t.Awaits c σ' ts'

namespace Crosses

variable {c : Backdrop} {σ σ₁ σ' : ScopeStack} {t : Token} {ts ts₁ ts' : List Token} {p : Parser α}
  {f : α → Parser β} {P : α → Prop} {Q : β → Prop}

theorem pure {a : α} (result : P a) : Crosses c σ ts (Pure.pure a) σ ts P :=
  fun s awaits => ⟨a, s, rfl, result, awaits⟩

theorem bind (h : Crosses c σ ts p σ₁ ts₁ P)
    (k : ∀ a, P a → Crosses c σ₁ ts₁ (f a) σ' ts' Q) : Crosses c σ ts (p >>= f) σ' ts' Q := by
  intro s awaits
  obtain ⟨a, u, first, result, after⟩ := h s awaits
  obtain ⟨b, v, second, last⟩ := k a result u after
  exact ⟨b, v, (bind_of_ok first f).trans second, last⟩

theorem mono {P' : α → Prop} (h : Crosses c σ ts p σ' ts' P) (sub : ∀ a, P a → P' a) :
    Crosses c σ ts p σ' ts' P' := by
  intro s awaits
  obtain ⟨a, t, run, result, after⟩ := h s awaits
  exact ⟨a, t, run, sub a result, after⟩

/-- Nothing is done with the result. -/
theorem alone (h : Crosses c σ ts (p >>= Pure.pure) σ' ts' P) : Crosses c σ ts p σ' ts' P := by
  rwa [bind_pure] at h

/-- A result that is only passed on. -/
theorem map {g : α → β} (h : Crosses c σ ts p σ' ts' P) (sub : ∀ a, P a → Q (g a)) :
    Crosses c σ ts (do return g (← p)) σ' ts' Q :=
  h.bind fun a result => .pure (sub a result)

theorem nested (h : Crosses c σ ts p σ' ts' P) : Crosses c σ ts (Parser.nested p) σ' ts' P := by
  intro s awaits
  obtain ⟨a, t, run, result, after⟩ := h _ (awaits.withDepth (s.depth + 1))
  exact ⟨a, _, nested_eq_ok.2 ⟨t, run, rfl⟩, result, after.withDepth _⟩

theorem within (kind : ScopeKind) (name : String)
    (h : Crosses c (σ.push kind name) ts p σ' ts' P) :
    Crosses c σ ts (Parser.within kind name p) σ'.pop.2 ts' P := by
  intro s awaits
  obtain rfl := awaits.scopes
  obtain ⟨a, t, run, result, after⟩ := h _ (awaits.withScopes (s.scopes.push kind name))
  obtain rfl := after.scopes
  exact ⟨a, _, within_eq_ok.2 ⟨t, run, rfl⟩, result, after.withScopes t.scopes.pop.2⟩

/-! ## Looking -/

/-- What is told is known. -/
theorem told {l : Parser δ} {v : Session → δ} {d : δ} {g : δ → Parser β} (looks : OnlyLooks l v)
    (known : ∀ s : Session, s.Awaits c σ ts → v s = d) (k : Crosses c σ ts (g d) σ' ts' Q) :
    Crosses c σ ts (l >>= g) σ' ts' Q := by
  intro s awaits
  obtain ⟨u, looked, ran⟩ := looks s
  obtain ⟨b, t, run, rest⟩ := k _ (awaits.looked looked)
  refine ⟨b, t, ?_, rest⟩
  rw [bind_of_ok ran, known s awaits, run]

/-- Whatever is told. -/
theorem looking {l : Parser δ} {v : Session → δ} {g : δ → Parser β} (looks : OnlyLooks l v)
    (k : ∀ d, Crosses c σ ts (g d) σ' ts' Q) : Crosses c σ ts (l >>= g) σ' ts' Q := by
  intro s awaits
  obtain ⟨u, looked, ran⟩ := looks s
  obtain ⟨b, t, run, rest⟩ := k (v s) _ (awaits.looked looked)
  exact ⟨b, t, (bind_of_ok ran g).trans run, rest⟩

theorem peek {g : TokenKind → Parser β} (k : Crosses c σ ts (g (c.facing ts)) σ' ts' Q) :
    Crosses c σ ts (Parser.peek >>= g) σ' ts' Q := by
  have looks : OnlyLooks Parser.peek fun s => (s.tokens.upcoming 0).token.kind :=
    fun _ => ⟨_, .look 1 .refl, rfl⟩
  exact .told looks (fun _ awaits => awaits.kind) k

theorem head {g : Span → Parser β} (k : ∀ span, Crosses c σ ts (g span) σ' ts' Q) :
    Crosses c σ ts (Parser.head >>= g) σ' ts' Q := by
  have looks : OnlyLooks Parser.head fun s => (s.tokens.upcoming 0).token.span :=
    fun s => ⟨_, .look 1 .refl, rfl⟩
  exact .looking looks k

theorem now {g : Span → Parser β} (k : ∀ span, Crosses c σ ts (g span) σ' ts' Q) :
    Crosses c σ ts (Parser.now >>= g) σ' ts' Q :=
  .looking (.ask _) k

theorem since {start : Span} {g : Span → Parser β} (k : ∀ span, Crosses c σ ts (g span) σ' ts' Q) :
    Crosses c σ ts (Parser.since start >>= g) σ' ts' Q := by
  have looks : OnlyLooks (Parser.since start) fun s => start.merge s.tokens.now :=
    fun s => ⟨_, .refl, rfl⟩
  exact .looking looks k

theorem dialect {g : Dialect → Parser β} (k : Crosses c σ ts (g c.settings.dialect) σ' ts' Q) :
    Crosses c σ ts (Parser.dialect >>= g) σ' ts' Q :=
  .told (.ask _) (fun _ awaits => congrArg Settings.dialect awaits.settings) k

theorem isMooc {g : Bool → Parser β} (k : Crosses c σ ts (g (c.settings.dialect == .mooc)) σ' ts' Q) :
    Crosses c σ ts (Parser.isMooc >>= g) σ' ts' Q := by
  have looks : OnlyLooks Parser.isMooc fun s => s.settings.dialect == .mooc :=
    fun s => ⟨_, .refl, rfl⟩
  exact .told looks (fun s awaits => by rw [awaits.settings]) k

theorem scopes {g : ScopeStack → Parser β} (k : Crosses c σ ts (g σ) σ' ts' Q) :
    Crosses c σ ts (Parser.scopes >>= g) σ' ts' Q :=
  .told (.ask _) (fun _ awaits => awaits.scopes) k

/-! ## Taking -/

theorem next {g : Token → Parser β} (k : Crosses c σ ts (g t) σ' ts' Q) :
    Crosses c σ (t :: ts) (Parser.next >>= g) σ' ts' Q := by
  intro s awaits
  obtain ⟨u, taken, after⟩ := awaits.next
  obtain ⟨b, v, run, rest⟩ := k u after
  exact ⟨b, v, (bind_of_ok taken g).trans run, rest⟩

theorem checked {kind : TokenKind} {cause : Token → Cause} {g : Token → Parser β}
    (same : t.kind = kind) (k : Crosses c σ ts (g t) σ' ts' Q) :
    Crosses c σ (t :: ts) (Parser.checked kind cause >>= g) σ' ts' Q := by
  unfold Parser.checked
  simp only [bind_assoc]
  refine .next ?_
  rw [if_neg (not_not.2 same)]
  exact k

theorem expect {kind : TokenKind} {g : Token → Parser β} (same : t.kind = kind)
    (k : Crosses c σ ts (g t) σ' ts' Q) :
    Crosses c σ (t :: ts) (Parser.expect kind >>= g) σ' ts' Q :=
  .checked same k

theorem expectName {g : Token → Parser β} (same : t.kind = .identifier)
    (k : Crosses c σ ts (g t) σ' ts' Q) :
    Crosses c σ (t :: ts) (Parser.expectName >>= g) σ' ts' Q :=
  .checked same k

theorem accept {kind : TokenKind} {g : Option Token → Parser β} (same : t.kind = kind)
    (k : Crosses c σ ts (g (some t)) σ' ts' Q) :
    Crosses c σ (t :: ts) (Parser.accept kind >>= g) σ' ts' Q := by
  unfold Parser.accept
  simp only [bind_assoc]
  refine .peek ?_
  rw [Backdrop.facing_cons, if_pos same, bind_assoc]
  exact .next k

theorem acceptNone {kind : TokenKind} {g : Option Token → Parser β} (other : c.facing ts ≠ kind)
    (k : Crosses c σ ts (g none) σ' ts' Q) :
    Crosses c σ ts (Parser.accept kind >>= g) σ' ts' Q := by
  unfold Parser.accept
  simp only [bind_assoc]
  refine .peek ?_
  rw [if_neg other]
  exact k

theorem accepts {kind : TokenKind} {g : Bool → Parser β} (same : t.kind = kind)
    (k : Crosses c σ ts (g true) σ' ts' Q) :
    Crosses c σ (t :: ts) (Parser.accepts kind >>= g) σ' ts' Q := by
  unfold Parser.accepts
  simp only [bind_assoc]
  exact .accept same k

theorem acceptsNone {kind : TokenKind} {g : Bool → Parser β} (other : c.facing ts ≠ kind)
    (k : Crosses c σ ts (g false) σ' ts' Q) :
    Crosses c σ ts (Parser.accepts kind >>= g) σ' ts' Q := by
  unfold Parser.accepts
  simp only [bind_assoc]
  exact .acceptNone other k

/-! ## Repetition -/

section Loops

variable {step : α → Parser (ForInStep α)} {x : α}

/-- The rounds of a loop from some state on, however many the clock grants beyond those needed. -/
def Rounds (c : Backdrop) (σ : ScopeStack) (ts : List Token) (step : α → Parser (ForInStep α))
    (x : α) (σ' : ScopeStack) (ts' : List Token) (P : α → Prop) : Prop :=
  ∀ clock : List Scanned, (ts ++ c.rest).length ≤ clock.length →
    Crosses c σ ts (iterateFor step clock x) σ' ts' P

theorem iterate (h : Rounds c σ ts step x σ' ts' P) :
    Crosses c σ ts (Parser.iterate x step) σ' ts' P := by
  intro s awaits
  exact h s.tokens.ahead (by rw [← awaits.ahead, List.length_map]) s awaits

theorem Rounds.done (h : Crosses c σ ts (step x) σ' ts' fun n => ∃ y, n = .done y ∧ P y) :
    Rounds c σ ts step x σ' ts' P := by
  intro clock _
  cases clock <;>
  · refine h.bind ?_
    rintro _ ⟨y, rfl, result⟩
    exact .pure result

theorem Rounds.yield {R : α → Prop}
    (h : Crosses c σ ts (step x) σ₁ ts₁ fun n => ∃ y, n = .yield y ∧ R y)
    (less : ts₁.length < ts.length) (k : ∀ y, R y → Rounds c σ₁ ts₁ step y σ' ts' P) :
    Rounds c σ ts step x σ' ts' P := by
  intro clock enough
  rw [List.length_append] at enough
  cases clock with
  | nil =>
    rw [List.length_nil] at enough
    omega
  | cons r clock =>
    refine h.bind ?_
    rintro _ ⟨y, rfl, result⟩
    rw [List.length_cons] at enough
    exact k y result clock (by rw [List.length_append]; omega)

end Loops

/-! ## Fragments -/

section Fragments

variable {n m : Nat} {follow : TokenKind}

/-- A fragment of the text that has been read inside the same constructs.  Of what stands behind it
there the parser has to stop like before what stands behind it here. -/
theorem fragment {taking : Bool} (ends : Frontier → Prop) {look : α → γ} {p q : Parser α} {a : α}
    (alone : Alone c.settings σ p a σ' follow ts)
    (h : ∀ w : Frontier, w.dialect = c.settings.dialect →
      Replays w (some (.along σ.inner)) none taking (ends w) look p q)
    (moves : ∀ {s t : Session} {a : α}, q s = .ok a t → s.Moves t)
    (may : ∀ w : Frontier, nextKind w.first = follow → nextKind w.second = c.facing ts' → ends w)
    (settles : follow.settles = true) (settles' : (c.facing ts').settles = true)
    (opens : ∀ {s t : Session} {a : α}, p s = .ok a t → Quiet s t →
      (s.tokens.upcoming 0).token.kind ≠ .colon) :
    Crosses c σ (ts ++ ts') q σ' ts' fun a' => look a = look a' := by
  obtain ⟨u, v, fs, alone, settings, rfl, rfl, kind, same⟩ := alone
  have dialect := congrArg Settings.dialect settings
  have moved := (h ⟨c.settings.dialect, [], [], rfl, rfl⟩ rfl).onward dialect alone.run
  have ended : v.tokens.final.token.kind = .eof := moved.final_eq ▸ alone.final
  have first : nextKind (v.tokens.ahead.map (·.token.word)) = follow := by
    rw [← kind, TokenStream.upcoming_kind_of_ahead ended rfl, ← nextKind_eq]
  let w : Frontier := ⟨c.settings.dialect, v.tokens.ahead.map (·.token.word),
    (ts' ++ c.rest).map Token.word, by rw [first]; exact TokenKind.isSuffix_of_settles settles,
    settles'⟩
  intro s awaits
  obtain ⟨a', t, σ', ran, result, parallel, after⟩ := alone.replays (h w rfl) moves
    (may w first rfl) same dialect settings.symm rfl rfl (.refl _) (opens alone.run
    alone.quietly) awaits
  obtain rfl := parallel.eq_of_strict (Looseness.isStrict_along _)
  exact ⟨a', t, ran, result, after⟩

/-- A whole expression. -/
theorem exp {e : Exp} (alone : Alone c.settings σ (Rules.level n).exp e σ' .eof ts) (le : n ≤ m)
    (settles : (c.facing ts').settles = true) (stops : BinaryOp.ofToken? (c.facing ts') = none) :
    Crosses c σ (ts ++ ts') (Rules.level m).exp σ' ts' fun e' => e.unplaced = e'.unplaced :=
  fragment Frontier.Stops alone
    (fun _ _ => (Rules.level_replays le).operation _ 0)
    (Reads.moves fun _ => (Rules.level_reads m).exp)
    (fun _ first second => .inr ⟨by rw [first]; rfl, by rw [second]; exact stops⟩) rfl settles
    Rules.operation_ne_colon

/-- What begins with an operand and may be assigned to. -/
theorem prefixExp {e : Exp} (alone : Alone c.settings σ (Parser.prefixExp (.level n)) e σ' .eof ts)
    (le : n ≤ m) (settles : (c.facing ts').settles = true) :
    Crosses c σ (ts ++ ts') (Parser.prefixExp (.level m)) σ' ts'
      fun e' => e.unplaced = e'.unplaced := by
  have replays (w : Frontier) : Replays w (some (.along σ.inner)) none true True Exp.unplaced
      (Parser.prefixExp (.level n)) (Parser.prefixExp (.level m)) :=
    prefixExp_replays (Rules.level_replays le)
  refine fragment (fun _ => True) alone (fun w _ => replays w) (Reads.moves
    fun _ => prefixExp_reads (Rules.level_reads m)) (fun _ _ _ => trivial) rfl settles
    fun run quiet colon => ?_
  have begins := prefixExp_begins run quiet
  simp [colon] at begins

/-- A block inside the construct that has been opened for it, up to the token that closes it. -/
theorem block {b : Block} {kind : ScopeKind} {name : String}
    (alone : Alone c.settings (σ.push kind name) (Rules.level n).block b σ' (c.facing ts') ts)
    (le : n ≤ m) (settles : (c.facing ts').settles = true) :
    Crosses c (σ.push kind name) (ts ++ ts') (Rules.level m).block σ' ts'
      fun b' => b.unplaced = b'.unplaced :=
  fragment Frontier.Same alone (fun _ _ => (Rules.level_replays le).block (some (.along σ.inner)))
    (Reads.moves fun _ => (Rules.level_reads m).block)
    (fun _ first second => first.trans second.symm) settles settles Rules.block_ne_colon

end Fragments

/-! ## Expressions -/

section Expressions

variable {r : Rules} {m : Nat} {limit : Nat} {start : Span} {x : Exp} {R : Exp → Prop}

theorem expList (alone : c.facing ts' ≠ .comma) (h : Crosses c σ ts r.exp σ' ts' R) :
    Crosses c σ ts (Parser.expList r) σ' ts' fun es => ∃ e, es = [e] ∧ R e := by
  rw [expList_eq]
  refine h.bind fun e known => ?_
  have none : Crosses c σ' ts' (moreExps r #[e]) σ' ts' fun next =>
      ∃ es, next = .done es ∧ es = #[e] := by
    unfold moreExps
    exact .acceptsNone alone (.pure ⟨_, rfl, rfl⟩)
  refine (iterate (.done none)).map ?_
  rintro _ rfl
  exact ⟨e, rfl, known⟩

/-- No operator follows. -/
theorem infixNone (stops : BinaryOp.ofToken? (c.facing ts) = none) :
    Crosses c σ ts (infixOp r limit start x) σ ts fun next => ∃ y, next = .done y ∧ y = x := by
  unfold infixOp
  refine .peek ?_
  rw [stops]
  exact .pure ⟨_, rfl, rfl⟩

/-- An operand alone. -/
theorem operationNone (h : Crosses c σ ts (operand r) σ' ts' R)
    (stops : BinaryOp.ofToken? (c.facing ts') = none) :
    Crosses c σ ts (Parser.operation r limit) σ' ts' R := by
  unfold Parser.operation
  refine .head fun start => h.bind fun e known => (iterate (.done (infixNone stops))).mono ?_
  rintro _ rfl
  exact known

theorem operand (begins : c.facing ts = .identifier ∨ c.facing ts = .lparen)
    (h : Crosses c σ ts (Parser.prefixExp r) σ' ts' R) :
    Crosses c σ ts (Parser.operand r) σ' ts' R := by
  unfold Parser.operand
  refine .peek ?_
  unfold Parser.primary
  rcases begins with kind | kind
  · rw [kind]
    refine .peek ?_
    rw [kind]
    exact h
  · rw [kind]
    refine .peek ?_
    rw [kind]
    exact h

/-- What goes on with no operand. -/
theorem suffixNone (stops : (c.facing ts).isSuffix = false ∨
      c.settings.dialect = .mooc ∧ c.facing ts = .lbrace) :
    Crosses c σ ts (suffix r x) σ ts fun next => ∃ y, next = .done y ∧ y = x := by
  unfold suffix
  refine .peek ?_
  rcases stops with stops | ⟨mooc, kind⟩
  · revert stops
    generalize c.facing ts = kind
    cases kind <;> first | exact fun _ => .pure ⟨_, rfl, rfl⟩ | exact nofun
  · rw [kind]
    refine .isMooc ?_
    rw [mooc]
    exact .pure ⟨_, rfl, rfl⟩

/-- An expression in parentheses. -/
theorem paren {n : Nat} {e : Exp} {es : List Token} {opening closing : Token}
    (alone : Alone c.settings σ (Rules.level n).exp e σ' .eof es) (le : n ≤ m)
    (opens : opening.kind = .lparen) (closes : closing.kind = .rparen)
    (stops : (c.facing ts).isSuffix = false ∨ c.settings.dialect = .mooc ∧ c.facing ts = .lbrace) :
    Crosses c σ (opening :: (es ++ closing :: ts)) (Parser.prefixExp (.level (m + 1))) σ' ts
      fun p => ∃ e' span, p = .paren e' span ∧ e.unplaced = e'.unplaced := by
  have follow : c.facing (closing :: ts) = .rparen := closes
  have inner : Crosses c σ (es ++ closing :: ts) (Rules.level (m + 1)).parenthesised σ'
      (closing :: ts) fun e' => e.unplaced = e'.unplaced :=
    .nested (exp alone le (by rw [follow]; rfl) (by rw [follow]; rfl))
  unfold Parser.prefixExp
  refine .peek ?_
  rw [Backdrop.facing_cons, opens]
  refine .next (inner.bind fun e' same => .expect closes (.since fun span => ?_))
  refine (iterate (.done (suffixNone stops))).mono ?_
  rintro _ rfl
  exact ⟨e', _, rfl, same⟩

end Expressions

/-! ## Statements -/

section Statements

variable {m : Nat}

theorem atBlockEnd {g : Bool → Parser β}
    (k : Crosses c σ ts (g (endsBlock c.settings.dialect (c.facing ts))) σ' ts' Q) :
    Crosses c σ ts (Parser.atBlockEnd >>= g) σ' ts' Q := by
  unfold Parser.atBlockEnd
  simp only [bind_assoc]
  exact .dialect (.peek k)

/-- A brace of Mooc. -/
theorem brace {kind : TokenKind} {g : Unit → Parser β} (mooc : c.settings.dialect = .mooc)
    (same : t.kind = kind) (k : Crosses c σ ts (g ()) σ' ts' Q) :
    Crosses c σ (t :: ts) (Parser.brace kind >>= g) σ' ts' Q := by
  unfold Parser.brace
  simp only [bind_assoc]
  refine .isMooc ?_
  simp only [mooc, beq_self_eq_true, if_true, bind_assoc, pure_bind]
  exact .expect same k

theorem openBody {word : TokenKind} {g : Unit → Parser β} (mooc : c.settings.dialect = .mooc)
    (same : t.kind = .lbrace) (k : Crosses c σ ts (g ()) σ' ts' Q) :
    Crosses c σ (t :: ts) (Parser.openBody word >>= g) σ' ts' Q := by
  unfold Parser.openBody
  simp only [bind_assoc, pure_bind]
  refine .isMooc ?_
  rw [mooc]
  exact .expect same k

/-- A statement that begins with a name or a parenthesis. -/
theorem assigns {P : Stat → Prop}
    (begins : c.facing ts = .identifier ∨ c.facing ts = .lparen)
    (h : Crosses c σ ts (assignOrCall (.level m)) σ' ts' P) :
    Crosses c σ ts (Rules.level (m + 1)).stat σ' ts' P := by
  have falls : Crosses c σ ts (Parser.stat (.level m)) σ' ts' P := by
    unfold Parser.stat moocStat luaStat
    refine .isMooc ?_
    split
    all_goals
      refine .peek ?_
      rcases begins with kind | kind <;> rw [kind] <;> exact h
  exact .nested falls

/-- A place that is the only target. -/
theorem afterPlace {r : Rules} {start : Span} {e : Exp} {P : Stat → Prop} (place : e.isPlace = true) (alone : c.facing ts ≠ .comma)
    (k : Crosses c σ ts (afterTargets r start [e]) σ' ts' P) :
    Crosses c σ ts (afterOperand r start e) σ' ts' P := by
  have none : Crosses c σ ts (moreTargets r #[e]) σ ts fun next =>
      ∃ targets, next = .done targets ∧ targets = #[e] := by
    unfold moreTargets
    exact .acceptsNone alone (.pure ⟨_, rfl, rfl⟩)
  rw [afterOperand_place place]
  refine (iterate (.done none)).bind ?_
  rintro _ rfl
  exact k

/-- A block of one statement, up to the end of the text. -/
theorem single {P : Stat → Prop} (last : c.rest = []) (some : ts ≠ [])
    (opens : endsBlock c.settings.dialect (c.facing ts) = false) (plain : σ'.current.kind ≠ .loop)
    (h : Crosses c σ ts (Rules.level m).stat σ' [] fun a => a.isEmpty = false ∧ P a) :
    Crosses c σ ts (Rules.level (m + 1)).block σ' [] fun b =>
      ∃ a, b.stats = [a] ∧ b.returns = none ∧ P a := by
  have eof : c.facing [] = .eof := by
    simp only [Backdrop.facing, last]
    rfl
  have first : Crosses c σ ts (moreStats (.level m) #[]) σ' [] fun next =>
      ∃ stats, next = .yield stats ∧ ∃ a, stats = #[a] ∧ P a := by
    refine .atBlockEnd ?_
    rw [opens, if_neg Bool.false_ne_true]
    exact .map h fun a ⟨full, known⟩ => ⟨_, rfl, a, by simp [full], known⟩
  have rest (stats : Array Stat) (known : ∃ a, stats = #[a] ∧ P a) :
      Crosses c σ' [] (moreStats (.level m) stats) σ' [] fun next =>
        ∃ ended, next = .done ended ∧ ∃ a, ended = #[a] ∧ P a := by
    refine .atBlockEnd ?_
    rw [eof, if_pos (by cases c.settings.dialect <;> rfl)]
    exact .pure ⟨_, rfl, known⟩
  have rounds : Crosses c σ ts (Parser.iterate #[] (moreStats (.level m))) σ' [] fun stats =>
      ∃ a, stats = #[a] ∧ P a :=
    .iterate (.yield first (List.length_pos_iff.2 some) fun stats known => .done (rest stats known))
  have whole : Crosses c σ ts (Parser.block (.level m)) σ' [] fun b =>
      ∃ a, b.stats = [a] ∧ b.returns = none ∧ P a := by
    rw [block_eq]
    refine .head fun _ => .now fun _ => rounds.bind ?_
    rintro _ ⟨a, rfl, known⟩
    unfold afterStats pendingLabel
    simp only [bind_assoc]
    refine .scopes ?_
    rw [if_neg fun pending => plain pending.1]
    simp only [pure_bind]
    unfold returnStat
    simp only [bind_assoc]
    refine .peek ?_
    rw [eof, if_pos (by decide), pure_bind]
    exact .now fun _ => .pure ⟨a, rfl, rfl, known⟩
  exact .nested whole

end Statements

end Crosses

end Parser

end LuaChunk
