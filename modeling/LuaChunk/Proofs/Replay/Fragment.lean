import LuaChunk.Proofs.Replay.Mooc

/-!
# Fragments

A fragment is what a parser has read on its own, and nothing was complained of.  It may be put into
another text, wherever it does not begin with a colon: expressions and blocks do not, and whether a
colon touches what stands before it would make a difference.
-/

set_option autoImplicit false

namespace LuaChunk

namespace Parser

variable {α β γ : Type} {w : Frontier} {loose : Option Looseness} {known : Option TokenKind}
  {taking : Bool} {ends : Prop} {r r' : Rules} {s t : Session}

/-! ## What a fragment begins with -/

theorem peek_bind (f : TokenKind → Parser β) :
    (peek >>= f) s = f (s.tokens.upcoming 0).token.kind { s with tokens := s.tokens.look 1 } := rfl

theorem head_bind (f : Span → Parser β) :
    (head >>= f) s = f (s.tokens.upcoming 0).token.span { s with tokens := s.tokens.look 1 } := rfl

theorem isMooc_bind (f : Bool → Parser β) : (isMooc >>= f) s = f (s.settings.dialect == .mooc) s := rfl

theorem dialect_bind (f : Dialect → Parser β) : (dialect >>= f) s = f s.settings.dialect s := rfl

/-- What is known of both halves of a quiet run. -/
theorem Replays.parts {δ ε : Type} {loose' : Option Looseness} {known' : Option TokenKind}
    {taking' : Bool} {ends' : Prop} {look : α → δ} {look' : β → ε} {p q : Parser α}
    {f g : α → Parser β} {b : β} (h : Replays w loose known taking ends look p q)
    (k : ∀ a, Replays w loose' known' taking' ends' look' (f a) (g a))
    (dialect : s.settings.dialect = w.dialect) (run : (p >>= f) s = .ok b t) (quiet : Quiet s t) :
    ∃ a u, p s = .ok a u ∧ f a u = .ok b t ∧ s.Moves u ∧ Quiet s u ∧ Quiet u t := by
  obtain ⟨a, u, first, second⟩ := bind_eq_ok.1 run
  have moves := h.onward dialect first
  have quietly := quiet.parts moves ((k a).onward (moves.settings_eq ▸ dialect) second)
  exact ⟨a, u, first, second, moves, quietly.1, quietly.2⟩

/-- The first round of a loop is quiet if the loop is. -/
theorem iterate_first {σ : Type} {step : σ → Parser (ForInStep σ)} {x y : σ}
    (moves : ∀ {x : σ} {s t : Session} {next : ForInStep σ}, s.settings.dialect = w.dialect →
      step x s = .ok next t → s.Moves t) (dialect : s.settings.dialect = w.dialect)
    (run : iterate x step s = .ok y t) (quiet : Quiet s t) :
    ∃ next u, step x s = .ok next u ∧ Quiet s u := by
  change iterateFor step s.tokens.ahead x s = .ok y t at run
  generalize s.tokens.ahead = clock at run
  cases clock with
  | nil =>
    obtain ⟨next, u, once, rest⟩ := bind_eq_ok.1 run
    cases next <;> obtain ⟨-, rfl⟩ := pure_eq_ok.1 rest <;> exact ⟨_, _, once, quiet⟩
  | cons _ clock =>
    obtain ⟨next, u, once, rest⟩ := bind_eq_ok.1 run
    have moved := moves dialect once
    refine ⟨next, u, once, ?_⟩
    cases next with
    | done =>
      obtain ⟨-, rfl⟩ := pure_eq_ok.1 rest
      exact quiet
    | yield =>
      exact (quiet.parts moved (Replays.iterateFor_moves moves clock (moved.settings_eq ▸ dialect)
        rest)).1

/-- A function with parentheses begins with the first of them. -/
theorem functionBody_begins (h : r.Replays w r') {style : FunctionStyle} {body : FunctionBody}
    (dialect : s.settings.dialect = w.dialect) (parens : style ≠ .anonymous)
    (run : functionBody r style s = .ok body t) (quiet : Quiet s t) :
    (s.tokens.upcoming 0).token.kind = .lparen := by
  rw [functionBody_eq, if_neg parens, expect_eq_checked] at run
  have first : Replays w none none true False Token.word (checked .lparen fun token =>
      .expected .lparen token.near) (checked .lparen fun token => .expected .lparen token.near) :=
    .checked (by decide) _
  have rest : Replays w none none false False FunctionBody.unplaced (functionRest r style)
      (functionRest r' style) := functionRest_replays h style
  obtain ⟨_, u, taken, -, -, quiet, -⟩ := first.parts (fun _ => rest) dialect run quiet
  exact (checked_of_quiet taken quiet).2

theorem prefixExp_begins {e : Exp} (run : prefixExp r s = .ok e t) (quiet : Quiet s t) :
    (s.tokens.upcoming 0).token.kind = .identifier ∨ (s.tokens.upcoming 0).token.kind = .lparen := by
  unfold prefixExp at run
  rw [peek_bind] at run
  generalize (s.tokens.upcoming 0).token.kind = kind at run ⊢
  split at run
  next => exact .inl rfl
  next => exact .inr rfl
  next =>
    obtain ⟨token, u, taken, rest⟩ := bind_eq_ok.1 run
    obtain ⟨_, v, complained, same⟩ := bind_eq_ok.1 rest
    obtain ⟨-, rfl⟩ := pure_eq_ok.1 same
    have moves := Reads.moves (fun _ => next_reads) taken
    have moves' := Reads.moves (fun _ => complain_reads _ _) complained
    exact absurd (Quiet.parts moves moves' quiet).2 (complain_loud complained)

theorem operand_ne_colon {e : Exp} (run : operand r s = .ok e t) (quiet : Quiet s t) :
    (s.tokens.upcoming 0).token.kind ≠ .colon := by
  intro colon
  unfold operand at run
  rw [peek_bind, colon] at run
  change primary r { s with tokens := s.tokens.look 1 } = _ at run
  unfold primary at run
  rw [peek_bind, TokenStream.upcoming_look, colon] at run
  have begins := prefixExp_begins run quiet
  simp [colon] at begins

theorem operation_ne_colon (h : r.Replays w r') {limit : Nat} {e : Exp}
    (dialect : s.settings.dialect = w.dialect) (run : operation r limit s = .ok e t)
    (quiet : Quiet s t) : (s.tokens.upcoming 0).token.kind ≠ .colon := by
  have first : Replays w (some .strict) none true False Exp.unplaced (operand r) (operand r') :=
    operand_replays h False.elim
  have rounds (start : Span) (e : Exp) : Replays w (some .strict) none false False Exp.unplaced
      (iterate e (infixOp r limit start)) (iterate e (infixOp r' limit start)) :=
    .iterate Exp.unplaced (fun c d => infixOp_agree (h.agree c d) limit start) rfl
      (infixOp_replays h False.elim limit start start)
  unfold operation at run
  rw [head_bind] at run
  obtain ⟨a, u, read, -, -, quiet, -⟩ := first.parts (rounds _) 
    (s := { s with tokens := s.tokens.look 1 }) dialect run quiet
  simpa using operand_ne_colon read quiet

theorem assignOrCall_ne_colon (h : r.Replays w r') {a : Stat}
    (dialect : s.settings.dialect = w.dialect) (run : assignOrCall r s = .ok a t)
    (quiet : Quiet s t) : (s.tokens.upcoming 0).token.kind ≠ .colon := by
  have first : Replays w (some .strict) none false False Exp.unplaced (prefixExp r) (prefixExp r') :=
    prefixExp_replays h
  have rest (start : Span) (e : Exp) : Replays w (some .strict) none false w.Same Stat.unplaced
      (afterOperand r start e) (afterOperand r' start e) := afterOperand_replays h _ _ _ _ rfl
  rw [assignOrCall_eq, head_bind] at run
  obtain ⟨a, u, read, -, -, quiet, -⟩ := first.parts (rest _)
    (s := { s with tokens := s.tokens.look 1 }) dialect run quiet
  intro colon
  have begins := prefixExp_begins read quiet
  simp [colon] at begins

theorem stat_ne_colon (h : r.Replays w r') {a : Stat}
    (dialect : s.settings.dialect = w.dialect) (run : stat r s = .ok a t)
    (quiet : Quiet s t) : (s.tokens.upcoming 0).token.kind ≠ .colon := by
  intro colon
  have falls : assignOrCall r { s with tokens := s.tokens.look 1 } = .ok a t := by
    unfold stat at run
    rw [isMooc_bind] at run
    split at run
    · unfold moocStat at run
      rw [peek_bind, colon] at run
      exact run
    · unfold luaStat at run
      rw [peek_bind, colon] at run
      exact run
  exact assignOrCall_ne_colon h (s := { s with tokens := s.tokens.look 1 }) dialect falls quiet
    (by simpa using colon)

theorem moreStats_ne_colon {stats : Array Stat} {a : ForInStep (Array Stat)}
    (statement : ∀ {s t : Session} {a : Stat}, s.settings.dialect = w.dialect →
      r.stat s = .ok a t → Quiet s t → (s.tokens.upcoming 0).token.kind ≠ .colon)
    (dialect : s.settings.dialect = w.dialect) (run : moreStats r stats s = .ok a t)
    (quiet : Quiet s t) : (s.tokens.upcoming 0).token.kind ≠ .colon := by
  intro colon
  have goesOn : atBlockEnd s = .ok false { s with tokens := s.tokens.look 1 } := by
    have ends : endsBlock s.settings.dialect .colon = false := by cases s.settings.dialect <;> rfl
    unfold atBlockEnd
    rw [dialect_bind, peek_bind, colon, ends]
    rfl
  unfold moreStats at run
  rw [bind_of_ok goesOn] at run
  obtain ⟨x, u, read, same⟩ := bind_eq_ok.1 run
  obtain ⟨-, rfl⟩ := pure_eq_ok.1 same
  exact statement (s := { s with tokens := s.tokens.look 1 }) dialect read quiet
    (by simpa using colon)

theorem block_ne_colon (h : r.Replays w r') {b : Block}
    (statement : ∀ {s t : Session} {a : Stat}, s.settings.dialect = w.dialect →
      r.stat s = .ok a t → Quiet s t → (s.tokens.upcoming 0).token.kind ≠ .colon)
    (dialect : s.settings.dialect = w.dialect) (run : block r s = .ok b t)
    (quiet : Quiet s t) : (s.tokens.upcoming 0).token.kind ≠ .colon := by
  have stats : Replays w (some .around) none false w.Same (Array.map Stat.unplaced)
      (iterate #[] (moreStats r)) (iterate #[] (moreStats r')) := stats_replays h
  have rest (head before : Span) (stats : Array Stat) : Replays w (some (.inside none)) none false w.Same
      Block.unplaced (afterStats r head before stats) (afterStats r' head before stats) :=
    afterStats_replays h _ _ _ _ _ _ rfl
  rw [block_eq, head_bind] at run
  obtain ⟨a, u, read, -, -, quiet, -⟩ := stats.parts (rest _ _)
    (s := { s with tokens := s.tokens.look 1 }) dialect run quiet
  have round (stats : Array Stat) : Replays w (some .around) none false w.Same
      (onRound (Array.map Stat.unplaced)) (moreStats r stats) (moreStats r' stats) :=
    moreStats_replays h _ _ rfl
  obtain ⟨next, v, once, quiet⟩ := iterate_first (fun dialect run => (round _).onward dialect run)
    (s := { s with tokens := s.tokens.look 1 }) dialect read quiet
  simpa using moreStats_ne_colon statement (s := { s with tokens := s.tokens.look 1 }) dialect once
    quiet

end Parser

namespace Rules

variable {n : Nat} {s t : Session}

/-- No expression begins with a colon. -/
theorem operation_ne_colon {limit : Nat} {e : Exp} (run : (level n).operation limit s = .ok e t)
    (quiet : Parser.Quiet s t) : (s.tokens.upcoming 0).token.kind ≠ .colon := by
  cases n with
  | zero => exact absurd run Parser.tooDeep_ne_ok
  | succ n =>
    obtain ⟨u, ran, rfl⟩ := Parser.nested_eq_ok.1 run
    exact Parser.operation_ne_colon (level_replays (w := ⟨s.settings.dialect, [], [], rfl, rfl⟩) le_rfl)
      (s := { s with depth := s.depth + 1 }) rfl ran quiet

theorem functionBody_begins {style : FunctionStyle} {body : FunctionBody}
    (parens : style ≠ .anonymous) (run : (level n).functionBody style s = .ok body t)
    (quiet : Parser.Quiet s t) : (s.tokens.upcoming 0).token.kind = .lparen := by
  cases n with
  | zero => exact absurd run Parser.tooDeep_ne_ok
  | succ n =>
    obtain ⟨u, ran, rfl⟩ := Parser.nested_eq_ok.1 run
    exact Parser.functionBody_begins
      (level_replays (w := ⟨s.settings.dialect, [], [], rfl, rfl⟩) le_rfl)
      (s := { s with depth := s.depth + 1 }) rfl parens ran quiet

/-- No statement begins with a colon. -/
theorem stat_ne_colon {a : Stat} (run : (level n).stat s = .ok a t)
    (quiet : Parser.Quiet s t) : (s.tokens.upcoming 0).token.kind ≠ .colon := by
  cases n with
  | zero => exact absurd run Parser.tooDeep_ne_ok
  | succ n =>
    obtain ⟨u, ran, rfl⟩ := Parser.nested_eq_ok.1 run
    exact Parser.stat_ne_colon (level_replays (w := ⟨s.settings.dialect, [], [], rfl, rfl⟩) le_rfl)
      (s := { s with depth := s.depth + 1 }) rfl ran quiet

/-- No block begins with a colon. -/
theorem block_ne_colon {b : Block} (run : (level n).block s = .ok b t)
    (quiet : Parser.Quiet s t) : (s.tokens.upcoming 0).token.kind ≠ .colon := by
  cases n with
  | zero => exact absurd run Parser.tooDeep_ne_ok
  | succ n =>
    obtain ⟨u, ran, rfl⟩ := Parser.nested_eq_ok.1 run
    exact Parser.block_ne_colon (level_replays (w := ⟨s.settings.dialect, [], [], rfl, rfl⟩) le_rfl)
      (fun _ => stat_ne_colon) (s := { s with depth := s.depth + 1 }) rfl ran quiet

end Rules

/-! ## Fragments in their places -/

/-- A symbol or keyword as it is written, at no place. -/
def Token.sign (kind : TokenKind) : Token := ⟨kind, kind.spelling, .synthetic⟩

/-- A name, at no place. -/
def Token.name (text : String) : Token := ⟨.identifier, text, .synthetic⟩

/-- The same tokens at other places: the same words, and in Mooc the colons among them touch what
stands beside them in both lists or in none. -/
structure SameText (d : Dialect) (ts ts' : List Token) : Prop where
  words : ts.map Token.word = ts'.map Token.word
  bonds : d = .mooc → colonBonds ts = colonBonds ts'

theorem colonBonds_take (ts : List Token) (n : Nat) :
    colonBonds (ts.take n) = (colonBonds ts).take (n - 1) := by
  induction ts generalizing n with
  | nil => simp [colonBonds]
  | cons t ts inductionHypothesis =>
    rcases ts with _ | ⟨u, rest⟩
    · cases n <;> simp [colonBonds]
    · rcases n with _ | _ | n
      · simp [colonBonds]
      · simp [colonBonds]
      · have tail := inductionHypothesis (n + 1)
        simp only [List.take_succ_cons, Nat.add_sub_cancel] at tail ⊢
        simp [colonBonds, tail]

theorem colonBonds_drop (ts : List Token) (n : Nat) :
    colonBonds (ts.drop n) = (colonBonds ts).drop n := by
  induction n generalizing ts with
  | zero => rfl
  | succ n inductionHypothesis =>
    rcases ts with _ | ⟨t, _ | ⟨u, rest⟩⟩
    · simp [colonBonds]
    · simp [colonBonds]
    · simpa [colonBonds] using inductionHypothesis (u :: rest)

namespace SameText

variable {d : Dialect} {x : Token} {xs ys ts us : List Token}

theorem refl (ts : List Token) : SameText d ts ts := ⟨rfl, fun _ => rfl⟩

theorem trans (h : SameText d ts us) (g : SameText d us xs) : SameText d ts xs :=
  ⟨h.words.trans g.words, fun mooc => (h.bonds mooc).trans (g.bonds mooc)⟩

theorem take (h : SameText d ts us) (n : Nat) : SameText d (ts.take n) (us.take n) where
  words := by rw [List.map_take, h.words, List.map_take]
  bonds mooc := by rw [colonBonds_take, h.bonds mooc, colonBonds_take]

theorem drop (h : SameText d ts us) (n : Nat) : SameText d (ts.drop n) (us.drop n) where
  words := by rw [List.map_drop, h.words, List.map_drop]
  bonds mooc := by rw [colonBonds_drop, h.bonds mooc, colonBonds_drop]

theorem append (h : SameText d (xs ++ ys) ts) :
    ∃ zs ws, ts = zs ++ ws ∧ SameText d xs zs ∧ SameText d ys ws := by
  have first := h.take xs.length
  have second := h.drop xs.length
  rw [List.take_left] at first
  rw [List.drop_left] at second
  exact ⟨_, _, (List.take_append_drop xs.length ts).symm, first, second⟩

theorem cons (h : SameText d (x :: ys) ts) :
    ∃ z ws, ts = z :: ws ∧ z.kind = x.kind ∧ SameText d ys ws := by
  have whole : SameText d ([x] ++ ys) ts := h
  obtain ⟨zs, ws, rfl, first, second⟩ := whole.append
  obtain ⟨z, rest, rfl, word, none⟩ := List.map_eq_cons_iff.1 first.words.symm
  obtain rfl := List.map_eq_nil_iff.1 none
  exact ⟨z, ws, rfl, congrArg Word.kind word, second⟩

theorem name {text : String} (h : SameText d (.name text :: ys) ts) :
    ∃ span ws, ts = ⟨.identifier, text, span⟩ :: ws ∧ SameText d ys ws := by
  have whole : SameText d ([.name text] ++ ys) ts := h
  obtain ⟨zs, ws, rfl, first, second⟩ := whole.append
  obtain ⟨⟨kind, spelling, span⟩, rest, rfl, word, none⟩ := List.map_eq_cons_iff.1 first.words.symm
  obtain rfl := List.map_eq_nil_iff.1 none
  obtain ⟨sameKind, sameText⟩ := Word.mk.inj word
  exact ⟨span, ws, by rw [show kind = .identifier from sameKind, show spelling = text from sameText]; rfl,
    second⟩

theorem nil (h : SameText d [] ts) : ts = [] := List.map_eq_nil_iff.1 h.words.symm

end SameText

/-- The parser takes these tokens, and nothing is complained of. -/
structure Parser.Quietly {α : Type} (p : Parser α) (s t : Session) (a : α) (ts : List Token) :
    Prop where
  run : p s = .ok a t
  quiet : t.errors = s.errors
  ahead : s.tokens.ahead.map (·.token) = ts ++ t.tokens.ahead.map (·.token)
  final : s.tokens.final.token.kind = .eof

/-- In some text the parser takes these tokens, inside constructs that are known and up to a token of
this kind, and nothing is complained of. -/
def Parser.Alone {α : Type} (c : Settings) (σ : ScopeStack) (p : Parser α) (a : α) (σ' : ScopeStack)
    (follow : TokenKind) (ts : List Token) : Prop :=
  ∃ u v fs, Quietly p u v a fs ∧ u.settings = c ∧ u.scopes = σ ∧ v.scopes = σ' ∧
    (v.tokens.upcoming 0).token.kind = follow ∧ SameText c.dialect fs ts

theorem Parser.Alone.respelled {α : Type} {c : Settings} {σ σ' : ScopeStack} {p : Parser α} {a : α}
    {follow : TokenKind} {ts ts' : List Token} (h : Alone c σ p a σ' follow ts)
    (same : SameText c.dialect ts ts') : Alone c σ p a σ' follow ts' := by
  obtain ⟨u, v, fs, alone, settings, scopes, scopes', kind, own⟩ := h
  exact ⟨u, v, fs, alone, settings, scopes, scopes', kind, own.trans same⟩

/-- What stays while tokens are taken and nothing is complained of: the settings, the log and what
stands behind the text at hand. -/
structure Backdrop where
  settings : Settings
  log : ErrorLog
  rest : List Token

/-- The session stands before tokens of a text, inside some constructs.  No lexical error is in
these tokens. -/
structure Session.Awaits (c : Backdrop) (σ : ScopeStack) (ts : List Token) (s : Session) : Prop where
  settings : s.settings = c.settings
  log : s.log = c.log
  scopes : s.scopes = σ
  ahead : s.tokens.ahead.map (·.token) = ts ++ c.rest
  tidy : s.tokens.Tidy
  clean : ∀ r ∈ s.tokens.ahead.take ts.length, r.errors = []

/-- Where the fragment has been read again, what stands behind it there is ahead. -/
theorem Session.Awaits.reached {w : Frontier} {loose : Option Looseness} {words : List Word}
    {v s t : Session} {ts ts' : List Token} {c : Backdrop} {σ : ScopeStack}
    (awaits : s.Awaits c σ (ts ++ ts')) (moved : s.Moves t) (log : t.log = s.log) (after : v.Twins w loose words t)
    (first : v.tokens.ahead.map (·.token.word) = w.first)
    (second : (ts' ++ c.rest).map Token.word = w.second) : t.Awaits c t.scopes ts' := by
  have here : w.first.length = v.tokens.ahead.length := by simp [← first]
  have ended : words = [] := List.length_eq_zero_iff.1 (by have := after.length; omega)
  obtain ⟨taken, split⟩ := moved.ahead_suffix
  have left : t.tokens.ahead.length = (ts' ++ c.rest).length := by
    rw [after.length', ended, ← second]
    simp
  have whole : taken.map (·.token) ++ t.tokens.ahead.map (·.token) = ts ++ (ts' ++ c.rest) := by
    rw [← List.map_append, split, awaits.ahead, List.append_assoc]
  obtain ⟨own, rest⟩ := List.append_inj' whole (by simpa using left)
  refine ⟨moved.settings_eq.trans awaits.settings, log.trans awaits.log, rfl, rest, after.tidy,
    fun r among => awaits.clean r ?_⟩
  have length : ts.length = taken.length := by simp [← own]
  rw [← split, List.length_append, length, List.take_length_add_append]
  exact List.mem_append_right _ among

namespace Parser.Quietly

variable {α γ : Type} {w : Frontier} {loose : Option Looseness} {taking : Bool} {ends : Prop}
  {look : α → γ} {p q : Parser α} {u v s : Session} {a : α} {fs ts ts' : List Token}
  {c : Backdrop} {σ : ScopeStack}

theorem quietly (alone : Quietly p u v a fs) : Quiet u v := by
  simpa [Session.errors, Quiet] using congrArg List.length alone.quiet

/-- What stands before the fragment alone and what stands before it in another text are twins. -/
theorem twins (alone : Quietly p u v a fs) (same : SameText w.dialect fs ts)
    (dialect : u.settings.dialect = w.dialect) (settings : c.settings = u.settings)
    (first : v.tokens.ahead.map (·.token.word) = w.first)
    (second : (ts' ++ c.rest).map Token.word = w.second) (scopes : u.scopes.Parallel loose σ)
    (opens : (u.tokens.upcoming 0).token.kind ≠ .colon) (awaits : s.Awaits c σ (ts ++ ts')) :
    u.Twins w loose (fs.map Token.word) s := by
  have length : fs.length = ts.length := by simpa using congrArg List.length same.words
  have ahead : u.tokens.ahead.map (·.token.word) = fs.map Token.word ++ w.first := by
    have words := congrArg (List.map Token.word) alone.ahead
    simpa [Function.comp_def, ← first] using words
  have fragment : u.tokens.fragment fs.length = fs := by
    rw [TokenStream.fragment, List.map_take, alone.ahead, List.take_left]
  have fragment' : s.tokens.fragment fs.length = ts := by
    rw [TokenStream.fragment, List.map_take, awaits.ahead, List.append_assoc, length, List.take_left]
  exact {
    dialect
    dialect' := by rw [awaits.settings, settings, dialect]
    fieldCap := by rw [awaits.settings, settings]
    scopes := awaits.scopes ▸ scopes
    ahead
    ahead' := by
      have words := congrArg (List.map Token.word) awaits.ahead
      simpa [Function.comp_def, ← second, same.words] using words
    final := alone.final
    tidy := awaits.tidy
    clean := fun r among => by
      rw [List.length_map, length] at among
      have within : ts.length ≤ (ts ++ ts').length := by simp
      rw [← Nat.min_eq_left within, ← List.take_take] at among
      exact awaits.clean r (List.mem_of_mem_take among)
    bonds := fun mooc => by
      rw [List.length_map, fragment, fragment']
      exact same.bonds mooc
    link := fun _ colon => by
      have kind := TokenStream.upcoming_kind_of_ahead alone.final ahead 0
      rw [← nextKind_eq] at kind
      cases words : fs.map Token.word with
      | nil =>
        rw [words] at colon
        cases colon
      | cons x rest =>
        rw [words] at colon kind
        exact absurd (kind.trans colon) opens }

/-- **A fragment in its place.**  It is read as it has been read alone, up to what stands behind it
there. -/
theorem replays (alone : Quietly p u v a fs) (h : Replays w loose none taking ends look p q)
    (moves : ∀ {s t : Session} {a : α}, q s = .ok a t → s.Moves t) (may : ends)
    (same : SameText w.dialect fs ts) (dialect : u.settings.dialect = w.dialect)
    (settings : c.settings = u.settings) (first : v.tokens.ahead.map (·.token.word) = w.first)
    (second : (ts' ++ c.rest).map Token.word = w.second) (scopes : u.scopes.Parallel loose σ)
    (opens : (u.tokens.upcoming 0).token.kind ≠ .colon) (awaits : s.Awaits c σ (ts ++ ts')) :
    ∃ a' t σ', q s = .ok a' t ∧ look a = look a' ∧ v.scopes.Parallel loose σ' ∧
      t.Awaits c σ' ts' := by
  have here : w.first.length = v.tokens.ahead.length := by simp [← first]
  have before := alone.twins same dialect settings first second scopes opens awaits
  obtain ⟨a', t, words, ran, result, after, log⟩ :=
    h.follows before nofun alone.run alone.quietly (.inr ⟨here, may⟩)
  exact ⟨a', t, t.scopes, ran, result, after.scopes,
    awaits.reached (moves ran) log after first second⟩

end Parser.Quietly

end LuaChunk
