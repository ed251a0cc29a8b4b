import LuaChunk.Proofs.Replay.Chunk

/-!
# Guards

`guard c else { B }` is read as what `if not (c) { B }` is read as.  The body of the one is read
inside a `guard` and that of the other inside a branch, of which only the first takes a note that its
block returns; and where the block does not leave the code around it the `guard` is complained of.
-/

set_option autoImplicit false

open LuaChunk.Parser

namespace LuaChunk

/-! ## The block of a guard -/

/-- Up to where both may stop they see the same kind of token. -/
theorem Session.Twins.kind_same {w : Frontier} {loose : Looseness} {words : List Word}
    {s s' : Session} (h : s.Twins w loose words s') (within : w.Within w.Same s) :
    (s'.tokens.upcoming 0).token.kind = (s.tokens.upcoming 0).token.kind := by
  rw [h.kind, h.kind']
  cases words with
  | nil => exact (h.ends_of_nil within).symm
  | cons => rfl

namespace Parser

variable {w : Frontier} {loose : Looseness} {r r' : Rules} {s s' t : Session} {b : Block}
  {words : List Word}

/-- A block up to its `return`. -/
def beforeReturn (r : Rules) : Parser (Span × Span × List Stat) := do
  let head ← head
  let before ← now
  let stats ← iterate #[] (moreStats r)
  let label ← pendingLabel
  return (head, before, stats.toList ++ label)

/-- A block of which it is known what it returns. -/
def ended (x : Span × Span × List Stat) (returns : Option (List Exp)) : Parser Block := do
  let after ← now
  let span := if after = x.2.1 then x.1.upTo x.1 else x.1.merge after
  return ⟨x.2.2, returns, span⟩

/-- A block from its `return` on. -/
def fromReturn (r : Rules) (x : Span × Span × List Stat) : Parser Block := do
  let returns ← returnStat r
  ended x returns

theorem block_eq_return (r : Rules) : block r = beforeReturn r >>= fromReturn r := by
  unfold beforeReturn fromReturn ended
  simp only [bind_assoc, pure_bind]
  rfl

theorem beforeReturn_replays (h : r.Replays w r') : Replays w loose none false w.Same
    (fun x => x.2.2.map Stat.unplaced) (beforeReturn r) (beforeReturn r') := by
  refine .head fun _ _ => .now fun _ _ => .bind (stats_replays h) fun stats stats' same =>
    .bind pendingLabel_replays fun _ _ label => .pure ?_
  have rounds := congrArg Array.toList same
  simp only [Array.toList_map] at rounds
  simp [rounds, label]

theorem returned_isSome {returns : Option (List Exp)} (run : returned r s = .ok returns t) :
    returns.isSome = true := by
  obtain ⟨_, _, _, run⟩ := bind_eq_ok.1 run
  obtain ⟨_, _, _, run⟩ := bind_eq_ok.1 run
  split at run
  · obtain ⟨rfl, -⟩ := pure_eq_ok.1 run
    rfl
  obtain ⟨_, _, _, run⟩ := bind_eq_ok.1 run
  split at run
  · obtain ⟨rfl, -⟩ := pure_eq_ok.1 run
    rfl
  obtain ⟨_, _, _, run⟩ := bind_eq_ok.1 run
  obtain ⟨_, _, _, run⟩ := bind_eq_ok.1 run
  obtain ⟨rfl, -⟩ := pure_eq_ok.1 run
  rfl

theorem ended_replays {known : Option TokenKind} {x x' : Span × Span × List Stat}
    (same : x.2.2.map Stat.unplaced = x'.2.2.map Stat.unplaced) {returns returns' : Option (List Exp)}
    (same' : returns.map (List.map Exp.unplaced) = returns'.map (List.map Exp.unplaced)) :
    Replays w loose known false w.Same Block.unplaced (ended x returns) (ended x' returns') :=
  .now fun _ _ => .pure (by simp [same, same'])

theorem fromReturn_moves (h : r.Replays w r') {x : Span × Span × List Stat}
    (dialect : s.settings.dialect = w.dialect) (run : fromReturn r x s = .ok b t) : s.Moves t := by
  have replays : Replays w (some (.inside none)) none false w.Same Block.unplaced (fromReturn r x)
      (fromReturn r' x) :=
    .bind (returnStat_replays h) fun _ _ returns => ended_replays rfl returns
  exact replays.onward dialect run

/-- A block that returns nothing. -/
theorem fromReturn_of_ne (x : Span × Span × List Stat)
    (other : (s.tokens.upcoming 0).token.kind ≠ .kwReturn) :
    fromReturn r x s = ended x none { s with tokens := s.tokens.look 1 } := by
  unfold fromReturn
  rw [returnStat_eq, bind_assoc, peek_bind, if_pos other]
  rfl

/-- A block that returns something. -/
theorem fromReturn_of_eq (x : Span × Span × List Stat)
    (same : (s.tokens.upcoming 0).token.kind = .kwReturn) :
    fromReturn r x s = (returned r >>= ended x)
      { s with tokens := s.tokens.look 1, scopes := noteReturn s.scopes } := by
  unfold fromReturn
  rw [returnStat_eq, bind_assoc, peek_bind, if_neg (not_not.2 same)]
  rfl

/-- A `return` is noted in the `guard`, and in the branch it is not. -/
theorem fromReturn_guard (h : r.Replays w r') {x x' : Span × Span × List Stat}
    (same : x.2.2.map Stat.unplaced = x'.2.2.map Stat.unplaced)
    (twins : s.Twins w (some (.branch 0 loose)) words s') (run : fromReturn r x s = .ok b t)
    (quiet : Quiet s t) (within : w.Within w.Same t) :
    ∃ b' t' words' count, fromReturn r' x' s' = .ok b' t' ∧ b.unplaced = b'.unplaced ∧
      (b.returns = none → count = 0) ∧ t.Twins w (some (.branch count loose)) words' t' ∧
      t'.log = s'.log := by
  have kinds := twins.kind_same (within.back (fromReturn_moves h twins.dialect run))
  have looked := twins.look 1 1
  by_cases returns : (s.tokens.upcoming 0).token.kind = .kwReturn
  · rw [fromReturn_of_eq x returns] at run
    rw [fromReturn_of_eq x' (kinds.trans returns)]
    have rest : Replays w (some (.branch 1 loose)) (some .kwReturn) false w.Same Block.unplaced
        (returned r >>= ended x) (returned r' >>= ended x') :=
      .bind (returned_replays h) fun _ _ values => ended_replays same values
    obtain ⟨b', t', words', ran, result, after, log⟩ := rest.follows
      (looked.withScopes twins.scopes.noteReturn_guard) (by simpa using returns) run quiet within
    refine ⟨b', t', words', 1, ran, result, fun none => ?_, after, log⟩
    obtain ⟨values, _, read, last⟩ := bind_eq_ok.1 run
    obtain ⟨_, _, _, last⟩ := bind_eq_ok.1 last
    obtain ⟨rfl, -⟩ := pure_eq_ok.1 last
    have some := returned_isSome read
    rw [show values = .none from none] at some
    cases some
  · rw [fromReturn_of_ne x returns] at run
    rw [fromReturn_of_ne x' (kinds ▸ returns)]
    have rest : Replays w (some (.branch 0 loose)) none false w.Same Block.unplaced (ended x none)
        (ended x' none) := ended_replays same rfl
    obtain ⟨b', t', words', ran, result, after, log⟩ := rest.follows looked nofun run quiet within
    exact ⟨b', t', words', 0, ran, result, fun _ => rfl, after, log⟩

theorem block_guard (h : r.Replays w r') (twins : s.Twins w (some (.branch 0 loose)) words s')
    (run : block r s = .ok b t) (quiet : Quiet s t) (within : w.Within w.Same t) :
    ∃ b' t' words' count, block r' s' = .ok b' t' ∧ b.unplaced = b'.unplaced ∧
      (b.returns = none → count = 0) ∧ t.Twins w (some (.branch count loose)) words' t' ∧
      t'.log = s'.log := by
  rw [block_eq_return] at run ⊢
  obtain ⟨x, u, first, second⟩ := bind_eq_ok.1 run
  have before : Replays w (some (.branch 0 loose)) none false w.Same (fun x => x.2.2.map Stat.unplaced)
      (beforeReturn r) (beforeReturn r') := beforeReturn_replays h
  have moves := before.onward twins.dialect first
  have moves' := fromReturn_moves h (moves.settings_eq ▸ twins.dialect) second
  have quietly := quiet.parts moves moves'
  obtain ⟨x', u', words', ran, same, twins, log⟩ :=
    before.follows twins nofun first quietly.1 (within.back moves')
  obtain ⟨b', t', words', count, ran', result⟩ := fromReturn_guard h same twins second quietly.2 within
  refine ⟨b', t', words', count, (bind_of_ok ran _).trans ran', ?_⟩
  rwa [← log]

end Parser

/-- The block of a `guard` is read as that of a branch. -/
theorem Rules.block_guard {w : Frontier} {loose : Looseness} {words : List Word} {n m : Nat}
    {s s' t : Session} {b : Block} (le : n ≤ m) (twins : s.Twins w (some (.branch 0 loose)) words s')
    (run : (level n).block s = .ok b t) (quiet : Quiet s t) (within : w.Within w.Same t) :
    ∃ b' t' words' count, (level m).block s' = .ok b' t' ∧ b.unplaced = b'.unplaced ∧
      (b.returns = none → count = 0) ∧ t.Twins w (some (.branch count loose)) words' t' ∧
      t'.log = s'.log := by
  cases n with
  | zero => exact absurd run tooDeep_ne_ok
  | succ n =>
    obtain ⟨m, rfl⟩ : ∃ k, m = k + 1 := ⟨m - 1, by omega⟩
    obtain ⟨u, ran, rfl⟩ := nested_eq_ok.1 run
    obtain ⟨b', t', words', count, ran', same, counted, after, log⟩ :=
      Parser.block_guard (level_replays (Nat.le_of_succ_le_succ le))
        (twins.withDepth (s.depth + 1) (s'.depth + 1)) ran quiet within
    exact ⟨b', _, words', count, nested_eq_ok.2 ⟨t', ran', rfl⟩, same, counted,
      after.withDepth _ _, log⟩

/-! ## The complaint -/

/-- The last token taken started before what is ahead of the scanner. -/
structure TokenStream.Passed (s : TokenStream) : Prop where
  found : Scanner.Finds s.dialect s.taken s.ahead s.final
  start_lt : s.now.start < s.taken.cursor.position

theorem TokenStream.Passed.next {s : TokenStream} {r : Scanned} {rest : List Scanned}
    (found : Scanner.Finds s.dialect s.taken s.ahead s.final) (ahead : s.ahead = r :: rest) :
    s.next.2.Passed := by
  obtain ⟨token, dialect, after⟩ := next_of_ahead_eq_cons ahead
  rw [ahead] at found
  cases found with
  | token more found =>
    have advances := Scanner.scan_advances s.dialect s.taken
    refine ⟨?_, ?_⟩
    · rw [dialect, after, ahead_next, final_next, ahead]
      exact found
    · rw [now_next, token, after, ← advances.stop]
      exact advances.start_lt more

/-- Short of the end of input every token that is taken is passed. -/
theorem Session.Moves.passed {s t : Session} (h : s.Moves t) (passed : s.tokens.Passed)
    (more : t.tokens.ahead ≠ []) : t.tokens.Passed := by
  induction h with
  | trans first second inner outer =>
    refine outer (inner passed fun none => ?_) more
    exact more (List.suffix_nil.1 (none ▸ second.ahead_suffix))
  | look s count =>
    unfold TokenStream.look
    split <;> exact ⟨passed.found, passed.start_lt⟩
  | take s =>
    cases ahead : s.tokens.ahead with
    | nil => exact absurd (by rw [TokenStream.ahead_next, ahead]; rfl) more
    | cons r rest => exact .next passed.found ahead
  | note => exact ⟨passed.found, passed.start_lt⟩
  | within _ _ _ inner => exact inner passed more
  | nested _ inner => exact inner passed more
  | _ => exact passed

/-- A complaint of the last token taken comes before the errors that wait. -/
theorem Parser.complain_passed {s : Session} {cause : Cause} (tidy : s.tokens.Tidy)
    (passed : s.tokens.Passed) (room : s.log.HasRoom) :
    complain cause s.tokens.now s =
      .ok () { s with log := s.log.push { cause := cause, span := s.tokens.now } } := by
  have none := TokenStream.takeErrorsBefore_none (s := s.tokens)
    (p := s.tokens.now.start.nextColumn) fun e among early => by
      have waits : e ∈ s.tokens.waiting := List.mem_append_left _ among
      have later := Position.lt_of_lt_of_le passed.start_lt (tidy.lie e waits).low_le
      exact Position.not_le.2 later (Position.lt_nextColumn_iff.1 early)
  have synced : syncBefore s.tokens.now.start.nextColumn s = .ok () s := syncBefore_of_cut none
  unfold complain
  rw [bind_of_ok synced]
  simp only [record, ErrorLog.report_of_hasRoom room]

/-! ## The body of a guard -/

/-- A `break` or a jump to a label, which a `continue` is too. -/
def Stat.isJump : Stat → Bool
  | .breakLoop _ | .goto _ _ => true
  | _ => false

/-- Control may pass the end of the block: it has no `return`, and its last statement is no jump. -/
def Block.fallsThrough (b : Block) : Bool :=
  b.returns.isNone && !b.stats.getLast?.any Stat.isJump

theorem Block.leaves_eq_not (b : Block) : Parser.leaves b = !b.fallsThrough := by
  obtain ⟨stats, returns, span⟩ := b
  unfold Parser.leaves fallsThrough
  cases returns with
  | some => rfl
  | none =>
    cases stats.getLast? with
    | none => rfl
    | some a => cases a <;> rfl

section Guarded

variable {c : Backdrop} {σ σ₂ : ScopeStack} {ts ts' : List Token} {n m : Nat} {b : Block}
  {name name' : String} {s : Session}

/-- A block that is known to be that of a branch, where it is that of a `guard`. -/
theorem Parser.Alone.guarded
    (alone : Alone c.settings (σ.push .branch name) (Rules.level n).block b σ₂ (c.facing ts') ts)
    (le : n ≤ m) (settles : (c.facing ts').settles = true)
    (awaits : s.Awaits c (σ.push .guardBlock name') (ts ++ ts')) :
    ∃ b' t σ', (Rules.level m).block s = .ok b' t ∧ b.unplaced = b'.unplaced ∧
      (b.returns = none → σ'.current.count = 0) ∧ σ'.pop.2 = σ₂.pop.2 ∧ t.Awaits c σ' ts' := by
  obtain ⟨u, v, fs, alone, settings, scopes, rfl, kind, same⟩ := alone
  have moved := Reads.moves (fun _ => (Rules.level_reads n).block) alone.run
  have ended : v.tokens.final.token.kind = .eof := moved.final_eq ▸ alone.final
  have first : nextKind (v.tokens.ahead.map (·.token.word)) = c.facing ts' := by
    rw [← kind, TokenStream.upcoming_kind_of_ahead ended rfl, ← nextKind_eq]
  let w : Frontier := ⟨c.settings.dialect, v.tokens.ahead.map (·.token.word),
    (ts' ++ c.rest).map Token.word, by rw [first]; exact TokenKind.isSuffix_of_settles settles,
    settles⟩
  have parallel := (ScopeStack.Parallel.refl σ).pushBranch name name'
  have before := alone.twins (w := w) same (congrArg Settings.dialect settings) settings.symm rfl rfl
    (scopes ▸ parallel) (Rules.block_ne_colon alone.run alone.quietly) awaits
  obtain ⟨b', t, words, count, ran, result, counted, after, log⟩ := Rules.block_guard le before
    alone.run alone.quietly (.inr ⟨by simp [w], first⟩)
  refine ⟨b', t, t.scopes, ran, result, fun none => ?_, ?_, ?_⟩
  · rw [after.scopes.count_guard, counted none]
  · exact after.scopes.popBranch.eq_of_strict (Looseness.isStrict_along _)
  · exact awaits.reached (Reads.moves (fun _ => (Rules.level_reads m).block) ran) log after rfl rfl

/-- A `guard` whose block leaves is not complained of. -/
theorem Parser.guardBody_of_leaves {r : Rules} {t : Session} (ran : r.block s = .ok b t)
    (leaving : leaves b = true) : guardBody r s = .ok b t := by
  have rest : (do
      if !(leaves b || 0 < (← scopes).current.count) then complain .guardFallsThrough (← now)
      return b : Parser Block) t = .ok b t := by
    change (if !(leaves b || decide (0 < t.scopes.current.count)) then _ else _ : Parser Block) t = _
    rw [leaving]
    rfl
  exact (bind_of_ok ran _).trans rest

/-- One whose block falls through is, of the last token of the block. -/
theorem Parser.guardBody_of_falls {r : Rules} {t : Session} (ran : r.block s = .ok b t)
    (falls : leaves b = false) (none : t.scopes.current.count = 0) (tidy : t.tokens.Tidy)
    (passed : t.tokens.Passed) (room : t.log.HasRoom) :
    guardBody r s = .ok b { t with
      log := t.log.push { cause := .guardFallsThrough, span := t.tokens.now } } := by
  have complained : complain .guardFallsThrough t.tokens.now t = .ok () { t with
      log := t.log.push { cause := .guardFallsThrough, span := t.tokens.now } } :=
    complain_passed tidy passed room
  have rest : (do
      if !(leaves b || 0 < (← scopes).current.count) then complain .guardFallsThrough (← now)
      return b : Parser Block) t = .ok b { t with
        log := t.log.push { cause := .guardFallsThrough, span := t.tokens.now } } := by
    change (if !(leaves b || decide (0 < t.scopes.current.count)) then
      (do complain .guardFallsThrough (← now); return b) else _ : Parser Block) t = _
    rw [falls, none]
    exact bind_of_ok complained _
  exact (bind_of_ok ran _).trans rest

/-- What is left for a session when the body of a `guard` may have been complained of. -/
def Backdrop.guarded (c : Backdrop) (b : Block) (d : Diagnostic) : Backdrop :=
  { c with log := if b.fallsThrough then c.log.push d else c.log }

theorem Parser.guardBody_run
    (alone : Alone c.settings (σ.push .branch name) (Rules.level n).block b σ₂ (c.facing ts') ts)
    (le : n ≤ m) (settles : (c.facing ts').settles = true) (awaits : s.Awaits c σ (ts ++ ts'))
    (passed : s.tokens.Passed) (room : c.log.HasRoom) (more : ts' ++ c.rest ≠ []) :
    ∃ b' t span, within .guardBlock "guard" (guardBody (.level m)) s = .ok b' t ∧
      b.unplaced = b'.unplaced ∧
      t.Awaits (c.guarded b { cause := .guardFallsThrough, span := span }) σ₂.pop.2 ts' := by
  obtain rfl := awaits.scopes
  obtain ⟨b', t, σ', ran, same, counted, popped, after⟩ :=
    alone.guarded le settles (awaits.withScopes (s.scopes.push .guardBlock "guard"))
  obtain rfl := after.scopes
  have leaving : leaves b' = !b.fallsThrough := (leaves_eq same).symm.trans b.leaves_eq_not
  refine ⟨b', ?_⟩
  cases falls : b.fallsThrough with
  | false =>
    have stays := guardBody_of_leaves ran (by rw [leaving, falls]; rfl)
    refine ⟨{ t with scopes := t.scopes.pop.2 }, .synthetic, within_eq_ok.2 ⟨t, stays, rfl⟩, same, ?_⟩
    simp only [Backdrop.guarded, falls]
    exact popped ▸ after.withScopes t.scopes.pop.2
  | true =>
    have returns : b.returns = none := by
      simp only [Block.fallsThrough, Bool.and_eq_true, Option.isNone_iff_eq_none] at falls
      exact falls.1
    have ahead : t.tokens.ahead ≠ [] := fun none => more (by rw [← after.ahead, none]; rfl)
    have moved := Reads.moves (fun _ => (Rules.level_reads m).block) ran
    have complains := guardBody_of_falls ran (by rw [leaving, falls]; rfl) (counted returns)
      after.tidy (moved.passed passed ahead) (after.log ▸ room)
    refine ⟨_, t.tokens.now, within_eq_ok.2 ⟨_, complains, rfl⟩, same, ?_⟩
    simp only [Backdrop.guarded, falls, if_true]
    exact ⟨after.settings, by rw [after.log], popped, after.ahead, after.tidy, after.clean⟩

end Guarded

/-! ## The two statements -/

/-- The conditional whose only branch is on the negation of a condition. -/
def Stat.ifNot (e : Exp) (b : Block) : Stat :=
  .conditional ⟨[⟨e.negate .synthetic, b⟩], .synthetic⟩

namespace Parser

variable {c : Backdrop} {σ σ₁ σ₂ : ScopeStack} {cs bs ts' : List Token} {k k' m : Nat} {e : Exp}
  {b : Block} {keyword other lp rp lb rb : Token} {s : Session}

/-- `not (c)` -/
theorem Crosses.negation (condition : Alone c.settings σ (Rules.level k).exp e σ₁ .eof cs)
    (le : k ≤ m) (mooc : c.settings.dialect = .mooc) (word : other.kind = .kwNot)
    (opens : lp.kind = .lparen) (closes : rp.kind = .rparen)
    (follow : c.facing ts' = .lbrace) :
    Crosses c σ (other :: lp :: (cs ++ rp :: ts')) (Rules.level (m + 3)).exp σ₁ ts'
      fun x => x.unplaced = (e.negate .synthetic).unplaced := by
  have stops : BinaryOp.ofToken? (c.facing ts') = none := by rw [follow]; rfl
  have inner : Crosses c σ (lp :: (cs ++ rp :: ts'))
      ((Rules.level (m + 2)).operation UnaryOp.priority) σ₁ ts' fun p =>
        ∃ e' span, p = .paren e' span ∧ e.unplaced = e'.unplaced :=
    .nested (.operationNone (.operand (.inr opens)
      (.paren condition le opens closes (.inr ⟨mooc, follow⟩))) stops)
  refine .nested (.operationNone ?_ stops)
  unfold Parser.operand
  refine .peek ?_
  rw [Backdrop.facing_cons, word]
  refine .next (inner.bind ?_)
  rintro _ ⟨e', span, rfl, same⟩
  exact .since fun _ => .pure (by simp [Exp.negate, same])

/-- `if not (c) { B }` -/
theorem Crosses.conditional (condition : Alone c.settings σ (Rules.level k).exp e σ₁ .eof cs)
    (body : Alone c.settings (σ₁.push .branch "if") (Rules.level k').block b σ₂ .rbrace bs)
    (le : k ≤ m) (le' : k' ≤ m) (mooc : c.settings.dialect = .mooc)
    (start : keyword.kind = .kwIf) (word : other.kind = .kwNot) (opens : lp.kind = .lparen)
    (closes : rp.kind = .rparen) (left : lb.kind = .lbrace) (right : rb.kind = .rbrace)
    (ends : c.facing [] ≠ .kwElseif ∧ c.facing [] ≠ .kwElse) :
    Crosses c σ (keyword :: other :: lp :: (cs ++ rp :: lb :: (bs ++ [rb])))
      (Rules.level (m + 4)).stat σ₂.pop.2 [] fun a => a.unplaced = (Stat.ifNot e b).unplaced := by
  have block : Crosses c (σ₁.push .branch "if") (bs ++ [rb]) (Rules.level (m + 3)).block σ₂
      [rb] fun b' => b.unplaced = b'.unplaced :=
    .block (right ▸ body) (by omega) (by rw [Backdrop.facing_cons, right]; rfl)
  have branch : Crosses c σ (other :: lp :: (cs ++ rp :: lb :: (bs ++ [rb])))
      (branch (.level (m + 3))) σ₂.pop.2 [] fun x => ∃ e' b', x = ⟨e', b'⟩ ∧
        e'.unplaced = (e.negate .synthetic).unplaced ∧ b.unplaced = b'.unplaced := by
    have follow : c.facing (lb :: (bs ++ [rb])) = .lbrace := left
    refine (negation condition le mooc word opens closes follow).bind fun e' same => ?_
    refine .openBody mooc left ((Crosses.within _ _ block).bind fun b' same' => ?_)
    exact .brace mooc right (.pure ⟨e', b', rfl, same, same'⟩)
  have whole : Crosses c σ (keyword :: other :: lp ::
      (cs ++ rp :: lb :: (bs ++ [rb]))) (ifStat (.level (m + 3))) σ₂.pop.2 [] fun a =>
        a.unplaced = (Stat.ifNot e b).unplaced := by
    refine .next (branch.bind ?_)
    rintro _ ⟨e', b', rfl, same, same'⟩
    have none : Crosses c σ₂.pop.2 [] (moreBranches (.level (m + 3)) #[⟨e', b'⟩]) σ₂.pop.2 []
        fun next => ∃ branches, next = .done branches ∧ branches = #[⟨e', b'⟩] :=
      .acceptsNone ends.1 (.pure ⟨_, rfl, rfl⟩)
    refine (iterate (.done none)).bind ?_
    rintro _ rfl
    unfold elseBranch
    simp only [bind_assoc]
    refine .acceptNone ends.2 ?_
    simp only [pure_bind]
    refine .isMooc ?_
    rw [mooc]
    exact .since fun _ => .pure (by simp [Stat.ifNot, same, same'])
  refine .nested ?_
  unfold Parser.stat
  refine .isMooc ?_
  rw [mooc]
  refine .peek ?_
  rw [Backdrop.facing_cons, start]
  exact whole

/-- A `guard` up to its body. -/
def guardHead (r : Rules) : Parser (Token × Exp) := do
  let keyword ← next
  let condition ← r.exp
  let condition := condition.negate (← since keyword.span)
  let _ ← expect .kwElse
  return (keyword, condition)

/-- A `guard` from its body on. -/
def guardTail (r : Rules) (x : Token × Exp) : Parser Stat := do
  let _ ← expect .lbrace
  let body ← within .guardBlock "guard" (guardBody r)
  let _ ← expect .rbrace
  return .conditional ⟨[⟨x.2, body⟩], ← since x.1.span⟩

theorem guardStat_eq (r : Rules) : guardStat r = guardHead r >>= guardTail r := by
  unfold guardHead guardTail
  simp only [bind_assoc, pure_bind]
  rfl

theorem stat_guard {r : Rules} (mooc : s.settings.dialect = .mooc)
    (start : (s.tokens.upcoming 0).token.kind = .kwGuard) :
    stat r s = guardStat r { s with tokens := s.tokens.look 1 } := by
  unfold stat moocStat
  rw [isMooc_bind, mooc, if_pos (by rfl), peek_bind, start]

theorem Crosses.guardHead (condition : Alone c.settings σ (Rules.level k).exp e σ₁ .eof cs)
    (le : k ≤ m) (word : other.kind = .kwElse) :
    Crosses c σ (keyword :: (cs ++ other :: ts')) (guardHead (.level m)) σ₁ ts' fun x =>
      x.2.unplaced = (e.negate .synthetic).unplaced := by
  have follow : c.facing (other :: ts') = .kwElse := word
  refine .next ((exp condition le (by rw [follow]; rfl) (by rw [follow]; rfl)).bind fun e' same => ?_)
  exact .since fun _ => .expect word (.pure (by simp [Exp.negate, same]))

end Parser

theorem Session.Awaits.expect {c : Backdrop} {σ : ScopeStack} {t : Token} {ts : List Token}
    {s : Session} (h : s.Awaits c σ (t :: ts)) :
    ∃ u, Parser.expect t.kind s = .ok t u ∧ u.Awaits c σ ts ∧ u.tokens.Passed := by
  obtain ⟨u, taken, after⟩ := h.next
  have quiet : Quiet s u := by rw [Quiet, after.log, h.log]
  obtain ⟨-, rfl⟩ := next_of_quiet taken quiet
  obtain ⟨r, rest, ahead, -, -⟩ := List.map_eq_cons_iff.1 h.ahead
  refine ⟨_, ?_, after, .next h.tidy.found ahead⟩
  unfold Parser.expect
  rw [bind_of_ok taken, if_neg (not_not.2 rfl)]
  rfl

namespace Parser

variable {c : Backdrop} {σ σ₁ σ₂ : ScopeStack} {cs bs ts' : List Token} {k k' m : Nat} {e : Exp}
  {b : Block} {keyword other lb rb : Token} {s : Session}

/-- The body of a `guard` and what is made of it. -/
theorem guardTail_run {x : Token × Exp} (same : x.2.unplaced = (e.negate .synthetic).unplaced)
    (body : Alone c.settings (σ₁.push .branch "if") (Rules.level k').block b σ₂ .rbrace bs)
    (le : k' ≤ m) (left : lb.kind = .lbrace) (right : rb.kind = .rbrace) (room : c.log.HasRoom)
    (awaits : s.Awaits c σ₁ (lb :: (bs ++ [rb]))) :
    ∃ a t span, guardTail (.level m) x s = .ok a t ∧ a.unplaced = (Stat.ifNot e b).unplaced ∧
      t.Awaits (c.guarded b { cause := .guardFallsThrough, span := span }) σ₂.pop.2 [] := by
  obtain ⟨u, taken, awaits, passed⟩ := awaits.expect
  have follow : c.facing [rb] = .rbrace := right
  obtain ⟨b', v, span, ran, same', after⟩ := guardBody_run (follow.symm ▸ body) le
    (by rw [follow]; rfl) awaits passed room nofun
  have rest : Crosses (c.guarded b { cause := .guardFallsThrough, span := span }) σ₂.pop.2 [rb]
      (do
        let _ ← expect .rbrace
        return Stat.conditional ⟨[⟨x.2, b'⟩], ← since x.1.span⟩)
      σ₂.pop.2 [] fun a => a.unplaced = (Stat.ifNot e b).unplaced :=
    .expect right (.since fun _ => .pure (by simp [Stat.ifNot, same, same']))
  obtain ⟨a, t, last, result, after⟩ := rest v after
  refine ⟨a, t, span, ?_, result, after⟩
  unfold guardTail
  rw [bind_of_ok (left ▸ taken), bind_of_ok ran, last]

/-- `guard c else { B }` -/
theorem guard_run (condition : Alone c.settings σ (Rules.level k).exp e σ₁ .eof cs)
    (body : Alone c.settings (σ₁.push .branch "if") (Rules.level k').block b σ₂ .rbrace bs)
    (le : k ≤ m) (le' : k' ≤ m) (mooc : c.settings.dialect = .mooc)
    (start : keyword.kind = .kwGuard) (word : other.kind = .kwElse) (left : lb.kind = .lbrace)
    (right : rb.kind = .rbrace) (room : c.log.HasRoom)
    (awaits : s.Awaits c σ (keyword :: (cs ++ other :: lb :: (bs ++ [rb])))) :
    ∃ a t span, (Rules.level (m + 1)).stat s = .ok a t ∧ a.unplaced = (Stat.ifNot e b).unplaced ∧
      t.Awaits (c.guarded b { cause := .guardFallsThrough, span := span }) σ₂.pop.2 [] := by
  have below := awaits.withDepth (s.depth + 1)
  have kind : (s.tokens.upcoming 0).token.kind = .kwGuard := by
    rw [awaits.kind, Backdrop.facing_cons, start]
  have heads : Crosses c σ (keyword :: (cs ++ other :: lb :: (bs ++ [rb]))) (guardHead (.level m)) σ₁
      (lb :: (bs ++ [rb])) fun x => x.2.unplaced = (e.negate .synthetic).unplaced :=
    .guardHead condition le word
  obtain ⟨x, u, first, same, between⟩ := heads _ (below.looked (.look 1 .refl))
  obtain ⟨a, t, span, second, result, after⟩ := guardTail_run same body le' left right room between
  refine ⟨a, { t with depth := t.depth - 1 }, span, nested_eq_ok.2 ⟨t, ?_, rfl⟩, result,
    after.withDepth _⟩
  have enters := stat_guard (r := .level m) (s := { s with depth := s.depth + 1 })
    (by rw [below.settings, mooc]) kind
  rw [guardStat_eq] at enters
  exact enters.trans ((bind_of_ok first _).trans second)

end Parser

namespace Session

variable {c : Settings} {σ σ₁ σ₂ : ScopeStack} {log log' : ErrorLog} {rest rest' cs bs ts ts' : List Token}
  {k k' n : Nat} {e : Exp} {b : Block} {s s' : Session}

/-- `guard c else { B }` as a statement -/
theorem guard_known (mooc : c.dialect = .mooc)
    (condition : Alone c σ (Rules.level k).exp e σ₁ .eof cs)
    (body : Alone c (σ₁.push .branch "if") (Rules.level k').block b σ₂ .rbrace bs)
    (form : SameText c.dialect (.sign .kwGuard ::
      (cs ++ .sign .kwElse :: .sign .lbrace :: (bs ++ [.sign .rbrace]))) ts)
    (before : s.Awaits ⟨c, log, rest⟩ σ ts) (room : log.HasRoom)
    (fits : ¬ (last ((Rules.level n).stat s)).TooDeep) :
    ∃ a t span, (Rules.level n).stat s = .ok a t ∧ a.unplaced = (Stat.ifNot e b).unplaced ∧
      t.Awaits (Backdrop.guarded ⟨c, log, rest⟩ b { cause := .guardFallsThrough, span := span })
        σ₂.pop.2 [] := by
  obtain ⟨keyword, _, rfl, start, form⟩ := form.cons
  obtain ⟨cs', _, rfl, sameC, form⟩ := form.append
  obtain ⟨other, _, rfl, word, form⟩ := form.cons
  obtain ⟨lb, _, rfl, left, form⟩ := form.cons
  obtain ⟨bs', _, rfl, sameB, form⟩ := form.append
  obtain ⟨rb, _, rfl, right, form⟩ := form.cons
  obtain rfl := form.nil
  obtain ⟨a, t, span, run, known⟩ := guard_run (m := n + k + k') (condition.respelled sameC)
    (body.respelled sameB) (by omega) (by omega) mooc start word left right room before
  exact ⟨a, t, span, Rules.stat_of_deeper (by omega) before.tidy fits run, known⟩

/-- `if not (c) { B }` as a statement -/
theorem conditional_known (mooc : c.dialect = .mooc)
    (condition : Alone c σ (Rules.level k).exp e σ₁ .eof cs)
    (body : Alone c (σ₁.push .branch "if") (Rules.level k').block b σ₂ .rbrace bs)
    (form : SameText c.dialect (.sign .kwIf :: .sign .kwNot :: .sign .lparen ::
      (cs ++ .sign .rparen :: .sign .lbrace :: (bs ++ [.sign .rbrace]))) ts)
    (before : s.Awaits ⟨c, log, rest⟩ σ ts)
    (ends : ∀ t ∈ rest.head?, t.kind ≠ .kwElseif ∧ t.kind ≠ .kwElse)
    (fits : ¬ (last ((Rules.level n).stat s)).TooDeep) :
    ∃ a t, (Rules.level n).stat s = .ok a t ∧ a.unplaced = (Stat.ifNot e b).unplaced ∧
      t.Awaits ⟨c, log, rest⟩ σ₂.pop.2 [] := by
  obtain ⟨keyword, _, rfl, start, form⟩ := form.cons
  obtain ⟨other, _, rfl, word, form⟩ := form.cons
  obtain ⟨lp, _, rfl, opens, form⟩ := form.cons
  obtain ⟨cs', _, rfl, sameC, form⟩ := form.append
  obtain ⟨rp, _, rfl, closes, form⟩ := form.cons
  obtain ⟨lb, _, rfl, left, form⟩ := form.cons
  obtain ⟨bs', _, rfl, sameB, form⟩ := form.append
  obtain ⟨rb, _, rfl, right, form⟩ := form.cons
  obtain rfl := form.nil
  let behind : Backdrop := ⟨c, log, rest⟩
  have ends : behind.facing [] ≠ .kwElseif ∧ behind.facing [] ≠ .kwElse := by
    cases rest with
    | nil => exact ⟨nofun, nofun⟩
    | cons t rest => exact ends t rfl
  obtain ⟨a, t, run, known⟩ := Crosses.conditional (c := behind) (m := n + k + k')
    (condition.respelled sameC) (body.respelled sameB) (by omega) (by omega) mooc start word opens
    closes left right ends s before
  exact ⟨a, t, Rules.stat_of_deeper (by omega) before.tidy fits run, known⟩

/-- **Guards.**  Let `c` be the tokens of an expression and `B` those of a block, which are read inside
some constructs without complaint.  There `guard c else { B }` and `if not (c) { B }`, behind which no
other branch follows, are read as the same statement, up to places.  The latter is not complained of,
and the former is exactly if control may pass the end of `B`, unless the levels are exceeded or there
is no room for a complaint. -/
theorem stat_guard_eq (mooc : c.dialect = .mooc)
    (condition : Alone c σ (Rules.level k).exp e σ₁ .eof cs)
    (body : Alone c (σ₁.push .branch "if") (Rules.level k').block b σ₂ .rbrace bs)
    (short : SameText c.dialect (.sign .kwGuard ::
      (cs ++ .sign .kwElse :: .sign .lbrace :: (bs ++ [.sign .rbrace]))) ts)
    (long : SameText c.dialect (.sign .kwIf :: .sign .kwNot :: .sign .lparen ::
      (cs ++ .sign .rparen :: .sign .lbrace :: (bs ++ [.sign .rbrace]))) ts')
    (before : s.Awaits ⟨c, log, rest⟩ σ ts) (before' : s'.Awaits ⟨c, log', rest'⟩ σ ts')
    (ends : ∀ t ∈ rest'.head?, t.kind ≠ .kwElseif ∧ t.kind ≠ .kwElse) (room : log.HasRoom)
    (fits : ¬ (last ((Rules.level n).stat s)).TooDeep)
    (fits' : ¬ (last ((Rules.level n).stat s')).TooDeep) :
    ∃ a a' t t' d, (Rules.level n).stat s = .ok a t ∧ (Rules.level n).stat s' = .ok a' t' ∧
      a.unplaced = a'.unplaced ∧ t'.errors = s'.errors ∧
      t.errors = s.errors ++ (if b.fallsThrough then [d] else []) ∧
      d.message = "guard should transfer control with return/break/goto/continue" ∧
      t.scopes = t'.scopes := by
  obtain ⟨a, t, span, run, same, after⟩ := guard_known mooc condition body short before room fits
  obtain ⟨a', t', run', same', after'⟩ :=
    conditional_known mooc condition body long before' ends fits'
  refine ⟨a, a', t, t', { cause := .guardFallsThrough, span := span }, run, run',
    same.trans same'.symm, ?_, ?_, rfl, after.scopes.trans after'.scopes.symm⟩
  · rw [Session.errors, Session.errors, after'.log, before'.log]
  · rw [Session.errors, Session.errors, after.log, before.log]
    simp only [Backdrop.guarded]
    split <;> simp [ErrorLog.push]

/-- `guard c else { f() }` and `if not (c) { f() }` in a chunk -/
theorem stat_guard_eq_call :
    let name := "a.mooc"
    let settings := Settings.forChunk name
    let s := opened "guard c else { f() }".toUTF8.toList name settings
    let s' := opened "if not (c) { f() }".toUTF8.toList name settings
    ∃ a a' t t' d, (Rules.level 200).stat s = .ok a t ∧ (Rules.level 200).stat s' = .ok a' t' ∧
      a.unplaced = a'.unplaced ∧ t'.errors = [] ∧ t.errors = [d] ∧
      d.message = "guard should transfer control with return/break/goto/continue" := by
  intro name settings s s'
  have found : (start "c".toUTF8.toList name settings).exp.1.isSome = true := by decide +kernel
  obtain ⟨e, read⟩ := Option.isSome_iff_exists.1 found
  have condition : ReadsExp settings name ((start "c".toUTF8.toList name settings).tokens.ahead.map
      (·.token)) e := ⟨_, read, by decide +kernel, by decide +kernel, .refl _⟩
  let u : Session := { opened "f() \x7d".toUTF8.toList name settings with
    scopes := (ScopeStack.ofFile name).push .branch "if" }
  have told : (returned? ((Rules.level 200).block u)).map (fun r => (r.1.fallsThrough, r.2.errors,
      r.2.tokens.ahead.map (·.token), r.2.scopes, (r.2.tokens.upcoming 0).token.kind)) =
      some (true, [], (u.tokens.ahead.map (·.token)).drop 3, u.scopes, .rbrace) := by
    decide +kernel
  obtain ⟨⟨b, v⟩, run, told⟩ := Option.map_eq_some_iff.1 told
  have run := returned?_eq_some run
  simp only [Prod.mk.injEq] at told
  obtain ⟨falls, quiet, ahead, scopes, kind⟩ := told
  have body : Alone settings ((ScopeStack.ofFile name).push .branch "if") (Rules.level 200).block b
      u.scopes .rbrace ((u.tokens.ahead.map (·.token)).take 3) :=
    ⟨u, v, _, ⟨run, quiet, by rw [ahead, List.take_append_drop], by decide +kernel⟩, rfl, rfl,
      scopes, kind, .refl _⟩
  have mooc : settings.dialect = .mooc := by decide +kernel
  have lexed : tokenize "guard c else { f() }".toUTF8.toList settings.dialect = .ok _ :=
    tokenize_eq_ok.2 ⟨by decide +kernel, rfl⟩
  have lexed' : tokenize "if not (c) { f() }".toUTF8.toList settings.dialect = .ok _ :=
    tokenize_eq_ok.2 ⟨by decide +kernel, rfl⟩
  obtain ⟨a, a', t, t', d, low, low', same, clean, told, message, -⟩ := stat_guard_eq (n := 200)
    mooc condition.alone body ⟨by decide +kernel, fun _ => by decide +kernel⟩
    ⟨by decide +kernel, fun _ => by decide +kernel⟩ (opened_awaits lexed).1
    (opened_awaits lexed').1 (by decide +kernel) (by unfold ErrorLog.HasRoom; decide +kernel)
    (by unfold TooDeep; decide +kernel) (by unfold TooDeep; decide +kernel)
  rw [falls] at told
  exact ⟨a, a', t, t', d, low, low', same, clean, told, message⟩

/-- Where there is no room for the complaint the chunk of a `guard` is read as nothing, though its
condition is an expression and its block, which is empty, a block. -/
theorem analyze_guard_full :
    let name := "a.mooc"
    let settings := { Settings.forChunk name with maxErrors := 0 }
    let condition := start "c".toUTF8.toList name settings
    let guard := (start "guard c else { }".toUTF8.toList name settings).analyze.1
    let conditional := (start "if not (c) { }".toUTF8.toList name settings).analyze.1
    condition.exp.1.isSome = true ∧ condition.exp.2.errors = [] ∧ condition.exp.2.tokens.ahead = [] ∧
      conditional.errors = [] ∧ conditional.block.stats.length = 1 ∧
      guard.errors.map (·.message) =
        ["guard should transfer control with return/break/goto/continue(too many errors...)"] ∧
      guard.block.stats = [] := by
  decide +kernel

end Session

end LuaChunk
