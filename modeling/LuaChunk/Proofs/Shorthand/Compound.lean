import LuaChunk.Proofs.Replay.Chunk

/-!
# Compound assignment

`t op= e` is read as what `t = t op (e)` is read as, whatever name or index `t` is and whatever
expression `e`: the first builds its tree by hand, the second comes by it through the suffixes of an
operand and the priorities of operators.
-/

set_option autoImplicit false

open LuaChunk.Parser

namespace LuaChunk

namespace Parser

variable {r : Rules} {s t u v : Session} {e : Exp} {start : Span}

/-! ## Places alone -/

/-- A loop over operators has found none, or its result is a binary expression. -/
theorem infixOps_place {limit : Nat} {x : Exp}
    (run : iterate x (infixOp r limit start) s = .ok e t) (place : e.isPlace = true) :
    e = x ∧ ∃ tokens, s.tokens.Looked tokens ∧ t = { s with tokens := tokens } := by
  have round (y : Exp) (u : Session) (next : ForInStep Exp) (v : Session)
      (holds : y.isPlace = false ∨
        y = x ∧ ∃ tokens, s.tokens.Looked tokens ∧ u = { s with tokens := tokens })
      (run : infixOp r limit start y u = .ok next v) : next.value.isPlace = false ∨
        next.value = x ∧ ∃ tokens, s.tokens.Looked tokens ∧ v = { s with tokens := tokens } := by
    have looks : y.isPlace = false ∨
        y = x ∧ ∃ tokens, s.tokens.Looked tokens ∧
          { u with tokens := u.tokens.look 1 } = { s with tokens := tokens } := by
      refine holds.imp_right ?_
      rintro ⟨same, tokens, looked, rfl⟩
      exact ⟨same, _, .look 1 looked, rfl⟩
    unfold infixOp at run
    rw [peek_bind] at run
    generalize BinaryOp.ofToken? (u.tokens.upcoming 0).token.kind = found at run
    cases found with
    | none =>
      obtain ⟨rfl, rfl⟩ := pure_eq_ok.1 run
      exact looks
    | some op =>
      dsimp only at run
      split at run
      · obtain ⟨rfl, rfl⟩ := pure_eq_ok.1 run
        exact looks
      · obtain ⟨_, _, _, run⟩ := bind_eq_ok.1 run
        obtain ⟨_, _, _, run⟩ := bind_eq_ok.1 run
        obtain ⟨_, _, _, run⟩ := bind_eq_ok.1 run
        obtain ⟨rfl, rfl⟩ := pure_eq_ok.1 run
        exact .inl rfl
  have ends := iterate_keeps (I := fun y u => y.isPlace = false ∨
    y = x ∧ ∃ tokens, s.tokens.Looked tokens ∧ u = { s with tokens := tokens }) round
    (.inr ⟨rfl, s.tokens, .refl, rfl⟩) run
  exact ends.resolve_left (by simp [place])

theorem primary_place (tables : ∀ {s t : Session} {e : Exp}, r.table s = .ok e t → e.isPlace = false)
    (run : primary r s = .ok e t) (place : e.isPlace = true) :
    prefixExp r { s with tokens := s.tokens.look 1 } = .ok e t := by
  have functions {style : FunctionStyle} {start : Span} {u : Session}
      (run : functionExp r style start u = .ok e t) :
      False := by
    obtain ⟨_, _, _, run⟩ := bind_eq_ok.1 run
    obtain ⟨_, _, _, run⟩ := bind_eq_ok.1 run
    obtain ⟨rfl, -⟩ := pure_eq_ok.1 run
    cases place
  have literals {exp : Span → Exp} (other : ∀ span, (exp span).isPlace = false) {u : Session}
      (run : literal exp u = .ok e t) : False := by
    obtain ⟨_, _, _, run⟩ := bind_eq_ok.1 run
    obtain ⟨rfl, -⟩ := pure_eq_ok.1 run
    simp [other] at place
  unfold primary at run
  rw [peek_bind] at run
  generalize (s.tokens.upcoming 0).token.kind = kind at run
  split at run
  · exact (literals (fun _ => rfl) run).elim
  · exact (literals (fun _ => rfl) run).elim
  · exact (literals (fun _ => rfl) run).elim
  · exact (literals (fun _ => rfl) run).elim
  · obtain ⟨_, _, _, run⟩ := bind_eq_ok.1 run
    obtain ⟨rfl, -⟩ := pure_eq_ok.1 run
    cases place
  · obtain ⟨token, _, _, run⟩ := bind_eq_ok.1 run
    generalize Numeral.read? token.text = value at run
    rcases value with _ | (value | value)
    · obtain ⟨_, _, _, run⟩ := bind_eq_ok.1 run
      obtain ⟨rfl, -⟩ := pure_eq_ok.1 run
      cases place
    · obtain ⟨rfl, -⟩ := pure_eq_ok.1 run
      cases place
    · obtain ⟨rfl, -⟩ := pure_eq_ok.1 run
      cases place
  · obtain ⟨anonymous, _, _, run⟩ := bind_eq_ok.1 run
    split at run
    · obtain ⟨_, _, _, run⟩ := bind_eq_ok.1 run
      exact (functions run).elim
    · simp [tables run] at place
  · rw [isMooc_bind] at run
    split at run
    · exact run
    · obtain ⟨_, _, _, run⟩ := bind_eq_ok.1 run
      exact (functions run).elim
  · obtain ⟨_, _, _, run⟩ := bind_eq_ok.1 run
    exact (functions run).elim
  · exact run

theorem table_place {n : Nat} (run : (Rules.level n).table s = .ok e t) : e.isPlace = false := by
  cases n with
  | zero => exact absurd run tooDeep_ne_ok
  | succ n =>
    obtain ⟨_, run, -⟩ := nested_eq_ok.1 run
    obtain ⟨_, _, _, run⟩ := bind_eq_ok.1 run
    obtain ⟨_, _, _, run⟩ := bind_eq_ok.1 run
    obtain ⟨_, _, _, run⟩ := bind_eq_ok.1 run
    obtain ⟨_, _, _, run⟩ := bind_eq_ok.1 run
    obtain ⟨_, _, _, run⟩ := bind_eq_ok.1 run
    obtain ⟨rfl, -⟩ := pure_eq_ok.1 run
    rfl

theorem operand_place {n : Nat} (run : operand (.level n) s = .ok e t) (place : e.isPlace = true) :
    prefixExp (.level n) { s with tokens := (s.tokens.look 1).look 1 } = .ok e t := by
  unfold operand at run
  rw [peek_bind] at run
  generalize UnaryOp.ofToken? (s.tokens.upcoming 0).token.kind = found at run
  cases found with
  | none =>
    exact primary_place (s := { s with tokens := s.tokens.look 1 }) table_place run place
  | some op =>
    obtain ⟨_, _, _, run⟩ := bind_eq_ok.1 run
    obtain ⟨_, _, _, run⟩ := bind_eq_ok.1 run
    obtain ⟨_, _, _, run⟩ := bind_eq_ok.1 run
    obtain ⟨rfl, -⟩ := pure_eq_ok.1 run
    cases place

/-- An expression that turns out to be a place has been read as an operand, and nothing else. -/
theorem Alone.place {c : Settings} {σ σ' : ScopeStack} {n : Nat} {follow : TokenKind}
    {ts : List Token} (alone : Alone c σ (Rules.level n).exp e σ' follow ts)
    (place : e.isPlace = true) :
    ∃ k, n = k + 1 ∧ Alone c σ (prefixExp (.level k)) e σ' follow ts := by
  obtain ⟨u, v, fs, alone, settings, rfl, rfl, kind, same⟩ := alone
  cases n with
  | zero => exact absurd alone.run tooDeep_ne_ok
  | succ k =>
    obtain ⟨t, run, rfl⟩ := nested_eq_ok.1 alone.run
    unfold operation at run
    rw [head_bind] at run
    obtain ⟨first, v', read, rest⟩ := bind_eq_ok.1 run
    obtain ⟨rfl, tokens, looked, rfl⟩ := infixOps_place rest place
    have ahead := alone.ahead
    dsimp only at ahead kind
    rw [looked.ahead] at ahead
    rw [looked.upcoming] at kind
    exact ⟨k, rfl, _, v', fs, ⟨operand_place read place, alone.quiet, by simpa using ahead,
      by simpa using alone.final⟩, settings, rfl, rfl, kind, same⟩

/-! ## The two forms -/

namespace Crosses

variable {c : Backdrop} {σ σ' : ScopeStack} {ts ts' : List Token} {P : Stat → Prop}

theorem settles_of_ofCompound {kind : TokenKind} {op : BinaryOp}
    (found : BinaryOp.ofCompound? kind = some op) : kind.settles = true := by
  cases kind <;> first | rfl | cases found

theorem ne_comma_of_settles {kind : TokenKind} (settles : kind.settles = true) : kind ≠ .comma := by
  rintro rfl
  cases settles

section Forms

variable {k n m : Nat} {T E : Exp} {op : BinaryOp} {t t' e : List Token} {o a lp rp : Token}

/-- `t op= e` -/
theorem compound (last : c.rest = []) (target : Alone c.settings σ (Parser.prefixExp (.level k)) T σ .eof t)
    (value : Alone c.settings σ (Rules.level n).exp E σ .eof e) (place : T.isPlace = true)
    (shallow : k ≤ m) (shallow' : n ≤ m) (operator : BinaryOp.ofCompound? o.kind = some op)
    (assign : a.kind = .assign) :
    Crosses c σ (t ++ o :: a :: e) (assignOrCall (.level m)) σ [] fun s => s.isEmpty = false ∧
      s.unplaced = (Stat.assign (.compound op T E .synthetic)).unplaced := by
  have settles : (c.facing (o :: a :: e)).settles = true := settles_of_ofCompound operator
  have eof : c.facing [] = .eof := by
    simp only [Backdrop.facing, last]
    rfl
  have whole : Crosses c σ (e ++ []) (Rules.level m).exp σ [] fun E' => E.unplaced = E'.unplaced :=
    exp value shallow' (by rw [eof]; rfl) (by rw [eof]; rfl)
  rw [List.append_nil] at whole
  rw [assignOrCall_eq]
  refine .head fun start => (prefixExp target shallow settles).bind fun T' same => ?_
  refine .afterPlace (Exp.isPlace_of_eq same place) (ne_comma_of_settles settles) (.peek ?_)
  rw [Backdrop.facing_cons, operator]
  unfold Parser.compound
  refine .next (.peek ?_)
  rw [Backdrop.facing_cons, if_neg (not_not.2 assign)]
  refine .next (whole.bind fun E' same' => .since fun _ => .pure ⟨rfl, ?_⟩)
  simp [Assignment.compound, same, same']

/-- `t op (e)`, behind which the text ends -/
theorem applied (last : c.rest = [])
    (target : Alone c.settings σ (Parser.prefixExp (.level k)) T σ .eof t)
    (value : Alone c.settings σ (Rules.level n).exp E σ .eof e)
    (shallow : k ≤ m) (shallow' : n ≤ m) (operator : BinaryOp.ofCompound? o.kind = some op)
    (opening : lp.kind = .lparen) (closing : rp.kind = .rparen) :
    Crosses c σ (t ++ o :: lp :: (e ++ [rp])) (Rules.level (m + 3)).exp σ [] fun V =>
      ∃ T' E' span span', V = .binary op T' (.paren E' span) span' ∧ T.unplaced = T'.unplaced ∧
        E.unplaced = E'.unplaced := by
  have eof : c.facing [] = .eof := by
    simp only [Backdrop.facing, last]
    rfl
  have settles : (c.facing (o :: lp :: (e ++ [rp]))).settles = true :=
    settles_of_ofCompound operator
  have left : Crosses c σ (t ++ o :: lp :: (e ++ [rp])) (Parser.operand (.level (m + 2))) σ
      (o :: lp :: (e ++ [rp])) fun T' => T.unplaced = T'.unplaced :=
    .operand (target.begins _) (prefixExp target (by omega) settles)
  have right : Crosses c σ (lp :: (e ++ [rp])) ((Rules.level (m + 2)).operation op.rightLimit) σ []
      fun p => ∃ E' span, p = .paren E' span ∧ E.unplaced = E'.unplaced :=
    .nested (.operationNone (.operand (.inr opening)
      (.paren value shallow' opening closing (.inl (by rw [eof]; rfl)))) (by rw [eof]; rfl))
  have round (start : Span) (T' : Exp) (same : T.unplaced = T'.unplaced) :
      Crosses c σ (o :: lp :: (e ++ [rp])) (infixOp (.level (m + 2)) 0 start T') σ [] fun next =>
        ∃ V, next = .yield V ∧ ∃ T' E' span span', V = .binary op T' (.paren E' span) span' ∧
          T.unplaced = T'.unplaced ∧ E.unplaced = E'.unplaced := by
    unfold infixOp
    refine .peek ?_
    rw [Backdrop.facing_cons, BinaryOp.ofToken?_of_compound operator]
    dsimp only
    rw [if_neg (Nat.not_le.2 op.priority_pos)]
    refine .next (right.bind ?_)
    rintro _ ⟨E', span, rfl, same'⟩
    exact .since fun span' => .pure ⟨_, rfl, T', E', span, span', rfl, same, same'⟩
  refine .nested ?_
  change Crosses c σ _ (Parser.operation (.level (m + 2)) 0) σ [] _
  unfold Parser.operation
  refine .head fun start => left.bind fun T' same =>
    .iterate (.yield (round start T' same) (by simp) fun V known => .done ?_)
  refine (infixNone (by rw [eof]; rfl)).mono ?_
  rintro _ ⟨_, rfl, rfl⟩
  exact ⟨_, rfl, known⟩

/-- `t = t op (e)` -/
theorem written (last : c.rest = [])
    (target : Alone c.settings σ (Parser.prefixExp (.level k)) T σ .eof t)
    (target' : Alone c.settings σ (Parser.prefixExp (.level k)) T σ .eof t')
    (value : Alone c.settings σ (Rules.level n).exp E σ .eof e) (place : T.isPlace = true)
    (shallow : k ≤ m) (shallow' : n ≤ m) (operator : BinaryOp.ofCompound? o.kind = some op)
    (assign : a.kind = .assign) (opening : lp.kind = .lparen) (closing : rp.kind = .rparen) :
    Crosses c σ (t ++ a :: (t' ++ o :: lp :: (e ++ [rp]))) (assignOrCall (.level (m + 3))) σ []
      fun s => s.isEmpty = false ∧
        s.unplaced = (Stat.assign (.compound op T E .synthetic)).unplaced := by
  have facing : c.facing (a :: (t' ++ o :: lp :: (e ++ [rp]))) = .assign := assign
  have comma : c.facing [] ≠ .comma := by
    simp only [Backdrop.facing, last]
    decide
  rw [assignOrCall_eq]
  refine .head fun start =>
    (prefixExp target (by omega) (by rw [facing]; rfl)).bind fun T' same => ?_
  refine .afterPlace (Exp.isPlace_of_eq same place) (by rw [facing]; decide) (.peek ?_)
  rw [facing]
  change Crosses c σ _ (plainAssign _ start [T']) σ [] _
  refine .accepts assign ((Crosses.expList comma
    (applied last target' value shallow shallow' operator opening closing)).bind ?_)
  rintro _ ⟨_, rfl, T'', E', span, span', rfl, same', same''⟩
  refine .since fun _ => .pure ⟨rfl, ?_⟩
  simp [Assignment.compound, ← same, ← same', ← same'']

end Forms

/-- A block of one statement that is a place or a call, up to the end of a chunk. -/
theorem sole {name : String} {m : Nat} (last : c.rest = [])
    (begins : c.facing ts = .identifier ∨ c.facing ts = .lparen)
    (h : Crosses c (.ofFile name) ts (assignOrCall (.level m)) (.ofFile name) [] fun a =>
      a.isEmpty = false ∧ P a) :
    Crosses c (.ofFile name) ts (Rules.level (m + 2)).block (.ofFile name) [] fun b =>
      ∃ a, b.stats = [a] ∧ b.returns = none ∧ P a := by
  have some : ts ≠ [] := by
    rintro rfl
    simp [Backdrop.facing, last, nextKind] at begins
  have opens : endsBlock c.settings.dialect (c.facing ts) = false := by
    rcases begins with kind | kind <;> rw [kind] <;> cases c.settings.dialect <;> rfl
  exact single last some opens (by simp [ScopeStack.current, ScopeStack.ofFile]) (assigns begins h)

end Crosses

end Parser

/-- The block that holds the assignment `target = target op (value)` and nothing else. -/
def Block.ofCompound (op : BinaryOp) (target value : Exp) : Block :=
  ⟨[.assign (.compound op target value .synthetic)], none, .synthetic⟩

theorem Block.unplaced_ofCompound {b : Block} {op : BinaryOp} {T E : Exp}
    (h : ∃ x, b.stats = [x] ∧ b.returns = none ∧
      x.unplaced = (Stat.assign (.compound op T E .synthetic)).unplaced) :
    b.unplaced = (ofCompound op T E).unplaced := by
  obtain ⟨x, stats, returns, same⟩ := h
  obtain ⟨_, _, _⟩ := b
  subst stats returns
  simp [ofCompound, same]

namespace Session

variable {settings : Settings} {name : String} {source source' : List UInt8} {T E : Exp}
  {op : BinaryOp} {t e ts ts' : List Token} {o a lp rp : Token}

/-- `t op= e` as a chunk -/
theorem compound_known (target : ReadsExp settings name t T) (place : T.isPlace = true)
    (value : ReadsExp settings name e E) (operator : BinaryOp.ofCompound? o.kind = some op)
    (assign : a.kind = .assign) (form : SameText settings.dialect (t ++ o :: a :: e) ts)
    (lexed : tokenize source settings.dialect = .ok ts)
    (fits : ¬ (start source name settings).analyze.1.ExceedsLevels) :
    (start source name settings).analyze.1.errors = [] ∧
      (start source name settings).analyze.1.block.unplaced = (Block.ofCompound op T E).unplaced := by
  obtain ⟨t', _, rfl, sameT, form⟩ := form.append
  obtain ⟨o', _, rfl, kindO, form⟩ := form.cons
  obtain ⟨a', e', rfl, kindA, sameE⟩ := form.cons
  obtain ⟨k, levels, first⟩ := (target.respelled sameT).alone.place place
  have second := (value.respelled sameE).alone
  let c : Backdrop := ⟨settings, { cap := settings.maxErrors }, []⟩
  have reads := Crosses.sole (c := c) rfl (first.begins _) (.compound rfl first second place
    (show k ≤ settings.maxNesting by omega) le_rfl (kindO ▸ operator) (kindA.trans assign))
  obtain ⟨clean, known⟩ := analyze_known (by omega) lexed reads fits
  exact ⟨clean, Block.unplaced_ofCompound known⟩

/-- `t = t op (e)` as a chunk -/
theorem written_known (target : ReadsExp settings name t T) (place : T.isPlace = true)
    (value : ReadsExp settings name e E) (operator : BinaryOp.ofCompound? o.kind = some op)
    (assign : a.kind = .assign) (opening : lp.kind = .lparen) (closing : rp.kind = .rparen)
    (form : SameText settings.dialect (t ++ a :: (t ++ o :: lp :: (e ++ [rp]))) ts)
    (lexed : tokenize source settings.dialect = .ok ts)
    (fits : ¬ (start source name settings).analyze.1.ExceedsLevels) :
    (start source name settings).analyze.1.errors = [] ∧
      (start source name settings).analyze.1.block.unplaced = (Block.ofCompound op T E).unplaced := by
  obtain ⟨t₁, _, rfl, same₁, form⟩ := form.append
  obtain ⟨a', _, rfl, kindA, form⟩ := form.cons
  obtain ⟨t₂, _, rfl, same₂, form⟩ := form.append
  obtain ⟨o', _, rfl, kindO, form⟩ := form.cons
  obtain ⟨lp', _, rfl, kindL, form⟩ := form.cons
  obtain ⟨e', _, rfl, sameE, form⟩ := form.append
  obtain ⟨rp', _, rfl, kindR, form⟩ := form.cons
  obtain rfl := form.nil
  obtain ⟨k, levels, first⟩ := (target.respelled same₁).alone.place place
  obtain ⟨_, levels', second⟩ := (target.respelled same₂).alone.place place
  obtain rfl : k = _ := Nat.succ.inj (levels.symm.trans levels')
  have third := (value.respelled sameE).alone
  let c : Backdrop := ⟨settings, { cap := settings.maxErrors }, []⟩
  have reads := Crosses.sole (c := c) rfl (first.begins _) (.written rfl first second third place
    (show k ≤ settings.maxNesting by omega) le_rfl (kindO ▸ operator) (kindA.trans assign)
    (kindL.trans opening) (kindR.trans closing))
  obtain ⟨clean, known⟩ := analyze_known (by omega) lexed reads fits
  exact ⟨clean, Block.unplaced_ofCompound known⟩

/-- **Compound assignment.**  Let `t` be the tokens of a name or an index, and `e` those of an
expression.  The chunks `t op= e` and `t = t op (e)` are read without errors, as the same block up to
places, unless they exceed their levels. -/
theorem analyze_compound {kind : TokenKind} (operator : BinaryOp.ofCompound? kind = some op)
    (target : ReadsExp settings name t T) (place : T.isPlace = true)
    (value : ReadsExp settings name e E)
    (short : SameText settings.dialect (t ++ .sign kind :: .sign .assign :: e) ts)
    (long : SameText settings.dialect
      (t ++ .sign .assign :: (t ++ .sign kind :: .sign .lparen :: (e ++ [.sign .rparen]))) ts')
    (lexed : tokenize source settings.dialect = .ok ts)
    (lexed' : tokenize source' settings.dialect = .ok ts') :
    let first := (start source name settings).analyze.1
    let second := (start source' name settings).analyze.1
    ¬ first.ExceedsLevels → ¬ second.ExceedsLevels →
    first.errors = [] ∧ second.errors = [] ∧ first.block.unplaced = second.block.unplaced := by
  intro first second fits fits'
  obtain ⟨clean, known⟩ := compound_known target place value operator rfl short lexed fits
  obtain ⟨clean', known'⟩ := written_known target place value operator rfl rfl rfl long lexed' fits'
  exact ⟨clean, clean', known.trans known'.symm⟩

/-- `a:b()[i] ..= not c` and `a:b()[i] = a:b()[i] .. (not c)` in Mooc -/
theorem analyze_compound_concat :
    let name := "a.mooc"
    let settings := Settings.forChunk name
    let place := start "a:b()[i]".toUTF8.toList name settings
    let value := start "not c".toUTF8.toList name settings
    let short := (start "a:b()[i] ..= not c".toUTF8.toList name settings).analyze.1
    let long := (start "a:b()[i] = a:b()[i] .. (not c)".toUTF8.toList name settings).analyze.1
    ∃ T E, ReadsExp settings name (place.tokens.ahead.map (·.token)) T ∧ T.isPlace = true ∧
      ReadsExp settings name (value.tokens.ahead.map (·.token)) E ∧
      short.errors = [] ∧ long.errors = [] ∧ short.block.unplaced = long.block.unplaced := by
  intro name settings place value short long
  have found : place.exp.1.any Exp.isPlace = true := by decide +kernel
  have found' : value.exp.1.isSome = true := by decide +kernel
  obtain ⟨T, read, isPlace⟩ := (Option.any_eq_true _ _).1 found
  obtain ⟨E, read'⟩ := Option.isSome_iff_exists.1 found'
  have target : ReadsExp settings name (place.tokens.ahead.map (·.token)) T :=
    ⟨_, read, by decide +kernel, by decide +kernel, .refl _⟩
  have operand : ReadsExp settings name (value.tokens.ahead.map (·.token)) E :=
    ⟨_, read', by decide +kernel, by decide +kernel, .refl _⟩
  have operator : BinaryOp.ofCompound? .concat = some .concat := rfl
  refine ⟨T, E, target, isPlace, operand, ?_⟩
  exact analyze_compound operator target isPlace operand
    ⟨by decide +kernel, fun _ => by decide +kernel⟩ ⟨by decide +kernel, fun _ => by decide +kernel⟩
    (tokenize_eq_ok.2 ⟨by decide +kernel, rfl⟩) (tokenize_eq_ok.2 ⟨by decide +kernel, rfl⟩)
    (Analysis.not_exceedsLevels (by decide +kernel))
    (Analysis.not_exceedsLevels (by decide +kernel))

end Session

end LuaChunk
