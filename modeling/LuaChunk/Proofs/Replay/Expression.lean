import LuaChunk.Proofs.Recursion.Expression
import LuaChunk.Proofs.Replay.Basic
import LuaChunk.Proofs.Tree.Brackets
import LuaChunk.Proofs.Views.Expression

/-!
# Expressions read again

An expression may end where its fragment ends if what follows there is no binary operator in either
text, or the same token in both.  What closes itself, as a function or a table does, may end there
whatever follows.
-/

set_option autoImplicit false

namespace LuaChunk

abbrev Param.unplaced (p : Param) : Param := p.recast fun _ => .synthetic

abbrev FunctionBody.unplaced (b : FunctionBody) : FunctionBody := b.recast (fun _ => .synthetic) none

abbrev Block.unplaced (b : Block) : Block := b.recast (fun _ => .synthetic) none

abbrev Stat.unplaced (s : Stat) : Stat := s.recast (fun _ => .synthetic) none

theorem Exp.name?_recast {place : Span → Span} {cap : Option Nat} (e : Exp) :
    (e.recast place cap).name? = e.name? := by
  cases e <;> rfl

/-- The second rules read a fragment again as the first have read it.  What expressions are read as
does not depend on the constructs they stand in, but for the number of open loops. -/
structure Rules.Replays (w : Frontier) (r r' : Rules) : Prop where
  agree (c : Settings) (d : Nat) : r.Agree c d r
  block (loose : Option Looseness) : Parser.Replays w (some (.inside loose)) none false w.Same
    Block.unplaced r.block r'.block
  stat (loose : Looseness) : Parser.Replays w loose none false w.Same Stat.unplaced r.stat r'.stat
  operation (loose : Option Looseness) (limit : Nat) :
    Parser.Replays w loose none true w.Stops Exp.unplaced (r.operation limit) (r'.operation limit)
  functionBody (loose : Option Looseness) (style : FunctionStyle) :
    Parser.Replays w loose none true True FunctionBody.unplaced (r.functionBody style)
      (r'.functionBody style)
  anonymous : Parser.Passes w.dialect .kwIn (r.functionBody .anonymous)
  table (loose : Option Looseness) :
    Parser.Replays w loose none true True Exp.unplaced r.table r'.table
  parenthesised (loose : Option Looseness) :
    Parser.Replays w loose none true w.Stops Exp.unplaced r.parenthesised r'.parenthesised

theorem Frontier.second_ne (w : Frontier) {kind : TokenKind} (h : kind.settles = false) :
    nextKind w.second ≠ kind := by
  rintro rfl
  rw [w.second_settles] at h
  cases h

namespace Parser

variable {w : Frontier} {loose : Option Looseness} {known : Option TokenKind} {taking : Bool}
  {ends : Prop} {r r' : Rules}

theorem operator_replays (h : r.Replays w r') (stop : ends → w.Stops) (limit : Nat) :
    Replays w loose known taking ends Exp.unplaced (r.operation limit) (r'.operation limit) :=
  ((h.operation loose limit).mono stop).weaken.any

theorem exp_replays (h : r.Replays w r') (stop : ends → w.Stops) :
    Replays w loose known taking ends Exp.unplaced r.exp r'.exp := operator_replays h stop 0

theorem moreExps_replays (h : r.Replays w r') (stop : ends → w.Stops) (es es' : Array Exp)
    (same : es.map Exp.unplaced = es'.map Exp.unplaced) :
    Replays w loose known false ends (onRound (Array.map Exp.unplaced)) (moreExps r es)
      (moreExps r' es') :=
  .andThen (.accepts (by decide) fun _ => .inr (w.second_ne rfl)) fun _ => .ite
    (fun _ => .map (exp_replays h stop) fun e e' same' => by simp [same, same'])
    fun _ => .pure (by simp [same])

theorem expList_replays (h : r.Replays w r') (stop : ends → w.Stops) :
    Replays w loose known taking ends (List.map Exp.unplaced) (expList r) (expList r') := by
  rw [expList_eq, expList_eq]
  refine .bind (exp_replays h stop) fun first first' same => .map
    (.iterate (Array.map Exp.unplaced) (fun c d => moreExps_agree (h.agree c d))
      (by simp [same]) (moreExps_replays h stop)) fun es es' same => ?_
  simpa using congrArg Array.toList same

theorem numeral_replays :
    Replays w loose (some .number) taking ends Exp.unplaced numeral numeral := by
  refine .next (by decide) fun kind text span span' => ?_
  dsimp only
  split
  · exact .pure rfl
  · exact .pure rfl
  · exact .complaining (.pure rfl)

/-! ## Functions -/

/-- Parameters, wherever they stand, and whether `...` ends them. -/
abbrev unplacedParams : Array Param × Bool → Array Param × Bool :=
  Prod.map (Array.map Param.unplaced) id

theorem moreParams_replays (read read' : Array Param × Bool)
    (same : unplacedParams read = unplacedParams read') :
    Replays w loose known false ends (onRound unplacedParams) (moreParams read)
      (moreParams read') := by
  obtain ⟨names, isVararg⟩ := read
  obtain ⟨names', isVararg'⟩ := read'
  obtain ⟨names, rfl⟩ := Prod.mk.inj same
  refine .andThen (.accepts (by decide) fun _ => .inr (w.second_ne rfl)) fun _ => .ite
    (fun _ => .peekTaking fun kind => .ite ?_ fun _ => ?_) fun _ => .pure (by simpa using names)
  · rintro rfl
    exact .next (by decide) fun _ _ _ _ => .pure (by simp [names, Param.recast])
  · exact .expect (by decide) fun _ _ _ _ => .pure (by simp [names])

theorem params_replays :
    Replays w loose known false False (Prod.map (List.map Param.unplaced) id) params params := by
  refine .peek False.elim fun kind => .isMooc <| .ite (fun _ => .pure rfl) fun _ => .ite ?_ fun _ =>
    .expectName fun _ _ _ _ => .map (.iterate unplacedParams
      (fun c d => moreParams_agree) (by simp [Param.recast])
      moreParams_replays) fun read read' same => ?_
  · rintro rfl
    exact .next (by decide) fun _ _ _ _ => .pure rfl
  · obtain ⟨names, same⟩ := Prod.ext_iff.1 same
    exact Prod.ext (by simpa using congrArg Array.toList names) same

theorem openFunctionBlock_replays (style : FunctionStyle) :
    Replays w loose known true ends id (openFunctionBlock style) (openFunctionBlock style) := by
  cases style with
  | ended => exact .expect (by decide) fun _ _ _ _ => .pure rfl
  | braced =>
    exact .expect (by decide) fun _ _ _ _ => .expect (by decide) fun _ _ _ _ => .pure rfl
  | anonymous => exact .expect (by decide) fun _ _ _ _ => .pure rfl

/-- A function from its first parameter on. -/
def functionRest (r : Rules) (style : FunctionStyle) : Parser FunctionBody := do
  let (names, isVararg) ← params
  openFunctionBlock style
  let block ← within .function "function" r.block
  let _ ← expect (if style = .ended then .kwEnd else .rbrace)
  return { params := names, isVararg, isMethod := false, block, owner := none, name := none }

theorem functionBody_eq (r : Rules) (style : FunctionStyle) : functionBody r style = (do
    let _ ← expect (if style = .anonymous then .lbrace else .lparen)
    functionRest r style) := rfl

theorem functionRest_replays (h : r.Replays w r') (style : FunctionStyle) :
    Replays w loose known taking ends FunctionBody.unplaced (functionRest r style)
      (functionRest r' style) := by
  refine .upTo params_replays fun read read' same => .bind (openFunctionBlock_replays style)
    fun _ _ _ => .upTo (.withinFunction _ ((h.block _).mono False.elim)) fun block block' same' =>
    .expect (by split <;> decide) fun _ _ _ _ => .pure ?_
  obtain ⟨names, isVararg⟩ := Prod.ext_iff.1 same
  dsimp only [Prod.map_fst, Prod.map_snd, id_eq] at names isVararg
  simp [names, isVararg, same']

theorem functionBody_replays (h : r.Replays w r') (style : FunctionStyle) :
    Replays w loose known taking ends FunctionBody.unplaced (functionBody r style)
      (functionBody r' style) :=
  .expect (by split <;> decide) fun _ _ _ _ => functionRest_replays h style

/-- Behind the parameters of a function without a name `in` is taken. -/
theorem functionBody_passes (h : r.Replays w r') :
    Passes w.dialect .kwIn (functionBody r .anonymous) := by
  intro s t body dialect ended run quiet
  obtain ⟨opening, u, opened, run⟩ := bind_eq_ok.1 run
  obtain ⟨names, v, read, run⟩ := bind_eq_ok.1 run
  obtain ⟨_, x, header, run⟩ := bind_eq_ok.1 run
  have rest : Replays w none none false False FunctionBody.unplaced
      (do
        let block ← within .function "function" r.block
        let _ ← expect .rbrace
        return (⟨names.1, names.2, false, block, none, none⟩ : FunctionBody))
      (do
        let block ← within .function "function" r'.block
        let _ ← expect .rbrace
        return (⟨names.1, names.2, false, block, none, none⟩ : FunctionBody)) :=
    .bind (.withinFunction _ ((h.block _).mono False.elim)) fun _ _ same =>
      .expect (by decide) fun _ _ _ _ => .pure (by simp [same])
  have params : Replays w none none false False (Prod.map (List.map Param.unplaced) id) params
    params := params_replays
  have moves : s.Moves u := Reads.moves (fun _ => expect_reads _) opened
  have moves₁ : u.Moves v := params.onward (moves.settings_eq ▸ dialect) read
  obtain ⟨word, y, taken, same⟩ := bind_eq_ok.1 header
  obtain ⟨-, rfl⟩ := pure_eq_ok.1 same
  have dialect' := (moves.trans moves₁).settings_eq ▸ dialect
  have moves₂ : v.Moves y := Reads.moves (fun _ => expect_reads _) taken
  have moves₃ : y.Moves t := rest.onward (moves₂.settings_eq ▸ dialect') run
  obtain ⟨early, late⟩ := quiet.parts (moves.trans moves₁) (moves₂.trans moves₃)
  have quiet' := (late.parts moves₂ moves₃).1
  have ended' := (moves.trans moves₁).final_eq ▸ ended
  refine ⟨v, moves.trans moves₁, ?_, ?_, (checked_of_quiet taken quiet').2⟩
  · exact Nat.lt_of_le_of_lt moves₁.ahead_suffix.length_le
      (checked_advances (by decide) opened (early.parts moves moves₁).1 ended)
  · exact Nat.lt_of_le_of_lt moves₃.ahead_suffix.length_le
      (checked_advances (by decide) taken quiet' ended')

theorem anonymousExp_passes (h : r.Replays w r') :
    Passes w.dialect .kwIn (do functionExp r .anonymous (← head)) := by
  intro s t e dialect ended run quiet
  obtain ⟨start, u, looked, run⟩ := bind_eq_ok.1 run
  obtain ⟨rfl, rfl⟩ : (s.tokens.upcoming 0).token.span = start ∧
      { s with tokens := s.tokens.look 1 } = u := by
    cases looked
    exact ⟨rfl, rfl⟩
  obtain ⟨body, v, read, same⟩ := bind_eq_ok.1 run
  obtain ⟨_, _, told, same⟩ := bind_eq_ok.1 same
  obtain ⟨-, rfl⟩ := pure_eq_ok.1 same
  cases told
  obtain ⟨x, moves, shorter, further, kind⟩ :=
    h.anonymous (s := { s with tokens := s.tokens.look 1 }) dialect (by simpa using ended) read quiet
  exact ⟨x, .trans (.look s 1) moves, by simpa using shorter, further, kind⟩

theorem functionExp_replays (h : r.Replays w r') (style : FunctionStyle) (start start' : Span) :
    Replays w loose known taking ends Exp.unplaced (functionExp r style start)
      (functionExp r' style start') :=
  .bind ((h.functionBody loose style).mono fun _ => trivial).weaken.any fun body body' same =>
    .since fun _ _ => .pure (by simp [same])

theorem atAnonymousFunction_bind_eq {β : Type} (f : Bool → Parser β) :
    (atAnonymousFunction >>= f) = (do
      if ← isMooc then f (← onTokens (·.peekWhile .lbrace anonymousHeader)) else f false) := by
  rw [atAnonymousFunction, bind_assoc]
  refine congrArg _ (funext fun mooc => ?_)
  cases mooc <;> rfl

theorem atAnonymousFunction_replays {β γ : Type} {look : β → γ} {f g : Bool → Parser β}
    (passes : Passes w.dialect .kwIn (f true))
    (k : ∀ b, Replays w loose known taking ends look (f b) (g b)) :
    Replays w loose known taking ends look (atAnonymousFunction >>= f)
      (atAnonymousFunction >>= g) := by
  rw [atAnonymousFunction_bind_eq, atAnonymousFunction_bind_eq]
  refine .isMooc <| .ite (fun _ => .peekWhile rfl (fun kind settles => ?_) (by decide) passes k)
    fun _ => k false
  cases kind <;> first | rfl | cases settles

/-! ## Tables -/

/-- A field of a table, wherever it stands. -/
abbrev unplacedField : Option Exp × Exp → Option Exp × Exp :=
  Prod.map (Option.map Exp.unplaced) Exp.unplaced

theorem bracketedField_replays (h : r.Replays w r') :
    Replays w loose known taking False unplacedField (bracketedField r) (bracketedField r') :=
  .bind (exp_replays h False.elim) fun key key' same => .expect (by decide) fun _ _ _ _ =>
    .expect (by decide) fun _ _ _ _ => .map (exp_replays h False.elim) fun e e' same' => by
      simp [same, same']

theorem plainField_eq (r : Rules) : plainField r = do
    let e ← r.exp
    match e.name? with
    | some name =>
      if ← accepts .assign then return (some (.string name e.span), ← r.exp) else return (none, e)
    | none => return (none, e) := by
  refine congrArg _ (funext fun e => ?_)
  cases e <;> rfl

/-- A name is read as the same name. -/
theorem plainField_replays (h : r.Replays w r') :
    Replays w loose known taking False unplacedField (plainField r) (plainField r') := by
  rw [plainField_eq, plainField_eq]
  refine .bind (exp_replays h False.elim) fun e e' same => ?_
  have name : e.name? = e'.name? := by simpa [Exp.name?_recast] using congrArg Exp.name? same
  rw [← name]
  cases e.name? with
  | some name =>
    exact .andThen (.accepts (by decide) False.elim) fun _ => .ite
      (fun _ => .map (exp_replays h False.elim) fun _ _ same => by simp [same])
      fun _ => .pure (by simp [same])
  | none => exact .pure (by simp [same])

theorem atLiteralKey_bind {β : Type} (f : Bool → Parser β) : (atLiteralKey >>= f) = (do
    if ← onTokens (·.peekPair .string .assign) then f true
    else f (← onTokens (·.peekPair .number .assign))) := by
  rw [atLiteralKey, bind_assoc]
  refine congrArg _ (funext fun found => ?_)
  cases found <;> rfl

theorem field_replays (h : r.Replays w r') :
    Replays w loose known false False unplacedField (field r) (field r') := by
  have literalKey {known : Option TokenKind} : Replays w loose known true False unplacedField
      (do let key ← r.exp; let _ ← expect .assign; return (some key, ← r.exp))
      (do let key ← r'.exp; let _ ← expect .assign; return (some key, ← r'.exp)) :=
    .bind (exp_replays h False.elim) fun _ _ same => .expect (by decide) fun _ _ _ _ =>
      .map (exp_replays h False.elim) fun _ _ same' => by simp [same, same']
  have shorthand : Replays w loose (some .assign) true False unplacedField
      (do
        let _ ← next
        let name ← expectName
        return (some (.string name.text name.span), .name name.text name.span))
      (do
        let _ ← next
        let name ← expectName
        return (some (.string name.text name.span), .name name.text name.span)) :=
    .next (by decide) fun _ _ _ _ => .expectName fun _ _ _ _ => .pure (by simp)
  unfold field
  simp only [atLiteralKey_bind]
  refine .andThen (.accepts (by decide) False.elim) fun _ => .ite
    (fun _ => bracketedField_replays h) fun _ => .isMooc <| .ite (fun _ => plainField_replays h)
    fun _ => ?_
  refine .peekPair literalKey (.peekPair literalKey ?_)
  exact .peekPair shorthand (plainField_replays h)

theorem moreFields_replays (h : r.Replays w r') (fields fields' : Array (Option Exp × Exp))
    (same : fields.map unplacedField = fields'.map unplacedField) :
    Replays w loose known false False (onRound (Array.map unplacedField)) (moreFields r fields)
      (moreFields r' fields') := by
  refine .peek False.elim fun kind => .ite (fun _ => .pure (by simpa using same)) fun _ =>
    .bind (field_replays h) fun field field' same' => .peek False.elim fun kind => .ite ?_ fun _ =>
    .pure (by simp [same, same'])
  rintro (rfl | rfl)
  · exact .next (by decide) fun _ _ _ _ => .pure (by simp [same, same'])
  · exact .next (by decide) fun _ _ _ _ => .pure (by simp [same, same'])

/-- As many fields are kept. -/
theorem table_replays (h : r.Replays w r') :
    Replays w loose known taking ends Exp.unplaced (table r) (table r') := by
  refine .expect (by decide) fun _ _ _ _ => .upTo (.iterate (Array.map unplacedField)
    (fun c d => moreFields_agree (h.agree c d)) (by simp) (moreFields_replays h))
    fun fields fields' same => .expect (by decide) fun _ _ _ _ => .since fun _ _ =>
    .ask (fun s => s.settings.fieldCap) (fun twins => twins.fieldCap.symm)
    fun s s' cap => .pure ?_
  have fields := congrArg Array.toList same
  simp only [Array.toList_map] at fields
  have keys := congrArg (List.map Prod.fst) fields
  have values := congrArg (List.map Prod.snd) fields
  simp only [List.map_map, Function.comp_def, Prod.map_fst, Prod.map_snd] at keys values
  simp [cap, map_capped, Function.comp_def, keys, values, capped_none]

/-! ## Operands -/

theorem args_replays (h : r.Replays w r') :
    Replays w loose known taking ends (List.map Exp.unplaced) (args r) (args r') := by
  refine .peekTaking fun kind => .isMooc <| .ite ?_ fun _ => .ite (fun _ => ?_) fun _ =>
    .expect (by decide) fun _ _ _ _ => .peekTaking fun kind => ?_
  · rintro ⟨rfl, -⟩
    exact .next (by decide) fun _ _ _ _ => .pure rfl
  · exact .map ((h.table loose).mono fun _ => trivial).weaken fun e e' same => by simp [same]
  · have closed {known : Option TokenKind} (es es' : List Exp)
        (same : es.map Exp.unplaced = es'.map Exp.unplaced) :
        Replays w loose known true ends (List.map Exp.unplaced)
          (do let _ ← expect .rparen; return es) (do let _ ← expect .rparen; return es') :=
      .expect (by decide) fun _ _ _ _ => .pure same
    split
    · have empty : Replays w loose none false False (List.map Exp.unplaced) (pure []) (pure []) :=
        .pure rfl
      exact .upTo empty.weaken closed
    · exact .upTo (expList_replays h False.elim) closed

theorem atMethodCall_onlyLooks : OnlyLooks atMethodCall
    fun s => s.settings.dialect != .mooc || s.tokens.beginsMethodCall := by
  intro s
  have told : isMooc s = .ok (s.settings.dialect == .mooc) s := rfl
  rw [atMethodCall, bind_of_ok told]
  cases dialect : s.settings.dialect with
  | lua =>
    refine ⟨s.tokens, .refl, ?_⟩
    dsimp only
    rw [dialect]
    rfl
  | mooc =>
    refine ⟨_, .look 3 (.look 2 (.look 1 .refl)), ?_⟩
    dsimp only
    rw [dialect]
    change EStateM.Result.ok (touches s.tokens.now (s.tokens.upcoming 0).token.span &&
      touches (s.tokens.upcoming 0).token.span ((s.tokens.look 1).upcoming 1).token.span &&
      ((s.tokens.look 1).upcoming 1).token.kind == .identifier &&
      (((s.tokens.look 1).look 2).upcoming 2).token.kind == .lparen) _ = _
    simp only [TokenStream.upcoming_look]
    rfl

/-- A method call takes three tokens, so none that is found goes beyond the fragment. -/
theorem atMethodCall_replays {β γ : Type} {look : β → γ} {f g : Bool → Parser β}
    (takes : ∀ {s t : Session} {b : β}, s.settings.dialect = w.dialect →
      s.tokens.final.token.kind = .eof → (s.tokens.upcoming 0).token.kind = .colon →
      f true s = .ok b t → Quiet s t → t.tokens.ahead.length + 3 ≤ s.tokens.ahead.length)
    (k : ∀ b, Replays w loose (some .colon) taking ends look (f b) (g b)) :
    Replays w loose (some .colon) taking ends look (atMethodCall >>= f) (atMethodCall >>= g) := by
  refine .lookingBack id atMethodCall_onlyLooks atMethodCall_onlyLooks
    (fun {words s _ u t _} twins facing looked run quiet within => ?_) fun b _ same => ?_
  · rw [twins.dialect] at run
    rw [id, id, twins.dialect, twins.dialect']
    cases dialect : w.dialect with
    | lua => rfl
    | mooc =>
      have kind := twins.kind.symm.trans (facing _ rfl)
      have stops := w.first_stops
      cases words with
      | nil =>
        rw [show nextKind w.first = .colon from kind] at stops
        cases stops
      | cons x rest =>
        refine congrArg _ (twins.beginsMethodCall dialect kind fun found => ?_).symm
        have before := twins.looked looked .refl
        rw [dialect, found] at run
        have three := takes before.dialect before.final
          (by rw [looked.upcoming]; exact facing _ rfl) run quiet
        have length := before.length
        have left : w.first.length ≤ t.tokens.ahead.length :=
          within.elim Nat.le_of_lt fun here => Nat.le_of_eq here.1
        omega
  · cases same
    exact k b

theorem callOf_replays (h : r.Replays w r') {e e' : Exp} (same : e.unplaced = e'.unplaced)
    {method method' : Option Param}
    (same' : method.map Param.unplaced = method'.map Param.unplaced) :
    Replays w loose known taking ends Exp.unplaced (callOf r e method) (callOf r' e' method') :=
  .bind (args_replays h) fun _ _ args => .since fun _ _ => .pure (by simp [same, same', args])

/-- A method call takes its colon, its name and what it is called with. -/
theorem methodCall_takes (h : r.Replays w r') (e : Exp) {s t : Session} {b : ForInStep Exp}
    (dialect : s.settings.dialect = w.dialect) (ended : s.tokens.final.token.kind = .eof)
    (colon : (s.tokens.upcoming 0).token.kind = .colon)
    (run : (do
      let _ ← next
      let name ← expectName
      return ForInStep.yield (← callOf r e (some ⟨name.text, name.span⟩))) s = .ok b t)
    (quiet : Quiet s t) : t.tokens.ahead.length + 3 ≤ s.tokens.ahead.length := by
  obtain ⟨sign, u, taken, run⟩ := bind_eq_ok.1 run
  obtain ⟨name, v, named, run⟩ := bind_eq_ok.1 run
  have moves : s.Moves u := Reads.moves (fun _ => next_reads) taken
  have moves₁ : u.Moves v := Reads.moves (fun _ => expectName_reads) named
  have called : Replays w none none true False (onRound Exp.unplaced)
      (do return .yield (← callOf r e (some ⟨name.text, name.span⟩)))
      (do return .yield (← callOf r' e (some ⟨name.text, name.span⟩))) :=
    .map (callOf_replays h rfl rfl) fun _ _ call => by simp [call]
  have dialect' := (moves.trans moves₁).settings_eq ▸ dialect
  have ended' := (moves.trans moves₁).final_eq ▸ ended
  obtain ⟨early, late⟩ := quiet.parts (moves.trans moves₁) (called.onward dialect' run)
  obtain ⟨first, second⟩ := early.parts moves moves₁
  have one := next_advances taken first (by rw [colon]; decide) ended
  have two := checked_advances (by decide) named second (moves.final_eq ▸ ended)
  have three := called.takes rfl dialect' ended' nofun run late
  omega

/-- Nothing that stands behind the fragment goes on with an operand. -/
theorem suffix_replays (h : r.Replays w r') (e e' : Exp) (same : e.unplaced = e'.unplaced) :
    Replays w loose known false ends (onRound Exp.unplaced) (suffix r e) (suffix r' e') := by
  have called {known : Option TokenKind} (method method' : Option Param)
      (same' : method.map Param.unplaced = method'.map Param.unplaced) :
      Replays w loose known false ends (onRound Exp.unplaced)
        (do return .yield (← callOf r e method)) (do return .yield (← callOf r' e' method')) :=
    .map (callOf_replays h same same') fun _ _ call => by simp [call]
  have rest : onRound Exp.unplaced (.done e) = onRound Exp.unplaced (.done e') := by simp [same]
  refine .peek (fun _ => ?_) fun kind => ?_
  · refine .still ?_ ?_ rest
    · have stops := w.first_stops
      revert stops
      cases nextKind w.first <;> first | exact fun _ => rfl | exact nofun
    · have settles := w.second_settles
      revert settles
      cases nextKind w.second <;> first | exact fun _ => rfl | exact nofun
  split
  · exact .next (by decide) fun _ _ _ _ => .expectName fun _ _ _ _ =>
      .pure (by simp [Exp.field, same])
  · exact .next (by decide) fun _ _ _ _ => .upTo (exp_replays h False.elim) fun key key' same' =>
      .expect (by decide) fun _ _ _ _ => .since fun _ _ => .pure (by simp [same, same'])
  · exact atMethodCall_replays (methodCall_takes h e) fun _ => .ite
      (fun _ => .next (by decide) fun _ _ _ _ => .expectName fun _ _ _ _ => called _ _ rfl)
      fun _ => .pure rest
  · exact called _ _ rfl
  · exact .isMooc <| .ite (fun _ => .pure rest) fun _ => called _ _ rfl
  · exact .isMooc <| .ite (fun _ => .pure rest) fun _ => called _ _ rfl
  · exact .pure rest

theorem prefixExp_replays (h : r.Replays w r') :
    Replays w loose known taking ends Exp.unplaced (prefixExp r) (prefixExp r') := by
  refine .peekTaking fun kind => ?_
  split
  · exact .next (by decide) fun _ _ _ _ => .iterate Exp.unplaced (fun c d => suffix_agree (h.agree c d)) (by simp)
      (suffix_replays h)
  · exact .next (by decide) fun _ _ _ _ => .upTo ((h.parenthesised loose).mono False.elim).any
      fun inner inner' same => .expect (by decide) fun _ _ _ _ => .since fun _ _ =>
      .iterate Exp.unplaced (fun c d => suffix_agree (h.agree c d)) (by simp [same]) (suffix_replays h)
  · exact .refused fun _ => .pure rfl

theorem literal_replays {kind : TokenKind} (more : kind ≠ .eof) (e : Span → Exp)
    (same : ∀ span span', (e span).unplaced = (e span').unplaced) :
    Replays w loose (some kind) taking ends Exp.unplaced (literal e) (literal e) :=
  .next more fun _ _ span span' => .pure (same span span')

theorem primary_replays (h : r.Replays w r') :
    Replays w loose known taking ends Exp.unplaced (primary r) (primary r') := by
  have functions (style : FunctionStyle) (start start' : Span) {known : Option TokenKind}
      {taking : Bool} : Replays w loose known taking ends Exp.unplaced (functionExp r style start)
        (functionExp r' style start') := functionExp_replays h style start start'
  refine .peekTaking fun kind => ?_
  split
  · exact literal_replays (by decide) _ fun _ _ => rfl
  · exact literal_replays (by decide) _ fun _ _ => rfl
  · exact literal_replays (by decide) _ fun _ _ => rfl
  · exact literal_replays (by decide) _ fun _ _ => rfl
  · exact .next (by decide) fun _ _ _ _ => .pure rfl
  · exact numeral_replays
  · exact atAnonymousFunction_replays (anonymousExp_passes h) fun _ => .ite
      (fun _ => .head fun start start' => functions _ _ _)
      fun _ => ((h.table loose).mono fun _ => trivial).weaken
  · exact .isMooc <| .ite (fun _ => prefixExp_replays h) fun _ =>
      .next (by decide) fun _ _ _ _ => functions _ _ _
  · exact .next (by decide) fun _ _ _ _ => functions _ _ _
  · exact prefixExp_replays h

/-! ## Operators -/

theorem operand_replays (h : r.Replays w r') (stop : ends → w.Stops) :
    Replays w loose known taking ends Exp.unplaced (operand r) (operand r') := by
  refine .peekTaking fun kind => ?_
  split
  next op found =>
    exact .next (UnaryOp.ne_eof found) fun _ _ _ _ => .bind (operator_replays h stop _)
      fun _ _ same => .since fun _ _ => .pure (by simp [same])
  next => exact primary_replays h

theorem infixOp_replays (h : r.Replays w r') (stop : ends → w.Stops) (limit : Nat)
    (start start' : Span) (left left' : Exp) (same : left.unplaced = left'.unplaced) :
    Replays w loose known false ends (onRound Exp.unplaced) (infixOp r limit start left)
      (infixOp r' limit start' left') := by
  have rest : onRound Exp.unplaced (.done left) = onRound Exp.unplaced (.done left') := by
    simp [same]
  refine .peek (fun may => ?_) fun kind => ?_
  · rcases stop may with alike | ⟨first, second⟩
    · exact .same alike
    · refine .still ?_ ?_ rest
      · rw [first]
      · rw [second]
  split
  next op found =>
    exact .ite (fun _ => .pure rest) fun _ => .next (BinaryOp.ne_eof found) fun _ _ _ _ =>
      .bind (operator_replays h stop _) fun _ _ same' => .since fun _ _ =>
      .pure (by simp [same, same'])
  next => exact .pure rest

theorem operation_replays (h : r.Replays w r') (stop : ends → w.Stops) (limit : Nat) :
    Replays w loose known taking ends Exp.unplaced (operation r limit) (operation r' limit) :=
  .head fun start start' => .bind (operand_replays h stop) fun _ _ same =>
    .iterate Exp.unplaced (fun c d => infixOp_agree (h.agree c d) limit start) same
      (infixOp_replays h stop limit start start')

end Parser

end LuaChunk
