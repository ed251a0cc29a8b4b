import LuaChunk.Proofs.Recursion.Mooc
import LuaChunk.Proofs.Replay.Statement

/-!
# Statements of Mooc and blocks read again

With them the rules of every level read a fragment again as those of a level no deeper have read it.
-/

set_option autoImplicit false

namespace LuaChunk

namespace Parser

variable {w : Frontier} {loose : Looseness} {known : Option TokenKind} {kind : TokenKind}
  {taking : Bool} {r r' : Rules}

/-! ## Transfer of control -/

/-- The same loop is marked, and its label has the same name. -/
theorem continueStat_replays (more : kind ≠ .eof) :
    Replays w loose (some kind) taking w.Same Stat.unplaced continueStat continueStat := by
  refine .next more fun _ _ _ _ => .scopes ScopeStack.openLoops
    (fun parallel => parallel.openLoops.symm) fun s s' same => .insideLoop fun _ => .ite
    (fun _ => .onScopes .markLoop (fun parallel => parallel.setFound 1) (.pure ?_))
    fun _ => .complaining (.pure rfl)
  rw [same]
  rfl

theorem deferStat_replays (h : r.Replays w r') (more : kind ≠ .eof) :
    Replays w loose (some kind) taking w.Same Stat.unplaced (deferStat r) (deferStat r') := by
  refine .next more fun _ _ span span' => .expect (by decide) fun _ _ _ _ => .scopes
    (fun s => (s.find? .function .function).isNone)
    (fun parallel => congrArg Option.isNone (parallel.find? (by decide)).symm)
    fun s s' same => ?_
  have rest : Replays w loose none false w.Same Stat.unplaced
      (do
        let body ← within .function "defer" r.block
        closeBody
        return .doBlock .deferred body (← since span))
      (do
        let body ← within .function "defer" r'.block
        closeBody
        return .doBlock .deferred body (← since span')) :=
    .bind (body_replays h _ _) fun _ _ body => .andThen closeBody_replays fun _ =>
      .since fun _ _ => .pure (by simp [body])
  rw [same]
  exact .ite (fun _ => .complaining rest) fun _ => rest

theorem leaves_eq {b b' : Block} (same : b.unplaced = b'.unplaced) : leaves b = leaves b' := by
  rw [← leaves_seen (v := .bare) b, ← leaves_seen (v := .bare) b']
  exact congrArg leaves same

/-- The innermost construct is the same `guard`. -/
theorem guardBody_replays (h : r.Replays w r') :
    Replays w (some (.same loose)) known false w.Same Block.unplaced (guardBody r) (guardBody r') := by
  refine .bind (h.block (some loose)).weaken fun body body' same => .scopes ScopeStack.current
    (fun parallel => parallel.current_same.symm) fun s s' current => ?_
  rw [current, leaves_eq same]
  exact .ite (fun _ => .now fun _ _ => .complaining (.pure same)) fun _ => .pure same

theorem guardStat_replays (h : r.Replays w r') (more : kind ≠ .eof) :
    Replays w loose (some kind) taking w.Same Stat.unplaced (guardStat r) (guardStat r') :=
  .next more fun _ _ _ _ => .bind (exp_replays h Frontier.Same.stops) fun _ _ condition =>
    .since fun _ _ => .expect (by decide) fun _ _ _ _ => .expect (by decide) fun _ _ _ _ =>
    .bind (.within _ _ (guardBody_replays h)) fun _ _ body => .expect (by decide) fun _ _ _ _ =>
    .since fun _ _ => .pure (by simp [Exp.negate, condition, body])

/-! ## Switch -/

theorem switchCase?_eq {values values' : List Exp}
    (same : values.map Exp.unplaced = values'.map Exp.unplaced) :
    (Exp.switchCase? values).map Exp.unplaced = (Exp.switchCase? values').map Exp.unplaced :=
  (switchCase?_seen (v := .bare) values).symm.trans
    ((congrArg Exp.switchCase? same).trans (switchCase?_seen (v := .bare) values'))

theorem caseBody_replays (h : r.Replays w r') :
    Replays w loose known taking w.Same Block.unplaced (caseBody r) (caseBody r') :=
  .expect (by decide) fun _ _ _ _ => body_replays h _ _

theorem moreCases_replays (h : r.Replays w r') (cases cases' : Array Branch)
    (same : cases.map Branch.unplaced = cases'.map Branch.unplaced) :
    Replays w loose known false w.Same (onRound (Array.map Branch.unplaced)) (moreCases r cases)
      (moreCases r' cases') := by
  refine .accept (by decide) .inl (fun _ _ _ _ => .bind (expList_replays h Frontier.Same.stops)
    fun values values' asked => .bind (caseBody_replays h) fun body body' same' => .pure ?_)
    (.pure (by simp [same]))
  have condition := switchCase?_eq asked
  generalize Exp.switchCase? values = c, Exp.switchCase? values' = c' at condition
  rcases c with _ | c <;> rcases c' with _ | c'
  · simp [same, same']
  · cases condition
  · cases condition
  · have condition : c.unplaced = c'.unplaced := by simpa using condition
    simp [same, same', condition]

theorem defaultCase_replays (h : r.Replays w r') :
    Replays w loose known false w.Same (List.map Branch.unplaced) (defaultCase r)
      (defaultCase r') :=
  .accept (by decide) .inl (fun _ _ _ _ => .bind (caseBody_replays h) fun _ _ body =>
    .pure (by simp [body])) (.pure rfl)

theorem switchStat_replays (h : r.Replays w r') (more : kind ≠ .eof) :
    Replays w loose (some kind) taking w.Same Stat.unplaced (switchStat r) (switchStat r') := by
  refine .next more fun _ _ _ _ => .bind (exp_replays h Frontier.Same.stops)
    fun value value' subject => .since fun _ _ => .expect (by decide) fun _ _ _ _ =>
    .bind (.iterate (Array.map Branch.unplaced) (fun c d => moreCases_agree (h.agree c d)) rfl
      (moreCases_replays h)) fun cases cases' same => .bind (defaultCase_replays h)
    fun last last' same' => .expect (by decide) fun _ _ _ _ => .since fun _ _ => .since fun _ _ =>
    .pure ?_
  have rounds := congrArg Array.toList same
  simp only [Array.toList_map] at rounds
  simp [Param.recast, subject, rounds, same']

/-! ## Classes -/

theorem moreMembers_replays (h : r.Replays w r') (owner : String)
    (members members' : Array Assignment)
    (same : members.map Assignment.unplaced = members'.map Assignment.unplaced) :
    Replays w loose known false w.Same (onRound (Array.map Assignment.unplaced))
      (moreMembers r owner members) (moreMembers r' owner members') := by
  refine .peek .same fun kind => ?_
  split
  · exact .head fun _ _ => .map (functionStat_replays h _ _ _ _ nofun) fun _ _ member => by
      simp [same, member]
  · exact .head fun _ _ => .map (functionStat_replays h _ _ _ _ fun _ => rfl)
      fun _ _ member => by simp [same, member]
  · refine .next (by decide) fun _ _ _ _ => .bind (assignRest_replays h _ _ (by simp [Exp.field]))
      fun s s' alike => ?_
    cases s with
    | assign assignment =>
      cases s' with
      | assign assignment' =>
        have member : assignment.unplaced = assignment'.unplaced := by simpa using alike
        exact .pure (by simp [same, member])
      | _ => cases alike
    | _ =>
      cases s' with
      | assign assignment' => cases alike
      | _ => exact .pure (by simp [same])
  · exact .pure (by simp [same])

theorem parentClass_replays (kind : ClassKind) :
    Replays w loose known false w.Same Exp.unplaced (parentClass kind) (parentClass kind) := by
  have parent : Replays w loose none false w.Same Exp.unplaced
      (do let name ← expectName; return Exp.name name.text name.span)
      (do let name ← expectName; return Exp.name name.text name.span) :=
    .expectName fun _ _ _ _ => .pure rfl
  exact .accept (by decide) .inl
    (fun _ _ _ _ => .ite (fun _ => .complaining parent) fun _ => parent) (.now fun _ _ => .pure rfl)

theorem classStat_replays (h : r.Replays w r') (more : kind ≠ .eof) (start start' : Span)
    (isExported : Bool) :
    Replays w loose (some kind) taking w.Same Stat.unplaced (classStat r start isExported)
      (classStat r' start' isExported) :=
  .next more fun _ _ _ _ => .expectName fun _ text _ _ => .bind (parentClass_replays _)
    fun _ _ parent => .since fun _ _ => .expect (by decide) fun _ _ _ _ =>
    .bind (.within _ _ (.iterate (Array.map Assignment.unplaced)
      (fun c d => moreMembers_agree (h.agree c d) text) rfl (moreMembers_replays h text)))
    fun _ _ members => .expect (by decide) fun _ _ _ _ => .since fun _ _ => .pure (by
      have rounds := congrArg Array.toList members
      simp only [Array.toList_map] at rounds
      simp [classLocal, Param.recast, capped_none, parent, rounds])

/-! ## Imports and exports -/

theorem importSource_replays (kind : TokenKind) (text : String) (span span' : Span) :
    Replays w loose known false w.Same id (importSource ⟨kind, text, span⟩)
      (importSource ⟨kind, text, span'⟩) :=
  .ite (fun _ => .pure rfl) fun _ => .ite (fun _ => .pure rfl) fun _ => .complaining (.pure rfl)

theorem member_unplaced (source : ImportSource) (key : String) (span span' : Span) :
    (source.member key span).unplaced = (source.member key span').unplaced := by
  cases source <;> simp [ImportSource.member, Call.require]

/-- Keys, wherever they stand, and whether none has been read yet. -/
abbrev unplacedKeys : Array Exp × Bool → Array Exp × Bool := Prod.map (Array.map Exp.unplaced) id

theorem moreKeys_replays (source : ImportSource) {names names' : List Param}
    (alike : names.map Param.unplaced = names'.map Param.unplaced) (read read' : Array Exp × Bool)
    (same : unplacedKeys read = unplacedKeys read') :
    Replays w loose known false w.Same (onRound unplacedKeys) (moreKeys source names read)
      (moreKeys source names' read') := by
  obtain ⟨values, isFirst⟩ := read
  obtain ⟨values', isFirst'⟩ := read'
  obtain ⟨keys, rfl⟩ := Prod.mk.inj same
  have rest (values values' : Array Exp)
      (same : values.map Exp.unplaced = values'.map Exp.unplaced) :
      Replays w loose none false w.Same (onRound unplacedKeys)
        (do
          if ← accepts .comma then return .yield (values, false) else return .done (values, false))
        (do
          if ← accepts .comma then return .yield (values', false)
          else return .done (values', false)) :=
    .andThen (.accepts (by decide) .inl) fun _ => .ite (fun _ => .pure (by simp [same]))
      fun _ => .pure (by simp [same])
  refine .accept (by decide) .inl
    (fun _ text _ _ => .giving (Array.map Exp.unplaced) ?_ rest)
    (.ite (fun _ => .now fun span span' => .giving (Array.map Exp.unplaced) ?_ rest)
      fun _ => .giving (Array.map Exp.unplaced) keys rest)
  · rw [Array.map_push, Array.map_push, keys, member_unplaced]
  · have named (names : List Param) (span : Span) :
        names.map (fun name => (source.member name.name span).unplaced) =
          (names.map Param.unplaced).map
            (fun name => (source.member name.name .synthetic).unplaced) := by
      simp only [List.map_map, List.map_inj_left, Function.comp_apply, Param.recast]
      exact fun _ _ => member_unplaced ..
    have before := congrArg Array.toList keys
    simp only [Array.toList_map] at before
    refine Array.toList_inj.1 ?_
    simp only [Array.toList_map, Array.toList_appendList, List.map_append, List.map_map,
      Function.comp_def, before]
    rw [named names span, named names' span', alike]

theorem importKeys_replays (source : ImportSource) {names names' : List Param}
    (alike : names.map Param.unplaced = names'.map Param.unplaced) (start start' : Span) :
    Replays w loose known false w.Same (List.map Exp.unplaced) (importKeys source names start)
      (importKeys source names' start') := by
  refine .bind (.iterate unplacedKeys (fun c d => moreKeys_agree source names) rfl
    (moreKeys_replays source alike)) fun read read' same => .expect (by decide) fun _ _ _ _ => ?_
  obtain ⟨values, isFirst⟩ := read
  obtain ⟨values', isFirst'⟩ := read'
  obtain ⟨keys, rfl⟩ := Prod.mk.inj same
  have size : values.size = values'.size := by simpa using congrArg Array.size keys
  have length : names.length = names'.length := by simpa using congrArg List.length alike
  dsimp only
  rw [size, length]
  exact .ite (fun _ => .since fun _ _ => .complaining (.throw (q := Pure.pure []) _)) fun _ =>
    .pure (by simpa using congrArg Array.toList keys)

theorem importWhole_unplaced (source : ImportSource) (kind kind' : TokenKind) (text text' : String)
    (word word' span span' : Span) :
    (importWhole source ⟨kind, text, word⟩ ⟨kind', text', span⟩).unplaced =
      (importWhole source ⟨kind, text, word'⟩ ⟨kind', text', span'⟩).unplaced := by
  cases source <;> simp [importWhole, Call.require]

/-- The token that tells where the names of an import come from. -/
def importOrigin : Parser (Token × ImportSource) := do
  let token ← next
  let source ← importSource token
  return (token, source)

theorem importOrigin_bind {β : Type} (f : Token → ImportSource → Parser β) :
    (importOrigin >>= fun origin => f origin.1 origin.2) = (do
      let token ← next
      let source ← importSource token
      f token source) := by
  simp [importOrigin, bind_assoc]

/-- Neither the end of input nor any other token that is no source is taken quietly. -/
theorem importOrigin_replays :
    Replays w loose known taking w.Same (Prod.map Token.word id) importOrigin importOrigin := by
  refine .facing (· ≠ .eof) (show TokenKind.string ≠ .eof by decide) (fun kind' more => ?_)
    fun {s t a} dialect run quiet eof => ?_
  · exact .next more fun _ _ _ _ => .andThen (importSource_replays ..) fun _ => .pure rfl
  · obtain ⟨token, u, taken, rest⟩ := bind_eq_ok.1 run
    obtain ⟨source, v, sourced, same⟩ := bind_eq_ok.1 rest
    obtain ⟨rfl, rfl⟩ := pure_eq_ok.1 same
    have moves := Reads.moves (fun _ => next_reads) taken
    have sources : Replays w (some .strict) none false w.Same id (importSource token) (importSource token) :=
      importSource_replays ..
    have moves' := sources.onward (moves.settings_eq ▸ dialect) sourced
    obtain ⟨early, late⟩ := quiet.parts moves moves'
    obtain ⟨rfl, rfl⟩ := next_of_quiet taken early
    have kind : s.tokens.next.1.kind = .eof := s.tokens.next_fst ▸ eof
    unfold importSource at sourced
    rw [kind, if_neg (by decide), if_neg (by decide)] at sourced
    obtain ⟨_, x, complained, same⟩ := bind_eq_ok.1 sourced
    obtain ⟨-, rfl⟩ := pure_eq_ok.1 same
    exact complain_loud complained late

theorem importStat_replays (more : kind ≠ .eof) :
    Replays w loose (some kind) taking w.Same Stat.unplaced importStat importStat := by
  unfold importStat
  simp only [← importOrigin_bind]
  refine .next more fun _ _ _ _ => .peek .same fun kind => .ite ?_ fun _ => .head fun start start' =>
    .bind attrNames_replays fun (names, attrs) (names', attrs') same =>
    .expect (by decide) fun _ _ _ _ => .bind importOrigin_replays
    fun (⟨kind, text, span⟩, source) (⟨_, _, span'⟩, _) origin => ?_
  · rintro rfl
    exact .next (by decide) fun _ _ _ _ => .pure (by simp [Call.require])
  obtain ⟨alike, rfl⟩ := Prod.mk.inj same
  obtain ⟨word, rfl⟩ := Prod.mk.inj origin
  obtain ⟨rfl, rfl⟩ := Word.mk.inj word
  have rest (values values' : List Exp)
      (keys : values.map Exp.unplaced = values'.map Exp.unplaced) :
      Replays w loose none false w.Same Stat.unplaced
        (do return .importNames { names, attrs, values, span := ← since start })
        (do return .importNames { names := names', attrs, values := values', span := ← since start' }) :=
    .since fun _ _ => .pure (by simp [alike, keys])
  exact .andThen (.accepts (by decide) .inl) fun _ => .ite
    (fun _ => .bind (importKeys_replays source alike start start') rest) fun _ =>
    .giving (List.map Exp.unplaced) (congrArg (fun e => [e]) (importWhole_unplaced source ..)) rest

theorem exported_unplaced {s s' : Stat} (same : s.unplaced = s'.unplaced) :
    (exported s).unplaced = (exported s').unplaced :=
  (exported_seen (v := .bare) s).symm.trans
    ((congrArg exported same).trans (exported_seen (v := .bare) s'))

theorem exportStat_replays (h : r.Replays w r') (more : kind ≠ .eof) :
    Replays w loose (some kind) taking w.Same Stat.unplaced (exportStat r) (exportStat r') := by
  refine .next more fun _ _ _ _ => .peek .same fun kind => ?_
  split
  · exact .next (by decide) fun _ _ _ _ => .since fun _ _ => .pure rfl
  · exact assignFunction_replays h _ _ _ _ nofun
  · exact classStat_replays h (by decide) _ _ _
  · exact classStat_replays h (by decide) _ _ _
  · exact .map (assignOrCall_replays h) fun _ _ same => exported_unplaced same

theorem moocStat_replays (h : r.Replays w r') :
    Replays w loose known false w.Same Stat.unplaced (moocStat r) (moocStat r') := by
  refine .peek .same fun kind => ?_
  split
  · exact skipToken_replays (by decide)
  · exact skipToken_replays (by decide)
  · exact breakStat_replays (by decide)
  · exact continueStat_replays (by decide)
  · exact labelStat_replays (by decide)
  · exact gotoStat_replays (by decide)
  · exact doStat_replays h (by decide)
  · exact deferStat_replays h (by decide)
  · exact whileStat_replays h (by decide)
  · exact repeatStat_replays h (by decide)
  · exact ifStat_replays h (by decide)
  · exact guardStat_replays h (by decide)
  · exact switchStat_replays h (by decide)
  · exact forStat_replays h (by decide)
  · exact .head fun _ _ => assignFunction_replays h _ _ _ _ nofun
  · exact .head fun _ _ => assignFunction_replays h _ _ _ _ fun _ => rfl
  · refine .next (by decide) fun _ _ _ _ => .peek .same fun kind => ?_
    split
    · exact classStat_replays h (by decide) _ _ _
    · exact classStat_replays h (by decide) _ _ _
    · exact localFunction_replays h (by decide) _ _
    · exact localDecl_replays h _ _
  · exact .head fun _ _ => classStat_replays h (by decide) _ _ _
  · exact .head fun _ _ => classStat_replays h (by decide) _ _ _
  · exact .head fun _ _ => classStat_replays h (by decide) _ _ _
  · exact importStat_replays (by decide)
  · exact exportStat_replays h (by decide)
  · exact assignOrCall_replays h

theorem stat_replays (h : r.Replays w r') :
    Replays w loose known false w.Same Stat.unplaced (stat r) (stat r') :=
  .isMooc <| .ite (fun _ => moocStat_replays h) fun _ => luaStat_replays h

/-! ## Blocks -/

theorem atBlockEnd_replays {β γ : Type} {look : β → γ} {f g : Bool → Parser β}
    (k : ∀ kind b, Replays w loose (some kind) taking w.Same look (f b) (g b)) :
    Replays w loose known taking w.Same look (atBlockEnd >>= f) (atBlockEnd >>= g) := by
  have asked (h : Bool → Parser β) :
      (atBlockEnd >>= h) = (do let d ← dialect; let kind ← peek; h (endsBlock d kind)) := rfl
  rw [asked, asked]
  exact .dialect <| .peek .same fun kind => k kind _

theorem moreStats_replays (h : r.Replays w r') (stats stats' : Array Stat)
    (same : stats.map Stat.unplaced = stats'.map Stat.unplaced) :
    Replays w loose known false w.Same (onRound (Array.map Stat.unplaced)) (moreStats r stats)
      (moreStats r' stats') :=
  atBlockEnd_replays fun _ _ => .ite (fun _ => .pure (by simp [same])) fun _ =>
    .map (h.stat loose).weaken fun s s' same' => by
      have empty : s.isEmpty = s'.isEmpty := by simpa using congrArg Stat.isEmpty same'
      rw [empty]
      cases s'.isEmpty <;> simp [same, same']

/-- A `continue` waits for its label in both readings or in none. -/
theorem pendingLabel_replays :
    Replays w loose known false w.Same (List.map Stat.unplaced) pendingLabel pendingLabel := by
  refine .scopes (fun s => ((s.current.kind = .loop ∧ 0 < s.current.count), s.openLoops))
    (fun parallel => Prod.ext (propext parallel.pending_iff.symm) parallel.openLoops.symm)
    fun s s' same => ?_
  obtain ⟨pending, depth⟩ := Prod.mk.inj same
  refine .iteOf (iff_of_eq pending) (.now fun _ _ => .pure ?_) (.pure rfl)
  rw [depth]
  rfl

/-- A `return` from its keyword on. -/
def returned (r : Rules) : Parser (Option (List Exp)) := do
  let _ ← next
  if (← atBlockEnd) then return some []
  if ← accepts .semi then return some []
  let exps ← expList r
  let _ ← accepts .semi
  return some exps

theorem returnStat_eq (r : Rules) : returnStat r = (do
    if (← peek) ≠ .kwReturn then return none
    onScopes noteReturn
    returned r) := rfl

theorem returned_replays (h : r.Replays w r') :
    Replays w loose (some .kwReturn) false w.Same (Option.map (List.map Exp.unplaced)) (returned r)
      (returned r') :=
  .next (by decide) fun _ _ _ _ => atBlockEnd_replays fun _ _ => .ite (fun _ => .pure rfl)
    fun _ => .andThen (.accepts (by decide) .inl) fun _ => .ite (fun _ => .pure rfl) fun _ =>
    .bind (expList_replays h Frontier.Same.stops) fun _ _ values =>
    .andThen (.accepts (by decide) .inl) fun _ => .pure (by simp [values])

theorem returnStat_replays {loose : Option Looseness} (h : r.Replays w r') :
    Replays w (some (.inside loose)) known false w.Same (Option.map (List.map Exp.unplaced)) (returnStat r)
      (returnStat r') := by
  rw [returnStat_eq, returnStat_eq]
  refine .peek .same fun kind => .ite (fun _ => .pure rfl) fun other => ?_
  obtain rfl := Decidable.not_not.1 other
  exact .onScopes .markReturn (fun parallel => parallel.noteReturn) (returned_replays h)

/-- A block from behind its statements on. -/
def afterStats (r : Rules) (head before : Span) (stats : Array Stat) : Parser Block := do
  let label ← pendingLabel
  let returns ← returnStat r
  let after ← now
  let span := if after = before then head.upTo head else head.merge after
  return ⟨stats.toList ++ label, returns, span⟩

theorem block_eq (r : Rules) : block r = (do
    let head ← head
    let before ← now
    let stats ← iterate #[] (moreStats r)
    afterStats r head before stats) := rfl

theorem stats_replays (h : r.Replays w r') : Replays w loose known false w.Same
    (Array.map Stat.unplaced) (iterate #[] (moreStats r)) (iterate #[] (moreStats r')) :=
  .iterate (Array.map Stat.unplaced) (fun c d => moreStats_agree (h.agree c d)) rfl
    (moreStats_replays h)

theorem afterStats_replays {loose : Option Looseness} (h : r.Replays w r') (head head' before before' : Span)
    (stats stats' : Array Stat) (same : stats.map Stat.unplaced = stats'.map Stat.unplaced) :
    Replays w (some (.inside loose)) known false w.Same Block.unplaced (afterStats r head before stats)
      (afterStats r' head' before' stats') :=
  .bind pendingLabel_replays fun _ _ label => .bind (returnStat_replays h) fun _ _ returns =>
    .now fun _ _ => .pure (by
      have rounds := congrArg Array.toList same
      simp only [Array.toList_map] at rounds
      simp [rounds, label, returns])

theorem block_replays {loose : Option Looseness} (h : r.Replays w r') :
    Replays w (some (.inside loose)) known false w.Same Block.unplaced (block r) (block r') := by
  rw [block_eq, block_eq]
  exact .head fun _ _ => .now fun _ _ => .bind (stats_replays h) (afterStats_replays h _ _ _ _)

end Parser

/-! ## Levels -/

namespace Rules

variable {w : Frontier}

theorem exhausted_replays (r : Rules) : exhausted.Replays w r where
  agree := exhausted_agree
  block _ := .tooDeep
  stat _ := .tooDeep
  operation _ _ := .tooDeep
  functionBody _ _ := .tooDeep
  anonymous _ _ run _ := absurd run Parser.tooDeep_ne_ok
  table _ := .tooDeep
  parenthesised _ := .tooDeep

/-- A fragment that has been read at a level is read again at one that is no deeper. -/
theorem level_replays {n m : Nat} (le : n ≤ m) : (level n).Replays w (level m) := by
  induction n generalizing m with
  | zero => exact exhausted_replays _
  | succ n inductionHypothesis =>
    obtain ⟨m, rfl⟩ : ∃ k, m = k + 1 := ⟨m - 1, by omega⟩
    have inner := inductionHypothesis (Nat.le_of_succ_le_succ le)
    exact {
      agree := level_agree (n + 1)
      block := fun _ => .nested (Parser.block_replays inner)
      stat := fun _ => .nested (Parser.stat_replays inner)
      operation := fun _ limit => .nested (Parser.operation_replays inner id limit)
      functionBody := fun _ style => .nested (Parser.functionBody_replays inner style)
      anonymous := Parser.Passes.nested (Parser.functionBody_passes inner)
      table := fun _ => .nested (Parser.table_replays inner)
      parenthesised := fun _ => .nested (Parser.exp_replays inner id) }

end Rules

end LuaChunk
