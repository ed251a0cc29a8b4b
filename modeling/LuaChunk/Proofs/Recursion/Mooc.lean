import LuaChunk.Proofs.Recursion.Statement

/-!
# Statements of Mooc and blocks read by rules that agree
-/

set_option autoImplicit false

namespace LuaChunk.Parser

variable {c : Settings} {d : Nat} {k : Headway} {r r' : Rules}

/-! ## Transfer of control -/

theorem continueStat_agree : Agree c d k continueStat continueStat fun _ => k.take := by
  apply Agree.bind .next
  intro token
  apply Agree.bind .scopes
  intro scopes
  apply Agree.bind .insideLoop
  intro inside
  apply Agree.ite
  · intro _
    exact .bind (.onScopes _) fun _ => .still _
  · intro _
    exact .bind (.complain rfl _) fun _ => .still _

theorem deferStat_agree (h : r.Agree c d r') :
    Agree c d k (deferStat r) (deferStat r') fun _ => k.take := by
  have rest (start : Span) : Agree c d k.take
      (do
        let body ← within .function "defer" r.block
        closeBody
        return Stat.doBlock .deferred body (← since start))
      (do
        let body ← within .function "defer" r'.block
        closeBody
        return Stat.doBlock .deferred body (← since start)) fun _ => k.take :=
    .bind (.within .function "defer" (h.block _)) fun _ =>
      .bind closeBody_agree fun _ => .give (.since start)
  apply Agree.bind .next
  intro keyword
  apply Agree.bind (.expect .lbrace)
  intro _
  apply Agree.bind .scopes
  intro scopes
  apply Agree.ite
  · intro _
    exact .bind (.complain rfl _) fun _ => rest keyword.span
  · intro _
    exact rest keyword.span

theorem guardBody_agree (h : r.Agree c d r') :
    Agree c d k (guardBody r) (guardBody r') fun _ => k.pass := by
  apply Agree.bind (h.block k)
  intro body
  apply Agree.bind .scopes
  intro scopes
  apply Agree.ite
  · intro _
    exact .bind .now fun span => .bind (.complain rfl span) fun _ => .still _
  · intro _
    exact .still _

theorem guardStat_agree (h : r.Agree c d r') :
    Agree c d k (guardStat r) (guardStat r') fun _ => k.take := by
  apply Agree.bind .next
  intro keyword
  apply Agree.bind (exp_agree h)
  intro condition
  apply Agree.bind (.since keyword.span)
  intro span
  apply Agree.bind (.expect .kwElse)
  intro _
  apply Agree.bind (.expect .lbrace)
  intro _
  apply Agree.bind (.within .guardBlock "guard" (guardBody_agree h))
  intro body
  apply Agree.bind (.expect .rbrace)
  intro _
  exact .give (.since keyword.span)

/-! ## Switch -/

theorem caseBody_agree (h : r.Agree c d r') :
    Agree c d k (caseBody r) (caseBody r') fun _ => k.take :=
  .bind (.expect .colon) fun _ => .within .branch "if" (h.block _)

theorem moreCases_agree (h : r.Agree c d r') (cases : Array Branch) :
    Agree c d k (moreCases r cases) (moreCases r' cases) Headway.ofRound := by
  apply Agree.onAccept (by decide)
  · intro token
    apply Agree.bind (expList_agree h)
    intro values
    exact .map (caseBody_agree h) fun _ => .round rfl
  · exact .done _ (.none _)

theorem defaultCase_agree (h : r.Agree c d r') :
    Agree c d k (defaultCase r) (defaultCase r') fun _ => k.pass := by
  apply Agree.bind (.accept .kwDefault)
  intro word
  split
  · exact .give (caseBody_agree h)
  · exact .still _

theorem switchStat_agree (h : r.Agree c d r') :
    Agree c d k (switchStat r) (switchStat r') fun _ => k.take := by
  apply Agree.bind .next
  intro keyword
  apply Agree.bind (exp_agree h)
  intro value
  apply Agree.bind (.since keyword.span)
  intro span
  apply Agree.bind (.expect .lbrace)
  intro opening
  apply Agree.bind (.iterate (moreCases_agree h))
  intro cases
  apply Agree.bind (defaultCase_agree h)
  intro last
  apply Agree.bind (.expect .rbrace)
  intro _
  exact .bind (.since opening.span) fun _ => .give (.since keyword.span)

/-! ## Classes -/

/-- A member begins with a token that has been looked at. -/
theorem moreMembers_agree (h : r.Agree c d r') (owner : String) (members : Array Assignment) :
    Agree c d k (moreMembers r owner members) (moreMembers r' owner members)
      Headway.ofRound := by
  apply Agree.bind .peek
  intro kind
  split
  · exact .bind .head fun start =>
      .map (functionStat_agree h start .regular false) fun _ => .round_take (.inl rfl)
  · exact .bind .head fun start =>
      .map (functionStat_agree h start .regular true) fun _ => .round_take (.inl rfl)
  · apply Agree.bind .next
    intro token
    apply Agree.bind (assignRest_agree h token.span _)
    intro stat
    split
    · exact .done _ (.round rfl)
    · exact .done _ (.round rfl)
  · exact .done _ (.none _)

theorem parentClass_agree (kind : ClassKind) :
    Agree c d k (parentClass kind) (parentClass kind) fun _ => k.pass := by
  apply Agree.bind (.accept .colon)
  intro word
  split
  · apply Agree.ite
    · intro _
      exact .bind (.complain rfl _) fun _ => .give .expectName
    · intro _
      exact .give .expectName
  · exact .give .now

theorem classStat_agree (h : r.Agree c d r') (start : Span) (isExported : Bool) :
    Agree c d k (classStat r start isExported) (classStat r' start isExported)
      fun _ => k.take := by
  apply Agree.bind .next
  intro keyword
  apply Agree.bind .expectName
  intro name
  apply Agree.bind (parentClass_agree _)
  intro parent
  apply Agree.bind (.since name.span)
  intro header
  apply Agree.bind (.expect .lbrace)
  intro _
  apply Agree.bind (.within .classBody name.text (.iterate (moreMembers_agree h name.text)))
  intro members
  apply Agree.bind (.expect .rbrace)
  intro _
  exact .give (.since start)

/-! ## Imports and exports -/

theorem importSource_agree (token : Token) :
    Agree c d k (importSource token) (importSource token) fun _ => k := by
  apply Agree.ite
  · intro _
    exact .still _
  intro _
  apply Agree.ite
  · intro _
    exact .still _
  · intro _
    exact .bind (.complain rfl _) fun _ => .still _

/-- Whatever stands at a place of the list, another place comes after a comma. -/
theorem moreKeys_agree (source : ImportSource) (names : List Param) (read : Array Exp × Bool) :
    Agree c d k (moreKeys source names read) (moreKeys source names read) Headway.ofRound := by
  have onward (values : Array Exp) : Agree c d k.pass
      (do
        if ← accepts .comma then return .yield (values, false) else return .done (values, false))
      (do
        if ← accepts .comma then return .yield (values, false) else return .done (values, false))
      Headway.ofRound :=
    .ifAccepts (by decide) (.done _ (.round rfl)) (.done _ (.none _))
  obtain ⟨values, isFirst⟩ := read
  apply Agree.bind (.accept .identifier)
  intro word
  split
  · exact .bind (.still _) onward
  · apply Agree.ite
    · intro _
      exact .bind .now fun span => .bind (.still _) onward
    · intro _
      exact .bind (.still _) onward

theorem importKeys_agree (source : ImportSource) (names : List Param) (start : Span) :
    Agree c d k (importKeys source names start) (importKeys source names start)
      fun _ => k.pass := by
  apply Agree.bind (.iterate (moreKeys_agree source names))
  intro read
  apply Agree.bind (.expect .rbrace)
  intro _
  apply Agree.ite
  · intro _
    apply Agree.bind (.since start)
    intro span
    exact .stop _ _ _ _ _
  · intro _
    exact .still _

theorem importStat_agree : Agree c d k importStat importStat fun _ => k.take := by
  apply Agree.bind .next
  intro keyword
  apply Agree.bind .asked
  intro kind
  apply Agree.ite
  · intro _
    exact .give .next
  intro _
  apply Agree.bind .head
  intro start
  apply Agree.bind attrNames_agree
  intro names
  apply Agree.bind (.expect .kwFrom)
  intro word
  apply Agree.bind .next
  intro token
  apply Agree.bind (importSource_agree token)
  intro source
  apply Agree.bind (.accepts .lbrace)
  intro _
  apply Agree.ite
  · intro _
    exact .bind (importKeys_agree source _ start) fun values => .give (.since _)
  · intro _
    exact .bind (.still _) fun values => .give (.since _)

theorem exportStat_agree (h : r.Agree c d r') :
    Agree c d k (exportStat r) (exportStat r') fun _ => k.take := by
  apply Agree.bind .next
  intro keyword
  apply Agree.bind .asked
  intro kind
  split
  · exact .bind .next fun _ => .give (.since keyword.span)
  · exact .give (functionStat_agree h keyword.span .exported false)
  · exact classStat_agree h keyword.span true
  · exact classStat_agree h keyword.span true
  · exact .give (assignOrCall_agree h)

theorem moocStat_agree (h : r.Agree c d r') :
    Agree c d k (moocStat r) (moocStat r') fun _ => k.take := by
  have function (isStatic : Bool) : Agree c d k
      (do return Stat.assign (← functionStat r (← head) .regular isStatic))
      (do return Stat.assign (← functionStat r' (← head) .regular isStatic)) fun _ => k.take :=
    .bind .head fun start => .give (functionStat_agree h start .regular isStatic)
  apply Agree.bind .asked
  intro kind
  split
  · exact skipToken_agree
  · exact skipToken_agree
  · exact breakStat_agree
  · exact continueStat_agree
  · exact labelStat_agree
  · exact gotoStat_agree
  · exact doStat_agree h
  · exact deferStat_agree h
  · exact whileStat_agree h
  · exact repeatStat_agree h
  · exact ifStat_agree h
  · exact guardStat_agree h
  · exact switchStat_agree h
  · exact forStat_agree h
  · exact function false
  · exact function true
  · apply Agree.bind .next
    intro keyword
    apply Agree.bind .asked
    intro kind
    split
    · exact classStat_agree h keyword.span false
    · exact classStat_agree h keyword.span false
    · exact localFunction_agree h keyword.span
    · exact localDecl_agree h keyword.span
  · exact .bind .head fun start => classStat_agree h start false
  · exact .bind .head fun start => classStat_agree h start false
  · exact .bind .head fun start => classStat_agree h start false
  · exact importStat_agree
  · exact exportStat_agree h
  · exact assignOrCall_agree h

/-! ## Blocks -/

theorem stat_agree (h : r.Agree c d r') :
    Agree c d k (stat r) (stat r') fun _ => k.take :=
  .bind .isMooc fun _ => .ite (fun _ => moocStat_agree h) fun _ => luaStat_agree h

/-- The end of input ends every block. -/
theorem endsBlock_eof (d : Dialect) : endsBlock d .eof = true := by cases d <;> rfl

theorem atBlockEnd_agree : Agree c d k atBlockEnd atBlockEnd
    fun ended => if ended then k else { k with more := true } := by
  apply Agree.bind (.ask _)
  intro dialect
  apply Agree.map .peek
  intro kind
  by_cases eof : kind = .eof
  · rw [eof, endsBlock_eof]
    exact .facing k .eof
  · have more : (k.facing kind).more = true := by simp [Headway.facing, eof]
    split
    · exact ⟨fun _ => more, id⟩
    · exact ⟨fun _ => more, id⟩

theorem moreStats_agree (h : r.Agree c d r') (stats : Array Stat) :
    Agree c d k (moreStats r stats) (moreStats r' stats) Headway.ofRound := by
  apply Agree.bind atBlockEnd_agree
  intro ended
  cases ended with
  | true => exact .done _ (.none _)
  | false => exact .map (h.stat _) fun _ => .round_take (.inl rfl)

theorem returnStat_agree (h : r.Agree c d r') :
    Agree c d k (returnStat r) (returnStat r') fun _ => k.pass := by
  have values : Agree c d k.take
      (do let exps ← expList r; let _ ← accepts .semi; return some exps)
      (do let exps ← expList r'; let _ ← accepts .semi; return some exps) fun _ => k.take :=
    .bind (expList_agree h) fun _ => .give (.accepts .semi)
  apply Agree.bind .asked
  intro kind
  apply Agree.ite
  · intro _
    exact .done _ (.pass k)
  intro _
  apply Agree.bind (.onScopes _)
  intro _
  apply Agree.drop
  apply Agree.bind .next
  intro _
  apply Agree.bind (atBlockEnd_agree.mono (l := fun _ => k.take) ?_)
  · intro _
    apply Agree.ite
    · intro _
      exact .still _
    intro _
    apply Agree.bind (.accepts .semi)
    intro _
    exact .ite (fun _ => .still _) fun _ => values
  · intro ended
    cases ended with
    | true => exact ⟨id, id⟩
    | false => exact ⟨nofun, id⟩

theorem pendingLabel_agree : Agree c d k pendingLabel pendingLabel fun _ => k := by
  apply Agree.bind .scopes
  intro scopes
  exact .ite (fun _ => .give .now) fun _ => .still _

theorem block_agree (h : r.Agree c d r') :
    Agree c d k (block r) (block r') fun _ => k.pass := by
  apply Agree.bind .head
  intro head
  apply Agree.bind .now
  intro before
  apply Agree.bind (.iterate (moreStats_agree h))
  intro stats
  apply Agree.bind pendingLabel_agree
  intro label
  apply Agree.bind (returnStat_agree h)
  intro returns
  exact .give .now

end LuaChunk.Parser
