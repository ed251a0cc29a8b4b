import LuaChunk.Proofs.Spelling.Chunk
import LuaChunk.Proofs.Views.Statement

/-!
# Chunks that are looked at

The statements that only Mooc has, and the blocks of both dialects.  With them every rule of every
level commutes with a view, and so does the reading of a chunk.
-/

set_option autoImplicit false

namespace LuaChunk

namespace Parser

variable {v : View} {r : Rules}

/-! ## Transfer of control -/

theorem continueStat_commutes : Commutes v continueStat continueStat v.stat := by
  refine .bind .next fun token => .andThen .scopes fun scopes => .andThen .insideLoop fun _ => .ite
    (fun _ => ?_) fun _ => .andThen (.complain _ _) fun _ => .pure (by simp)
  exact .andThen (.onScopes _) fun _ => .pure (by simp)

theorem deferStat_commutes (h : r.Commutes v) : Commutes v (deferStat r) (deferStat r) v.stat := by
  have rest (keyword : Token) : Commutes v
      (do
        let body ← within .function "defer" r.block
        closeBody
        return Stat.doBlock .deferred body (← since keyword.span))
      (do
        let body ← within .function "defer" r.block
        closeBody
        return Stat.doBlock .deferred body (← since (v.place keyword.span))) v.stat :=
    .bind (.within _ _ h.block) fun _ => .andThen closeBody_commutes fun _ =>
      .map (.since keyword.span) fun _ => by simp
  exact .bind .next fun keyword => .bind (.expect _) fun _ => .andThen .scopes fun _ => .ite
    (fun _ => .andThen (.complain _ _) fun _ => rest keyword) fun _ => rest keyword

@[simp]
theorem leaves_seen (b : Block) : leaves (v.block b) = leaves b := by
  obtain ⟨stats, returns, span⟩ := b
  simp only [View.block, Block.recast_mk, leaves, List.getLast?_map, Option.isSome_map]
  cases stats.getLast? with
  | none => rfl
  | some last => cases last <;> simp

theorem guardBody_commutes (h : r.Commutes v) :
    Commutes v (guardBody r) (guardBody r) v.block := by
  refine .bind h.block fun body => .andThen .scopes fun scopes => ?_
  rw [leaves_seen]
  exact .ite (fun _ => .bind .now fun _ => .andThen (.complain _ _) fun _ => .pure rfl)
    fun _ => .pure rfl

theorem guardStat_commutes (h : r.Commutes v) : Commutes v (guardStat r) (guardStat r) v.stat :=
  .bind .next fun keyword => .bind (exp_commutes h) fun condition =>
    .bind (.since keyword.span) fun _ => .bind (.expect _) fun _ => .bind (.expect _) fun _ =>
    .bind (.within _ _ (guardBody_commutes h)) fun _ => .bind (.expect _) fun _ =>
    .map (.since keyword.span) fun _ => by simp [Exp.negate]

/-! ## Switch -/

/-- The values are compared in the same order. -/
theorem switchCase?_seen (values : List Exp) :
    Exp.switchCase? (values.map v.exp) = (Exp.switchCase? values).map v.exp := by
  cases values with
  | nil => rfl
  | cons value rest =>
    have asked (value : Exp) :
        Exp.binary .eq (.name switchSubject (v.exp value).span) (v.exp value) (v.exp value).span =
          v.exp (.binary .eq (.name switchSubject value.span) value value.span) := by
      simp
    simp only [Exp.switchCase?, List.map_cons, Option.map_some, List.foldl_map, asked]
    refine congrArg some (List.foldl_hom v.exp fun chain value => ?_)
    rw [Exp.span_recast, Exp.span_recast, ← v.place_merge]
    rfl

theorem caseBody_commutes (h : r.Commutes v) : Commutes v (caseBody r) (caseBody r) v.block :=
  .bind (.expect _) fun _ => .within _ _ h.block

theorem moreCases_commutes (h : r.Commutes v) (cases : Array Branch) :
    Commutes v (moreCases r cases) (moreCases r (cases.map v.branch))
      (onRound (Array.map v.branch)) := by
  refine .bind (.accept _) fun word => ?_
  cases word with
  | some token =>
    refine .bind (expList_commutes h) fun values => .map (caseBody_commutes h) fun body => ?_
    rw [switchCase?_seen]
    cases Exp.switchCase? values <;> simp
  | none => exact .pure rfl

theorem defaultCase_commutes (h : r.Commutes v) :
    Commutes v (defaultCase r) (defaultCase r) (List.map v.branch) := by
  refine .bind (.accept _) fun word => ?_
  cases word with
  | some token => exact .map (caseBody_commutes h) fun _ => by simp
  | none => exact .pure rfl

theorem switchStat_commutes (h : r.Commutes v) : Commutes v (switchStat r) (switchStat r) v.stat :=
  .bind .next fun keyword => .bind (exp_commutes h) fun value => .bind (.since keyword.span)
    fun _ => .bind (.expect _) fun opening => .bind
    (.iterate (F := Array.map v.branch) (by simp) (moreCases_commutes h)) fun _ =>
    .bind (defaultCase_commutes h) fun _ => .bind (.expect _) fun _ => .bind (.since opening.span)
    fun _ => .map (.since keyword.span) fun _ => by simp [Param.recast]

/-! ## Classes -/

theorem moreMembers_commutes (h : r.Commutes v) (owner : String) (members : Array Assignment) :
    Commutes v (moreMembers r owner members) (moreMembers r owner (members.map v.assignment))
      (onRound (Array.map v.assignment)) := by
  refine .andThen .peek fun kind => ?_
  split
  · exact .bind .head fun start => .map (functionStat_commutes h start _ _) fun _ => by simp
  · exact .bind .head fun start => .map (functionStat_commutes h start _ _) fun _ => by simp
  · refine .bind .next fun token => ?_
    have target : (Exp.name owner (v.token token).span).field (v.token token).text
        (v.token token).span = v.exp ((Exp.name owner token.span).field token.text token.span) := by
      simp
    rw [target]
    refine .bind (assignRest_commutes h token.span _) fun s => ?_
    cases s with
    | assign assignment => exact .pure (by simp)
    | _ => exact .pure rfl
  · exact .pure rfl

theorem parentClass_commutes (kind : ClassKind) :
    Commutes v (parentClass kind) (parentClass kind) v.exp := by
  have parent : Commutes v (do let name ← expectName; return Exp.name name.text name.span)
      (do let name ← expectName; return Exp.name name.text name.span) v.exp :=
    .map .expectName fun _ => by simp
  refine .bind (.accept _) fun colon => ?_
  cases colon with
  | some token =>
    exact .ite (fun _ => .andThen (.complain _ _) fun _ => parent) fun _ => parent
  | none => exact .map .now fun _ => by simp

theorem classLocal_seen (name : String) (value : Exp) (place header : Span) :
    classLocal name (v.exp value) (v.place place) (v.place header) =
      (classLocal name value place header).recast v.place v.cap := by
  simp [classLocal, Param.recast]

theorem classStat_commutes (h : r.Commutes v) (start : Span) (isExported : Bool) :
    Commutes v (classStat r start isExported) (classStat r (v.place start) isExported) v.stat := by
  refine .bind .next fun keyword => .bind .expectName fun name =>
    .bind (parentClass_commutes _) fun parent => .bind (.since name.span) fun header =>
    .bind (.expect _) fun _ => .bind (.within _ _ (.iterate (F := Array.map v.assignment) (by simp)
      (moreMembers_commutes h name.text))) fun _ => .bind (.expect _) fun _ =>
    .map (.since start) fun _ => ?_
  have empty {α : Type} : capped v.cap ([] : List α) = [] := by
    cases v.cap <;> simp [capped]
  by_cases asked : isExported = true ∨ ClassKind.ofToken keyword.kind = .extension <;>
    simp [← classLocal_seen, empty, asked]

/-! ## Imports and exports -/

theorem importSource_commutes (token : Token) :
    Commutes v (importSource token) (importSource (v.token token)) id :=
  .ite (fun _ => .still _) fun _ => .ite (fun _ => .still _) fun _ =>
    .andThen (.complain _ _) fun _ => .still _

@[simp]
theorem require_seen (library : String) (callee argument : Span) :
    (Call.require library callee argument).recast v.place v.cap =
      .require library (v.place callee) (v.place argument) := by
  simp [Call.require]

theorem member_seen (source : ImportSource) (key : String) (span : Span) :
    source.member key (v.place span) = v.exp (source.member key span) := by
  cases source <;> simp [ImportSource.member]

theorem importWhole_seen (source : ImportSource) (word token : Token) :
    importWhole source (v.token word) (v.token token) = v.exp (importWhole source word token) := by
  cases source <;> simp [importWhole]

theorem moreKeys_commutes (source : ImportSource) (names : List Param) (read : Array Exp × Bool) :
    Commutes v (moreKeys source names read)
      (moreKeys source (names.map v.param) (Prod.map (Array.map v.exp) id read))
      (onRound (Prod.map (Array.map v.exp) id)) := by
  obtain ⟨values, isFirst⟩ := read
  have rest (values : Array Exp) : Commutes v
      (do if ← accepts .comma then return .yield (values, false) else return .done (values, false))
      (do
        if ← accepts .comma then return .yield (values.map v.exp, false)
        else return .done (values.map v.exp, false))
      (onRound (Prod.map (Array.map v.exp) id)) :=
    .andThen (.accepts _) fun _ => .ite (fun _ => .pure rfl) fun _ => .pure rfl
  refine .bind (.accept _) fun key => ?_
  cases key with
  | some key =>
    refine .bind (F := Array.map v.exp) (.pure ?_) rest
    simp [member_seen]
  | none =>
    refine .ite (fun _ => .bind .now fun span => .bind (F := Array.map v.exp) (.pure ?_) rest)
      fun _ => .bind (F := Array.map v.exp) (.pure rfl) rest
    refine Array.toList_inj.1 ?_
    simp [Param.recast, member_seen]

theorem importKeys_commutes (source : ImportSource) (names : List Param) (start : Span) :
    Commutes v (importKeys source names start)
      (importKeys source (names.map v.param) (v.place start)) (List.map v.exp) := by
  refine .bind (.iterate (F := Prod.map (Array.map v.exp) id) (by simp)
    (moreKeys_commutes source names)) fun read => .bind (.expect _) fun _ => ?_
  obtain ⟨values, isFirst⟩ := read
  simp only [Array.size_map, List.length_map, Array.toList_map]
  exact .ite (fun _ => .bind (.since start) fun _ => .andThen (.complain _ _) fun _ =>
    .andThen (.throw _) fun _ => .pure rfl) fun _ => .pure rfl

theorem importStat_commutes : Commutes v importStat importStat v.stat := by
  refine .bind .next fun keyword => .andThen .peek fun _ => .ite
    (fun _ => .map .next fun _ => by simp) fun _ => .bind .head fun start =>
    .bind attrNames_commutes fun (names, attrs) => .bind (.expect _) fun word => .bind .next
    fun token => .andThen (importSource_commutes token) fun source =>
    .andThen (.accepts _) fun _ => .ite (fun _ => ?_) fun _ => ?_
  · exact .bind (importKeys_commutes source names start) fun _ => .map (.since start)
      fun _ => by simp
  · exact .bind (F := List.map v.exp) (.pure (by simp [importWhole_seen])) fun _ =>
      .map (.since start) fun _ => by simp

theorem exported_seen (s : Stat) : exported (v.stat s) = v.stat (exported s) := by
  cases s with
  | assign assignment =>
    cases assignment
    rfl
  | _ => rfl

theorem exportStat_commutes (h : r.Commutes v) :
    Commutes v (exportStat r) (exportStat r) v.stat := by
  refine .bind .next fun keyword => .andThen .peek fun kind => ?_
  split
  · exact .bind .next fun _ => .map (.since keyword.span) fun _ => by simp
  · exact assignFunction_commutes h keyword.span _ _
  · exact classStat_commutes h keyword.span _
  · exact classStat_commutes h keyword.span _
  · exact .map (assignOrCall_commutes h) exported_seen

theorem moocStat_commutes (h : r.Commutes v) : Commutes v (moocStat r) (moocStat r) v.stat := by
  refine .andThen .peek fun kind => ?_
  split
  · exact skipToken_commutes
  · exact skipToken_commutes
  · exact breakStat_commutes
  · exact continueStat_commutes
  · exact labelStat_commutes
  · exact gotoStat_commutes
  · exact doStat_commutes h
  · exact deferStat_commutes h
  · exact whileStat_commutes h
  · exact repeatStat_commutes h
  · exact ifStat_commutes h
  · exact guardStat_commutes h
  · exact switchStat_commutes h
  · exact forStat_commutes h
  · exact .bind .head fun start => assignFunction_commutes h start _ _
  · exact .bind .head fun start => assignFunction_commutes h start _ _
  · refine .bind .next fun keyword => .andThen .peek fun kind => ?_
    split
    · exact classStat_commutes h keyword.span _
    · exact classStat_commutes h keyword.span _
    · exact localFunction_commutes h keyword.span
    · exact localDecl_commutes h keyword.span
  · exact .bind .head fun start => classStat_commutes h start _
  · exact .bind .head fun start => classStat_commutes h start _
  · exact .bind .head fun start => classStat_commutes h start _
  · exact importStat_commutes
  · exact exportStat_commutes h
  · exact assignOrCall_commutes h

/-! ## Blocks -/

theorem atBlockEnd_commutes : Commutes v atBlockEnd atBlockEnd id :=
  .andThen .dialect fun _ => .map .peek fun _ => rfl

theorem moreStats_commutes (h : r.Commutes v) (stats : Array Stat) :
    Commutes v (moreStats r stats) (moreStats r (stats.map v.stat)) (onRound (Array.map v.stat)) :=
  .andThen atBlockEnd_commutes fun _ => .ite (fun _ => .pure rfl) fun _ =>
    .map h.stat fun s => by cases empty : s.isEmpty <;> simp [empty]

theorem pendingLabel_commutes :
    Commutes v pendingLabel pendingLabel (List.map v.stat) :=
  .andThen .scopes fun _ => .ite (fun _ => .map .now fun _ => by simp) fun _ => .pure rfl

theorem returnStat_commutes (h : r.Commutes v) :
    Commutes v (returnStat r) (returnStat r) (Option.map (List.map v.exp)) :=
  .andThen .peek fun _ => .ite (fun _ => .pure rfl) fun _ => .andThen (.onScopes _) fun _ =>
    .bind .next fun _ => .andThen atBlockEnd_commutes fun _ => .ite (fun _ => .pure rfl) fun _ =>
    .andThen (.accepts _) fun _ => .ite (fun _ => .pure rfl) fun _ =>
    .bind (expList_commutes h) fun _ => .andThen (.accepts _) fun _ => .pure rfl

theorem block_commutes (h : r.Commutes v) : Commutes v (block r) (block r) v.block :=
  .bind .head fun head => .bind .now fun before => .bind
    (.iterate (F := Array.map v.stat) (by simp) (moreStats_commutes h)) fun _ =>
    .bind pendingLabel_commutes fun _ => .bind (returnStat_commutes h) fun _ => .map .now
    fun after => by simp [v.place_block head before after]

theorem stat_commutes (h : r.Commutes v) : Commutes v (stat r) (stat r) v.stat :=
  .isMooc <| .ite (fun _ => moocStat_commutes h) fun _ => luaStat_commutes h

end Parser

/-! ## Levels -/

variable {v : View}

theorem Rules.exhausted_commutes : Rules.exhausted.Commutes v where
  block := .tooDeep
  stat := .tooDeep
  operation _ := .tooDeep
  functionBody _ := .tooDeep
  table := .tooDeep
  parenthesised := .tooDeep

theorem Rules.level_commutes (n : Nat) : (Rules.level n).Commutes v := by
  induction n with
  | zero => exact exhausted_commutes
  | succ n inductionHypothesis => exact {
      block := .nested (Parser.block_commutes inductionHypothesis)
      stat := .nested (Parser.stat_commutes inductionHypothesis)
      operation := fun limit => .nested (Parser.operation_commutes inductionHypothesis limit)
      functionBody := fun style =>
        .nested (Parser.functionBody_commutes inductionHypothesis style)
      table := .nested (Parser.table_commutes inductionHypothesis)
      parenthesised := .nested (Parser.exp_commutes inductionHypothesis) }

/-! ## Analyses -/

namespace Session

theorem chunk_commutes (n : Nat) :
    Parser.Commutes v (chunk (.level n)) (chunk (.level n)) v.block :=
  .bind (Rules.level_commutes n).block fun _ => .bind (.expect _) fun _ => .pure rfl

/-- The block that an analysis gives, and the session after it. -/
def answer : EStateM.Result Abort Session Block → Block × Session
  | .ok block s => (block, s)
  | .error _ s => (.empty, s)

/-- How the chunk of a fresh session is read. -/
def run (source : List UInt8) (name : String) (settings : Settings) :
    EStateM.Result Abort Session Block :=
  chunk (.level settings.maxNesting) (opened source name settings)

variable (source : List UInt8) (name : String) (settings : Settings)

theorem analyze_run : (start source name settings).analyze.1 =
    { block := (answer (run source name settings)).1
      comments := (answer (run source name settings)).2.tokens.comments
      errors := (answer (run source name settings)).2.errors } := by
  rw [analyze_start, ← run]
  cases run source name settings <;> rfl

end Session

namespace View

variable {r r' : EStateM.Result Abort Session Block}

theorem Shows.block (shows : v.Shows v.block r r') :
    (Session.answer r').1 = v.block (Session.answer r).1 := by
  cases shows with
  | ok => rfl
  | error => simp [Session.answer, Block.empty]

theorem Shows.session (shows : v.Shows v.block r r') :
    (Session.answer r').2 = v.session (Session.answer r).2 := by
  cases shows <;> rfl

theorem errors_session (s : Session) : (v.session s).errors = s.errors.map v.diagnostic :=
  Array.toList_map ..

theorem message_diagnostic (d : Diagnostic) : (v.diagnostic d).message = d.message := rfl

end View

end LuaChunk
