import LuaChunk.Proofs.Spelling.Assignment

/-!
# Statements of both dialects are spelled by the tokens taken
-/

set_option autoImplicit false

namespace LuaChunk.Parser

variable {c : Text} {r : Rules}

/-! ## Bodies -/

theorem isMooc_ite {α : Type} {mooc : Bool} (h : mooc = true ↔ c.dialect = .mooc) (a b : α) :
    (if mooc = true then a else b) = if c.dialect = .mooc then a else b := by
  by_cases dialect : c.dialect = .mooc
  · rw [if_pos dialect, if_pos (h.2 dialect)]
  · rw [if_neg dialect, if_neg (mt h.1 dialect)]

theorem openBody_reads (word : TokenKind) :
    Reads c (openBody word) fun i _ o => ∃ t, Takes (c.dialect.opening word) i t o := by
  refine Reads.mono (isMooc_reads.bind fun mooc => (expect_reads _).bind fun _ => .pure _) ?_
  rintro i _ o ⟨mooc, _, ⟨dialect, rfl⟩, t, _, taken, _, rfl⟩
  rw [isMooc_ite dialect] at taken
  exact ⟨t, taken⟩

theorem closeBody_reads :
    Reads c closeBody fun i _ o => ∃ t, Takes c.dialect.closing i t o := by
  refine Reads.mono (isMooc_reads.bind fun mooc => (expect_reads _).bind fun _ => .pure _) ?_
  rintro i _ o ⟨mooc, _, ⟨dialect, rfl⟩, t, _, taken, _, rfl⟩
  rw [isMooc_ite dialect] at taken
  exact ⟨t, taken⟩

theorem brace_reads (kind : TokenKind) :
    Reads c (brace kind) fun i _ o => TakesIf (c.dialect = .mooc) kind i o := by
  refine Reads.mono (isMooc_reads.bind fun mooc => .ite (P := mooc = true)
    (fun _ => (expect_reads kind).bind fun _ => .pure _) fun _ => .pure _) ?_
  unfold TakesIf
  rintro i _ o ⟨mooc, _, ⟨dialect, rfl⟩, ⟨isMooc, t, _, taken, _, rfl⟩ | ⟨other, _, rfl⟩⟩
  · rw [if_pos (dialect.1 isMooc)]
    exact ⟨t, taken⟩
  · rw [if_neg (mt dialect.2 other)]

theorem block_within_reads (h : r.Reads c) (kind : ScopeKind) (name : String)
    (plain : kind ≠ .classBody) :
    Reads c (within kind name r.block) fun i b o => Spells i (.block b) o :=
  h.block.within kind name fun same => absurd same plain

theorem loopBody_reads (h : r.Reads c) (name : String) :
    Reads c (loopBody r name) fun i b o => Spells i (.loopBody b) o := by
  refine Reads.mono ((openBody_reads .kwDo).bind fun _ =>
    (block_within_reads h .loop name nofun).bind fun _ => closeBody_reads.bind fun _ => .pure _) ?_
  rintro i b o ⟨_, j, ⟨t, opening⟩, b, k, spelled, _, _, ⟨u, closing⟩, rfl, rfl⟩
  exact .loopBody opening spelled closing

/-! ## Simple statements -/

theorem breakStat_reads :
    Reads c breakStat fun i s o => i.head.kind = .kwBreak → Spells i (.stat s) o := by
  refine Reads.mono (next_reads.bind fun _ => insideLoop_reads.bind fun inside => .ite
    (P := (!inside) = true) (fun _ => complain_bind_reads (.pure _)) fun _ => .pure _) ?_
  rintro i s o ⟨t, _, taken, _, _, rfl, ⟨_, ⟨⟩⟩ | ⟨_, rfl, rfl⟩⟩ kind
  exact .breakStat (taken.of_kind kind)

theorem labelStat_reads :
    Reads c labelStat fun i s o => i.head.kind = .doubleColon → Spells i (.stat s) o := by
  refine Reads.mono (next_reads.bind fun _ => expectName_reads.bind fun _ =>
    (expect_reads .doubleColon).bind fun _ => (since_reads _).map _) ?_
  rintro i s o ⟨t, j, opening, n, k, name, u, _, closing, _, rfl, rfl, rfl⟩ kind
  exact .label (opening.of_kind kind) name closing

theorem gotoStat_reads :
    Reads c gotoStat fun i s o => i.head.kind = .kwGoto → Spells i (.stat s) o := by
  refine Reads.mono (next_reads.bind fun _ => expectName_reads.bind fun _ => .pure _) ?_
  rintro i s o ⟨t, j, word, n, _, name, rfl, rfl⟩ kind
  exact .goto (word.of_kind kind) name

/-! ## Compound statements -/

theorem doStat_reads (h : r.Reads c) :
    Reads c (doStat r) fun i s o => i.head.kind = .kwDo → Spells i (.stat s) o := by
  refine Reads.mono (next_reads.bind fun _ => (brace_reads .lbrace).bind fun _ =>
    (block_within_reads h .doBlock "do" nofun).bind fun _ => closeBody_reads.bind fun _ =>
    (since_reads _).map _) ?_
  rintro i s o ⟨t, j, word, _, k, opening, b, l, spelled, _, m, ⟨u, closing⟩, _, rfl, rfl, rfl⟩ kind
  exact .doStat (word.of_kind kind) opening spelled closing

theorem whileStat_reads (h : r.Reads c) :
    Reads c (whileStat r) fun i s o => i.head.kind = .kwWhile → Spells i (.stat s) o := by
  refine Reads.mono (next_reads.bind fun _ => h.exp.bind fun _ =>
    (loopBody_reads h "while").bind fun _ => (since_reads _).map _) ?_
  rintro i s o ⟨t, j, word, e, k, condition, b, _, body, _, rfl, rfl, rfl⟩ kind
  exact .whileStat (word.of_kind kind) condition body

theorem repeatStat_reads (h : r.Reads c) :
    Reads c (repeatStat r) fun i s o => i.head.kind = .kwRepeat → Spells i (.stat s) o := by
  refine Reads.mono (next_reads.bind fun _ => (brace_reads .lbrace).bind fun _ =>
    (block_within_reads h .loop "repeat" nofun).bind fun _ => (brace_reads .rbrace).bind fun _ =>
    (expect_reads .kwUntil).bind fun _ => h.exp.bind fun _ => (since_reads _).map _) ?_
  rintro i s o ⟨t, j, word, _, k, opening, b, l, spelled, _, m, closing, u, n, last, e, _,
    condition, _, rfl, rfl, rfl⟩ kind
  exact .repeatStat (word.of_kind kind) opening spelled closing last condition

theorem branch_reads (h : r.Reads c) :
    Reads c (branch r) fun i b o => Spells i (.branch b) o := by
  refine Reads.mono (h.exp.bind fun _ => (openBody_reads .kwThen).bind fun _ =>
    (block_within_reads h .branch "if" nofun).bind fun _ => (brace_reads .rbrace).bind fun _ =>
    .pure _) ?_
  rintro i b o ⟨e, j, condition, _, k, ⟨t, opening⟩, b, l, spelled, _, _, closing, rfl, rfl⟩
  exact .branch condition opening spelled closing

theorem moreBranches_reads (h : r.Reads c) (first : Branch) :
    Reads c (iterate #[first] (moreBranches r)) fun j bs o =>
      ∀ i, Spells i (.branch first) j → Spells i (.branches bs.toList) o := by
  have round := chain_reads (fun bs : Array Branch => .branches bs.toList) Array.push .kwElseif
    (by decide) (branch_reads h) Spells.length_le fun spelled word part => by
      simpa using spelled.moreBranches word part
  refine Reads.mono (loop_reads round) ?_
  rintro j bs o extended i spelled
  exact extended i (.oneBranch spelled)

theorem elseBranch_reads (h : r.Reads c) :
    Reads c (elseBranch r) fun i bs o => Spells i (.otherwise bs) o := by
  refine Reads.mono (accept_bind_reads .kwElse (R := fun i bs o => Spells i (.otherwise bs) o)
    (fun t => ?_) (.pure _)) ?_
  · refine Reads.mono ((brace_reads .lbrace).bind fun _ =>
      (block_within_reads h .branch "if" nofun).bind fun _ => (brace_reads .rbrace).bind fun _ =>
      .pure _) ?_
    rintro j bs o ⟨_, k, opening, b, l, spelled, _, _, closing, rfl, rfl⟩ i word
    exact .otherwise word opening spelled closing
  · rintro i bs o (spelled | ⟨_, rfl, rfl⟩)
    · exact spelled
    · exact .noOtherwise

theorem ifStat_reads (h : r.Reads c) :
    Reads c (ifStat r) fun i s o => i.head.kind = .kwIf → Spells i (.stat s) o := by
  refine Reads.mono (next_reads.bind fun _ => (branch_reads h).bind fun _ =>
    (moreBranches_reads h _).bind fun _ => (elseBranch_reads h).bind fun _ =>
    isMooc_reads.bind fun mooc => .ite (P := (!mooc) = true)
      (fun _ => (expect_reads .kwEnd).bind fun _ => (since_reads _).map _)
      fun _ => (since_reads _).map _) ?_
  rintro i s o ⟨t, j, word, first, k, spelled, bs, l, branches, last, m, otherwise, mooc, _,
    ⟨dialect, rfl⟩, way⟩ kind
  have word := word.of_kind kind
  have branches := branches j spelled
  rcases way with ⟨other, u, _, closing, _, rfl, rfl, rfl⟩ | ⟨isMooc, _, rfl, rfl, rfl⟩
  · have lua := not_mooc dialect other
    exact .ifStat word branches otherwise (by rw [TakesIf, if_pos lua]; exact ⟨u, closing⟩)
  · have lua : c.dialect ≠ .lua := by simp [dialect.1 (by simpa using isMooc)]
    exact .ifStat word branches otherwise (by rw [TakesIf, if_neg lua])

/-! ## Loops over ranges and iterators -/

theorem numericFor_reads (h : r.Reads c) (start : Span) (var : Param) :
    Reads c (numericFor r start var) fun k s o => ∀ i t j n, Takes .kwFor i t j →
      Takes .identifier j n k → start = t.span → var = ⟨n.text, n.span⟩ → Spells i (.stat s) o := by
  refine Reads.mono ((expect_reads .assign).bind fun _ => h.exp.bind fun _ =>
    (expect_reads .comma).bind fun _ => h.exp.bind fun _ =>
    accepts_join_reads .comma h.exp (.pure _) fun _ => (loopBody_reads h "for").bind fun _ => (since_reads _).map _) ?_
  rintro k s o ⟨u, l, assign, init, m, first, v, p, comma, limit, q, second, step, x, third, b, _,
    body, _, rfl, rfl, rfl⟩ i t j n word name rfl rfl
  refine .numericFor word name assign first comma second ?_ body
  rcases third with ⟨w, y, comma, spelled⟩ | ⟨_, rfl, rfl⟩
  · exact .step comma spelled
  · exact .noStep

theorem moreVars_reads (first : Param) :
    Reads c (iterate #[first] moreVars) fun j vars o =>
      ∀ i, Spells i (.names [first]) j → Spells i (.names vars.toList) o := by
  have round := chain_reads (c := c) (fun vars : Array Param => .names vars.toList)
    (fun vars n => vars.push ⟨n.text, n.span⟩) .comma (by decide) expectName_reads
    Takes.length_le fun spelled comma name => by simpa using spelled.moreNames comma name
  exact loop_reads round

theorem genericFor_reads (h : r.Reads c) (start : Span) (first : Param) :
    Reads c (genericFor r start first) fun k s o => ∀ i t j, Takes .kwFor i t j →
      Spells j (.names [first]) k → start = t.span → Spells i (.stat s) o := by
  refine Reads.mono ((moreVars_reads first).bind fun _ => (expect_reads .kwIn).bind fun _ =>
    (expList_reads h).bind fun _ => (loopBody_reads h "for").bind fun _ => (since_reads _).map _) ?_
  rintro k s o ⟨vars, l, names, u, m, within, es, p, iterables, b, _, body, _, rfl, rfl, rfl⟩ i t j
    word spelled rfl
  exact .genericFor word (names j spelled) within iterables body

theorem forStat_reads (h : r.Reads c) :
    Reads c (forStat r) fun i s o => i.head.kind = .kwFor → Spells i (.stat s) o := by
  refine Reads.mono (next_reads.bind fun _ => expectName_reads.bind fun _ =>
    peek_reads.bind fun _ => .ite (fun _ => numericFor_reads h _ _) fun _ => genericFor_reads h _ _) ?_
  rintro i s o ⟨t, j, word, n, k, name, _, _, ⟨rfl, rfl⟩, ⟨_, spelled⟩ | ⟨_, spelled⟩⟩ kind
  · exact spelled i t j n (word.of_kind kind) name rfl rfl
  · exact spelled i t j (word.of_kind kind) (.oneName name) rfl

/-! ## Functions -/

theorem dottedName_reads (isStatic : Bool) :
    Reads c dottedName fun i f o => Spells i (.functionName isStatic f) o := by
  have round := chain_reads (c := c) Phrase.dottedName (fun f n => f.member n false) .dot
    (by decide) expectName_reads Takes.length_le fun spelled dot name => spelled.dottedName dot name
  refine Reads.mono (expectName_reads.bind fun _ => (loop_reads round).bind fun _ =>
    accepts_bind_reads .colon (expectName_reads.map _) (.pure _)) ?_
  rintro i f o ⟨n, j, first, g, k, extended, ⟨t, l, colon, m, rfl, name⟩ | ⟨_, rfl, rfl⟩⟩
  · exact .methodName (extended i (.firstName first)) colon name
  · exact .plainName (extended i (.firstName first))

theorem functionName_reads (isStatic : Bool) :
    Reads c (functionName isStatic) fun i f o => Spells i (.functionName isStatic f) o := by
  refine Reads.mono (isMooc_reads.bind fun mooc => ownedScopes_reads.bind (T := fun scopes i f o =>
    (mooc = true → c.dialect = .mooc) → scopes.Owned c.Names →
      Spells i (.functionName isStatic f) o) fun scopes => ?_) ?_
  · split
    next current =>
      refine Reads.mono (expectName_reads.bind fun _ => .pure _) ?_
      rintro i f o ⟨n, _, name, rfl, rfl⟩ dialect owned
      exact .memberName (dialect rfl) name (owned.currentClass current)
    · exact (dottedName_reads isStatic).mono fun _ _ _ spelled _ _ => spelled
  · rintro i f o ⟨mooc, _, ⟨dialect, rfl⟩, scopes, _, ⟨owned, rfl⟩, related⟩
    exact related dialect.1 owned

theorem functionStyle_reads : Reads c functionStyle fun i style o =>
    style = (c.dialect.functionWord, c.dialect.functionStyle) ∧ o = i := by
  refine Reads.mono (isMooc_reads.bind fun mooc => .ite (P := mooc = true) (fun _ => .pure _)
    fun _ => .pure _) ?_
  unfold Dialect.functionWord Dialect.functionStyle
  rintro i style o ⟨mooc, _, ⟨dialect, rfl⟩, ⟨isMooc, rfl, rfl⟩ | ⟨other, rfl, rfl⟩⟩
  · simp [dialect.1 isMooc]
  · simp [mt dialect.2 other]

section FunctionStat

variable {P : ScopeStack → Prop} {N : Place c → FunctionName → Place c → Prop} {isStatic : Bool}

/-- A function statement from its keyword on, where names are read in some way. -/
theorem functionRest_readsIn (lasts : Lasts P) (h : r.Reads c)
    (named : ReadsIn P c (functionName isStatic) N) (start : Span) (attr : Attribute) :
    ReadsIn P c (do
      let (keyword, style) ← functionStyle
      let keyword ← expect keyword
      let name ← functionName isStatic
      let self : Param := ⟨"self", ← now⟩
      let body ← r.functionBody style
      let body : FunctionBody :=
        { body with
          params := if name.isMethod then self :: body.params else body.params
          isMethod := name.isMethod
          owner := name.owner
          name := some name.name }
      return {
        targets := [name.target]
        values := [.function body (← since keyword.span)]
        attr
        span := ← since start }) fun j a o => ∃ t k f l, Takes c.dialect.functionWord j t k ∧
      N k f l ∧ a.targets = [f.target] ∧ ∀ i, TakesIf (isStatic = true) .kwStatic i j →
        Spells k (.functionName isStatic f) l → Spells i (.functionStat start attr isStatic a) o := by
  refine .mono (.bind lasts (.of functionStyle_reads) fun style => .bind lasts
    (.of (expect_reads style.1)) fun keyword => .bind lasts named fun name => .of
    (now_reads.bind fun _ => (h.functionBody style.2).bind fun _ => (since_reads keyword.span).bind
    fun _ => (since_reads start).bind fun _ => .pure _)) ?_
  rintro j a o ⟨_, _, ⟨rfl, rfl⟩, t, k, word, f, _, name, _, _, ⟨rfl, rfl⟩, body, m, spelled, _, _,
    ⟨rfl, rfl⟩, _, _, ⟨rfl, rfl⟩, rfl, rfl⟩
  exact ⟨t, k, f, _, word, name, rfl, fun i opening name => .functionStat opening word name spelled⟩

theorem functionStat_readsIn (lasts : Lasts P) (h : r.Reads c)
    (named : ReadsIn P c (functionName isStatic) N) (start : Span) (attr : Attribute) :
    ReadsIn P c (functionStat r start attr isStatic) fun i a o =>
      (isStatic = true → i.head.kind = .kwStatic) → ∃ j t k f l,
        TakesIf (isStatic = true) .kwStatic i j ∧ Takes c.dialect.functionWord j t k ∧ N k f l ∧
        a.targets = [f.target] ∧ (Spells k (.functionName isStatic f) l →
          Spells i (.functionStat start attr isStatic a) o) := by
  have rest := functionRest_readsIn lasts h named start attr
  cases isStatic with
  | true =>
    refine .mono (.bind lasts (.of next_reads) fun _ => rest) ?_
    rintro i a o ⟨s, j, static, t, k, f, l, word, name, target, spelled⟩ kind
    have opening : TakesIf (true = true) .kwStatic i j := ⟨s, static.of_kind (kind rfl)⟩
    exact ⟨j, t, k, f, l, opening, word, name, target, spelled i opening⟩
  | false =>
    refine .mono rest ?_
    rintro i a o ⟨t, k, f, l, word, name, target, spelled⟩ -
    have opening : TakesIf (false = true) .kwStatic i i := rfl
    exact ⟨i, t, k, f, l, opening, word, name, target, spelled i opening⟩

end FunctionStat

theorem functionStat_reads (h : r.Reads c) (start : Span) (attr : Attribute) (isStatic : Bool) :
    Reads c (functionStat r start attr isStatic) fun i a o =>
      (isStatic = true → i.head.kind = .kwStatic) →
        Spells i (.functionStat start attr isStatic a) o := by
  have named := functionStat_readsIn (P := fun _ => True) (fun _ _ _ _ => trivial) h
    (.of (functionName_reads isStatic)) start attr
  refine named.reads.mono ?_
  intro i a o related kind
  obtain ⟨_, _, _, _, _, -, -, name, -, spelled⟩ := related kind
  exact spelled name

theorem localFunction_reads (h : r.Reads c) (start : Span) :
    Reads c (localFunction r start) fun j s o => ∀ i t, Takes .kwLocal i t j → start = t.span →
      j.head.kind = c.dialect.functionWord → Spells i (.stat s) o := by
  refine Reads.mono (functionStyle_reads.bind fun style => next_reads.bind fun _ =>
    expectName_reads.bind fun _ => (h.functionBody style.2).bind fun _ => (since_reads _).map _) ?_
  rintro j s o ⟨_, _, ⟨rfl, rfl⟩, u, k, word, n, l, name, body, _, spelled, _, rfl, rfl, rfl⟩ i t
    keyword rfl kind
  exact .localFunction keyword (word.of_kind kind) name spelled

/-- What is skipped without a complaint is no stray byte. -/
theorem skipToken_reads : Reads c skipToken fun i s o =>
    (i.head.kind = .semi → Spells i (.stat s) o) ∧ i.head.kind ≠ .illegal := by
  refine Reads.mono (next_reads.bind fun _ => .pure _) ?_
  rintro i s o ⟨t, _, taken, rfl, rfl⟩
  exact ⟨fun kind => .semi (taken.of_kind kind), fun kind => (taken.of_kind kind).legal rfl⟩

theorem luaStat_reads (h : r.Reads c) (lua : c.dialect = .lua) :
    Reads c (luaStat r) fun i s o => Spells i (.stat s) o := by
  refine peek_bind_reads fun kind => ?_
  split
  · exact skipToken_reads.mono fun _ _ _ => And.left
  · exact skipToken_reads.mono fun _ _ _ related kind => absurd kind related.2
  · exact breakStat_reads
  · exact labelStat_reads
  · exact gotoStat_reads
  · exact doStat_reads h
  · exact whileStat_reads h
  · exact repeatStat_reads h
  · exact ifStat_reads h
  · exact forStat_reads h
  · refine Reads.mono (head_reads.bind fun _ => (functionStat_reads h _ .regular false).map _) ?_
    rintro i s o ⟨_, _, ⟨rfl, rfl⟩, a, rfl, related⟩ _
    exact .functionAssign (related nofun)
  · refine Reads.mono (next_reads.bind fun _ => peek_reads.bind fun _ => .ite
      (fun _ => localFunction_reads h _) fun _ => localDecl_reads h _) ?_
    rintro i s o ⟨t, j, word, _, _, ⟨rfl, rfl⟩, ⟨function, related⟩ | ⟨_, related⟩⟩ kind
    · exact related i t (word.of_kind kind) rfl (by rw [function, lua]; rfl)
    · exact related i t (word.of_kind kind) rfl
  · exact (assignOrCall_reads h).mono fun _ _ _ spelled _ => .simple spelled

end LuaChunk.Parser
