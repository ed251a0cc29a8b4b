import LuaChunk.Proofs.Parser.Results
import LuaChunk.Proofs.Spelling.Statement

/-!
# Statements of Mooc are spelled by the tokens taken
-/

set_option autoImplicit false

namespace LuaChunk.Parser

variable {c : Text} {r : Rules}

/-! ## Transfer of control -/

theorem continueStat_reads (mooc : c.dialect = .mooc) :
    Reads c continueStat fun i s o => i.head.kind = .kwContinue → Spells i (.moocStat s) o := by
  have marks : Reads c (onScopes (·.setFound .loop .function 1)) fun i _ o => o = i :=
    onScopes_reads .markLoop (fun lua => absurd (mooc.symm.trans lua) nofun) fun _ owned =>
      owned.setFound _ _ _
  refine Reads.mono (next_reads.bind fun _ => scopes_reads.bind fun _ => insideLoop_reads.bind
    fun inside => .ite (P := inside = true) (fun _ => marks.bind fun _ => .pure _)
    fun _ => complain_bind_reads (.pure _)) ?_
  rintro i s o ⟨t, _, word, _, _, rfl, _, _, rfl, ⟨_, _, _, rfl, rfl, rfl⟩ | ⟨_, ⟨⟩⟩⟩ kind
  exact .continueStat _ (word.of_kind kind)

theorem deferStat_reads (h : r.Reads c) :
    Reads c (deferStat r) fun i s o => i.head.kind = .kwDefer → Spells i (.moocStat s) o := by
  refine Reads.mono (next_reads.bind fun _ => (expect_reads .lbrace).bind fun _ =>
    scopes_reads.bind fun scopes => unless_reads ((block_within_reads h .function "defer" nofun).bind
    fun _ => closeBody_reads.bind fun _ => (since_reads _).map _)) ?_
  rintro i s o ⟨t, j, word, u, _, opening, _, _, rfl, _, b, l, spelled, _, m, ⟨v, closing⟩, _, rfl,
    rfl, rfl⟩ kind
  exact .deferStat (word.of_kind kind) opening spelled closing

theorem guardBody_reads (h : r.Reads c) :
    Reads c (guardBody r) fun i b o => Spells i (.block b) o := by
  refine Reads.mono (h.block.bind fun _ => scopes_reads.bind fun _ => .ite
    (fun _ => now_reads.bind fun _ => complain_bind_reads (.pure _)) fun _ => .pure _) ?_
  rintro i b o ⟨_, m, spelled, _, _, rfl, ⟨_, _, _, _, ⟨⟩⟩ | ⟨_, rfl, rfl⟩⟩
  exact spelled

theorem guardStat_reads (h : r.Reads c) :
    Reads c (guardStat r) fun i s o => i.head.kind = .kwGuard → Spells i (.moocStat s) o := by
  refine Reads.mono (next_reads.bind fun _ => h.exp.bind fun _ => (since_reads _).bind fun _ =>
    (expect_reads .kwElse).bind fun _ => (expect_reads .lbrace).bind fun _ =>
    ((guardBody_reads h).within .guardBlock "guard" nofun).bind fun _ => (expect_reads .rbrace).bind
    fun _ => (since_reads _).map _) ?_
  rintro i s o ⟨t, j, word, e, k, condition, _, _, ⟨rfl, rfl⟩, u, l, otherwise, v, m, opening, b, n,
    spelled, w, _, closing, _, rfl, rfl, rfl⟩ kind
  exact .guardStat (word.of_kind kind) condition otherwise opening spelled closing

/-! ## Switch -/

theorem caseBody_reads (h : r.Reads c) :
    Reads c (caseBody r) fun i b o => Spells i (.caseBody b) o := by
  refine Reads.mono ((expect_reads .colon).bind fun _ => block_within_reads h .branch "if" nofun) ?_
  rintro i b o ⟨t, j, colon, spelled⟩
  exact .caseBody colon spelled

theorem moreCases_reads (h : r.Reads c) (bs : Array Branch) :
    Reads c (moreCases r bs) (Extends (fun bs : Array Branch => .cases bs.toList) bs) := by
  refine Reads.mono (accept_bind_reads .kwCase (R := Extends (fun bs : Array Branch =>
    .cases bs.toList) bs) (fun t => ?_) (.pure _)) ?_
  · refine Reads.mono ((expList_reads h).bind fun _ => (caseBody_reads h).bind fun _ => .pure _) ?_
    rintro j next o ⟨vs, k, values, b, _, body, rfl, rfl⟩ i word
    refine .yield word (by decide) (Nat.le_trans body.length_le values.length_le) ?_
    intro first before
    simpa using before.moreCases word values body
  · rintro m next o (related | ⟨_, rfl, rfl⟩)
    · exact related
    · exact .inr ⟨rfl, rfl⟩

theorem defaultCase_reads (h : r.Reads c) :
    Reads c (defaultCase r) fun i bs o => Spells i (.defaultCase bs) o := by
  refine Reads.mono (accept_bind_reads .kwDefault
    (R := fun i bs o => Spells i (.defaultCase bs) o) (fun t => ?_) (.pure _)) ?_
  · refine Reads.mono ((caseBody_reads h).bind fun _ => .pure _) ?_
    rintro j bs o ⟨b, _, body, rfl, rfl⟩ i word
    exact .defaultCase word body
  · rintro i bs o (spelled | ⟨_, rfl, rfl⟩)
    · exact spelled
    · exact .noDefault

theorem switchStat_reads (h : r.Reads c) :
    Reads c (switchStat r) fun i s o => i.head.kind = .kwSwitch → Spells i (.moocStat s) o := by
  refine Reads.mono (next_reads.bind fun _ => h.exp.bind fun _ => (since_reads _).bind fun _ =>
    (expect_reads .lbrace).bind fun _ => (loop_reads (moreCases_reads h)).bind fun _ =>
    (defaultCase_reads h).bind fun _ => (expect_reads .rbrace).bind fun _ =>
    (since_reads _).bind fun _ => (since_reads _).map _) ?_
  rintro i s o ⟨t, j, word, e, k, subject, _, _, ⟨rfl, rfl⟩, u, l, opening, bs, m, cases, last, n,
    default, w, _, closing, _, _, ⟨rfl, rfl⟩, _, rfl, rfl, rfl⟩ kind
  exact .switchStat (word.of_kind kind) subject opening (cases l .noCases) default closing

/-! ## Classes -/

section Members

variable {owner : String}

/-- The innermost construct stays the body of the class. -/
theorem lasts_currentClass : Lasts fun σ : ScopeStack => σ.currentClass? = some owner :=
  fun _ _ moves inside => moves.currentClass?.trans inside

/-- A member of the class, by its single name. -/
def FunctionName.ofMember (owner : String) (isStatic : Bool) (n : Token) : FunctionName :=
  ⟨(Exp.name owner n.span).field n.text n.span, !isStatic, some owner, n.text⟩

theorem functionName_eq {s : Session} (mooc : s.settings.dialect = .mooc)
    (inside : s.scopes.currentClass? = some owner) (isStatic : Bool) : functionName isStatic s =
      (do return .ofMember owner isStatic (← expectName) : Parser FunctionName) s := by
  have told : isMooc s = .ok true s := by
    change EStateM.Result.ok (s.settings.dialect == .mooc) s = .ok true s
    rw [beq_iff_eq.2 mooc]
  have asked : scopes s = .ok s.scopes s := rfl
  rw [functionName, bind_of_ok told, bind_of_ok asked, inside]
  rfl

/-- In the body of a class a function has a single name, and is a member. -/
theorem functionName_readsIn (mooc : c.dialect = .mooc) (isStatic : Bool) :
    ReadsIn (·.currentClass? = some owner) c (functionName isStatic) fun i f o => ∃ n,
      Takes .identifier i n o ∧ f.target = (Exp.name owner n.span).field n.text n.span ∧
      Spells i (.functionName isStatic f) o := by
  intro s settings inside
  rw [functionName_eq (settings ▸ mooc) inside]
  refine (expectName_reads.map (FunctionName.ofMember owner isStatic) s settings).mono ?_
  rintro f s' ⟨moves, reads⟩
  refine ⟨moves, fun i standing clean => ?_⟩
  obtain ⟨o, stands, n, rfl, name⟩ := reads i standing clean
  exact ⟨o, stands, n, name, rfl, .memberName mooc name (standing.owned.currentClass inside)⟩

/-- What follows the name of a field is an assignment or a declaration. -/
theorem declares_of_assignRest {start : Span} {first : Exp} {s : Stat} {i o : Place c}
    (spelled : Spells i (.assignRest start first s) o) (other : ∀ a, s ≠ .assign a) :
    ∃ d, s = .declare d := by
  cases spelled with
  | compound => exact absurd rfl (other _)
  | plain => exact absurd rfl (other _)
  | bare => exact ⟨_, rfl⟩

theorem moreMembers_readsIn (mooc : c.dialect = .mooc) (h : r.Reads c)
    (members : Array Assignment) :
    ReadsIn (·.currentClass? = some owner) c (moreMembers r owner members)
      (Extends (fun ms : Array Assignment => .members owner ms.toList) members) := by
  have function (isStatic : Bool) : ReadsIn (·.currentClass? = some owner) c (do
      return .yield (members.push (← functionStat r (← head) .regular isStatic)))
      fun m next o => (isStatic = true → m.head.kind = .kwStatic) →
        Extends (fun ms : Array Assignment => .members owner ms.toList) members m next o := by
    refine .mono (.bind lasts_currentClass (.of head_reads) fun _ => .bind lasts_currentClass
      (functionStat_readsIn lasts_currentClass h (functionName_readsIn mooc isStatic) _ .regular)
      fun a => .of (.pure (ForInStep.yield (members.push a)))) ?_
    rintro m next o ⟨_, _, ⟨rfl, rfl⟩, a, _, related, rfl, rfl⟩ kind
    obtain ⟨j, k, t, f, l, opening, word, ⟨n, name, member, spelled⟩, target, whole⟩ := related kind
    rw [Dialect.functionWord, if_pos mooc] at word
    have spelled := whole spelled
    refine .inl ⟨_, rfl, spelled.length, fun i before => ?_⟩
    simpa using before.functionMember opening word name spelled (target.trans (by rw [member]))
  refine .mono (.bind lasts_currentClass (.of peek_reads) fun kind => (?_ : ReadsIn _ c _
    fun m next o => m.head.kind = kind →
      Extends (fun ms : Array Assignment => .members owner ms.toList) members m next o)) ?_
  · split
    · exact (function false).mono fun _ _ _ related _ => related nofun
    · exact (function true).mono fun _ _ _ related kind => related fun _ => kind
    · refine .of (Reads.mono (next_reads.bind fun t => (assignRest_reads h _ _).bind
        (T := fun s m next o => ∀ j k, Takes .identifier j t k → Spells k (.assignRest t.span
          ((Exp.name owner t.span).field t.text t.span) s) m →
          Extends (fun ms : Array Assignment => .members owner ms.toList) members j next o)
        fun s => ?_) ?_)
      · split
        next a =>
          refine (Reads.pure _).mono ?_
          rintro m next o ⟨rfl, rfl⟩ j k name spelled
          refine .yield name (by decide) spelled.length_le fun i before => ?_
          simpa using before.fieldMember name spelled
        next other =>
          refine (Reads.pure _).mono ?_
          rintro m next o ⟨rfl, rfl⟩ j k name spelled
          obtain ⟨d, rfl⟩ := declares_of_assignRest spelled other
          exact .yield name (by decide) spelled.length_le fun i before =>
            .lostMember before name spelled
      · rintro j next o ⟨t, k, name, s, m, spelled, related⟩ kind
        exact related j k (name.of_kind kind) (spelled rfl)
    · exact .of ((Reads.pure _).mono fun _ _ _ still _ => .inr still)
  · rintro m next o ⟨_, _, ⟨rfl, rfl⟩, related⟩
    exact related rfl

end Members

theorem parentClass_reads (kind : ClassKind) :
    Reads c (parentClass kind) fun i e o => Spells i (.parent e) o := by
  refine Reads.mono (accept_bind_reads .colon (R := fun i e o => Spells i (.parent e) o)
    (fun t => ?_) (now_reads.map _)) ?_
  · refine Reads.mono (unless_reads (expectName_reads.bind fun _ => .pure _)) ?_
    rintro j e o ⟨_, n, _, name, rfl, rfl⟩ i colon
    exact .parent colon name
  · rintro i e o (spelled | ⟨_, _, rfl, rfl, rfl⟩)
    · exact spelled
    · exact .noParent

theorem classStat_reads (mooc : c.dialect = .mooc) (h : r.Reads c) (start : Span)
    (isExported : Bool) :
    Reads c (classStat r start isExported) fun i s o =>
      i.head.kind = .kwClass ∨ i.head.kind = .kwStruct ∨ i.head.kind = .kwExtension →
        Spells i (.classStat start isExported s) o := by
  have opened (owner : String) (σ : ScopeStack) :
      (σ.push .classBody owner).currentClass? = some owner := by simp [ScopeStack.currentClass?]
  have members (owner : String) : ReadsIn (·.currentClass? = some owner) c
      (iterate #[] (moreMembers r owner)) fun m ms o => ∀ i,
      Spells i (.members owner []) m → Spells i (.members owner ms.toList) o :=
    loop_readsIn lasts_currentClass (moreMembers_readsIn mooc h)
  refine Reads.mono (next_reads.bind fun _ => expectName_reads.bind_of (P := (c.Names ·.text))
    (fun _ _ _ => Takes.names) (fun name own => (parentClass_reads _).bind fun _ =>
      (since_reads _).bind fun _ => (expect_reads .lbrace).bind fun _ =>
      ((members name.text).within .classBody name.text (opened _) fun _ => own).bind fun _ =>
      (expect_reads .rbrace).bind fun _ => (since_reads _).map _) fun name =>
    -- Under another name the body is not followed, for no such name is read.
    (parentClass_reads _).travels.bind fun _ => (since_reads _).travels.bind fun _ =>
    (expect_reads .lbrace).travels.bind fun _ =>
    ((members name.text).within_travels .classBody name.text (opened _)).bind fun _ =>
    (expect_reads .rbrace).travels.bind fun _ => ((since_reads _).map _).travels) ?_
  rintro i s o ⟨t, j, word, n, k, name, e, l, parent, _, _, ⟨rfl, rfl⟩, u, m, opening, ms, p,
    members, v, _, closing, _, rfl, rfl, rfl⟩ kind
  rw [← word.token_eq] at kind
  exact .classStat kind word name parent opening (members m .noMembers) closing

/-! ## Imports and exports -/

theorem importSource_reads (t : Token) :
    Reads c (importSource t) fun i source o => source.OfToken t ∧ o = i := by
  refine Reads.mono (.ite (fun _ => .pure _) fun _ => .ite (fun _ => .pure _) fun _ =>
    complain_bind_reads (.pure _)) ?_
  rintro i source o (⟨kind, rfl, rfl⟩ | ⟨_, ⟨kind, rfl, rfl⟩ | ⟨_, ⟨⟩⟩⟩)
  · exact ⟨.library kind, rfl⟩
  · exact ⟨.table kind, rfl⟩

theorem moreKeys_reads (source : ImportSource) (names : List Param) (read : Array Exp × Bool) :
    Reads c (moreKeys source names read) fun m next o => ∃ values l,
      ((∃ t, Takes .identifier m t l ∧
          values.toList = read.1.toList ++ [source.member t.text t.span]) ∨
        (l = m ∧ values.toList = read.1.toList ++
          if read.2 then names.map fun n => source.member n.name m.now else [])) ∧
      AfterComma (values, false) l next o := by
  obtain ⟨keys, isFirst⟩ := read
  refine Reads.mono (accept_bind_reads .identifier (R := fun m next o => ∃ t l,
    Takes .identifier m t l ∧
      AfterComma (keys.push (source.member t.text t.span), false) l next o) (fun t => ?_)
    (.ite (P := isFirst = true) (fun _ => now_reads.bind fun _ => afterComma_reads _)
      fun _ => afterComma_reads _)) ?_
  · refine Reads.mono (afterComma_reads _) ?_
    exact fun l next o turn m taken => ⟨t, l, taken, turn⟩
  · rintro m next o (⟨t, l, taken, turn⟩ | ⟨_, ⟨isFirst, _, _, ⟨rfl, rfl⟩, turn⟩ | ⟨later, turn⟩⟩)
    · exact ⟨_, l, .inl ⟨t, taken, by simp⟩, turn⟩
    · exact ⟨_, _, .inr ⟨rfl, by simp [isFirst]⟩, turn⟩
    · exact ⟨_, _, .inr ⟨rfl, by simp [later]⟩, turn⟩

theorem keys_reads (source : ImportSource) (names : List Param) :
    Reads c (iterate (#[], true) (moreKeys source names)) fun i read o =>
      Keys source names i read.1.toList o := by
  refine Reads.mono (Reads.iterate (J := fun i read o =>
    KeyList source names i read.1.toList read.2 o) (moreKeys_reads source names)
    (fun _ => .start) ?_ ?_) ?_
  · rintro i read m y o before ⟨values, l, part, ⟨t, equality, comma⟩ | ⟨⟨⟩, _⟩⟩
    cases equality
    rcases part with ⟨n, key, equality⟩ | ⟨rfl, equality⟩
    · exact equality ▸ before.key key comma
    · exact equality ▸ before.none comma
  · rintro read m y o ⟨values, l, part, ⟨t, _, comma⟩ | ⟨⟨⟩, _⟩⟩
    have := comma.length (by decide)
    rcases part with ⟨n, key, _⟩ | ⟨rfl, _⟩
    · have := key.length_le
      omega
    · omega
  · rintro i y o ⟨read, m, before, values, l, part, ⟨_, ⟨⟩, _⟩ | ⟨equality, rfl⟩⟩
    cases equality
    rcases part with ⟨n, key, equality⟩ | ⟨rfl, equality⟩
    · exact equality ▸ .key before key
    · exact equality ▸ .none before

theorem importKeys_reads (source : ImportSource) (names : List Param) (start : Span) :
    Reads c (importKeys source names start) fun i vs o => ∃ k t, Keys source names i vs k ∧
      Takes .rbrace k t o ∧ vs.length = names.length := by
  refine Reads.mono ((keys_reads source names).bind fun _ => (expect_reads .rbrace).bind fun _ =>
    .ite (fun _ => (since_reads _).bind fun _ => complain_throw_reads _ _ _ _)
      fun _ => .pure _) ?_
  rintro i vs o ⟨read, k, keys, t, _, closing, ⟨_, _, _, _, ⟨⟩⟩ | ⟨count, rfl, rfl⟩⟩
  exact ⟨k, t, keys, closing, by simpa using count⟩

theorem importStat_reads :
    Reads c importStat fun i s o => i.head.kind = .kwImport → Spells i (.moocStat s) o := by
  have named (keyword : Token) : Reads c (do
      let start ← head
      let read ← attrNames
      let word ← expect .kwFrom
      let token ← next
      let source ← importSource token
      let values ←
        if ← accepts .lbrace then importKeys source read.1 start
        else pure [importWhole source word token]
      return .importNames
        { names := read.1, attrs := read.2, values, span := ← since start }) fun j s o =>
        ∀ i, Takes .kwImport i keyword j → Spells i (.moocStat s) o := by
    refine Reads.mono (head_reads.bind fun start => attrNames_reads.bind fun read =>
      (expect_reads .kwFrom).bind fun word => next_reads.bind fun token =>
      (importSource_reads token).bind fun source => accepts_join_reads .lbrace
      (importKeys_reads source read.1 start) (.pure [importWhole source word token])
      fun _ => (since_reads start).map _) ?_
    rintro j s o ⟨_, _, ⟨rfl, rfl⟩, ⟨names, attrs⟩, k, spelled, u, l, word, n, m, place, source, _,
      ⟨ofToken, rfl⟩, values, p, part, _, rfl, rfl, rfl⟩ i keyword
    rcases part with ⟨v, q, opening, w, x, keys, closing, count⟩ | ⟨_, rfl, rfl⟩
    · exact .importKeys keyword spelled word place ofToken opening keys closing count
    · exact .importWhole keyword spelled word place ofToken
  refine Reads.mono (next_reads.bind fun keyword => peek_reads.bind fun kind => .ite
    (P := kind = .string) (fun _ => next_reads.bind fun _ => .pure _) fun _ => named keyword) ?_
  rintro i s o ⟨t, j, word, _, _, ⟨rfl, rfl⟩, ⟨string, n, _, library, rfl, rfl⟩ | ⟨_, related⟩⟩ kind
  · exact .importCall (word.of_kind kind) (library.of_kind string)
  · exact related i (word.of_kind kind)

theorem exportStat_reads (mooc : c.dialect = .mooc) (h : r.Reads c) :
    Reads c (exportStat r) fun i s o => i.head.kind = .kwExport → Spells i (.moocStat s) o := by
  refine Reads.mono (next_reads.bind fun keyword => peek_bind_reads (R := fun j s o =>
    ∀ i, Takes .kwExport i keyword j → Spells i (.moocStat s) o) fun kind => ?_) ?_
  · have ofClass : Reads c (classStat r keyword.span true) fun j s o =>
        j.head.kind = .kwClass ∨ j.head.kind = .kwStruct →
          ∀ i, Takes .kwExport i keyword j → Spells i (.moocStat s) o := by
      refine Reads.mono (classStat_reads mooc h keyword.span true) ?_
      rintro j s o related kind i word
      exact .exportClass word (related (kind.imp_right .inl))
    split
    · refine Reads.mono (next_reads.bind fun _ => (since_reads _).map _) ?_
      rintro j s o ⟨t, _, star, _, rfl, rfl, rfl⟩ kind i word
      exact .exportAll word (star.of_kind kind)
    · refine Reads.mono ((functionStat_reads h keyword.span .exported false).map _) ?_
      rintro j s o ⟨a, rfl, related⟩ kind i word
      exact .exportFunction word (related nofun)
    · exact ofClass.mono fun _ _ _ related kind => related (.inl kind)
    · exact ofClass.mono fun _ _ _ related kind => related (.inr kind)
    · refine Reads.mono ((assignOrCall_reads h).map _) ?_
      rintro j s o ⟨a, rfl, spelled⟩ kind i word
      exact .exportStat word spelled
  · rintro i s o ⟨t, j, word, related⟩ kind
    exact related i (word.of_kind kind)

/-- The rest of a statement that began with `local`. -/
theorem localStat_reads (h : r.Reads c) (mooc : c.dialect = .mooc) (keyword : Token) :
    Reads c (do
      match ← peek with
      | .kwClass | .kwStruct => classStat r keyword.span false
      | .kwFn => localFunction r keyword.span
      | _ => localDecl r keyword.span) fun j s o =>
        ∀ i, Takes .kwLocal i keyword j → Spells i (.stat s) o := by
  have ofClass : Reads c (classStat r keyword.span false) fun j s o =>
      j.head.kind = .kwClass ∨ j.head.kind = .kwStruct →
        ∀ i, Takes .kwLocal i keyword j → Spells i (.stat s) o := by
    refine Reads.mono (classStat_reads mooc h keyword.span false) ?_
    rintro j s o related kind i word
    exact .mooc mooc (.localClass word (related (kind.imp_right .inl)))
  refine peek_bind_reads fun kind => ?_
  split
  · exact ofClass.mono fun _ _ _ related kind => related (.inl kind)
  · exact ofClass.mono fun _ _ _ related kind => related (.inr kind)
  · refine Reads.mono (localFunction_reads h keyword.span) ?_
    rintro j s o related kind i word
    exact related i keyword word rfl (by rw [kind, mooc]; rfl)
  · refine Reads.mono (localDecl_reads h keyword.span) ?_
    rintro j s o related kind i word
    exact related i keyword word rfl

theorem moocStat_reads (h : r.Reads c) (mooc : c.dialect = .mooc) :
    Reads c (moocStat r) fun i s o => Spells i (.stat s) o := by
  have only {p : Parser Stat} {kind : TokenKind} (read : Reads c p fun i s o =>
      i.head.kind = kind → Spells i (.moocStat s) o) :
      Reads c p fun i s o => i.head.kind = kind → Spells i (.stat s) o :=
    read.mono fun _ _ _ related kind => .mooc mooc (related kind)
  have function (isStatic : Bool) : Reads c (do
      return .assign (← functionStat r (← head) .regular isStatic)) fun i s o =>
        (isStatic = true → i.head.kind = .kwStatic) → Spells i (.stat s) o := by
    refine Reads.mono (head_reads.bind fun _ => (functionStat_reads h _ .regular isStatic).map
      Stat.assign) ?_
    rintro i s o ⟨_, _, ⟨rfl, rfl⟩, a, rfl, related⟩ kind
    exact .functionAssign (related kind)
  have ofClass : Reads c (do classStat r (← head) false) fun i s o =>
      i.head.kind = .kwClass ∨ i.head.kind = .kwStruct ∨ i.head.kind = .kwExtension →
        Spells i (.stat s) o := by
    refine Reads.mono (head_reads.bind fun _ => classStat_reads mooc h _ false) ?_
    rintro i s o ⟨_, _, ⟨rfl, rfl⟩, related⟩ kind
    exact .mooc mooc (.classOnly (related kind))
  refine peek_bind_reads fun kind => ?_
  split
  · exact skipToken_reads.mono fun _ _ _ => And.left
  · exact skipToken_reads.mono fun _ _ _ related kind => absurd kind related.2
  · exact breakStat_reads
  · exact only (continueStat_reads mooc)
  · exact labelStat_reads
  · exact gotoStat_reads
  · exact doStat_reads h
  · exact only (deferStat_reads h)
  · exact whileStat_reads h
  · exact repeatStat_reads h
  · exact ifStat_reads h
  · exact only (guardStat_reads h)
  · exact only (switchStat_reads h)
  · exact forStat_reads h
  · exact (function false).mono fun _ _ _ related _ => related nofun
  · exact (function true).mono fun _ _ _ related kind => related fun _ => kind
  · refine Reads.mono (next_reads.bind fun keyword => localStat_reads h mooc keyword) ?_
    rintro i s o ⟨t, j, word, related⟩ kind
    exact related i (word.of_kind kind)
  · exact ofClass.mono fun _ _ _ related kind => related (.inl kind)
  · exact ofClass.mono fun _ _ _ related kind => related (.inr (.inl kind))
  · exact ofClass.mono fun _ _ _ related kind => related (.inr (.inr kind))
  · exact only importStat_reads
  · exact only (exportStat_reads mooc h)
  · exact (assignOrCall_reads h).mono fun _ _ _ spelled _ => .simple spelled

end LuaChunk.Parser
