import LuaChunk.Analysis
import LuaChunk.Proofs.Anchors.Statement

/-!
# Places of statements that only Mooc has, and of blocks

What Mooc writes in short is given the places of its parts.  Only a case with several labels merges
the locations of expressions, one of which may be a placeholder.
-/

set_option autoImplicit false

namespace LuaChunk.Parser

variable {d : Dialect} {stop : Position} {m : Mark} {r : Rules}

/-! ## Transfer of control -/

theorem continueStat_anchors : Anchors d stop m continueStat fun _ s => Sound d stop s.spots :=
  .bind .next fun m₁ token leads took => .scopes fun _ => .insideLoop fun _ => .ite
    (fun _ => .onScopes _ (.pure fun _ => by grind)) fun _ =>
    .complain rfl (by grind) (.pure fun _ => by grind)

theorem deferStat_anchors (h : r.Anchored d stop) :
    Anchors d stop m (deferStat r) fun _ s => Sound d stop s.spots := by
  refine .bind .next fun m₁ keyword leads took => .andThen (.expect _) fun m₂ _ leads₂ =>
    .scopes fun _ => .ite (fun _ => .complain rfl (by grind) ?_) fun _ => ?_
  all_goals
    exact .bind (.within _ _ (h.block m₂)) fun m₃ _ leads₃ sound => .andThen closeBody_stays
      fun m₄ _ leads₄ => .since _ (.pure fun _ => by
        have located := (took.past leads).located (leads₂.trans (leads₃.trans leads₄))
        grind)

theorem guardBody_anchors (h : r.Anchored d stop) (start : Span) (past : m.Past start) :
    Anchors d stop m (guardBody r) fun _ b => Sound d stop b.spots :=
  .bind (h.block m) fun m₁ _ leads sound => .scopes fun _ => .ite
    (fun _ => .now (.complain rfl (by grind) (.pure fun _ => sound))) fun _ => .pure fun _ => sound

theorem guardStat_anchors (h : r.Anchored d stop) :
    Anchors d stop m (guardStat r) fun _ s => Sound d stop s.spots := by
  refine .bind .next fun m₁ keyword leads took => .bind (exp_anchors h) fun m₂ condition leads₂ sits =>
    .since _ (.andThen (.expect _) fun m₃ _ leads₃ => .andThen (.expect _) fun m₄ _ leads₄ =>
    .bind (.within _ _ (guardBody_anchors h keyword.span ?_)) fun m₅ body leads₅ sound =>
    .andThen (.expect _) fun m₆ _ leads₆ => .since _ (.pure fun _ => ?_))
  · exact (took.past leads).mono (leads₂.trans (leads₃.trans leads₄))
  · have located := (took.past leads).located
      (leads₂.trans (leads₃.trans (leads₄.trans (leads₅.trans leads₆))))
    have asks := (took.past leads).located leads₂
    have place : condition.span.Located stop := by grind
    simp [Exp.negate, branchesSpots, Branch.spots, located, asks, place, sits.2, sound]

/-! ## Switch -/

theorem caseBody_anchors (h : r.Anchored d stop) :
    Anchors d stop m (caseBody r) fun _ b => Sound d stop b.spots :=
  .andThen (.expect _) fun m₁ _ _ => .within _ _ (h.block m₁)

theorem moreCases_anchors (h : r.Anchored d stop) (mooc : d = .mooc) {cases : Array Branch}
    (all : ∀ b ∈ cases.toList, BranchSound d stop true b) :
    Anchors d stop m (moreCases r cases)
      fun _ next => ∀ b ∈ next.value.toList, BranchSound d stop true b := by
  refine .bind (.accept _) fun m₁ taken leads took => ?_
  split
  next token =>
    refine .bind (expList_anchors h) fun m₂ values leads₂ ⟨sit, ordered⟩ =>
      .map (caseBody_anchors h) fun m₃ body leads₃ sound => ?_
    have place : token.span.Located stop := by grind
    have condition := Exp.switchCase_sound mooc place
      (fun e among => ⟨by grind, (sit e among).2⟩) ordered
    simp only [ForInStep.value, Array.toList_push, List.forall_mem_append,
      List.forall_mem_singleton]
    exact ⟨all, condition, sound⟩
  · exact .pure fun _ => all

theorem defaultCase_anchors (h : r.Anchored d stop) : Anchors d stop m (defaultCase r)
    fun _ bs => ∀ b ∈ bs, BranchSound d stop true b := by
  refine .bind (.accept _) fun m₁ taken leads took => ?_
  split
  · exact .map (caseBody_anchors h) fun _ _ _ _ => by grind
  · exact .pure fun _ => by grind

theorem switchStat_anchors (h : r.Anchored d stop) (mooc : d = .mooc) :
    Anchors d stop m (switchStat r) fun _ s => Sound d stop s.spots := by
  refine .bind .next fun m₁ keyword leads took => .bind (exp_anchors h) fun m₂ value leads₂ sits =>
    .since _ (.bind (.expect _) fun m₃ opening leads₃ took₃ => .bind (.iterate
    (fun _ cases => ∀ b ∈ cases.toList, BranchSound d stop true b) (by grind)
    fun _ cases _ all => moreCases_anchors h mooc all) fun m₄ cases leads₄ all =>
    .bind (defaultCase_anchors h) fun m₅ last leads₅ others => .andThen (.expect _)
    fun m₆ _ leads₆ => .since _ (.since _ (.pure fun _ => ?_)))
  have place : keyword.span.Located stop := by grind
  have subject := (took.past leads).located leads₂
  have whole := (took.past leads).located
    (leads₂.trans (leads₃.trans (leads₄.trans (leads₅.trans leads₆))))
  have inside := (took₃.past leads₃).located (leads₄.trans (leads₅.trans leads₆))
  have each (b : Branch) (among : b ∈ cases.toList ++ last) : BranchSound d stop true b :=
    (List.mem_append.1 among).elim (all b) (others b)
  simp only [Stat.spots, Declaration.spots, Conditional.spots, List.cons_append, sound_cons,
    sound_node, sound_append, sound_paramsSpots, sound_expsSpots, sound_branchesSpots,
    List.forall_mem_singleton]
  exact ⟨whole, subject, ⟨place, sits.2⟩, inside, each⟩

/-! ## Classes -/

theorem classMembers_anchors (h : r.Anchored d stop) (owner : String) :
    Anchors d stop m (iterate #[] (moreMembers r owner))
      fun _ members => ∀ a ∈ members.toList, Sound d stop a.spots := by
  refine .iterate (fun _ (members : Array Assignment) => ∀ a ∈ members.toList, Sound d stop a.spots)
    (by grind) fun m₁ members _ all => .peek fun kind => ?_
  split
  · exact .head fun _ first low => .map (functionStat_anchors h low (by grind) _ _)
      fun _ _ _ _ => by grind
  · exact .head fun _ first low => .map (functionStat_anchors h low (by grind) _ _)
      fun _ _ _ _ => by grind
  · refine .bind .next fun m₂ token leads took => ?_
    have heads : ((Exp.name owner token.span).field token.text token.span).Heads d stop m₁.front m₂ :=
      by grind [Exp.field, Exp.span]
    refine .bind (assignRest_anchors h (took.past leads) heads) fun m₃ s _ sound => ?_
    split
    · exact .pure fun _ => by grind
    · exact .pure fun _ => all
  · exact .pure fun _ => all

theorem parentClass_anchors (kind : ClassKind) {start : Span} (past : m.Past start) :
    Anchors d stop m (parentClass kind) fun _ e => Sound d stop (e.spots false) := by
  have named {m : Mark} : Anchors d stop m (do
      let name ← expectName
      return Exp.name name.text name.span) fun _ e => Sound d stop (e.spots false) :=
    .map .expectName fun _ _ _ _ => by grind
  refine .bind (.accept _) fun m₁ taken leads took => ?_
  split
  next colon => exact .ite (fun _ => .complain rfl (by grind) named) fun _ => named
  · exact .now (.pure fun _ => by grind)

theorem classStat_anchors (h : r.Anchored d stop) {start : Span} (low : .start ≤ start.start)
    (before : start.start ≤ m.front) (isExported : Bool) :
    Anchors d stop m (classStat r start isExported) fun _ s => Sound d stop s.spots := by
  refine .bind .next fun m₁ keyword leads took => .bind .expectName fun m₂ name leads₂ took₂ =>
    .bind (parentClass_anchors _ (took₂.past leads₂)) fun m₃ parent leads₃ sound => .since _
    (.andThen (.expect _) fun m₄ _ leads₄ => .bind (.within _ _ (classMembers_anchors h _))
    fun m₅ members leads₅ all => .andThen (.expect _) fun m₆ _ leads₆ => .since _ (.pure fun _ => ?_))
  have place : name.span.Located stop := by grind
  have header := (took₂.past leads₂).located leads₃
  have whole : (start.merge m₆.now).Located stop := by
    have past : m₁.Past start := by grind
    exact past.located (leads₂.trans (leads₃.trans (leads₄.trans (leads₅.trans leads₆))))
  simpa [classLocal, place, header, whole, sound] using all

/-! ## Imports and exports -/

theorem importSource_stays {token : Token} (covers : m.Covers token.span) :
    Stays d stop m (importSource token) :=
  .ite (fun _ => .done _) fun _ => .ite (fun _ => .done _) fun _ =>
    .complain rfl covers (.done _)

theorem member_sound (source : ImportSource) (name : String) {span : Span}
    (located : span.Located stop) : Sound d stop ((source.member name span).spots false) := by
  cases source <;> simp [ImportSource.member, Call.require, located]

theorem importKeys_anchors (source : ImportSource) (names : List Param) {start : Span}
    (past : m.Past start) : Anchors d stop m (importKeys source names start)
      fun _ values => ∀ v ∈ values, Sound d stop (v.spots false) := by
  refine .bind (.iterate (fun _ (read : Array Exp × Bool) => ∀ v ∈ read.1.toList,
    Sound d stop (v.spots false)) (by grind) fun m₁ read leads all => ?_) fun m₂ read leads₂ all =>
    .andThen (.expect _) fun m₃ _ leads₃ => .ite
    (fun _ => .since _ (.complain rfl (by grind) ?_)) fun _ => .pure fun _ => all
  · obtain ⟨values, isFirst⟩ := read
    have rest {m : Mark} (values : Array Exp) (all : ∀ v ∈ values.toList, Sound d stop (v.spots false)) :
        Anchors d stop m
          (do if ← accepts .comma then return .yield (values, false) else return .done (values, false))
          fun _ (next : ForInStep (Array Exp × Bool)) =>
            ∀ v ∈ next.value.1.toList, Sound d stop (v.spots false) :=
      .andThen (.accepts _) fun _ _ _ => .ite (fun _ => .pure fun _ => all) fun _ => .pure fun _ => all
    refine .bind (.accept _) fun m₂ key leads₂ took => ?_
    split
    · exact .bind (P := fun _ vs => ∀ v ∈ vs.toList, Sound d stop (v.spots false))
        (.pure (by grind [member_sound])) fun _ _ _ => rest _
    · refine .ite (fun _ => .now ?_) fun _ => .bind (.pure fun _ => all) fun _ _ _ => rest _
      exact .bind (P := fun _ vs => ∀ v ∈ vs.toList, Sound d stop (v.spots false))
        (.pure (by grind [member_sound])) fun _ _ _ => rest _
  · exact .bind (P := fun _ _ => False) (.throw _) fun _ _ _ never => never.elim

theorem importWhole_sound (source : ImportSource) {word token : Token} (at_word : word.span.Located stop)
    (at_token : token.span.Located stop) (whole : (word.span.merge token.span).Located stop) :
    Sound d stop ((importWhole source word token).spots false) := by
  cases source <;> simp [importWhole, Call.require, *]

theorem importStat_anchors : Anchors d stop m importStat fun _ s => Sound d stop s.spots := by
  refine .bind .next fun m₁ keyword leads took => .peek fun _ => .ite
    (fun _ => .bind .next fun m₂ library leads₂ took₂ => .pure fun _ => by
      simp [Call.require]; grind) fun _ => .head
    fun start first low => .bind attrNames_anchors fun m₂ (names, attrs) leads₂ all =>
    .bind (.expect _) fun m₃ word leads₃ took₃ => .bind .next fun m₄ token leads₄ took₄ =>
    .andThen (importSource_stays (by grind)) fun m₅ source leads₅ =>
    .andThen (.accepts _) fun m₆ _ leads₆ => .ite (fun _ => ?_) fun _ => ?_
  · exact .bind (importKeys_anchors _ _ (by grind)) fun m₇ values leads₇ sound => .since _
      (.pure fun _ => by grind)
  · have sound : Sound d stop ((importWhole source word token).spots false) :=
      importWhole_sound source (by grind) (by grind) (by grind)
    exact .bind (P := fun _ vs => vs = [importWhole source word token]) (.pure fun _ => rfl)
      fun m₇ values leads₇ whole => .since _ (.pure fun _ => by grind)

theorem sound_exported {s : Stat} (h : Sound d stop s.spots) : Sound d stop (exported s).spots := by
  cases s with
  | assign a =>
    cases a
    exact h
  | _ => exact h

theorem exportStat_anchors (h : r.Anchored d stop) :
    Anchors d stop m (exportStat r) fun _ s => Sound d stop s.spots := by
  refine .bind .next fun m₁ keyword leads took => .peek fun kind => ?_
  split
  · exact .andThen .next fun m₂ _ leads₂ => .since _ (.pure fun _ => by grind)
  · exact assignFunction_anchors h (by grind) (by grind) _ _
  · exact classStat_anchors h (by grind) (by grind) _
  · exact classStat_anchors h (by grind) (by grind) _
  · exact .map (assignOrCall_anchors h) fun _ _ _ => sound_exported

theorem moocStat_anchors (h : r.Anchored d stop) (mooc : d = .mooc) :
    Anchors d stop m (moocStat r) fun _ s => Sound d stop s.spots := by
  refine .peek fun kind => ?_
  split
  · exact skipToken_anchors
  · exact skipToken_anchors
  · exact breakStat_anchors
  · exact continueStat_anchors
  · exact labelStat_anchors
  · exact gotoStat_anchors
  · exact doStat_anchors h
  · exact deferStat_anchors h
  · exact whileStat_anchors h
  · exact repeatStat_anchors h
  · exact ifStat_anchors h
  · exact guardStat_anchors h
  · exact switchStat_anchors h mooc
  · exact forStat_anchors h
  · exact .head fun _ first low => assignFunction_anchors h low (by grind) _ _
  · exact .head fun _ first low => assignFunction_anchors h low (by grind) _ _
  · refine .bind .next fun m₁ keyword leads took => .peek fun kind => ?_
    split
    · exact classStat_anchors h (by grind) (by grind) _
    · exact classStat_anchors h (by grind) (by grind) _
    · exact localFunction_anchors h (took.past leads)
    · exact localDecl_anchors h (took.past leads)
  · exact .head fun _ first low => classStat_anchors h low (by grind) _
  · exact .head fun _ first low => classStat_anchors h low (by grind) _
  · exact .head fun _ first low => classStat_anchors h low (by grind) _
  · exact importStat_anchors
  · exact exportStat_anchors h
  · exact assignOrCall_anchors h

/-! ## Blocks and levels -/

theorem atBlockEnd_stays : Stays d stop m atBlockEnd :=
  .get fun _ _ _ => .peek fun _ => .done _

theorem returnStat_anchors (h : r.Anchored d stop) : Anchors d stop m (returnStat r)
    fun _ es => ∀ e ∈ es.getD [], Sound d stop (e.spots false) :=
  .peek fun _ => .ite (fun _ => .pure (by grind)) fun _ => .onScopes _ <|
    .andThen .next fun _ _ _ => .andThen atBlockEnd_stays fun _ _ _ => .ite
    (fun _ => .pure (by grind)) fun _ => .andThen (.accepts _) fun _ _ _ => .ite
    (fun _ => .pure (by grind)) fun _ => .bind (expList_anchors h) fun _ _ _ all =>
    .andThen (.accepts _) fun _ _ _ => .pure fun _ e among => (all.1 e among).2

/-- The span of a block is that of the token ahead where no token has been taken. -/
theorem block_anchors (h : r.Anchored d stop) :
    Anchors d stop m (block r) fun _ b => Sound d stop b.spots := by
  refine .head fun head first low => .now (.bind (.iterate
    (fun _ ss => ∀ s ∈ ss.toList, Sound d stop (Stat.spots s)) (by grind) fun m₁ ss _ all => ?_)
    fun m₁ stats leads all => .bind (P := fun _ ss => ∀ s ∈ ss, Sound d stop (Stat.spots s)) ?_
    fun m₂ label leads₂ labelled => .bind (returnStat_anchors h) fun m₃ returns leads₃ holds =>
    .now (.pure fun _ => by grind [Mark.Steps]))
  · refine .andThen atBlockEnd_stays fun _ _ _ => .ite (fun _ => .pure fun _ => all) fun _ =>
      .bind (h.stat _) fun _ s _ sound => .pure fun _ => ?_
    cases empty : s.isEmpty <;> grind
  · exact .scopes fun _ => .ite (fun _ => .now (.pure fun _ => by grind [Mark.Known])) fun _ =>
      .pure fun _ => by grind

theorem stat_anchors (h : r.Anchored d stop) :
    Anchors d stop m (stat r) fun _ s => Sound d stop s.spots :=
  .isMooc (.ite (fun mooc => moocStat_anchors h (eq_of_beq mooc)) fun _ => luaStat_anchors h)

end LuaChunk.Parser

namespace LuaChunk

variable {d : Dialect} {stop : Position}

theorem Rules.Anchored.deepen {r : Unit → Rules} (h : (r ()).Anchored d stop) :
    (Rules.deepen r).Anchored d stop where
  block _ := .nested (Parser.block_anchors h)
  stat _ := .nested (Parser.stat_anchors h)
  operation _ limit := .nested (Parser.operation_anchors h limit)
  functionBody _ style := .nested (Parser.functionBody_anchors h style)
  table _ := .nested (Parser.table_anchors h)
  parenthesised _ := .nested (Parser.exp_anchors h)

theorem Rules.level_anchored (n : Nat) : (Rules.level n).Anchored d stop := by
  induction n with
  | zero =>
    exact ⟨fun _ => .tooDeep, fun _ => .tooDeep, fun _ _ => .tooDeep, fun _ _ => .tooDeep,
      fun _ => .tooDeep, fun _ => .tooDeep⟩
  | succ n inductionHypothesis => exact inductionHypothesis.deepen

end LuaChunk
