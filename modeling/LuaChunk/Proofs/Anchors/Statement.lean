import LuaChunk.Parser.Statement
import LuaChunk.Proofs.Anchors.Expression

/-!
# Places of statements that both dialects have

A statement stands from its first token to the last one taken.
-/

set_option autoImplicit false

namespace LuaChunk

namespace Mark

/-- What began at a span is under way. -/
@[grind =]
def Past (m : Mark) (start : Span) : Prop := .start ≤ start.start ∧ start.start ≤ m.now.start

variable {stop : Position} {m m' : Mark}

theorem Took.past {t : Token} (took : m.Took m' t) (leads : m.Leads stop m') : m'.Past t.span := by
  grind

theorem Past.mono {start : Span} (past : m.Past start) (leads : m.Leads stop m') :
    m'.Past start := by
  grind

theorem Past.located {start : Span} (past : m.Past start) (leads : m.Leads stop m') :
    (start.merge m'.now).Located stop := by
  grind

end Mark

namespace Parser

variable {d : Dialect} {stop : Position} {m : Mark} {r : Rules}

/-! ## Local names -/

theorem attr_stays : Stays d stop m attr := by
  refine .andThen (.accepts .less) fun m₁ _ _ => .ite (fun _ => .done _) fun _ =>
    .bind .expectName fun m₂ name leads took => .ite (fun _ => ?_) fun _ => .ite (fun _ => ?_)
    fun _ => .complain rfl (by grind) ?_
  all_goals exact .andThen (.done _) fun _ _ _ => .andThen (.expect _) fun _ _ _ => .done _

theorem attrNames_anchors :
    Anchors d stop m attrNames fun _ read => ∀ p ∈ read.1, p.span.Located stop := by
  refine .map (.iterate (fun _ (read : AttrNames) => ∀ p ∈ read.names.toList, p.span.Located stop)
    (by grind) fun m₁ read _ all => .bind .expectName fun m₂ name leads took =>
    .andThen attr_stays fun m₃ attr leads₃ => ?_) fun _ _ _ => id
  have rest {m : Mark} (next : AttrNames) (all : ∀ p ∈ next.names.toList, p.span.Located stop) :
      Anchors d stop m (do if ← accepts .comma then return .yield next else return .done next)
        fun _ (next : ForInStep AttrNames) => ∀ p ∈ next.value.names.toList, p.span.Located stop :=
    .andThen (.accepts _) fun _ _ _ => .ite (fun _ => .pure fun _ => all) fun _ => .pure fun _ => all
  exact .ite (fun _ => .now (.complain rfl (by grind) (rest _ (by grind)))) fun _ => rest _ (by grind)

theorem localDecl_anchors (h : r.Anchored d stop) {start : Span} (past : m.Past start) :
    Anchors d stop m (localDecl r start) fun _ s => Sound d stop s.spots := by
  refine .bind attrNames_anchors fun m₁ (names, attrs) leads all => .andThen (.accepts .assign)
    fun m₂ _ leads₂ => ?_
  split
  · exact .bind (expList_anchors h) fun _ _ _ _ => .since start (.pure fun _ => by grind)
  · exact .bind (P := fun _ es => es = []) (.pure fun _ => rfl) fun _ _ _ _ =>
      .since start (.pure fun _ => by grind)

/-! ## Targets -/

theorem target_anchors {front : Position} {e : Exp} (heads : e.Heads d stop front m) :
    Anchors d stop m (target e) fun _ e => Sound d stop (e.spots false) := by
  unfold target
  split
  · exact .pure fun _ => by grind
  · exact .pure fun _ => by grind
  · exact .pure fun _ => by grind
  · exact .complain rfl (by grind) (.pure fun _ => by grind)

theorem compound_anchors (h : r.Anchored d stop) {start : Span} (past : m.Past start)
    (op : BinaryOp) {target : Exp} (sound : Sound d stop (target.spots false)) :
    Anchors d stop m (compound r start op target) fun _ s => Sound d stop s.spots := by
  refine .bind .next fun m₁ _ leads took => .peek fun _ => .ite
    (fun _ => .since _ (.complain rfl (by grind) (.pure fun _ => by grind))) fun _ =>
    .andThen .next fun m₂ _ leads₂ => .bind (exp_anchors h) fun m₃ value leads₃ sits =>
    .since start (.pure fun _ => ?_)
  simp only [Stat.spots, Assignment.compound, Assignment.spots_eq, List.cons_append, sound_cons,
    sound_append, sound_expsSpots, List.forall_mem_singleton, Exp.spots]
  grind

theorem badCompound_anchors (h : r.Anchored d stop) {start : Span} (past : m.Past start) :
    Anchors d stop m (badCompound r start) fun _ s => Sound d stop s.spots := by
  refine .bind .next fun m₁ _ leads took => .andThen (.accepts _) fun m₂ _ leads₂ => .ite
    (fun _ => .bind (expList_anchors h) fun m₃ _ leads₃ _ => ?_) fun _ => ?_
  all_goals exact .since _ (.complain rfl (by grind) (.pure fun _ => by grind))

theorem implicitLocals_sound {targets : List Exp} {span : Span} (located : span.Located stop)
    (all : ∀ e ∈ targets, Sound d stop (e.spots false)) :
    Sound d stop (implicitLocals targets span).spots := by
  simp only [implicitLocals, Declaration.spots, List.cons_append, sound_cons, sound_append,
    sound_paramsSpots, sound_expsSpots]
  refine ⟨located, fun p among => ?_, by simp⟩
  obtain ⟨e, membership, name⟩ := List.mem_filterMap.1 among
  have sound := all e membership
  cases e with
  | name => grind
  | _ => cases name

theorem plainAssign_anchors (h : r.Anchored d stop) {start : Span} (past : m.Past start)
    {targets : List Exp} (all : ∀ e ∈ targets, Sound d stop (e.spots false)) :
    Anchors d stop m (plainAssign r start targets) fun _ s => Sound d stop s.spots := by
  refine .andThen (.accepts _) fun m₁ _ leads => .ite (fun _ => .bind (expList_anchors h)
    fun m₂ values leads₂ read => .since start (.pure fun _ => ?_)) fun _ => .isMooc (.ite
    (fun _ => .since start (.pure fun _ => ?_)) fun other => ?_)
  · have sound (e : Exp) (among : e ∈ values) : Sound d stop (e.spots false) := (read.1 e among).2
    grind
  · exact implicitLocals_sound (by grind) all
  · have lua : d = .lua := by
      cases d with
      | lua => rfl
      | mooc => exact absurd rfl other
    exact .missing (f := fun _ => pure Stat.empty) lua (.pure fun _ => by grind)

theorem assignRest_anchors (h : r.Anchored d stop) {start : Span} (past : m.Past start)
    {front : Position} {first : Exp} (heads : first.Heads d stop front m) :
    Anchors d stop m (assignRest r start first) fun _ s => Sound d stop s.spots := by
  refine .bind (target_anchors heads) fun m₁ first leads sound => .bind (.iterate
    (fun _ es => ∀ e ∈ es.toList, Sound d stop (Exp.spots false e)) (by grind) fun m₂ es _ all => ?_)
    fun m₃ targets leads₃ all => .peek fun kind => ?_
  · exact .andThen (.accepts _) fun m₄ _ _ => .ite (fun _ => .bind (prefixExp_anchors h)
      fun m₅ e _ heads => .map (target_anchors heads) fun _ _ _ _ => by grind) fun _ =>
      .pure fun _ => all
  · split
    · exact compound_anchors h (by grind) _ (by grind)
    · exact .isMooc (.ite (fun _ => plainAssign_anchors h (by grind) (by grind)) fun _ =>
        badCompound_anchors h (by grind))
    · exact plainAssign_anchors h (by grind) (by grind)

theorem assignOrCall_anchors (h : r.Anchored d stop) :
    Anchors d stop m (assignOrCall r) fun _ s => Sound d stop s.spots := by
  refine .head fun start first low => .bind (prefixExp_anchors h) fun m₁ e leads heads => ?_
  split
  · exact .pure fun _ => by grind
  · exact .since start (.pure fun _ => by grind [Exp.span])
  · exact assignRest_anchors h (by grind) heads

/-! ## Bodies -/

theorem openBody_stays (word : TokenKind) : Stays d stop m (openBody word) :=
  .isMooc (.andThen (.expect _) fun _ _ _ => .done _)

theorem closeBody_stays : Stays d stop m closeBody :=
  .isMooc (.andThen (.expect _) fun _ _ _ => .done _)

theorem brace_stays (kind : TokenKind) : Stays d stop m (brace kind) :=
  .isMooc (.ite (fun _ => .andThen (.expect _) fun _ _ _ => .done _) fun _ => .done _)

theorem loopBody_anchors (h : r.Anchored d stop) (name : String) :
    Anchors d stop m (loopBody r name) fun _ b => Sound d stop b.spots :=
  .andThen (openBody_stays _) fun _ _ _ => .bind (.within _ _ (h.block _)) fun _ _ _ sound =>
    .andThen closeBody_stays fun _ _ _ => .pure fun _ => sound

/-! ## Simple statements -/

theorem breakStat_anchors : Anchors d stop m breakStat fun _ s => Sound d stop s.spots :=
  .bind .next fun m₁ token leads took => .insideLoop fun _ => .ite
    (fun _ => .complain rfl (by grind) (.pure fun _ => by grind)) fun _ => .pure fun _ => by grind

theorem labelStat_anchors : Anchors d stop m labelStat fun _ s => Sound d stop s.spots :=
  .bind .next fun m₁ opening leads took => .andThen .expectName fun m₂ _ leads₂ =>
    .andThen (.expect _) fun m₃ _ leads₃ => .since _ (.pure fun _ => by grind)

theorem gotoStat_anchors : Anchors d stop m gotoStat fun _ s => Sound d stop s.spots :=
  .bind .next fun m₁ keyword leads took => .bind .expectName fun m₂ name leads₂ took₂ =>
    .pure fun _ => by grind

theorem skipToken_anchors : Anchors d stop m skipToken fun _ s => Sound d stop s.spots :=
  .andThen .next fun _ _ _ => .pure fun _ => by grind

/-! ## Compound statements -/

theorem doStat_anchors (h : r.Anchored d stop) :
    Anchors d stop m (doStat r) fun _ s => Sound d stop s.spots :=
  .bind .next fun m₁ keyword leads took => .andThen (brace_stays _) fun m₂ _ leads₂ =>
    .bind (.within _ _ (h.block m₂)) fun m₃ _ leads₃ sound => .andThen closeBody_stays
    fun m₄ _ leads₄ => .since _ (.pure fun _ => by grind)

theorem whileStat_anchors (h : r.Anchored d stop) :
    Anchors d stop m (whileStat r) fun _ s => Sound d stop s.spots :=
  .bind .next fun m₁ keyword leads took => .bind (exp_anchors h) fun m₂ _ leads₂ sits =>
    .bind (loopBody_anchors h _) fun m₃ _ leads₃ sound => .since _ (.pure fun _ => by grind)

theorem repeatStat_anchors (h : r.Anchored d stop) :
    Anchors d stop m (repeatStat r) fun _ s => Sound d stop s.spots :=
  .bind .next fun m₁ keyword leads took => .andThen (brace_stays _) fun m₂ _ leads₂ =>
    .bind (.within _ _ (h.block m₂)) fun m₃ _ leads₃ sound => .andThen (brace_stays _)
    fun m₄ _ leads₄ => .andThen (.expect _) fun m₅ _ leads₅ => .bind (exp_anchors h)
    fun m₆ _ leads₆ sits => .since _ (.pure fun _ => by grind)

/-- The parts of a branch. -/
@[grind =]
def BranchSound (d : Dialect) (stop : Position) (isCase : Bool) (b : Branch) : Prop :=
  Sound d stop (b.condition.spots isCase) ∧ Sound d stop b.body.spots

theorem branch_anchors (h : r.Anchored d stop) :
    Anchors d stop m (branch r) fun _ b => BranchSound d stop false b :=
  .bind (exp_anchors h) fun m₁ _ _ sits => .andThen (openBody_stays _) fun m₂ _ _ =>
    .bind (.within _ _ (h.block m₂)) fun m₃ _ _ sound => .andThen (brace_stays _) fun _ _ _ =>
    .pure fun _ => by grind

theorem elseBranch_anchors (h : r.Anchored d stop) : Anchors d stop m (elseBranch r)
    fun _ bs => ∀ b ∈ bs, BranchSound d stop false b := by
  refine .bind (.accept _) fun m₁ taken leads took => ?_
  split
  · exact .andThen (brace_stays _) fun m₂ _ _ => .bind (.within _ _ (h.block m₂))
      fun m₃ _ _ sound => .andThen (brace_stays _) fun _ _ _ => .pure fun _ => by grind
  · exact .pure fun _ => by grind

theorem ifStat_anchors (h : r.Anchored d stop) :
    Anchors d stop m (ifStat r) fun _ s => Sound d stop s.spots := by
  refine .bind .next fun m₁ keyword leads took => .bind (branch_anchors h) fun m₂ first leads₂ holds =>
    .bind (.iterate (fun _ bs => ∀ b ∈ bs.toList, BranchSound d stop false b) (by grind)
    fun m₃ bs _ all => ?_) fun m₃ bs leads₃ all => .bind (elseBranch_anchors h)
    fun m₄ last leads₄ all₄ => ?_
  · exact .andThen (.accepts _) fun _ _ _ => .ite
      (fun _ => .map (branch_anchors h) fun _ _ _ _ => by grind) fun _ => .pure fun _ => all
  have past := ((took.past leads).mono leads₂).mono (leads₃.trans leads₄)
  have rest {m₅ : Mark} (leads₅ : m₄.Leads stop m₅) : Anchors d stop m₅ (do
      return .conditional ⟨bs.toList ++ last, ← since keyword.span⟩)
      fun _ (s : Stat) => Sound d stop s.spots := by
    have located := past.located leads₅
    exact .since _ (.pure fun _ => by simp; grind)
  exact .isMooc (.ite (fun _ => .andThen (.expect _) fun m₅ _ leads₅ => rest leads₅) fun _ =>
    rest (.refl leads₄.2.1))

/-! ## Loops over ranges and iterators -/

theorem numericFor_anchors (h : r.Anchored d stop) {start : Span} (past : m.Past start)
    {var : Param} (located : var.span.Located stop) :
    Anchors d stop m (numericFor r start var) fun _ s => Sound d stop s.spots := by
  refine .andThen (.expect _) fun m₁ _ leads => .bind (exp_anchors h) fun m₂ init leads₂ sits₂ =>
    .andThen (.expect _) fun m₃ _ leads₃ => .bind (exp_anchors h) fun m₄ limit leads₄ sits₄ =>
    .andThen (.accepts _) fun m₅ _ leads₅ => ?_
  have rest {m₆ : Mark} (step : Exp) (leads₆ : m₅.Leads stop m₆)
      (sound : Sound d stop (step.spots false)) : Anchors d stop m₆ (do
        let body ← loopBody r "for"
        return .numericFor var init limit step body (← since start))
        fun _ (s : Stat) => Sound d stop s.spots :=
    .bind (loopBody_anchors h _) fun m₇ _ leads₇ sound₇ => .since _ (.pure fun _ => by grind)
  split
  · exact .bind (exp_anchors h) fun m₆ step leads₆ sits₆ => rest step leads₆ sits₆.2
  · exact .bind (P := fun _ e => e = .integer 1 .synthetic) (.pure fun _ => rfl)
      fun m₆ step leads₆ same => rest step leads₆ (by grind)

theorem genericFor_anchors (h : r.Anchored d stop) {start : Span} (past : m.Past start)
    {first : Param} (located : first.span.Located stop) :
    Anchors d stop m (genericFor r start first) fun _ s => Sound d stop s.spots := by
  refine .bind (.iterate (fun _ vars => ∀ p ∈ vars.toList, p.span.Located stop) (by grind)
    fun m₁ vars _ all => ?_) fun m₁ vars leads all => .andThen (.expect _) fun m₂ _ leads₂ =>
    .bind (expList_anchors h) fun m₃ es leads₃ all₃ => .bind (loopBody_anchors h _)
    fun m₄ _ leads₄ sound => .since _ (.pure fun _ => by grind)
  exact .andThen (.accepts _) fun _ _ _ => .ite (fun _ => .bind .expectName
    fun _ name leads took => .pure fun _ => by grind) fun _ => .pure fun _ => all

theorem forStat_anchors (h : r.Anchored d stop) :
    Anchors d stop m (forStat r) fun _ s => Sound d stop s.spots :=
  .bind .next fun m₁ keyword leads took => .bind .expectName fun m₂ name leads₂ took₂ =>
    .peek fun _ => .ite (fun _ => numericFor_anchors h (by grind) (by grind)) fun _ =>
    genericFor_anchors h (by grind) (by grind)

/-! ## Functions -/

/-- The target of a function statement. -/
@[grind =]
def FunctionName.Heads (d : Dialect) (stop front : Position) (m : Mark) (f : FunctionName) : Prop :=
  f.target.Heads d stop front m

theorem member_heads {front : Position} {m' : Mark} {f : FunctionName} {token : Token}
    (heads : f.Heads d stop front m) (leads : m.Leads stop m') (took : m.Took m' token)
    (isMethod : Bool) : (f.member token isMethod).Heads d stop front m' := by
  grind [FunctionName.member, Exp.field, Exp.span]

theorem dottedName_anchors :
    Anchors d stop m dottedName fun m' f => f.Heads d stop m.front m' := by
  refine .bind .expectName fun m₁ first leads took => .bind (.iterate
    (fun m' f => FunctionName.Heads d stop m.front m' f) (by grind [Exp.span])
    fun m₂ f leads₂ heads => ?_) fun m₂ f leads₂ heads => .andThen (.accepts _) fun m₃ _ leads₃ =>
    .ite (fun _ => .map .expectName fun m₄ name leads₄ took₄ => ?_) fun _ => .pure fun _ => by grind
  · exact .andThen (.accepts _) fun m₃ _ leads₃ => .ite (fun _ => .map .expectName
      fun m₄ name leads₄ took₄ => member_heads (by grind) leads₄ took₄ _) fun _ =>
      .pure fun _ => by grind
  · exact member_heads (by grind) leads₄ took₄ _

theorem functionName_anchors (isStatic : Bool) : Anchors d stop m (functionName isStatic)
    fun m' f => f.Heads d stop m.front m' := by
  refine .isMooc (.scopes fun _ => ?_)
  split
  · exact .map .expectName fun m₁ name leads took => by grind [Exp.field, Exp.span]
  · exact dottedName_anchors

theorem functionStyle_stays : Stays d stop m functionStyle :=
  .isMooc (.ite (fun _ => .done _) fun _ => .done _)

/-- A method is given a `self` that stands at the end of the name. -/
theorem functionStat_anchors (h : r.Anchored d stop) {start : Span} (low : .start ≤ start.start)
    (before : start.start ≤ m.front) (attr : Attribute) (isStatic : Bool) :
    Anchors d stop m (functionStat r start attr isStatic) fun _ a => Sound d stop a.spots := by
  have assigned {m₁ m₂ m₃ m₄ : Mark} {keyword : Token} {name : FunctionName} {body : FunctionBody}
      (before : start.start ≤ m₁.front) (leads₂ : m₁.Leads stop m₂) (took : m₁.Took m₂ keyword)
      (leads₃ : m₂.Leads stop m₃) (heads : name.Heads d stop m₂.front m₃) (leads₄ : m₃.Leads stop m₄)
      (sound : Sound d stop body.spots) : Sound d stop (Assignment.spots
        { targets := [name.target]
          values := [.function { body with
            params := if name.isMethod then ⟨"self", m₃.now⟩ :: body.params else body.params
            isMethod := name.isMethod, owner := name.owner, name := some name.name }
              (keyword.span.merge m₄.now)]
          attr, span := start.merge m₄.now }) := by
    have located := (took.past leads₂).located (leads₃.trans leads₄)
    have self : m₃.now.Located stop := by grind
    have whole : (start.merge m₄.now).Located stop := by grind
    simp only [FunctionBody.spots_eq, sound_append, sound_paramsSpots] at sound
    simp only [Assignment.spots_eq, List.cons_append, sound_cons, sound_node, sound_append,
      sound_expsSpots, List.forall_mem_singleton, Exp.spots, FunctionBody.spots_eq,
      sound_paramsSpots]
    refine ⟨whole, heads.2.2.2.2.2, located, fun p among => ?_, sound.2⟩
    split at among
    · rcases List.mem_cons.1 among with rfl | among
      · exact self
      · exact sound.1 p among
    · exact sound.1 p among
  refine .ite (fun _ => .andThen .next fun m₁ _ leads => ?_) fun _ => ?_
  all_goals
    refine .andThen (functionStyle_stays) fun m₂ style leads₂ => .bind (.expect _)
      fun m₃ keyword leads₃ took => .bind (functionName_anchors isStatic) fun m₄ name leads₄ heads =>
      .now (.bind (h.functionBody m₄ style.2) fun m₅ body leads₅ sound => .since _ (.since _
      (.pure fun _ => assigned (by grind) leads₃ took leads₄ heads leads₅ sound.2)))

theorem localFunction_anchors (h : r.Anchored d stop) {start : Span} (past : m.Past start) :
    Anchors d stop m (localFunction r start) fun _ s => Sound d stop s.spots :=
  .andThen functionStyle_stays fun m₁ (_, _) leads => .andThen .next fun m₂ _ leads₂ =>
    .bind .expectName fun m₃ name leads₃ took => .bind (h.functionBody _ _)
    fun m₄ body leads₄ holds => .since _ (.pure fun _ => by
      have located := (past.mono leads).located (leads₂.trans (leads₃.trans leads₄))
      grind)

theorem assignFunction_anchors (h : r.Anchored d stop) {start : Span} (low : .start ≤ start.start)
    (before : start.start ≤ m.front) (attr : Attribute) (isStatic : Bool) :
    Anchors d stop m (do return Stat.assign (← functionStat r start attr isStatic))
      fun _ s => Sound d stop s.spots :=
  .map (functionStat_anchors h low before attr isStatic) fun _ _ _ sound => by simpa using sound

theorem luaStat_anchors (h : r.Anchored d stop) :
    Anchors d stop m (luaStat r) fun _ s => Sound d stop s.spots := by
  refine .peek fun kind => ?_
  split
  · exact skipToken_anchors
  · exact skipToken_anchors
  · exact breakStat_anchors
  · exact labelStat_anchors
  · exact gotoStat_anchors
  · exact doStat_anchors h
  · exact whileStat_anchors h
  · exact repeatStat_anchors h
  · exact ifStat_anchors h
  · exact forStat_anchors h
  · exact .head fun _ first low => assignFunction_anchors h low (by grind) _ _
  · exact .bind .next fun _ _ leads took => .peek fun _ => .ite
      (fun _ => localFunction_anchors h (took.past leads)) fun _ =>
      localDecl_anchors h (took.past leads)
  · exact assignOrCall_anchors h

end Parser

end LuaChunk
