import LuaChunk.Proofs.Recursion.Statement
import LuaChunk.Proofs.Replay.Expression
import LuaChunk.Proofs.Tree.WellFormed
import LuaChunk.Proofs.Views.Layout

/-!
# Statements read again

A statement may end where its fragment ends if the same token follows in both texts.
-/

set_option autoImplicit false

namespace LuaChunk

abbrev Branch.unplaced (b : Branch) : Branch := b.recast (fun _ => .synthetic) none

abbrev Assignment.unplaced (a : Assignment) : Assignment := a.recast (fun _ => .synthetic) none

namespace Exp

def call? : Exp → Option Call
  | call c _ => some c
  | _ => none

variable {place : Span → Span} {cap : Option Nat}

@[simp]
theorem isTarget_recast (e : Exp) : (e.recast place cap).isTarget = e.isTarget := by
  cases e <;> rfl

@[simp]
theorem isBad_recast (e : Exp) : (e.recast place cap).isBad = e.isBad := by cases e <;> rfl

@[simp]
theorem call?_recast (e : Exp) :
    (e.recast place cap).call? = e.call?.map (·.recast place cap) := by
  cases e <;> rfl

end Exp

namespace Parser

variable {w : Frontier} {loose : Looseness} {known : Option TokenKind} {kind : TokenKind}
  {taking : Bool} {r r' : Rules}

/-! ## Local names -/

theorem attr_replays : Replays w loose known false w.Same id attr attr := by
  have closed (attr : Attribute) : Replays w loose none false w.Same id
      (do let attr ← pure attr; let _ ← expect .greater; return attr)
      (do let attr ← pure attr; let _ ← expect .greater; return attr) :=
    .andThen (.pure rfl) fun _ => .expect (by decide) fun _ _ _ _ => .pure rfl
  exact .andThen (.accepts (by decide) .inl) fun _ => .ite (fun _ => .pure rfl) fun _ =>
    .expectName fun _ _ _ _ => .ite (fun _ => closed .const) fun _ => .ite
    (fun _ => closed .close) fun _ => .complaining (closed .regular)

/-- The names read so far, wherever they stand. -/
def AttrNames.unplaced (read : AttrNames) : AttrNames :=
  { read with names := read.names.map Param.unplaced }

theorem moreAttrNames_replays (read read' : AttrNames) (same : read.unplaced = read'.unplaced) :
    Replays w loose known taking w.Same (onRound AttrNames.unplaced) (moreAttrNames read)
      (moreAttrNames read') := by
  obtain ⟨names, attrs, hasClose⟩ := read
  obtain ⟨names', attrs', hasClose'⟩ := read'
  obtain ⟨same, rfl, rfl⟩ := AttrNames.mk.inj same
  refine .expectName fun kind text span span' => .andThen attr_replays fun attr => ?_
  have rest : Replays w loose none false w.Same (onRound AttrNames.unplaced)
      (do
        let read : AttrNames := ⟨names.push ⟨text, span⟩, attrs.push attr,
          hasClose || attr == .close⟩
        if ← accepts .comma then return .yield read else return .done read)
      (do
        let read : AttrNames := ⟨names'.push ⟨text, span'⟩, attrs.push attr,
          hasClose || attr == .close⟩
        if ← accepts .comma then return .yield read else return .done read) :=
    .andThen (.accepts (by decide) .inl) fun _ => .ite
      (fun _ => .pure (by simp [AttrNames.unplaced, Param.recast, same]))
      fun _ => .pure (by simp [AttrNames.unplaced, Param.recast, same])
  exact .ite (fun _ => .now fun _ _ => .complaining rest) fun _ => rest

theorem attrNames_replays : Replays w loose known false w.Same
    (Prod.map (List.map Param.unplaced) id) attrNames attrNames :=
  .map (.iterate AttrNames.unplaced (fun c d => moreAttrNames_agree) rfl
    moreAttrNames_replays) fun read read' same => by
      obtain ⟨names, attrs, -⟩ := AttrNames.mk.inj same
      exact Prod.ext (by simpa using congrArg Array.toList names) (congrArg Array.toList attrs)

theorem localDecl_replays (h : r.Replays w r') (start start' : Span) :
    Replays w loose known false w.Same Stat.unplaced (localDecl r start) (localDecl r' start') := by
  refine .bind attrNames_replays fun (names, attrs) (names', attrs') same =>
    .andThen (.accepts (by decide) .inl) fun _ => ?_
  obtain ⟨places, rfl⟩ := Prod.mk.inj same
  have rest (values values' : List Exp)
      (same : values.map Exp.unplaced = values'.map Exp.unplaced) :
      Replays w loose none false w.Same Stat.unplaced
        (do return .declare { names, attrs, values, span := ← since start })
        (do return .declare { names := names', attrs, values := values', span := ← since start' }) :=
    .since fun _ _ => .pure (by simp [places, same])
  split
  · exact .bind (expList_replays h Frontier.Same.stops) rest
  · exact .giving (List.map Exp.unplaced) rfl rest

/-! ## Targets -/

theorem target_eq (e : Exp) : target e =
    if e.isTarget = true then pure e else do complain .notAssignable e.span; return .bad e.span := by
  cases e <;> rfl

theorem target_replays {loose : Option Looseness} {ends : Prop} (e e' : Exp)
    (same : e.unplaced = e'.unplaced) :
    Replays w loose known false ends Exp.unplaced (target e) (target e') := by
  rw [target_eq, target_eq]
  have kinds : e.isTarget = e'.isTarget := by simpa using congrArg Exp.isTarget same
  rw [kinds]
  exact .ite (fun _ => .pure same) fun _ => .complaining (.pure rfl)

theorem moreTargets_replays {loose : Option Looseness} {ends : Prop} (h : r.Replays w r')
    (stop : ends → w.Same) (targets targets' : Array Exp)
    (same : targets.map Exp.unplaced = targets'.map Exp.unplaced) :
    Replays w loose known false ends (onRound (Array.map Exp.unplaced)) (moreTargets r targets)
      (moreTargets r' targets') :=
  .andThen (.accepts (by decide) fun may => .inl (stop may)) fun _ => .ite (fun _ => .bind (prefixExp_replays h)
    fun e e' same' => .map (target_replays e e' same') fun _ _ same' => by simp [same, same'])
    fun _ => .pure (by simp [same])

theorem compound_replays {loose : Option Looseness} {ends : Prop} (h : r.Replays w r')
    (stop : ends → w.Stops) (more : kind ≠ .eof) (start start' : Span) (op : BinaryOp)
    {target target' : Exp} (same : target.unplaced = target'.unplaced) :
    Replays w loose (some kind) taking ends Stat.unplaced (compound r start op target)
      (compound r' start' op target') := by
  refine .next more fun _ _ _ _ => .peekTaking fun kind => .ite
    (fun _ => .since fun _ _ => .complaining (.pure rfl)) fun assign => ?_
  obtain rfl := Decidable.not_not.1 assign
  exact .next (by decide) fun _ _ _ _ => .bind (exp_replays h stop)
    fun e e' same' => .since fun _ _ => .pure (by simp [Assignment.compound, same, same'])

theorem badCompound_replays (h : r.Replays w r') (more : kind ≠ .eof) (start start' : Span) :
    Replays w loose (some kind) taking w.Same Stat.unplaced (badCompound r start)
      (badCompound r' start') := by
  refine .next more fun _ _ _ _ => .andThen (.accepts (by decide) .inl) fun _ => .ite
    (fun _ => .bind (expList_replays h Frontier.Same.stops) fun _ _ _ => ?_) fun _ => ?_
  all_goals exact .since fun _ _ => .complaining (.pure rfl)

theorem implicitLocals_unplaced {targets targets' : List Exp}
    (same : targets.map Exp.unplaced = targets'.map Exp.unplaced) (span span' : Span) :
    (implicitLocals targets span).recast (fun _ => .synthetic) none =
      (implicitLocals targets' span').recast (fun _ => .synthetic) none := by
  have seen (targets : List Exp) (span : Span) := implicitLocals_seen (v := .bare) targets span
  exact (seen targets span).symm.trans (by rw [show targets.map View.bare.exp = _ from same]; exact seen targets' span')

theorem plainAssign_replays (h : r.Replays w r') (start start' : Span) {targets targets' : List Exp}
    (same : targets.map Exp.unplaced = targets'.map Exp.unplaced) :
    Replays w loose known false w.Same Stat.unplaced (plainAssign r start targets)
      (plainAssign r' start' targets') :=
  .andThen (.accepts (by decide) .inl) fun _ => .ite
    (fun _ => .bind (expList_replays h Frontier.Same.stops) fun values values' same' =>
      .since fun _ _ => .pure (by simp [same, same'])) fun _ => .isMooc <| .ite
    (fun _ => .since fun _ _ => .pure (congrArg Stat.declare (implicitLocals_unplaced same _ _)))
    fun _ => .looking (fun _ => ()) (.peekToken 0) (.peekToken 0) (fun _ _ => rfl)
    fun _ _ _ => .complaining (.pure rfl)

theorem assignRest_replays (h : r.Replays w r') (start start' : Span) {first first' : Exp}
    (same : first.unplaced = first'.unplaced) :
    Replays w loose known false w.Same Stat.unplaced (assignRest r start first)
      (assignRest r' start' first') := by
  refine .bind (target_replays first first' same) fun first first' same => .bind
    (.iterate (Array.map Exp.unplaced) (fun c d => moreTargets_agree (h.agree c d))
      (by simp [same]) (moreTargets_replays h id)) fun targets targets' same =>
    .peek .same fun kind => ?_
  replace same := congrArg Array.toList same
  rw [Array.toList_map, Array.toList_map] at same
  cases found : BinaryOp.ofCompound? kind with
  | none => exact plainAssign_replays h start start' same
  | some op =>
    have more := BinaryOp.ne_eof (BinaryOp.ofToken?_of_compound found)
    have several {targets targets' : List Exp}
        (same : targets.map Exp.unplaced = targets'.map Exp.unplaced) :
        Replays w loose (some kind) false w.Same Stat.unplaced
          (do if ← isMooc then plainAssign r start targets else badCompound r start)
          (do if ← isMooc then plainAssign r' start' targets' else badCompound r' start') :=
      .isMooc <| .ite (fun _ => plainAssign_replays h start start' same) fun _ =>
        badCompound_replays h more start start'
    generalize targets.toList = targets, targets'.toList = targets' at same
    rcases targets with _ | ⟨target, _ | ⟨second, rest⟩⟩
    · obtain rfl := List.map_eq_nil_iff.1 same.symm
      exact several rfl
    · obtain ⟨target', _, rfl, alike, none⟩ := List.map_eq_cons_iff.1 same.symm
      obtain rfl := List.map_eq_nil_iff.1 none
      exact compound_replays h Frontier.Same.stops more start start' op alike.symm
    · obtain ⟨target', _, rfl, -, others⟩ := List.map_eq_cons_iff.1 same.symm
      obtain ⟨second', rest', rfl, -, -⟩ := List.map_eq_cons_iff.1 others
      exact several same

/-- A statement from behind its first operand on. -/
def afterOperand (r : Rules) (start : Span) (e : Exp) : Parser Stat := do
  if e.isBad = true then return .empty
  match e.call? with
  | some call => return .call call (← since start)
  | none => assignRest r start e

theorem assignOrCall_eq (r : Rules) : assignOrCall r = (do
    let start ← head
    let e ← prefixExp r
    afterOperand r start e) := by
  refine congrArg _ (funext fun start => congrArg _ (funext fun e => ?_))
  cases e <;> rfl

theorem afterOperand_replays (h : r.Replays w r') (start start' : Span) (e e' : Exp)
    (same : e.unplaced = e'.unplaced) : Replays w loose known false w.Same Stat.unplaced
      (afterOperand r start e) (afterOperand r' start' e') := by
  have bad : e.isBad = e'.isBad := by simpa using congrArg Exp.isBad same
  have calls : e.call?.map (·.recast (fun _ => .synthetic) none) =
      e'.call?.map (·.recast (fun _ => .synthetic) none) := by
    simpa using congrArg Exp.call? same
  unfold afterOperand
  rw [bad]
  refine .ite (fun _ => .pure rfl) fun _ => ?_
  generalize e.call? = called, e'.call? = called' at calls
  rcases called with _ | call <;> rcases called' with _ | call'
  · exact assignRest_replays h start start' same
  · cases calls
  · cases calls
  · exact .since fun _ _ => .pure (by simpa using calls)

theorem assignOrCall_replays (h : r.Replays w r') :
    Replays w loose known taking w.Same Stat.unplaced (assignOrCall r) (assignOrCall r') := by
  rw [assignOrCall_eq, assignOrCall_eq]
  exact .head fun start start' => .bind (prefixExp_replays h) (afterOperand_replays h start start')

/-! ## Bodies -/

theorem openBody_replays {word : TokenKind} (more : word ≠ .eof) :
    Replays w loose known taking w.Same id (openBody word) (openBody word) :=
  .isMooc <| .expect (by split; decide; exact more) fun _ _ _ _ => .pure rfl

theorem closeBody_replays : Replays w loose known taking w.Same id closeBody closeBody :=
  .isMooc <| .expect (by split <;> decide) fun _ _ _ _ => .pure rfl

theorem brace_replays (more : kind ≠ .eof) :
    Replays w loose known false w.Same id (brace kind) (brace kind) :=
  .isMooc <| .ite (fun _ => .expect more fun _ _ _ _ => .pure rfl) fun _ => .pure rfl

theorem body_replays (h : r.Replays w r') (kind : ScopeKind) (name : String) :
    Replays w loose known false w.Same Block.unplaced (within kind name r.block)
      (within kind name r'.block) :=
  .within _ _ (h.block (some loose)).weaken

theorem loopBody_replays (h : r.Replays w r') (name : String) :
    Replays w loose known taking w.Same Block.unplaced (loopBody r name) (loopBody r' name) :=
  .andThen (openBody_replays (by decide)) fun _ => .bind (body_replays h _ _) fun _ _ same =>
    .andThen closeBody_replays fun _ => .pure same

/-! ## Simple statements -/

theorem breakStat_replays (more : kind ≠ .eof) :
    Replays w loose (some kind) taking w.Same Stat.unplaced breakStat breakStat :=
  .next more fun _ _ _ _ => .insideLoop fun _ => .ite (fun _ => .complaining (.pure rfl))
    fun _ => .pure rfl

theorem labelStat_replays (more : kind ≠ .eof) :
    Replays w loose (some kind) taking w.Same Stat.unplaced labelStat labelStat :=
  .next more fun _ _ _ _ => .expectName fun _ _ _ _ => .expect (by decide) fun _ _ _ _ =>
    .since fun _ _ => .pure rfl

theorem gotoStat_replays (more : kind ≠ .eof) :
    Replays w loose (some kind) taking w.Same Stat.unplaced gotoStat gotoStat :=
  .next more fun _ _ _ _ => .expectName fun _ _ _ _ => .pure rfl

theorem skipToken_replays (more : kind ≠ .eof) :
    Replays w loose (some kind) taking w.Same Stat.unplaced skipToken skipToken :=
  .next more fun _ _ _ _ => .pure rfl

/-! ## Compound statements -/

theorem doStat_replays (h : r.Replays w r') (more : kind ≠ .eof) :
    Replays w loose (some kind) taking w.Same Stat.unplaced (doStat r) (doStat r') :=
  .next more fun _ _ _ _ => .andThen (brace_replays (by decide)) fun _ =>
    .bind (body_replays h _ _) fun _ _ same => .andThen closeBody_replays fun _ => .since fun _ _ =>
    .pure (by simp [same])

theorem whileStat_replays (h : r.Replays w r') (more : kind ≠ .eof) :
    Replays w loose (some kind) taking w.Same Stat.unplaced (whileStat r) (whileStat r') :=
  .next more fun _ _ _ _ => .bind (exp_replays h Frontier.Same.stops) fun _ _ condition =>
    .bind (loopBody_replays h _) fun _ _ body => .since fun _ _ =>
    .pure (by simp [condition, body])

theorem repeatStat_replays (h : r.Replays w r') (more : kind ≠ .eof) :
    Replays w loose (some kind) taking w.Same Stat.unplaced (repeatStat r) (repeatStat r') :=
  .next more fun _ _ _ _ => .andThen (brace_replays (by decide)) fun _ =>
    .bind (body_replays h _ _) fun _ _ body => .andThen (brace_replays (by decide)) fun _ =>
    .expect (by decide) fun _ _ _ _ => .bind (exp_replays h Frontier.Same.stops)
    fun _ _ condition => .since fun _ _ => .pure (by simp [condition, body])

theorem branch_replays (h : r.Replays w r') :
    Replays w loose known taking w.Same Branch.unplaced (branch r) (branch r') :=
  .bind (exp_replays h Frontier.Same.stops) fun _ _ condition =>
    .andThen (openBody_replays (by decide)) fun _ => .bind (body_replays h _ _) fun _ _ body =>
    .andThen (brace_replays (by decide)) fun _ => .pure (by simp [condition, body])

theorem moreBranches_replays (h : r.Replays w r') (branches branches' : Array Branch)
    (same : branches.map Branch.unplaced = branches'.map Branch.unplaced) :
    Replays w loose known false w.Same (onRound (Array.map Branch.unplaced))
      (moreBranches r branches) (moreBranches r' branches') :=
  .andThen (.accepts (by decide) .inl) fun _ => .ite
    (fun _ => .map (branch_replays h) fun _ _ branch => by simp [same, branch])
    fun _ => .pure (by simp [same])

theorem elseBranch_replays (h : r.Replays w r') :
    Replays w loose known false w.Same (List.map Branch.unplaced) (elseBranch r)
      (elseBranch r') :=
  .accept (by decide) .inl (fun _ _ _ _ => .andThen (brace_replays (by decide)) fun _ =>
    .bind (body_replays h _ _) fun _ _ body => .andThen (brace_replays (by decide)) fun _ =>
    .pure (by simp [body])) (.pure rfl)

theorem ifStat_replays (h : r.Replays w r') (more : kind ≠ .eof) :
    Replays w loose (some kind) taking w.Same Stat.unplaced (ifStat r) (ifStat r') := by
  refine .next more fun _ _ _ _ => .bind (branch_replays h) fun first first' same => .bind
    (.iterate (Array.map Branch.unplaced) (fun c d => moreBranches_agree (h.agree c d))
      (by simp [same]) (moreBranches_replays h)) fun branches branches' same =>
    .bind (elseBranch_replays h) fun last last' same' => .isMooc <| .ite
    (fun _ => .expect (by decide) fun _ _ _ _ => ?_) fun _ => ?_
  all_goals
    refine .since fun _ _ => .pure ?_
    have rounds := congrArg Array.toList same
    simp only [Array.toList_map] at rounds
    simp [rounds, same']

/-! ## Loops over ranges and iterators -/

theorem numericFor_replays (h : r.Replays w r') (start start' : Span) {var var' : Param}
    (same : var.unplaced = var'.unplaced) :
    Replays w loose known taking w.Same Stat.unplaced (numericFor r start var)
      (numericFor r' start' var') := by
  refine .expect (by decide) fun _ _ _ _ => .bind (exp_replays h Frontier.Same.stops)
    fun init init' initial => .expect (by decide) fun _ _ _ _ =>
    .bind (exp_replays h Frontier.Same.stops) fun limit limit' last =>
    .andThen (.accepts (by decide) .inl) fun _ => ?_
  have rest (step step' : Exp) (each : step.unplaced = step'.unplaced) :
      Replays w loose none false w.Same Stat.unplaced
        (do
          let body ← loopBody r "for"
          return .numericFor var init limit step body (← since start))
        (do
          let body ← loopBody r' "for"
          return .numericFor var' init' limit' step' body (← since start')) :=
    .bind (loopBody_replays h _) fun _ _ body => .since fun _ _ =>
      .pure (by simp [same, initial, last, each, body])
  exact .ite (fun _ => .bind (exp_replays h Frontier.Same.stops) rest)
    fun _ => .giving Exp.unplaced rfl rest

theorem moreVars_replays (vars vars' : Array Param)
    (same : vars.map Param.unplaced = vars'.map Param.unplaced) :
    Replays w loose known false w.Same (onRound (Array.map Param.unplaced)) (moreVars vars)
      (moreVars vars') :=
  .andThen (.accepts (by decide) .inl) fun _ => .ite
    (fun _ => .expectName fun _ _ _ _ => .pure (by simp [same, Param.recast]))
    fun _ => .pure (by simp [same])

theorem genericFor_replays (h : r.Replays w r') (start start' : Span) {first first' : Param}
    (same : first.unplaced = first'.unplaced) :
    Replays w loose known false w.Same Stat.unplaced (genericFor r start first)
      (genericFor r' start' first') :=
  .bind (.iterate (Array.map Param.unplaced) (fun c d => moreVars_agree) (by simp [same])
    moreVars_replays) fun _ _ vars => .expect (by decide) fun _ _ _ _ =>
    .bind (expList_replays h Frontier.Same.stops) fun _ _ iterables =>
    .bind (loopBody_replays h _) fun _ _ body => .since fun _ _ => .pure (by
      have names := congrArg Array.toList vars
      simp only [Array.toList_map] at names
      simp [names, iterables, body])

theorem forStat_replays (h : r.Replays w r') (more : kind ≠ .eof) :
    Replays w loose (some kind) taking w.Same Stat.unplaced (forStat r) (forStat r') :=
  .next more fun _ _ _ _ => .expectName fun _ _ _ _ => .peek .same fun _ => .ite
    (fun _ => numericFor_replays h _ _ rfl) fun _ => genericFor_replays h _ _ rfl

/-! ## Functions -/

theorem functionStyle_replays {β γ : Type} {ends : Prop} {look : β → γ}
    {f g : TokenKind × FunctionStyle → Parser β}
    (k : ∀ word style, word ≠ .eof → Replays w loose known taking ends look (f (word, style))
      (g (word, style))) :
    Replays w loose known taking ends look (functionStyle >>= f) (functionStyle >>= g) := by
  have chosen (h : TokenKind × FunctionStyle → Parser β) : (functionStyle >>= h) = (do
      if ← isMooc then h (.kwFn, .braced) else h (.kwFunction, .ended)) := by
    rw [functionStyle, bind_assoc]
    refine congrArg _ (funext fun mooc => ?_)
    cases mooc <;> rfl
  rw [chosen, chosen]
  exact .isMooc <| .ite (fun _ => k _ _ (by decide)) fun _ => k _ _ (by decide)

/-- The name of a function, wherever it stands. -/
def FunctionName.unplaced (f : FunctionName) : FunctionName :=
  { f with target := f.target.unplaced }

theorem FunctionName.member_unplaced {f f' : FunctionName} (same : f.unplaced = f'.unplaced)
    (kind : TokenKind) (text : String) (span span' : Span) (isMethod : Bool) :
    (f.member ⟨kind, text, span⟩ isMethod).unplaced =
      (f'.member ⟨kind, text, span'⟩ isMethod).unplaced := by
  obtain ⟨target, -, -, name⟩ := FunctionName.mk.inj same
  simp [unplaced, member, Exp.field, target, name]

theorem moreNames_replays (f f' : FunctionName) (same : f.unplaced = f'.unplaced) :
    Replays w loose known false w.Same (onRound FunctionName.unplaced) (moreNames f)
      (moreNames f') :=
  .andThen (.accepts (by decide) .inl) fun _ => .ite
    (fun _ => .expectName fun _ _ _ _ => .pure
      (congrArg ForInStep.yield (FunctionName.member_unplaced same ..)))
    fun _ => .pure (by simp [same])

theorem dottedName_replays :
    Replays w loose known taking w.Same FunctionName.unplaced dottedName dottedName :=
  .expectName fun _ _ _ _ => .bind (.iterate FunctionName.unplaced
    (fun c d => moreNames_agree) rfl moreNames_replays) fun _ _ same =>
    .andThen (.accepts (by decide) .inl) fun _ => .ite
    (fun _ => .expectName fun _ _ _ _ => .pure (FunctionName.member_unplaced same ..))
    fun _ => .pure same

theorem functionName_replays (isStatic : Bool) :
    Replays w loose known taking w.Same FunctionName.unplaced (functionName isStatic)
      (functionName isStatic) := by
  refine .isMooc <| .scopes (ScopeStack.currentClass?)
    (fun parallel => parallel.currentClass?.symm) fun s s' same => ?_
  rw [← same]
  split
  · exact .expectName fun _ _ _ _ => .pure rfl
  · exact dottedName_replays

/-- The assignment of a function to its name. -/
def FunctionName.assigned (f : FunctionName) (body : FunctionBody) (attr : Attribute)
    (self word span : Span) : Assignment :=
  { targets := [f.target], values := [.function (f.named body self) word], attr, span }

theorem FunctionName.unplaced_assigned {f f' : FunctionName} (same : f.unplaced = f'.unplaced)
    {body body' : FunctionBody} (same' : body.unplaced = body'.unplaced) (attr : Attribute)
    (self self' word word' span span' : Span) :
    (f.assigned body attr self word span).unplaced =
      (f'.assigned body' attr self' word' span').unplaced := by
  obtain ⟨target, method, owner, name⟩ := FunctionName.mk.inj same
  cases body
  cases body'
  obtain ⟨params, isVararg, -, block, -, -⟩ := FunctionBody.mk.inj same'
  simp only [Param.recast] at params
  simp only [assigned, named, method, owner, name]
  cases f'.isMethod <;> simp [target, params, isVararg, block, Param.recast]

theorem functionStat_replays (h : r.Replays w r') (start start' : Span) (attr : Attribute)
    (isStatic : Bool) (facing : isStatic = true → known = some .kwStatic) :
    Replays w loose known taking w.Same Assignment.unplaced (functionStat r start attr isStatic)
      (functionStat r' start' attr isStatic) := by
  refine .ite (fun static => ?_) fun _ => ?_
  · rw [facing static]
    exact .next (by decide) fun _ _ _ _ => functionStyle_replays fun word style more =>
      .expect more fun _ _ _ _ => .bind (functionName_replays _) fun f f' same => .now fun _ _ =>
      .bind ((h.functionBody loose style).mono fun _ => trivial).any fun body body' same' =>
      .since fun _ _ => .since fun _ _ => .pure (FunctionName.unplaced_assigned same same' ..)
  · exact functionStyle_replays fun word style more =>
      .expect more fun _ _ _ _ => .bind (functionName_replays _) fun f f' same => .now fun _ _ =>
      .bind ((h.functionBody loose style).mono fun _ => trivial).any fun body body' same' =>
      .since fun _ _ => .since fun _ _ => .pure (FunctionName.unplaced_assigned same same' ..)

theorem localFunction_replays (h : r.Replays w r') (more : kind ≠ .eof) (start start' : Span) :
    Replays w loose (some kind) taking w.Same Stat.unplaced (localFunction r start)
      (localFunction r' start') :=
  functionStyle_replays fun _ style _ => .next more fun _ _ _ _ => .expectName fun _ _ _ _ =>
    .bind ((h.functionBody loose style).mono fun _ => trivial).any fun body body' same => .since
    fun _ _ => .pure (by
      cases body
      cases body'
      obtain ⟨params, isVararg, isMethod, block, owner, -⟩ := FunctionBody.mk.inj same
      simp only [Param.recast] at params
      simp [Param.recast, params, isVararg, isMethod, block, owner])

theorem assignFunction_replays (h : r.Replays w r') (start start' : Span) (attr : Attribute)
    (isStatic : Bool) (facing : isStatic = true → known = some .kwStatic) :
    Replays w loose known taking w.Same Stat.unplaced
      (do return .assign (← functionStat r start attr isStatic))
      (do return .assign (← functionStat r' start' attr isStatic)) :=
  .map (functionStat_replays h start start' attr isStatic facing) fun _ _ same => by simpa using same

theorem luaStat_replays (h : r.Replays w r') :
    Replays w loose known false w.Same Stat.unplaced (luaStat r) (luaStat r') := by
  refine .peek .same fun kind => ?_
  split
  · exact skipToken_replays (by decide)
  · exact skipToken_replays (by decide)
  · exact breakStat_replays (by decide)
  · exact labelStat_replays (by decide)
  · exact gotoStat_replays (by decide)
  · exact doStat_replays h (by decide)
  · exact whileStat_replays h (by decide)
  · exact repeatStat_replays h (by decide)
  · exact ifStat_replays h (by decide)
  · exact forStat_replays h (by decide)
  · exact .head fun _ _ => assignFunction_replays h _ _ _ _ nofun
  · exact .next (by decide) fun _ _ _ _ => .peek .same fun kind => .ite
      (fun function => localFunction_replays h (function ▸ by decide) _ _)
      fun _ => localDecl_replays h _ _
  · exact assignOrCall_replays h

end Parser

end LuaChunk
