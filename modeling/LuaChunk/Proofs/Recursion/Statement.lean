import LuaChunk.Proofs.Recursion.Expression

/-!
# Statements of both dialects read by rules that agree
-/

set_option autoImplicit false

namespace LuaChunk.Parser

variable {c : Settings} {d : Nat} {k : Headway} {r r' : Rules}

/-! ## Assignments and declarations -/

theorem attr_agree : Agree c d k attr attr fun _ => k.pass := by
  apply Agree.bind (.accepts .less)
  intro _
  apply Agree.ite
  · intro _
    exact .still _
  intro _
  apply Agree.bind .expectName
  intro name
  have closing (attr : Attribute) : Agree c d k.pass.take
      (do let _ ← expect .greater; return attr) (do let _ ← expect .greater; return attr)
      fun _ => k.pass := .give (.expect .greater)
  apply Agree.ite
  · intro _
    exact .bind (.still _) closing
  intro _
  apply Agree.ite
  · intro _
    exact .bind (.still _) closing
  intro _
  exact .bind (.complain rfl _) fun _ => .bind (.still _) closing

theorem moreAttrNames_agree (read : AttrNames) :
    Agree c d k (moreAttrNames read) (moreAttrNames read) Headway.ofRound := by
  have onward (read : AttrNames) : Agree c d k.take
      (do if ← accepts .comma then return .yield read else return .done read)
      (do if ← accepts .comma then return .yield read else return .done read) Headway.ofRound :=
    .ifAccepts (by decide) (.done _ (.round rfl)) (.done _ (.none _))
  apply Agree.bind .expectName
  intro name
  apply Agree.bind attr_agree
  intro attr
  apply Agree.ite
  · intro _
    apply Agree.bind .now
    intro span
    exact .bind (.complain rfl span) fun _ => onward _
  · intro _
    exact onward _

theorem attrNames_agree : Agree c d k attrNames attrNames fun _ => k.pass :=
  .give (.iterate moreAttrNames_agree)

theorem localDecl_agree (h : r.Agree c d r') (start : Span) :
    Agree c d k (localDecl r start) (localDecl r' start) fun _ => k.pass := by
  apply Agree.bind attrNames_agree
  intro names
  apply Agree.bind (.accepts .assign)
  intro _
  apply Agree.ite
  · intro _
    exact .bind (expList_agree h) fun values => .bind (.since start) fun _ => .done _ (.take _)
  · intro _
    exact .bind (.still _) fun values => .give (.since start)

theorem target_agree (exp : Exp) : Agree c d k (target exp) (target exp) fun _ => k := by
  unfold target
  split
  · exact .still _
  · exact .still _
  · exact .still _
  · exact .bind (.complain rfl _) fun _ => .still _

theorem moreTargets_agree (h : r.Agree c d r') (targets : Array Exp) :
    Agree c d k (moreTargets r targets) (moreTargets r' targets) Headway.ofRound := by
  apply Agree.ifAccepts (by decide)
  · exact .bind (prefixExp_agree h) fun exp => .map (target_agree exp) fun _ => .round rfl
  · exact .done _ (.none _)

theorem compound_agree (h : r.Agree c d r') (start : Span) (op : BinaryOp) (target : Exp) :
    Agree c d k (compound r start op target) (compound r' start op target) fun _ => k.take := by
  apply Agree.bind .next
  intro _
  apply Agree.bind .asked
  intro kind
  apply Agree.ite
  · intro _
    exact .bind (.since start) fun span => .bind (.complain rfl span) fun _ => .still _
  · intro _
    exact .bind .next fun _ => .bind (exp_agree h) fun value => .give (.since start)

theorem badCompound_agree (h : r.Agree c d r') (start : Span) :
    Agree c d k (badCompound r start) (badCompound r' start) fun _ => k.take := by
  have complaining : Agree c d k.take
      (do complain .severalCompoundTargets (← since start); return Stat.empty)
      (do complain .severalCompoundTargets (← since start); return Stat.empty) fun _ => k.take :=
    .bind (.since start) fun span => .bind (.complain rfl span) fun _ => .still _
  apply Agree.bind .next
  intro _
  apply Agree.bind (.accepts .assign)
  intro _
  apply Agree.ite
  · intro _
    exact .bind (expList_agree h) fun _ => complaining
  · intro _
    exact complaining

theorem plainAssign_agree (h : r.Agree c d r') (start : Span) (targets : List Exp) :
    Agree c d k (plainAssign r start targets) (plainAssign r' start targets) fun _ => k.pass := by
  apply Agree.bind (.accepts .assign)
  intro _
  apply Agree.ite
  · intro _
    exact .bind (expList_agree h) fun values => .bind (.since start) fun _ => .done _ (.take _)
  intro _
  apply Agree.bind .isMooc
  intro mooc
  apply Agree.ite
  · intro _
    exact .give (.since start)
  · intro _
    exact .bind (.peekToken 0) fun token => .bind (.complain rfl _) fun _ => .still _

theorem assignRest_agree (h : r.Agree c d r') (start : Span) (first : Exp) :
    Agree c d k (assignRest r start first) (assignRest r' start first) fun _ => k.pass := by
  apply Agree.bind (target_agree first)
  intro first
  apply Agree.bind (.iterate (moreTargets_agree h))
  intro targets
  apply Agree.bind .asked
  intro kind
  split
  · exact (compound_agree h start _ _).drop
  · apply Agree.bind .isMooc
    intro mooc
    apply Agree.ite
    · intro _
      exact plainAssign_agree h start _
    · intro _
      exact (badCompound_agree h start).drop
  · exact plainAssign_agree h start _

theorem assignOrCall_agree (h : r.Agree c d r') :
    Agree c d k (assignOrCall r) (assignOrCall r') fun _ => k.take := by
  apply Agree.bind .head
  intro start
  apply Agree.bind (prefixExp_agree h)
  intro exp
  split
  · exact .still _
  · exact .give (.since start)
  · exact assignRest_agree h start _

/-! ## Bodies -/

theorem openBody_agree (word : TokenKind) :
    Agree c d k (openBody word) (openBody word) fun _ => k.take :=
  .bind .isMooc fun _ => .give (.expect _)

theorem closeBody_agree : Agree c d k closeBody closeBody fun _ => k.take :=
  .bind .isMooc fun _ => .give (.expect _)

theorem brace_agree (kind : TokenKind) : Agree c d k (brace kind) (brace kind) fun _ => k.pass := by
  apply Agree.bind .isMooc
  intro mooc
  apply Agree.ite
  · intro _
    exact .map (.expect kind) fun _ => .take k
  · intro _
    exact .done _ (.pass k)

theorem loopBody_agree (h : r.Agree c d r') (name : String) :
    Agree c d k (loopBody r name) (loopBody r' name) fun _ => k.take := by
  apply Agree.bind (openBody_agree .kwDo)
  intro _
  apply Agree.bind (.within .loop name (h.block _))
  intro body
  exact .give closeBody_agree

/-! ## Simple statements -/

theorem breakStat_agree : Agree c d k breakStat breakStat fun _ => k.take := by
  apply Agree.bind .next
  intro token
  apply Agree.bind .insideLoop
  intro inside
  apply Agree.ite
  · intro _
    exact .bind (.complain rfl _) fun _ => .still _
  · intro _
    exact .still _

theorem labelStat_agree : Agree c d k labelStat labelStat fun _ => k.take := by
  apply Agree.bind .next
  intro opening
  apply Agree.bind .expectName
  intro name
  apply Agree.bind (.expect .doubleColon)
  intro _
  exact .give (.since opening.span)

theorem gotoStat_agree : Agree c d k gotoStat gotoStat fun _ => k.take :=
  .bind .next fun _ => .give .expectName

theorem skipToken_agree : Agree c d k skipToken skipToken fun _ => k.take := .give .next

/-! ## Compound statements -/

theorem doStat_agree (h : r.Agree c d r') :
    Agree c d k (doStat r) (doStat r') fun _ => k.take := by
  apply Agree.bind .next
  intro keyword
  apply Agree.bind (brace_agree .lbrace)
  intro _
  apply Agree.bind (.within .doBlock "do" (h.block _))
  intro body
  apply Agree.bind closeBody_agree
  intro _
  exact .give (.since keyword.span)

theorem whileStat_agree (h : r.Agree c d r') :
    Agree c d k (whileStat r) (whileStat r') fun _ => k.take := by
  apply Agree.bind .next
  intro keyword
  apply Agree.bind (exp_agree h)
  intro condition
  apply Agree.bind (loopBody_agree h "while")
  intro body
  exact .give (.since keyword.span)

theorem repeatStat_agree (h : r.Agree c d r') :
    Agree c d k (repeatStat r) (repeatStat r') fun _ => k.take := by
  apply Agree.bind .next
  intro keyword
  apply Agree.bind (brace_agree .lbrace)
  intro _
  apply Agree.bind (.within .loop "repeat" (h.block _))
  intro body
  apply Agree.bind (brace_agree .rbrace)
  intro _
  apply Agree.bind (.expect .kwUntil)
  intro _
  apply Agree.bind (exp_agree h)
  intro condition
  exact .give (.since keyword.span)

theorem branch_agree (h : r.Agree c d r') :
    Agree c d k (branch r) (branch r') fun _ => k.take := by
  apply Agree.bind (exp_agree h)
  intro condition
  apply Agree.bind (openBody_agree .kwThen)
  intro _
  apply Agree.bind (.within .branch "if" (h.block _))
  intro body
  exact .give (brace_agree .rbrace)

theorem moreBranches_agree (h : r.Agree c d r') (branches : Array Branch) :
    Agree c d k (moreBranches r branches) (moreBranches r' branches) Headway.ofRound := by
  apply Agree.ifAccepts (by decide)
  · exact .map (branch_agree h) fun _ => .round rfl
  · exact .done _ (.none _)

theorem elseBranch_agree (h : r.Agree c d r') :
    Agree c d k (elseBranch r) (elseBranch r') fun _ => k.pass := by
  apply Agree.bind (.accept .kwElse)
  intro word
  split
  · apply Agree.bind (brace_agree .lbrace)
    intro _
    apply Agree.bind (.within .branch "if" (h.block _))
    intro body
    exact .give (brace_agree .rbrace)
  · exact .still _

theorem ifStat_agree (h : r.Agree c d r') :
    Agree c d k (ifStat r) (ifStat r') fun _ => k.take := by
  apply Agree.bind .next
  intro keyword
  apply Agree.bind (branch_agree h)
  intro first
  apply Agree.bind (.iterate (moreBranches_agree h))
  intro branches
  apply Agree.bind (elseBranch_agree h)
  intro last
  apply Agree.bind .isMooc
  intro mooc
  apply Agree.ite
  · intro _
    exact .bind (.expect .kwEnd) fun _ => .give (.since keyword.span)
  · intro _
    exact .give (.since keyword.span)

/-! ## Loops over ranges and iterators -/

theorem numericFor_agree (h : r.Agree c d r') (start : Span) (var : Param) :
    Agree c d k (numericFor r start var) (numericFor r' start var) fun _ => k.take := by
  have rest (init limit step : Exp) : Agree c d k.take
      (do
        let body ← loopBody r "for"
        return Stat.numericFor var init limit step body (← since start))
      (do
        let body ← loopBody r' "for"
        return Stat.numericFor var init limit step body (← since start)) fun _ => k.take :=
    .bind (loopBody_agree h "for") fun body => .give (.since start)
  apply Agree.bind (.expect .assign)
  intro _
  apply Agree.bind (exp_agree h)
  intro init
  apply Agree.bind (.expect .comma)
  intro _
  apply Agree.bind (exp_agree h)
  intro limit
  apply Agree.bind (.accepts .comma)
  intro _
  apply Agree.ite
  · intro _
    exact .bind (exp_agree h) fun step => rest init limit step
  · intro _
    exact .bind (.still _) fun step => rest init limit step

theorem moreVars_agree (vars : Array Param) :
    Agree c d k (moreVars vars) (moreVars vars) Headway.ofRound := by
  apply Agree.ifAccepts (by decide)
  · exact .map .expectName fun _ => .round rfl
  · exact .done _ (.none _)

theorem genericFor_agree (h : r.Agree c d r') (start : Span) (first : Param) :
    Agree c d k (genericFor r start first) (genericFor r' start first) fun _ => k.pass := by
  apply Agree.bind (.iterate moreVars_agree)
  intro vars
  apply Agree.bind (.expect .kwIn)
  intro _
  apply Agree.bind (expList_agree h)
  intro iterables
  apply Agree.bind (loopBody_agree h "for")
  intro body
  exact .give (.since start)

theorem forStat_agree (h : r.Agree c d r') :
    Agree c d k (forStat r) (forStat r') fun _ => k.take := by
  apply Agree.bind .next
  intro keyword
  apply Agree.bind .expectName
  intro name
  apply Agree.bind .asked
  intro kind
  apply Agree.ite
  · intro _
    exact numericFor_agree h keyword.span _
  · intro _
    exact genericFor_agree h keyword.span _

/-! ## Functions -/

theorem moreNames_agree (f : FunctionName) :
    Agree c d k (moreNames f) (moreNames f) Headway.ofRound := by
  apply Agree.ifAccepts (by decide)
  · exact .map .expectName fun _ => .round rfl
  · exact .done _ (.none _)

theorem dottedName_agree : Agree c d k dottedName dottedName fun _ => k.take := by
  apply Agree.bind .expectName
  intro first
  apply Agree.bind (.iterate moreNames_agree)
  intro f
  apply Agree.bind (.accepts .colon)
  intro _
  exact .ite (fun _ => .give .expectName) fun _ => .still _

theorem functionName_agree (isStatic : Bool) :
    Agree c d k (functionName isStatic) (functionName isStatic) fun _ => k.take := by
  apply Agree.bind .isMooc
  intro mooc
  apply Agree.bind .scopes
  intro scopes
  split
  · exact .give .expectName
  · exact dottedName_agree

theorem functionStyle_agree : Agree c d k functionStyle functionStyle fun _ => k :=
  .bind .isMooc fun _ => .ite (fun _ => .still _) fun _ => .still _

theorem functionStat_agree (h : r.Agree c d r') (start : Span) (attr : Attribute)
    (isStatic : Bool) : Agree c d k (functionStat r start attr isStatic)
      (functionStat r' start attr isStatic) fun _ => k.take := by
  refine .ite (fun _ => .bind .next fun _ => ?_) fun _ => ?_
  all_goals
    apply Agree.bind functionStyle_agree
    intro style
    apply Agree.bind (.expect _)
    intro keyword
    apply Agree.bind (functionName_agree isStatic)
    intro name
    apply Agree.bind .now
    intro self
    apply Agree.bind (h.functionBody _ _)
    intro body
    exact .bind (.since keyword.span) fun _ => .give (.since start)

theorem localFunction_agree (h : r.Agree c d r') (start : Span) :
    Agree c d k (localFunction r start) (localFunction r' start) fun _ => k.take := by
  apply Agree.bind functionStyle_agree
  intro style
  apply Agree.bind .next
  intro _
  apply Agree.bind .expectName
  intro name
  apply Agree.bind (h.functionBody _ _)
  intro body
  exact .give (.since start)

theorem luaStat_agree (h : r.Agree c d r') :
    Agree c d k (luaStat r) (luaStat r') fun _ => k.take := by
  apply Agree.bind .asked
  intro kind
  split
  · exact skipToken_agree
  · exact skipToken_agree
  · exact breakStat_agree
  · exact labelStat_agree
  · exact gotoStat_agree
  · exact doStat_agree h
  · exact whileStat_agree h
  · exact repeatStat_agree h
  · exact ifStat_agree h
  · exact forStat_agree h
  · exact .bind .head fun start => .give (functionStat_agree h start .regular false)
  · apply Agree.bind .next
    intro keyword
    apply Agree.bind .asked
    intro _
    apply Agree.ite
    · intro _
      exact localFunction_agree h keyword.span
    · intro _
      exact localDecl_agree h keyword.span
  · exact assignOrCall_agree h

end LuaChunk.Parser
