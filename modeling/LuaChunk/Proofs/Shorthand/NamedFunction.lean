import LuaChunk.Proofs.Replay.Chunk

/-!
# Functions with names

`function n₁.n₂:m(P) B end` is read as what the assignment of a function to `n₁.n₂.m` is read as, but
for what the function is told of its name.  The names of the one are read in a loop of their own that
remembers the last two of them; those of the other are fields of an operand.
-/

set_option autoImplicit false

open LuaChunk.Parser

namespace LuaChunk

/-! ## Texts of functions -/

/-- Names with dots between them. -/
def dottedTokens (first : String) (more : List String) : List Token :=
  .name first :: more.flatMap fun name => [.sign .dot, .name name]

/-- The name of a method, if there is one. -/
def methodTokens (method : Option String) : List Token :=
  method.toList.flatMap fun name => [.sign .colon, .name name]

/-- Parameters with commas between them, of which `...` may be the last. -/
def paramTokens (names : List String) (isVararg : Bool) : List Token :=
  (names.map Token.name ++ if isVararg then [Token.sign .vararg] else []).intersperse (.sign .comma)

theorem paramTokens_cons (name : String) (names : List String) (isVararg : Bool) :
    paramTokens (name :: names) isVararg = .name name ::
      (names.map Token.name ++ if isVararg then [Token.sign .vararg] else []).flatMap
        fun t => [.sign .comma, t] := by
  have intersperse (t : Token) (ts : List Token) : (t :: ts).intersperse (.sign .comma) =
      t :: ts.flatMap fun t => [.sign .comma, t] := by
    induction ts generalizing t with
    | nil => rfl
    | cons u us inductionHypothesis => simp [List.intersperse, inductionHypothesis]
  exact intersperse _ _

/-- A function between its keyword or name and its block. -/
def Dialect.functionTokens (d : Dialect) (names : List String) (isVararg : Bool) : List Token :=
  .sign .lparen :: (paramTokens names isVararg ++ .sign .rparen ::
    if d = .mooc then [.sign .lbrace] else [])

/-! ## Chains of names -/

/-- Fields of fields of an object. -/
def Exp.fields (object : Exp) (names : List String) : Exp :=
  names.foldl (fun object name => object.field name .synthetic) object

/-- The name, or the index, that a chain of names stands for. -/
def Exp.dotted (first : String) (more : List String) : Exp := (Exp.name first .synthetic).fields more

theorem Exp.isPlace_fields {object : Exp} (place : object.isPlace = true) (names : List String) :
    (object.fields names).isPlace = true := by
  induction names generalizing object with
  | nil => exact place
  | cons name rest inductionHypothesis => exact inductionHypothesis rfl

namespace Parser.FunctionName

/-- Names after the first ones. -/
def members (f : FunctionName) (names : List String) : FunctionName :=
  names.foldl (fun f name => f.member (.name name) false) f

/-- A single name. -/
def ofName (name : String) : FunctionName := ⟨.name name .synthetic, false, none, name⟩

/-- What the name of a function is in the end. -/
def ofNames (first : String) (more : List String) (method : Option String) : FunctionName :=
  let f := (ofName first).members more
  match method with
  | none => f
  | some name => f.member (.name name) true

theorem members_concat (f : FunctionName) (names : List String) (name : String) :
    f.members (names ++ [name]) = (f.members names).member (.name name) false := by
  simp [members]

theorem target_members (f : FunctionName) (names : List String) :
    (f.members names).target = f.target.fields names := by
  induction names generalizing f with
  | nil => rfl
  | cons name rest inductionHypothesis => exact inductionHypothesis (f.member (.name name) false)

/-- The loop over names shifts the last one to be the owner of the next. -/
theorem members_names (first : String) (more : List String) :
    let f := (ofName first).members more
    f.isMethod = false ∧ some f.name = (first :: more).getLast? ∧
      f.owner = (first :: more).dropLast.getLast? := by
  induction more using List.reverseRecOn with
  | nil => exact ⟨rfl, rfl, rfl⟩
  | append_singleton more name inductionHypothesis =>
    obtain ⟨-, last, -⟩ := inductionHypothesis
    rw [members_concat]
    refine ⟨rfl, ?_, ?_⟩
    · rw [← List.cons_append, List.getLast?_concat]
      rfl
    · rw [← List.cons_append, List.dropLast_concat, ← last]
      rfl

theorem ofNames_eq (first : String) (more : List String) (method : Option String) :
    (ofNames first more method).target = Exp.dotted first (more ++ method.toList) ∧
      (ofNames first more method).isMethod = method.isSome ∧
      some (ofNames first more method).name = (first :: (more ++ method.toList)).getLast? ∧
      (ofNames first more method).owner = (first :: (more ++ method.toList)).dropLast.getLast? := by
  obtain ⟨plain, last, owner⟩ := members_names first more
  cases method with
  | none =>
    rw [Option.toList_none, List.append_nil]
    exact ⟨target_members _ _, plain, last, owner⟩
  | some name =>
    rw [Option.toList_some, ← List.cons_append, List.getLast?_concat, List.dropLast_concat, ← last]
    refine ⟨?_, rfl, rfl, rfl⟩
    simp [ofNames, ofName, member, target_members, Exp.dotted, Exp.fields, Token.name]

end Parser.FunctionName

/-! ## Chains in their places -/

namespace Parser.Crosses

variable {c : Backdrop} {σ σ' : ScopeStack} {ts ts' : List Token} {r : Rules}

/-- Fields are read after an operand, up to a token that no operand goes on with. -/
theorem fields {names : List String} {x object : Exp}
    (same : SameText .lua (names.flatMap fun name => [.sign .dot, .name name]) ts)
    (stops : (c.facing ts').isSuffix = false) (start : x.unplaced = object.unplaced) :
    Rounds c σ (ts ++ ts') (suffix r) x σ ts' fun y => y.unplaced = (object.fields names).unplaced := by
  induction names generalizing ts x object with
  | nil =>
    obtain rfl := same.nil
    refine .done ((suffixNone (.inl stops)).mono ?_)
    rintro _ ⟨y, rfl, rfl⟩
    exact ⟨y, rfl, start⟩
  | cons name names inductionHypothesis =>
    obtain ⟨dot, _, rfl, kind, same⟩ := same.cons
    obtain ⟨span, ts, rfl, rest⟩ := same.name
    have round : Crosses c σ (dot :: ⟨.identifier, name, span⟩ :: (ts ++ ts')) (suffix r x) σ
        (ts ++ ts') fun next => ∃ y, next = .yield y ∧
          y.unplaced = (object.field name .synthetic).unplaced := by
      unfold suffix
      refine .peek ?_
      rw [Backdrop.facing_cons, show dot.kind = .dot from kind]
      exact .next (.expectName rfl (.pure ⟨_, rfl, by simp [Exp.field, start]⟩))
    refine .yield round (by simp) fun y known => ?_
    exact inductionHypothesis rest known

/-- The names of a function statement, up to a token that is no dot. -/
theorem members {names : List String} {f f' : FunctionName}
    (same : SameText .lua (names.flatMap fun name => [.sign .dot, .name name]) ts)
    (other : c.facing ts' ≠ .dot) (start : f.unplaced = f'.unplaced) :
    Rounds c σ (ts ++ ts') moreNames f σ ts' fun g => g.unplaced = (f'.members names).unplaced := by
  induction names generalizing ts f f' with
  | nil =>
    obtain rfl := same.nil
    refine .done ?_
    unfold moreNames
    exact .acceptsNone other (.pure ⟨_, rfl, start⟩)
  | cons name names inductionHypothesis =>
    obtain ⟨dot, _, rfl, kind, same⟩ := same.cons
    obtain ⟨span, ts, rfl, rest⟩ := same.name
    have round : Crosses c σ (dot :: ⟨.identifier, name, span⟩ :: (ts ++ ts')) (moreNames f) σ
        (ts ++ ts') fun next => ∃ g, next = .yield g ∧
          g.unplaced = (f'.member (.name name) false).unplaced := by
      unfold moreNames
      exact .accepts kind (.expectName rfl
        (.pure ⟨_, rfl, FunctionName.member_unplaced start ..⟩))
    refine .yield round (by simp) fun g known => ?_
    exact inductionHypothesis rest known

/-- The whole name of a function statement, up to the parameters. -/
theorem dottedName {first : String} {more : List String} {method : Option String}
    (same : SameText .lua (dottedTokens first more ++ methodTokens method) ts)
    (follow : c.facing ts' = .lparen) :
    Crosses c σ (ts ++ ts') dottedName σ ts' fun f =>
      f.unplaced = (FunctionName.ofNames first more method).unplaced := by
  obtain ⟨ns, ms, rfl, names, methods⟩ := same.append
  obtain ⟨span, ns, rfl, others⟩ := names.name
  unfold Parser.dottedName
  rw [List.append_assoc]
  refine .expectName rfl ?_
  have base : FunctionName.unplaced ⟨.name first span, false, none, first⟩ =
      (FunctionName.ofName first).unplaced := rfl
  cases method with
  | none =>
    obtain rfl := methods.nil
    have other : c.facing ts' ≠ .dot ∧ c.facing ts' ≠ .colon := by rw [follow]; exact ⟨nofun, nofun⟩
    refine (iterate (members others other.1 base)).bind fun f known => ?_
    exact .acceptsNone other.2 (.pure known)
  | some method =>
    obtain ⟨colon, _, rfl, kind, methods⟩ := methods.cons
    obtain ⟨span', _, rfl, none⟩ := methods.name
    obtain rfl := none.nil
    have colon' : colon.kind = .colon := kind
    refine (iterate (members others (by simp [colon']) base)).bind fun f known => ?_
    exact .accepts kind (.expectName rfl (.pure (FunctionName.member_unplaced known ..)))

/-- An operand that is a chain of names. -/
theorem dottedExp {first : String} {more : List String}
    (same : SameText .lua (dottedTokens first more) ts) (stops : (c.facing ts').isSuffix = false) :
    Crosses c σ (ts ++ ts') (Parser.prefixExp r) σ ts' fun e =>
      e.unplaced = (Exp.dotted first more).unplaced := by
  obtain ⟨span, ts, rfl, others⟩ := same.name
  unfold Parser.prefixExp
  refine .peek (.next (iterate ?_))
  exact fields others stops rfl

/-! ## Parameters and bodies -/

/-- Parameters after the first. -/
theorem moreParams {names : List String} {isVararg : Bool} {read : Array Param}
    (same : SameText .lua ((names.map Token.name ++ if isVararg then [Token.sign .vararg] else []).flatMap
      fun t => [.sign .comma, t]) ts) (other : c.facing ts' ≠ .comma) :
    Rounds c σ (ts ++ ts') Parser.moreParams (read, false) σ ts' fun x =>
      x.1.toList.map Param.unplaced =
        read.toList.map Param.unplaced ++ names.map (fun name => ⟨name, .synthetic⟩) ∧
      x.2 = isVararg := by
  induction names generalizing ts read with
  | nil =>
    cases isVararg with
    | false =>
      obtain rfl := same.nil
      refine .done ?_
      unfold Parser.moreParams
      exact .acceptsNone other (.pure ⟨_, rfl, by simp, rfl⟩)
    | true =>
      obtain ⟨comma, _, rfl, kind, same⟩ := same.cons
      obtain ⟨dots, _, rfl, kind', same⟩ := same.cons
      obtain rfl := same.nil
      have vararg : dots.kind = .vararg := kind'
      refine .done ?_
      unfold Parser.moreParams
      refine .accepts kind ?_
      change Crosses c σ (dots :: ts') _ σ ts' _
      refine .peek ?_
      rw [Backdrop.facing_cons, vararg, if_neg (by decide)]
      exact .expect vararg (.pure ⟨_, rfl, by simp, rfl⟩)
  | cons name names inductionHypothesis =>
    obtain ⟨comma, _, rfl, kind, same⟩ := same.cons
    obtain ⟨span, ts, rfl, rest⟩ := same.name
    have round : Crosses c σ (comma :: ⟨.identifier, name, span⟩ :: (ts ++ ts'))
        (Parser.moreParams (read, false)) σ (ts ++ ts') fun next =>
          ∃ y, next = .yield y ∧ y = (read.push ⟨name, span⟩, false) := by
      unfold Parser.moreParams
      refine .accepts kind (.peek ?_)
      rw [Backdrop.facing_cons, if_pos rfl]
      exact .next (.pure ⟨_, rfl, rfl⟩)
    refine .yield round (by simp) ?_
    rintro _ rfl
    intro clock enough
    refine (inductionHypothesis rest clock enough).mono fun x known => ?_
    simpa [Param.recast] using known

/-- All parameters, up to the parenthesis that closes them. -/
theorem params {names : List String} {isVararg : Bool}
    (same : SameText .lua (paramTokens names isVararg) ts) (follow : c.facing ts' = .rparen) :
    Crosses c σ (ts ++ ts') Parser.params σ ts' fun x =>
      x.1.map Param.unplaced = names.map (fun name => ⟨name, .synthetic⟩) ∧ x.2 = isVararg := by
  unfold Parser.params
  cases names with
  | nil =>
    cases isVararg with
    | false =>
      obtain rfl := same.nil
      refine .peek (.isMooc ?_)
      rw [List.nil_append, follow, if_pos (.inl rfl)]
      exact .pure ⟨rfl, rfl⟩
    | true =>
      obtain ⟨dots, _, rfl, kind, same⟩ := same.cons
      obtain rfl := same.nil
      have vararg : dots.kind = .vararg := kind
      change Crosses c σ (dots :: ts') _ σ ts' _
      refine .peek (.isMooc ?_)
      rw [Backdrop.facing_cons, vararg, if_neg (by simp), if_pos rfl]
      exact .next (.pure ⟨rfl, rfl⟩)
  | cons name names =>
    rw [paramTokens_cons] at same
    obtain ⟨span, ts, rfl, rest⟩ := same.name
    refine .peek (.isMooc ?_)
    rw [List.cons_append, Backdrop.facing_cons, if_neg (by simp), if_neg (by simp)]
    refine .expectName rfl ?_
    refine (iterate (moreParams rest (by rw [follow]; nofun))).bind fun x known => .pure ?_
    simpa [Param.recast] using known

/-- What stands between the parameters and the block. -/
theorem openFunctionBlock {β : Type} {Q : β → Prop} {g : Unit → Parser β} {d : Dialect}
    {ts'' : List Token}
    (same : SameText .lua (.sign .rparen :: if d = .mooc then [Token.sign .lbrace] else []) ts)
    (k : Crosses c σ ts' (g ()) σ' ts'' Q) :
    Crosses c σ (ts ++ ts') (Parser.openFunctionBlock d.functionStyle >>= g) σ' ts'' Q := by
  obtain ⟨rp, _, rfl, closes, same⟩ := same.cons
  unfold Parser.openFunctionBlock Dialect.functionStyle
  cases d with
  | lua =>
    obtain rfl := same.nil
    simp only [reduceCtorEq, if_false, bind_assoc, pure_bind]
    exact .expect closes k
  | mooc =>
    obtain ⟨lb, _, rfl, opens, same⟩ := same.cons
    obtain rfl := same.nil
    simp only [if_true, bind_assoc, pure_bind]
    exact .expect closes (.expect opens k)

end Parser.Crosses

/-- A function that is told nothing of a name. -/
def FunctionBody.anonymous (names : List String) (isVararg : Bool) (block : Block) : FunctionBody :=
  { params := names.map fun name => ⟨name, .synthetic⟩
    isVararg, isMethod := false, block, owner := none, name := none }

namespace Parser.Crosses

variable {c : Backdrop} {σ σ' : ScopeStack} {hs bs ts ts' : List Token} {d : Dialect} {z w : Token}
  {names : List String} {isVararg : Bool} {b : Block} {k m : Nat}

/-- A function from its parameters on. -/
theorem functionBody (same : SameText .lua (d.functionTokens names isVararg) hs)
    (body : Alone c.settings (σ.push .function "function") (Rules.level k).block b σ' d.closing bs)
    (le : k ≤ m) (last : z.kind = d.closing) :
    Crosses c σ (hs ++ (bs ++ z :: ts')) (Parser.functionBody (.level m) d.functionStyle) σ'.pop.2 ts'
      fun f => f.unplaced = (FunctionBody.anonymous names isVararg b).unplaced := by
  obtain ⟨lp, _, rfl, opens, same⟩ := same.cons
  obtain ⟨ps, os, rfl, params, opening⟩ := same.append
  have follow : c.facing (z :: ts') = d.closing := last
  have closing : d.closing.settles = true := by cases d <;> rfl
  have block : Crosses c (σ.push .function "function") (bs ++ z :: ts') (Rules.level m).block σ'
      (z :: ts') fun b' => b.unplaced = b'.unplaced :=
    .block (follow.symm ▸ body) le (follow ▸ closing)
  have rparen : c.facing (os ++ (bs ++ z :: ts')) = .rparen := by
    obtain ⟨rp, _, rfl, closes, -⟩ := opening.cons
    exact closes
  have style : d.functionStyle ≠ .anonymous := by cases d <;> decide
  have ended : (if d.functionStyle = .ended then TokenKind.kwEnd else .rbrace) = d.closing := by
    cases d <;> rfl
  unfold Parser.functionBody
  rw [if_neg style, ended, List.cons_append, List.append_assoc]
  refine .expect opens ((Crosses.params params rparen).bind fun x known => ?_)
  obtain ⟨names', isVararg'⟩ := x
  obtain ⟨sameNames, rfl⟩ := known
  refine .openFunctionBlock opening ((Crosses.within _ _ block).bind fun b' same' => ?_)
  refine .expect last (.pure ?_)
  have unplaced : names'.map (fun p => (⟨p.name, .synthetic⟩ : Param)) =
      names.map fun name => ⟨name, .synthetic⟩ := sameNames
  simp [FunctionBody.anonymous, same', Param.recast, Function.comp_def, unplaced]

/-- A function as an expression. -/
theorem functionLiteral (dialect : c.settings.dialect = d) (word : w.kind = d.functionWord)
    (same : SameText .lua (d.functionTokens names isVararg) hs)
    (body : Alone c.settings (σ.push .function "function") (Rules.level k).block b σ' d.closing bs)
    (le : k ≤ m) (last : z.kind = d.closing) (stops : BinaryOp.ofToken? (c.facing ts') = none) :
    Crosses c σ (w :: (hs ++ (bs ++ z :: ts'))) (Rules.level (m + 2)).exp σ'.pop.2 ts' fun e =>
      e.unplaced = (Exp.function (.anonymous names isVararg b) .synthetic).unplaced := by
  have inner (start : Span) : Crosses c σ (hs ++ (bs ++ z :: ts'))
      (functionExp (.level (m + 1)) d.functionStyle start) σ'.pop.2 ts' fun e =>
        e.unplaced = (Exp.function (.anonymous names isVararg b) .synthetic).unplaced :=
    (Crosses.nested (functionBody same body le last)).bind fun f known =>
      .since fun _ => .pure (by simp [known])
  have primary : Crosses c σ (w :: (hs ++ (bs ++ z :: ts'))) (Parser.primary (.level (m + 1)))
      σ'.pop.2 ts' fun e =>
        e.unplaced = (Exp.function (.anonymous names isVararg b) .synthetic).unplaced := by
    unfold Parser.primary
    refine .peek ?_
    rw [Backdrop.facing_cons, word]
    cases d with
    | lua =>
      refine .isMooc ?_
      rw [dialect]
      exact .next (inner _)
    | mooc => exact .next (inner _)
  refine .nested (.operationNone ?_ stops)
  unfold Parser.operand
  refine .peek ?_
  rw [Backdrop.facing_cons, word, show UnaryOp.ofToken? d.functionWord = none by cases d <;> rfl]
  exact primary

/-! ## The two statements -/

theorem functionStyle {β : Type} {Q : β → Prop} {g : TokenKind × FunctionStyle → Parser β}
    {ts'' : List Token} (dialect : c.settings.dialect = d)
    (k : Crosses c σ ts (g (d.functionWord, d.functionStyle)) σ' ts'' Q) :
    Crosses c σ ts (Parser.functionStyle >>= g) σ' ts'' Q := by
  unfold Parser.functionStyle
  simp only [bind_assoc]
  refine .isMooc ?_
  cases d <;> simpa [dialect, Dialect.functionWord, Dialect.functionStyle] using k

section Named

variable {first : String} {more : List String} {method : Option String} {ns : List Token} {a : Token}

/-- Outside of classes a function may have a name of any length. -/
theorem functionName (free : c.settings.dialect = .mooc → σ.currentClass? = none)
    (same : SameText .lua (dottedTokens first more ++ methodTokens method) ns)
    (follow : c.facing ts' = .lparen) :
    Crosses c σ (ns ++ ts') (Parser.functionName false) σ ts' fun f =>
      f.unplaced = (FunctionName.ofNames first more method).unplaced := by
  unfold Parser.functionName
  refine .isMooc (.scopes ?_)
  split
  next owner mooc found =>
    rw [free (by simpa using mooc)] at found
    cases found
  next => exact dottedName same follow

/-- `function n₁.n₂:m(P) B end` -/
theorem namedFunction (dialect : c.settings.dialect = d)
    (free : d = .mooc → σ.currentClass? = none) (word : w.kind = d.functionWord)
    (name : SameText .lua (dottedTokens first more ++ methodTokens method) ns)
    (same : SameText .lua (d.functionTokens names isVararg) hs)
    (body : Alone c.settings (σ.push .function "function") (Rules.level k).block b σ' d.closing bs)
    (le : k ≤ m) (last : z.kind = d.closing) :
    Crosses c σ (w :: (ns ++ (hs ++ (bs ++ z :: ts')))) (Rules.level (m + 2)).stat σ'.pop.2 ts'
      fun x => x.unplaced = (Stat.assign ((FunctionName.ofNames first more method).assigned
        (.anonymous names isVararg b) .regular .synthetic .synthetic .synthetic)).unplaced := by
  have lparen : c.facing (hs ++ (bs ++ z :: ts')) = .lparen := by
    obtain ⟨lp, _, rfl, opens, -⟩ := same.cons
    exact opens
  have whole (start : Span) : Crosses c σ (w :: (ns ++ (hs ++ (bs ++ z :: ts'))))
      (functionStat (.level (m + 1)) start .regular false) σ'.pop.2 ts' fun x =>
        x.unplaced = ((FunctionName.ofNames first more method).assigned
          (.anonymous names isVararg b) .regular .synthetic .synthetic .synthetic).unplaced := by
    refine .functionStyle dialect (.expect word ?_)
    refine (functionName (fun mooc => free (dialect.symm.trans mooc)) name lparen).bind
      fun f known => .now fun self => ?_
    refine (Crosses.nested (functionBody same body le last)).bind fun body known' => ?_
    exact .since fun _ => .since fun _ => .pure (FunctionName.unplaced_assigned known known' ..)
  have stat (start : Span) : Crosses c σ (w :: (ns ++ (hs ++ (bs ++ z :: ts')))) (do
      return Stat.assign (← functionStat (.level (m + 1)) start .regular false)) σ'.pop.2 ts' fun x =>
        x.unplaced = (Stat.assign ((FunctionName.ofNames first more method).assigned
          (.anonymous names isVararg b) .regular .synthetic .synthetic .synthetic)).unplaced :=
    (whole start).map fun x known => by simp [known]
  refine .nested ?_
  unfold Parser.stat moocStat luaStat
  refine .isMooc ?_
  rw [dialect]
  cases d with
  | lua =>
    refine .peek ?_
    rw [Backdrop.facing_cons, word]
    exact .head stat
  | mooc =>
    refine .peek ?_
    rw [Backdrop.facing_cons, word]
    exact .head stat

/-- `n₁.n₂.m = function(P) B end` -/
theorem functionAssigned (dialect : c.settings.dialect = d) (word : w.kind = d.functionWord)
    (name : SameText .lua (dottedTokens first more) ns) (assign : a.kind = .assign)
    (same : SameText .lua (d.functionTokens names isVararg) hs)
    (body : Alone c.settings (σ.push .function "function") (Rules.level k).block b σ' d.closing bs)
    (le : k ≤ m) (last : z.kind = d.closing) (stops : BinaryOp.ofToken? (c.facing ts') = none)
    (alone : c.facing ts' ≠ .comma) :
    Crosses c σ (ns ++ a :: w :: (hs ++ (bs ++ z :: ts'))) (Rules.level (m + 3)).stat σ'.pop.2 ts'
      fun x => x.unplaced = (Stat.assign
        { targets := [Exp.dotted first more]
          values := [.function (.anonymous names isVararg b) .synthetic]
          attr := .regular, span := .synthetic }).unplaced := by
  have follow : c.facing (a :: w :: (hs ++ (bs ++ z :: ts'))) = .assign := assign
  have begins : c.facing (ns ++ a :: w :: (hs ++ (bs ++ z :: ts'))) = .identifier := by
    obtain ⟨_, _, rfl, kind, -⟩ := name.cons
    exact kind
  refine .assigns (.inl begins) ?_
  rw [assignOrCall_eq]
  refine .head fun start => (dottedExp name (by rw [follow]; rfl)).bind fun e known => ?_
  have place : e.isPlace = true :=
    Exp.isPlace_of_eq known.symm (Exp.isPlace_fields rfl more)
  refine .afterPlace place (by rw [follow]; nofun) (.peek ?_)
  rw [follow]
  change Crosses c σ _ (plainAssign _ start [e]) σ'.pop.2 ts' _
  refine .accepts assign ((Crosses.expList alone
    (functionLiteral dialect word same body le last stops)).bind ?_)
  rintro _ ⟨f, rfl, known'⟩
  exact .since fun _ => .pure (by simp [known, known'])

end Named

end Parser.Crosses

/-- A block between some tokens and the one that closes it, wherever they stand.  Within a block of
Mooc it matters which colons touch what stands beside them, and before it it does not. -/
def Encloses (d : Dialect) (before block : List Token) (ts : List Token) : Prop :=
  ∃ xs ys z, ts = xs ++ (ys ++ [z]) ∧ SameText .lua before xs ∧ SameText d block ys ∧
    z.kind = d.closing

/-- `function n₁.n₂:m(P)` -/
def Dialect.namedFunctionTokens (d : Dialect) (first : String) (more : List String)
    (method : Option String) (names : List String) (isVararg : Bool) : List Token :=
  .sign d.functionWord :: (dottedTokens first more ++ methodTokens method ++
    d.functionTokens names isVararg)

/-- `n₁.n₂.m = function(P)` -/
def Dialect.assignedFunctionTokens (d : Dialect) (first : String) (more names : List String)
    (isVararg : Bool) : List Token :=
  dottedTokens first more ++ .sign .assign :: .sign d.functionWord :: d.functionTokens names isVararg

namespace Session

variable {c : Settings} {σ σ' : ScopeStack} {log log' : ErrorLog} {rest rest' bs ts ts' : List Token}
  {k n : Nat} {b : Block} {s s' : Session} {first : String} {more names : List String}
  {method : Option String} {isVararg : Bool}

/-- `function n₁.n₂:m(P) B end` as a statement -/
theorem namedFunction_known (free : c.dialect = .mooc → σ.currentClass? = none)
    (body : Alone c (σ.push .function "function") (Rules.level k).block b σ' c.dialect.closing bs)
    (form : Encloses c.dialect (c.dialect.namedFunctionTokens first more method names isVararg) bs ts)
    (before : s.Awaits ⟨c, log, rest⟩ σ ts) (fits : ¬ (last ((Rules.level n).stat s)).TooDeep) :
    ∃ a t, (Rules.level n).stat s = .ok a t ∧ t.errors = s.errors ∧
      a.unplaced = (Stat.assign ((FunctionName.ofNames first more method).assigned
        (.anonymous names isVararg b) .regular .synthetic .synthetic .synthetic)).unplaced := by
  obtain ⟨_, bs', z, rfl, head, same, last⟩ := form
  obtain ⟨w, _, rfl, word, head⟩ := head.cons
  obtain ⟨ns, hs, rfl, name, params⟩ := head.append
  rw [List.cons_append, List.append_assoc] at before
  obtain ⟨a, t, run, known, after⟩ := Crosses.namedFunction (c := ⟨c, log, rest⟩) (m := n + k) rfl
    free word name params (body.respelled same) (by omega) last s before
  refine ⟨a, t, Rules.stat_of_deeper (by omega) before.tidy fits run, ?_, known⟩
  rw [Session.errors, Session.errors, after.log, before.log]

/-- `n₁.n₂.m = function(P) B end` as a statement -/
theorem assignedFunction_known
    (body : Alone c (σ.push .function "function") (Rules.level k).block b σ' c.dialect.closing bs)
    (form : Encloses c.dialect (c.dialect.assignedFunctionTokens first more names isVararg) bs ts)
    (before : s.Awaits ⟨c, log, rest⟩ σ ts)
    (ends : ∀ t ∈ rest.head?, BinaryOp.ofToken? t.kind = none ∧ t.kind ≠ .comma)
    (fits : ¬ (last ((Rules.level n).stat s)).TooDeep) :
    ∃ a t, (Rules.level n).stat s = .ok a t ∧ t.errors = s.errors ∧ a.unplaced = (Stat.assign
      { targets := [Exp.dotted first more]
        values := [.function (.anonymous names isVararg b) .synthetic]
        attr := .regular, span := .synthetic }).unplaced := by
  obtain ⟨_, bs', z, rfl, head, same, last⟩ := form
  obtain ⟨ns, _, rfl, name, head⟩ := head.append
  obtain ⟨a, _, rfl, assign, head⟩ := head.cons
  obtain ⟨w, hs, rfl, word, params⟩ := head.cons
  rw [List.append_assoc] at before
  let behind : Backdrop := ⟨c, log, rest⟩
  have ends : BinaryOp.ofToken? (behind.facing []) = none ∧ behind.facing [] ≠ .comma := by
    cases rest with
    | nil => exact ⟨rfl, nofun⟩
    | cons t rest => exact ends t rfl
  obtain ⟨x, t, run, known, after⟩ := Crosses.functionAssigned (c := behind) (m := n + k) rfl word
    name assign params (body.respelled same) (by omega) last ends.1 ends.2 s before
  refine ⟨x, t, Rules.stat_of_deeper (by omega) before.tidy fits run, ?_, known⟩
  rw [Session.errors, Session.errors, after.log, before.log]

/-- **Functions with names.**  Let `P` be parameters and `B` the tokens of a block, which are read
inside a function without complaint.  There `function n₁.n₂:m(P) B end`, outside of classes, and
`n₁.n₂.m = function(self, P) B end`, which no operator and no comma follows, are read as the same
assignment without complaint, up to places and what the function is told of its name, unless the levels
are exceeded.  Where there is no method `self` is not there.  The function with the name is told
whether it is a method, and the last two names. -/
theorem stat_function_eq (free : c.dialect = .mooc → σ.currentClass? = none)
    (body : Alone c (σ.push .function "function") (Rules.level k).block b σ' c.dialect.closing bs)
    (short : Encloses c.dialect (c.dialect.namedFunctionTokens first more method names isVararg) bs ts)
    (long : Encloses c.dialect (c.dialect.assignedFunctionTokens first (more ++ method.toList)
      (if method.isSome then "self" :: names else names) isVararg) bs ts')
    (before : s.Awaits ⟨c, log, rest⟩ σ ts) (before' : s'.Awaits ⟨c, log', rest'⟩ σ ts')
    (ends : ∀ t ∈ rest'.head?, BinaryOp.ofToken? t.kind = none ∧ t.kind ≠ .comma)
    (fits : ¬ (last ((Rules.level n).stat s)).TooDeep)
    (fits' : ¬ (last ((Rules.level n).stat s')).TooDeep) :
    ∃ a a' t t' f, (Rules.level n).stat s = .ok a t ∧ (Rules.level n).stat s' = .ok a' t' ∧
      t.errors = s.errors ∧ t'.errors = s'.errors ∧
      a.unplaced = (Stat.assign ⟨[Exp.dotted first (more ++ method.toList)],
        [.function f .synthetic], .regular, .synthetic⟩).unplaced ∧
      a'.unplaced = (Stat.assign ⟨[Exp.dotted first (more ++ method.toList)],
        [.function { f with isMethod := false, owner := none, name := none } .synthetic], .regular,
        .synthetic⟩).unplaced ∧
      f.isMethod = method.isSome ∧ f.name = (first :: (more ++ method.toList)).getLast? ∧
      f.owner = (first :: (more ++ method.toList)).dropLast.getLast? := by
  obtain ⟨a, t, run, quiet, known⟩ := namedFunction_known free body short before fits
  obtain ⟨a', t', run', quiet', known'⟩ := assignedFunction_known body long before' ends fits'
  obtain ⟨target, isMethod, last, owner⟩ := FunctionName.ofNames_eq first more method
  let f : FunctionBody := FunctionName.named (FunctionName.ofNames first more method)
    (.anonymous names isVararg b) .synthetic
  refine ⟨a, a', t, t', f, run, run', quiet, quiet', ?_, ?_, isMethod, last, owner⟩
  · rw [known]
    simp [FunctionName.assigned, f, target]
  · rw [known']
    cases method <;> simp [FunctionName.named, FunctionBody.anonymous, f, isMethod, Param.recast]

/-- `function a.b:m(x, ...) return x end` and what it is short for in a chunk -/
theorem stat_function_eq_method :
    let name := "a.lua"
    let settings := Settings.forChunk name
    let s := opened "function a.b:m(x, ...) return x end".toUTF8.toList name settings
    let s' := opened "a.b.m = function(self, x, ...) return x end".toUTF8.toList name settings
    ∃ a a' t t' f, (Rules.level 200).stat s = .ok a t ∧ (Rules.level 200).stat s' = .ok a' t' ∧
      t.errors = [] ∧ t'.errors = [] ∧
      a.unplaced = (Stat.assign ⟨[Exp.dotted "a" ["b", "m"]], [.function f .synthetic], .regular,
        .synthetic⟩).unplaced ∧
      a'.unplaced = (Stat.assign ⟨[Exp.dotted "a" ["b", "m"]],
        [.function { f with isMethod := false, owner := none, name := none } .synthetic], .regular,
        .synthetic⟩).unplaced ∧
      f.isMethod = true ∧ f.name = some "m" ∧ f.owner = some "b" := by
  intro name settings s s'
  let u : Session := { opened "return x end".toUTF8.toList name settings with
    scopes := (ScopeStack.ofFile name).push .function "function" }
  have told : (returned? ((Rules.level 200).block u)).map (fun r => (r.2.errors,
      r.2.tokens.ahead.map (·.token), (r.2.tokens.upcoming 0).token.kind)) =
      some ([], (u.tokens.ahead.map (·.token)).drop 2, .kwEnd) := by decide +kernel
  obtain ⟨⟨b, v⟩, run, told⟩ := Option.map_eq_some_iff.1 told
  have run := returned?_eq_some run
  simp only [Prod.mk.injEq] at told
  obtain ⟨quiet, ahead, kind⟩ := told
  have body : Alone settings ((ScopeStack.ofFile name).push .function "function")
      (Rules.level 200).block b v.scopes .kwEnd ((u.tokens.ahead.map (·.token)).take 2) :=
    ⟨u, v, _, ⟨run, quiet, by rw [ahead, List.take_append_drop], by decide +kernel⟩, rfl, rfl,
      rfl, kind, .refl _⟩
  have closing : settings.dialect.closing = .kwEnd := by decide +kernel
  have lexed : tokenize "function a.b:m(x, ...) return x end".toUTF8.toList settings.dialect =
      .ok (s.tokens.ahead.map (·.token)) := tokenize_eq_ok.2 ⟨by decide +kernel, rfl⟩
  have lexed' : tokenize "a.b.m = function(self, x, ...) return x end".toUTF8.toList
      settings.dialect = .ok (s'.tokens.ahead.map (·.token)) :=
    tokenize_eq_ok.2 ⟨by decide +kernel, rfl⟩
  have other : settings.dialect ≠ .mooc := by decide +kernel
  have short : Encloses settings.dialect
      (settings.dialect.namedFunctionTokens "a" ["b"] (some "m") ["x"] true)
      ((u.tokens.ahead.map (·.token)).take 2) (s.tokens.ahead.map (·.token)) :=
    ⟨(s.tokens.ahead.map (·.token)).take 11, ((s.tokens.ahead.map (·.token)).drop 11).take 2,
      ⟨.kwEnd, "end", ⟨⟨1, 33⟩, ⟨1, 36⟩⟩⟩, by decide +kernel,
      ⟨by decide +kernel, fun mooc => by cases mooc⟩,
      ⟨by decide +kernel, fun mooc => absurd mooc other⟩, by decide +kernel⟩
  have long : Encloses settings.dialect
      (settings.dialect.assignedFunctionTokens "a" ["b", "m"] ["self", "x"] true)
      ((u.tokens.ahead.map (·.token)).take 2) (s'.tokens.ahead.map (·.token)) :=
    ⟨(s'.tokens.ahead.map (·.token)).take 14, ((s'.tokens.ahead.map (·.token)).drop 14).take 2,
      ⟨.kwEnd, "end", ⟨⟨1, 41⟩, ⟨1, 44⟩⟩⟩, by decide +kernel,
      ⟨by decide +kernel, fun mooc => by cases mooc⟩,
      ⟨by decide +kernel, fun mooc => absurd mooc other⟩, by decide +kernel⟩
  exact stat_function_eq (n := 200) (fun _ => rfl) (closing ▸ body) short long
    (opened_awaits lexed).1 (opened_awaits lexed').1 (by decide +kernel)
    (by unfold TooDeep; decide +kernel) (by unfold TooDeep; decide +kernel)

/-- A function that is assigned is an expression in a statement, which is one level more than that of
a function statement. -/
theorem analyze_function_deep :
    let name := "a.lua"
    let settings := { Settings.forChunk name with maxNesting := 4 }
    let named := (start "function f() end".toUTF8.toList name settings).analyze.1
    let assigned := (start "f = function() end".toUTF8.toList name settings).analyze.1
    named.errors = [] ∧ named.block.stats.length = 1 ∧
      assigned.errors.map (·.message) = ["chunk has too many syntax levels"] ∧
      assigned.block.stats = [] := by
  decide +kernel

end Session

end LuaChunk
