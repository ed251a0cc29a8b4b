import LuaChunk.Proofs.Contents.Closure
import LuaChunk.Proofs.Control.Notes
import LuaChunk.Proofs.Diagnostics.Cap
import LuaChunk.Proofs.Parser.Results
import Mathlib.Logic.Relation

/-!
# The stack and the depth of a reading

Opening and closing a construct, going a level deeper and coming back are steps of their own, with
parsers in between that may stop.  `Session.Step` is what one step can do to a session, and every
parser is put together from such steps (`Stepwise`), so what each step keeps holds wherever a parser
stands: the count of the chunk is the number of open loops.  A parser that returns has undone its
own steps (`Session.Balanced`): all that it leaves in the stack is what a `continue` or a `return`
has noted in constructs that were open before.
-/

set_option autoImplicit false

namespace LuaChunk

/-! ## Steps -/

/-- What one step of a reading can do to a session. -/
inductive Session.Step (s : Session) : Session → Prop
  | tokens (t : TokenStream) : Step s { s with tokens := t }
  | report (d : Diagnostic) : Step s { s with log := (s.log.report d).1 }
  | opening (kind : ScopeKind) (name : String) :
      Step s { s with scopes := s.scopes.push kind name }
  | closing : Step s { s with scopes := s.scopes.pop.2 }
  | continued : Step s { s with scopes := s.scopes.setFound .loop .function 1 }
  | returned : Step s { s with scopes := Parser.noteReturn s.scopes }
  | deeper : Step s { s with depth := s.depth + 1 }
  | back : Step s { s with depth := s.depth - 1 }

/-- Some steps lead from the fresh session of a chunk to this one. -/
def Session.Reachable (source : List UInt8) (chunk : String) (settings : Settings) (s : Session) :
    Prop :=
  Relation.ReflTransGen Session.Step (.start source chunk settings) s

theorem Session.Step.tallied {s t : Session} {chunk : String} (h : s.Step t)
    (tallied : s.scopes.Tallied chunk) : t.scopes.Tallied chunk := by
  cases h with
  | tokens | report | deeper | back => exact tallied
  | opening kind name => exact tallied.push kind name
  | closing => exact tallied.pop
  | continued => exact tallied.keeps (ScopeStack.setFound_keeps tallied.kind)
  | returned => exact tallied.keeps (ScopeStack.noteReturn_keeps tallied.kind)

theorem Session.Reachable.tallied {source : List UInt8} {chunk : String} {settings : Settings}
    {s : Session} (h : s.Reachable source chunk settings) : s.scopes.Tallied chunk := by
  induction h with
  | refl => exact ⟨rfl, rfl, rfl⟩
  | tail _ step tallied => exact step.tallied tallied

/-- Everything that was opened has been closed again. -/
structure Session.Balanced (s t : Session) : Prop where
  depth : t.depth = s.depth
  noted : s.scopes.Noted t.scopes

theorem Session.Balanced.of_eq {s t : Session} (depth : t.depth = s.depth)
    (scopes : t.scopes = s.scopes) : s.Balanced t :=
  ⟨depth, scopes ▸ .refl⟩

theorem Session.Balanced.trans {s t u : Session} (h : s.Balanced t) (g : t.Balanced u) :
    s.Balanced u :=
  ⟨g.depth.trans h.depth, h.noted.trans g.noted⟩

namespace Parser

variable {α β σ : Type} {w : Site} {k : Known} {l : α → Known}

/-- A parser put together from the steps that the parsers of the constructs take. -/
inductive Built : {α : Type} → Parser α → Prop
  | pure {α : Type} (a : α) : Built (Pure.pure a)
  | throw {α : Type} (abort : Abort) : abort ≠ .tooDeep → Built (throw abort : Parser α)
  | get : Built get
  | onTokens {α : Type} (f : TokenStream → α × TokenStream) : Built (onTokens f)
  | record (d : Diagnostic) : Built (record d)
  | continued : Built (onScopes (·.setFound .loop .function 1))
  | returned : Built (onScopes noteReturn)
  | bind {α β : Type} {p : Parser α} {f : α → Parser β} :
      Built p → (∀ a, Built (f a)) → Built (p >>= f)
  | within {α : Type} {p : Parser α} (kind : ScopeKind) (name : String) :
      Built p → Built (within kind name p)
  | nested {α : Type} {p : Parser α} : Built p → Built (nested p)
  | tooDeep {α : Type} : Built (tooDeep : Parser α)

namespace Built

theorem steps : Steps Built where
  pure := .pure
  bind := .bind
  ask f _ := .bind .get fun s => .pure (f s)
  onTokens := .onTokens
  record d _ := .record d

theorem iterateFor {step : σ → Parser (ForInStep σ)} (h : ∀ a, Built (step a))
    (clock : List Scanned) (a : σ) : Built (iterateFor step clock a) := by
  induction clock generalizing a with
  | nil => exact .bind (h a) fun
    | .done b | .yield b => .pure b
  | cons _ clock inductionHypothesis => exact .bind (h a) fun
    | .done b => .pure b
    | .yield b => inductionHypothesis b

theorem closed : Closed Built where
  toSteps := steps
  stop _ _ abort _ other := .bind (steps.complain _ _) fun _ => (Built.throw abort other :)
  tooDeep := .tooDeep
  iterate h := .bind .get fun s => .iterateFor h s.tokens.ahead _
  nested := .nested
  within := .within
  continued := .continued
  returned := .returned

end Built

theorem Gathers.built {p : Parser α} (h : Gathers w k p l) : Built p := h.closed Built.closed

/-- A parser put together from steps, in which what is opened is closed unless the parser stops. -/
inductive Stepwise : {α : Type} → Parser α → Prop
  | pure {α : Type} (a : α) : Stepwise (Pure.pure a)
  | throw {α : Type} (abort : Abort) : Stepwise (throw abort : Parser α)
  | get : Stepwise get
  | onTokens {α : Type} (f : TokenStream → α × TokenStream) : Stepwise (onTokens f)
  | record (d : Diagnostic) : Stepwise (record d)
  | continued : Stepwise (onScopes (·.setFound .loop .function 1))
  | returned : Stepwise (onScopes noteReturn)
  | bind {α β : Type} {p : Parser α} {f : α → Parser β} :
      Stepwise p → (∀ a, Stepwise (f a)) → Stepwise (p >>= f)
  | within {α : Type} {p : Parser α} (kind : ScopeKind) (name : String) :
      Stepwise p → Stepwise (within kind name p)
  | nested {α : Type} {p : Parser α} : Stepwise p → Stepwise (nested p)
  | abandoned {α : Type} {p : Parser α} : Stepwise p → (∀ s a t, p s ≠ .ok a t) →
      Stepwise (do modify fun s => { s with depth := s.depth + 1 }; p)

theorem Stepwise.steps : Steps Stepwise where
  pure := .pure
  bind := .bind
  ask f _ := .bind .get fun s => .pure (f s)
  onTokens := .onTokens
  record d _ := .record d

theorem Stepwise.tooDeep : Stepwise (tooDeep : Parser α) := by
  refine .abandoned (.bind steps.head fun _ => .bind (steps.complain _ _) fun _ => .throw _)
    fun s a t run => ?_
  obtain ⟨_, _, -, run⟩ := bind_eq_ok.1 run
  obtain ⟨_, _, -, stops⟩ := bind_eq_ok.1 run
  cases stops

theorem Built.stepwise {p : Parser α} (h : Built p) : Stepwise p := by
  induction h with
  | pure a => exact .pure a
  | throw abort _ => exact .throw abort
  | get => exact .get
  | onTokens f => exact .onTokens f
  | record d => exact .record d
  | continued => exact .continued
  | returned => exact .returned
  | bind _ _ first rest => exact .bind first rest
  | within kind name _ inside => exact .within kind name inside
  | nested _ inside => exact .nested inside
  | tooDeep => exact .tooDeep

/-! ## From step to step -/

theorem last_bind {p : Parser α} {f : α → Parser β} {s : Session} {R : Session → Prop}
    (stops : ∀ abort t, p s = .error abort t → R t)
    (goes : ∀ a t, p s = .ok a t → R (last (f a t))) : R (last ((p >>= f) s)) := by
  change R (last (EStateM.bind p f s))
  unfold EStateM.bind
  split
  next a t run => exact goes a t run
  next abort t run => exact stops abort t run

/-- However a parser goes, also if it stops, steps lead from where it began to where it ends. -/
theorem Stepwise.reaches {p : Parser α} (h : Stepwise p) (s : Session) :
    Relation.ReflTransGen Session.Step s (last (p s)) := by
  induction h generalizing s with
  | pure a => exact .refl
  | throw abort => exact .refl
  | get => exact .refl
  | onTokens f => exact .single (.tokens _)
  | record d =>
    have reported := Session.Step.report (s := s) d
    unfold Parser.record
    split <;> exact .single (by simp_all [last])
  | continued => exact .single .continued
  | returned => exact .single .returned
  | bind _ _ first rest =>
    have first := first s
    refine last_bind (fun abort t run => ?_) fun a t run => ?_
    · rwa [run] at first
    · rw [run] at first
      exact first.trans (rest a t)
  | @within _ p kind name _ inside =>
    have inside := inside { s with scopes := s.scopes.push kind name }
    have opened : Session.Step s _ := .opening kind name
    refine .head opened ?_
    refine last_bind (p := p) (s := { s with scopes := s.scopes.push kind name })
      (fun abort t run => ?_) fun a t run => ?_
    · rwa [run] at inside
    · rw [run] at inside
      exact .tail inside .closing
  | @nested _ p _ inside =>
    have inside := inside { s with depth := s.depth + 1 }
    rw [nested_eq]
    refine .head .deeper (.tail inside ?_)
    cases p { s with depth := s.depth + 1 } <;> exact .back
  | @abandoned _ p _ _ inside => exact .head .deeper (inside { s with depth := s.depth + 1 })

/-- The sessions that a parser passes through: where it begins, where it ends, and those between,
along the steps that it is put together from. -/
inductive Visits : {α : Type} → Parser α → Session → Session → Prop
  | start {α : Type} {p : Parser α} (s : Session) : Visits p s s
  | stop {α : Type} {p : Parser α} (s : Session) : Stepwise p → Visits p s (last (p s))
  | first {α β : Type} {p : Parser α} {f : α → Parser β} {s t : Session} :
      Visits p s t → Visits (p >>= f) s t
  | rest {α β : Type} {p : Parser α} {f : α → Parser β} {s t u : Session} {a : α} :
      Stepwise p → p s = .ok a u → Visits (f a) u t → Visits (p >>= f) s t
  | within {α : Type} {p : Parser α} {kind : ScopeKind} {name : String} {s t : Session} :
      Visits p { s with scopes := s.scopes.push kind name } t → Visits (within kind name p) s t
  | nested {α : Type} {p : Parser α} {s t : Session} :
      Visits p { s with depth := s.depth + 1 } t → Visits (nested p) s t
  | abandoned {α : Type} {p : Parser α} {s t : Session} :
      Visits p { s with depth := s.depth + 1 } t →
      Visits (do modify fun s => { s with depth := s.depth + 1 }; p) s t

theorem Visits.reaches {p : Parser α} {s t : Session} (h : Visits p s t) :
    Relation.ReflTransGen Session.Step s t := by
  induction h with
  | start => exact .refl
  | stop s stepwise => exact stepwise.reaches s
  | first _ reaches => exact reaches
  | @rest _ _ p f s t u a stepwise run _ reaches =>
    have before := stepwise.reaches s
    rw [run] at before
    exact before.trans reaches
  | within _ reaches => exact .head (.opening _ _) reaches
  | nested _ reaches => exact .head .deeper reaches
  | abandoned _ reaches => exact .head .deeper reaches

/-! ## Balance -/

theorem Stepwise.balances {p : Parser α} (h : Stepwise p) {s t : Session} {a : α}
    (file : s.scopes.root.kind = .file) (run : p s = .ok a t) : s.Balanced t := by
  induction h generalizing s t with
  | pure a =>
    cases run
    exact .of_eq rfl rfl
  | throw abort => cases run
  | get =>
    cases run
    exact .of_eq rfl rfl
  | onTokens f =>
    cases run
    exact .of_eq rfl rfl
  | record d =>
    unfold Parser.record at run
    split at run
    · cases run
      exact .of_eq rfl rfl
    · cases run
  | continued =>
    cases run
    exact ⟨rfl, .continued .refl⟩
  | returned =>
    cases run
    exact ⟨rfl, .returned .refl⟩
  | bind _ _ first rest =>
    obtain ⟨a, u, head, tail⟩ := bind_eq_ok.1 run
    have balanced := first file head
    exact balanced.trans (rest a ((balanced.noted.keeps file).root ▸ file) tail)
  | within kind name _ inside =>
    -- What is pushed is what is popped, whatever has been noted on top of it.
    obtain ⟨_, opened, push, run⟩ := bind_eq_ok.1 run
    obtain ⟨b, closing, body, run⟩ := bind_eq_ok.1 run
    obtain ⟨_, closed, pop, run⟩ := bind_eq_ok.1 run
    obtain ⟨rfl, rfl⟩ := pure_eq_ok.1 run
    cases push
    cases pop
    have balanced := inside (ScopeStack.root_push.trans file) body
    exact ⟨balanced.depth, balanced.noted.pop file⟩
  | nested _ inside =>
    obtain ⟨u, body, rfl⟩ := nested_eq_ok.1 run
    have balanced := inside (s := { s with depth := s.depth + 1 }) file body
    exact ⟨by simp [balanced.depth], balanced.noted⟩
  | abandoned _ stops =>
    obtain ⟨_, _, -, body⟩ := bind_eq_ok.1 run
    exact absurd body (stops _ _ _)

/-! ## The parsers of the constructs -/

/-- The parsers of the constructs of both dialects, which read what lies inside them by some
rules. -/
inductive ParseFunction (r : Rules) : {α : Type} → Parser α → Prop
  -- Chunks and blocks
  | chunk : ParseFunction r (Session.chunk r)
  | nestedBlock : ParseFunction r r.block
  | block : ParseFunction r (block r)
  | stats : ParseFunction r (do
      let stats ← Parser.iterate #[] (moreStats r)
      let label ← pendingLabel
      return stats.toList ++ label)
  | returnStat : ParseFunction r (returnStat r)
  | scopedBlock (kind : ScopeKind) (name : String) : ParseFunction r (within kind name r.block)
  -- Expressions
  | exp : ParseFunction r r.exp
  | nestedOperation (limit : Nat) : ParseFunction r (r.operation limit)
  | operation (limit : Nat) : ParseFunction r (operation r limit)
  | expList : ParseFunction r (expList r)
  | operand : ParseFunction r (operand r)
  | primary : ParseFunction r (primary r)
  | numeral : ParseFunction r numeral
  | prefixExp : ParseFunction r (prefixExp r)
  | parenthesised : ParseFunction r r.parenthesised
  | suffixes (e : Exp) : ParseFunction r (Parser.iterate e (suffix r))
  | callOf (callee : Exp) (method : Option Param) : ParseFunction r (callOf r callee method)
  | args : ParseFunction r (args r)
  -- Tables and functions
  | nestedTable : ParseFunction r r.table
  | table : ParseFunction r (table r)
  | field : ParseFunction r (field r)
  | nestedFunctionBody (style : FunctionStyle) : ParseFunction r (r.functionBody style)
  | functionBody (style : FunctionStyle) : ParseFunction r (functionBody r style)
  | functionExp (style : FunctionStyle) (start : Span) :
      ParseFunction r (functionExp r style start)
  | params : ParseFunction r params
  -- Assignments and declarations
  | assignOrCall : ParseFunction r (assignOrCall r)
  | assignRest (start : Span) (first : Exp) : ParseFunction r (assignRest r start first)
  | compound (start : Span) (op : BinaryOp) (target : Exp) :
      ParseFunction r (compound r start op target)
  | target (e : Exp) : ParseFunction r (target e)
  | localDecl (start : Span) : ParseFunction r (localDecl r start)
  | attrNames : ParseFunction r attrNames
  | attr : ParseFunction r attr
  -- Statements
  | nestedStat : ParseFunction r r.stat
  | stat : ParseFunction r (stat r)
  | luaStat : ParseFunction r (luaStat r)
  | openBody (word : TokenKind) : ParseFunction r (openBody word)
  | closeBody : ParseFunction r closeBody
  | breakStat : ParseFunction r breakStat
  | labelStat : ParseFunction r labelStat
  | gotoStat : ParseFunction r gotoStat
  | doStat : ParseFunction r (doStat r)
  | whileStat : ParseFunction r (whileStat r)
  | repeatStat : ParseFunction r (repeatStat r)
  | branch : ParseFunction r (branch r)
  | ifStat : ParseFunction r (ifStat r)
  | forStat : ParseFunction r (forStat r)
  | numericFor (start : Span) (var : Param) : ParseFunction r (numericFor r start var)
  | genericFor (start : Span) (first : Param) : ParseFunction r (genericFor r start first)
  | functionName (isStatic : Bool) : ParseFunction r (functionName isStatic)
  | functionStat (start : Span) (attr : Attribute) (isStatic : Bool) :
      ParseFunction r (functionStat r start attr isStatic)
  | localFunction (start : Span) : ParseFunction r (localFunction r start)
  -- Statements of Mooc
  | moocStat : ParseFunction r (moocStat r)
  | continueStat : ParseFunction r continueStat
  | deferStat : ParseFunction r (deferStat r)
  | guardStat : ParseFunction r (guardStat r)
  | switchStat : ParseFunction r (switchStat r)
  | classStat (start : Span) (isExported : Bool) : ParseFunction r (classStat r start isExported)
  | classMembers (owner : String) : ParseFunction r (Parser.iterate #[] (moreMembers r owner))
  | importStat : ParseFunction r importStat
  | importKeys (source : ImportSource) (names : List Param) (start : Span) :
      ParseFunction r (importKeys source names start)
  | exportStat : ParseFunction r (exportStat r)

/-- Every construct is put together from steps, however deep the rules reach. -/
theorem ParseFunction.built {n : Nat} {p : Parser α} (h : ParseFunction (.level n) p) :
    Built p := by
  have rules := Rules.level_gathers n
  have stats : Gathers .chunk {} (Parser.iterate #[] (moreStats (.level n)))
      fun ss => statsKnown Site.chunk.around ss.toList :=
    .loop _ (.refl _) (moreStats_gathers rules)
  have built {β : Type} {q : Parser β} {l : β → Known} (h : Gathers .chunk {} q l) : Built q :=
    h.built
  cases h with
  | chunk => exact built (Session.chunk_gathers n)
  | nestedBlock => exact built (rules.block _)
  | block => exact built (.block stats fun _ => returnStat_gathers rules)
  | stats => exact .bind stats.built fun _ => Built.steps.map Built.steps.pendingLabel _
  | returnStat => exact built (returnStat_gathers rules)
  | scopedBlock kind name => exact .within kind name (rules.block .chunk).built
  | exp => exact built (rules.operation _ _ 0)
  | nestedOperation limit => exact built (rules.operation _ _ limit)
  | operation limit => exact built (operation_gathers rules limit)
  | expList => exact built (expList_gathers rules)
  | operand => exact built (operand_gathers rules)
  | primary => exact built (primary_gathers rules)
  | numeral => exact built numeral_gathers
  | prefixExp => exact built (prefixExp_gathers rules)
  | parenthesised => exact built (rules.parenthesised _ _)
  | suffixes e =>
    exact Built.closed.iterate fun e => (suffix_gathers (w := .chunk) (k := {}) rules e).built
  | callOf callee method =>
    exact (callOf_gathers (w := .chunk) (k := { blocks := callee.blocks _ }) rules callee method
      fun _ => id).built
  | args => exact built (args_gathers rules)
  | nestedTable => exact built (rules.table _ _)
  | table => exact built (table_gathers rules)
  | field => exact built (field_gathers rules)
  | nestedFunctionBody style => exact built (rules.functionBody _ _ style)
  | functionBody style => exact built (functionBody_gathers rules style)
  | functionExp style start =>
    exact built (functionExp_gathers rules style start)
  | params => exact built params_gathers
  | assignOrCall => exact built (assignOrCall_gathers rules)
  | assignRest start first =>
    exact (assignRest_gathers rules (known_assigns (w := .chunk) (k := { blocks := first.blocks [] }))
      start first (.refl _) fun _ => id).built
  | compound start op target =>
    exact (compound_gathers rules (known_assigns (w := .chunk) (k := { blocks := target.blocks [] }))
      start op target (.refl _) fun _ => id).built
  | target e =>
    exact (target_gathers (w := .chunk) (k := { blocks := e.blocks _ }) e fun _ => id).built
  | localDecl start => exact built (localDecl_gathers rules start)
  | attrNames => exact built attrNames_gathers
  | attr => exact built attr_gathers
  | nestedStat => exact built (rules.stat _ _)
  | stat => exact built (stat_gathers rules)
  | luaStat => exact built (luaStat_gathers rules)
  | openBody word => exact built (openBody_gathers word)
  | closeBody => exact Built.steps.closeBody
  | breakStat => exact (Gathers.breakStat (w := .chunk) (k := {})).built
  | labelStat => exact (Gathers.labelStat (w := .chunk) (k := {})).built
  | gotoStat => exact (Gathers.gotoStat (w := .chunk) (k := {})).built
  | doStat => exact built (doStat_gathers rules)
  | whileStat => exact built (whileStat_gathers rules)
  | repeatStat => exact built (repeatStat_gathers rules)
  | branch => exact built (branch_gathers rules)
  | ifStat => exact built (ifStat_gathers rules)
  | forStat => exact built (forStat_gathers rules)
  | numericFor start var =>
    exact built (numericFor_gathers rules start var)
  | genericFor start first =>
    exact built (genericFor_gathers rules start first)
  | functionName isStatic => exact built (functionName_gathers isStatic)
  | functionStat start attr isStatic =>
    exact built (functionStat_gathers rules start attr isStatic)
  | localFunction start => exact built (localFunction_gathers rules start)
  | moocStat => exact built (moocStat_gathers rules)
  | continueStat => exact (Gathers.continueStat (w := .chunk) (k := {})).built
  | deferStat => exact (Gathers.deferStat (w := .chunk) (k := {}) (rules.block _)).built
  | guardStat => exact built (guardStat_gathers rules)
  | switchStat => exact built (switchStat_gathers rules)
  | classStat start isExported =>
    exact built (classStat_gathers rules start isExported)
  | classMembers owner =>
    exact Built.closed.iterate fun ms =>
      (moreMembers_gathers (w := .chunk) (k := {}) rules owner ms).built
  | importStat => exact built importStat_gathers
  | importKeys source names start =>
    exact built (importKeys_gathers source names start)
  | exportStat => exact built (exportStat_gathers rules)

theorem ParseFunction.stepwise {n : Nat} {p : Parser α} (h : ParseFunction (.level n) p) :
    Stepwise p :=
  h.built.stepwise

end Parser

namespace Session

variable {source : List UInt8} {chunk : String} {settings : Settings} {s : Session}

/-- A session may be used again: reading a chunk, also one that stops, is so many steps more. -/
theorem Reachable.analyze (h : s.Reachable source chunk settings) :
    s.analyze.2.Reachable source chunk settings := by
  let ready : Session := { s with tokens := s.tokens.skipShebang }
  have ends : s.analyze.2 = Parser.last (Session.chunk ready.rules ready) := by
    unfold Session.analyze
    cases run : Session.chunk ready.rules ready <;> simp only [ready] at run <;>
      simp [run, Parser.last]
  have stepwise : Parser.Stepwise (Session.chunk ready.rules) := Parser.ParseFunction.chunk.stepwise
  have skipped : Step s ready := .tokens s.tokens.skipShebang
  exact ends ▸ (h.tail skipped).trans (stepwise.reaches ready)

theorem Reachable.exp (h : s.Reachable source chunk settings) :
    s.exp.2.Reachable source chunk settings := by
  have ends : s.exp.2 = Parser.last (s.rules.exp s) := by
    unfold Session.exp
    cases s.rules.exp s <;> rfl
  have stepwise : Parser.Stepwise s.rules.exp := Parser.ParseFunction.exp.stepwise
  exact ends ▸ h.trans (stepwise.reaches s)

/-- A parser that returns leaves the depth and the stack as they were, up to the notes of `continue`
and `return`; and wherever a parser stands the chunk's marker is there and counts the open loops, so
that every loop that is closed was counted. -/
theorem parse_balanced {α : Type} {n : Nat} {p : Parser α}
    (reachable : s.Reachable source chunk settings) (construct : p.ParseFunction (.level n)) :
    (∀ t, p.Visits s t → t.scopes.Tallied chunk ∧
      ∀ m, t.scopes.pop.1 = some m → m.kind = .loop → 0 < t.scopes.openLoops) ∧
    p.Visits s (Parser.last (p s)) ∧
    ∀ a t, p s = .ok a t → t.depth = s.depth ∧ t.scopes.constructs = s.scopes.constructs ∧
      s.scopes.Noted t.scopes ∧ s.scopes.Keeps t.scopes := by
  have stepwise := construct.stepwise
  refine ⟨fun t visited => ?_, .stop s stepwise, fun a t run => ?_⟩
  · have tallied := Reachable.tallied (reachable.trans visited.reaches)
    exact ⟨tallied, fun _ => tallied.openLoops_pos⟩
  · have file := reachable.tallied.kind
    have balanced := stepwise.balances file run
    have keeps := balanced.noted.keeps file
    exact ⟨balanced.depth, keeps.constructs, balanced.noted, keeps⟩

/-- A `continue` in a loop leaves nothing but the note in the marker of that loop. -/
theorem parse_balanced_continue :
    let fresh := Session.start "continue".toUTF8.toList "a.mooc" (.forChunk "a.mooc")
    let s : Session := { fresh with scopes := fresh.scopes.push .loop "while" }
    s.Reachable "continue".toUTF8.toList "a.mooc" (.forChunk "a.mooc") ∧
    (Parser.moocStat (.level 3)).ParseFunction (.level 3) ∧
    ∃ jump t, Parser.moocStat (.level 3) s = .ok jump t ∧ t.depth = 0 ∧
      t.scopes.constructs = [(.loop, "while"), (.file, "a.mooc")] ∧
      s.scopes.Keeps t.scopes ∧ t.scopes.inner = [⟨.loop, "while", 1⟩] := by
  intro fresh s
  have reachable : s.Reachable "continue".toUTF8.toList "a.mooc" (.forChunk "a.mooc") :=
    .single (.opening .loop "while")
  have marked : (match Parser.moocStat (.level 3) s with
      | .ok _ t => t.scopes.inner
      | .error _ _ => []) = [⟨.loop, "while", 1⟩] := by decide +kernel
  cases run : Parser.moocStat (.level 3) s with
  | ok jump t =>
    rw [run] at marked
    obtain ⟨depth, constructs, -, keeps⟩ := (parse_balanced reachable .moocStat).2.2 jump t run
    exact ⟨reachable, .moocStat, jump, t, rfl, depth, constructs, keeps, marked⟩
  | error abort t =>
    rw [run] at marked
    cases marked

end Session

end LuaChunk
