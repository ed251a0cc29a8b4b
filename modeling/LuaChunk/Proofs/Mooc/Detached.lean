import LuaChunk.Proofs.Mooc.ContinueLabel
import LuaChunk.Proofs.Mooc.Members
import LuaChunk.Proofs.Replay.Apart
import LuaChunk.Proofs.Shorthand.NamedFunction

/-!
# Members as statements

What a class holds may as well be written behind it: `fn m(P) { B }` as `fn C:m(P) { B }`, with
`static` before it as `fn C.m(P) { B }`, and a field `f = e` as `C.f = e`.  The name of a member is
looked up among the open constructs and a target is put together by hand, and behind that the same
words are read, once inside the class and once outside.
-/

set_option autoImplicit false

open LuaChunk.Parser

namespace LuaChunk

namespace Parser

variable {w : Frontier} {loose : Option Looseness} {r r' : Rules} {s t : Session} {start start' : Span}
  {targets targets' : List Exp} {first first' : Exp}

/-! ## Assignments with values -/

/-- The values of an assignment, which have to be there. -/
def givenValues (r : Rules) (start : Span) (targets : List Exp) : Parser Stat := do
  if (← peek) = .assign then
    let _ ← next
    let values ← expList r
    return .assign { targets, values, attr := .regular, span := ← since start }
  else throw .tooDeep

/-- An assignment from behind its targets on, where a value is given. -/
def given (r : Rules) (start : Span) (targets : List Exp) : Parser Stat := do
  match BinaryOp.ofCompound? (← peek), targets with
  | some op, [target] => compound r start op target
  | _, targets => givenValues r start targets

/-- An assignment from behind its first target on, where a value is given. -/
def assigned (r : Rules) (start : Span) (first : Exp) : Parser Stat := do
  let targets ← iterate #[first] (moreTargets r)
  given r start targets.toList

/-- In Mooc targets without a value are a declaration. -/
theorem plainAssign_eq_assign (mooc : s.settings.dialect = .mooc) {a : Assignment} :
    plainAssign r start targets s = .ok (.assign a) t ↔
      givenValues r start targets s = .ok (.assign a) t := by
  unfold plainAssign givenValues accepts accept
  simp only [bind_assoc]
  rw [peek_bind, peek_bind]
  by_cases values : (s.tokens.upcoming 0).token.kind = .assign
  · rw [if_pos values, if_pos values]
    simp only [bind_assoc, pure_bind, Option.isSome_some, if_true]
  · rw [if_neg values, if_neg values, pure_bind, Option.isSome_none, pure_bind]
    simp only [Bool.false_eq_true, if_false]
    rw [isMooc_bind, show (({ s with tokens := s.tokens.look 1 } : Session).settings.dialect == .mooc) =
      true by simp [mooc]]
    refine ⟨fun run => ?_, nofun⟩
    obtain ⟨_, _, _, same⟩ := bind_eq_ok.1 run
    cases (pure_eq_ok.1 same).1

/-- Where a value is given an assignment is read, and nothing else is read as one. -/
theorem afterTargets_eq_assign (mooc : s.settings.dialect = .mooc) {a : Assignment} :
    afterTargets r start targets s = .ok (.assign a) t ↔
      given r start targets s = .ok (.assign a) t := by
  have plain : plainAssign r start targets { s with tokens := s.tokens.look 1 } = .ok (.assign a) t ↔
      givenValues r start targets { s with tokens := s.tokens.look 1 } = .ok (.assign a) t :=
    plainAssign_eq_assign (by simpa using mooc)
  have several : (do if ← isMooc then plainAssign r start targets else badCompound r start)
      { s with tokens := s.tokens.look 1 } = .ok (.assign a) t ↔
        givenValues r start targets { s with tokens := s.tokens.look 1 } = .ok (.assign a) t := by
    rw [isMooc_bind, show (({ s with tokens := s.tokens.look 1 } : Session).settings.dialect == .mooc) =
      true by simp [mooc]]
    exact plain
  unfold afterTargets given
  rw [peek_bind, peek_bind]
  generalize BinaryOp.ofCompound? (s.tokens.upcoming 0).token.kind = found
  rcases found with _ | op
  · exact plain
  · rcases targets with _ | ⟨target, _ | ⟨second, rest⟩⟩
    · exact several
    · exact .rfl
    · exact several

theorem targets_replays {ends : Prop} (h : r.Replays w r') (stop : ends → w.Same)
    (same : first.unplaced = first'.unplaced) :
    Replays w loose none false ends (Array.map Exp.unplaced) (iterate #[first] (moreTargets r))
      (iterate #[first'] (moreTargets r')) :=
  .iterate (Array.map Exp.unplaced) (fun c d => moreTargets_agree (h.agree c d)) (by simp [same])
    (moreTargets_replays h stop)

theorem assignRest_place (place : first.isPlace = true) : assignRest r start first = (do
    let targets ← iterate #[first] (moreTargets r)
    afterTargets r start targets.toList) := by
  cases first <;> first | rfl | cases place

theorem assignRest_eq_assign {n : Nat} (mooc : s.settings.dialect = .mooc)
    (place : first.isPlace = true) {a : Assignment} :
    assignRest (.level n) start first s = .ok (.assign a) t ↔
      assigned (.level n) start first s = .ok (.assign a) t := by
  rw [assignRest_place place, assigned, bind_eq_ok, bind_eq_ok]
  refine exists_congr fun targets => exists_congr fun u => and_congr_right fun run => ?_
  have replays : Replays ⟨.mooc, [], [], rfl, rfl⟩ none none false False (Array.map Exp.unplaced)
      (iterate #[first] (moreTargets (.level n))) (iterate #[first] (moreTargets (.level n))) :=
    targets_replays (Rules.level_replays le_rfl) False.elim rfl
  exact afterTargets_eq_assign ((replays.onward mooc run).settings_eq ▸ mooc)

/-! ### Read again -/

theorem givenValues_replays (h : r.Replays w r')
    (same : targets.map Exp.unplaced = targets'.map Exp.unplaced) :
    Replays w loose none true w.Stops Stat.unplaced (givenValues r start targets)
      (givenValues r' start' targets') :=
  .peekTaking fun kind => .ite
    (fun assign => by
      subst assign
      exact .next (by decide) fun _ _ _ _ => .bind (expList_replays h id) fun values values' same' =>
        .since fun _ _ => .pure (by simp [same, same']))
    fun _ => .throw _

theorem given_replays (h : r.Replays w r')
    (same : targets.map Exp.unplaced = targets'.map Exp.unplaced) :
    Replays w loose none true w.Stops Stat.unplaced (given r start targets)
      (given r' start' targets') := by
  refine .peekTaking fun kind => ?_
  cases found : BinaryOp.ofCompound? kind with
  | none => exact (givenValues_replays h same).weaken
  | some op =>
    have more := BinaryOp.ne_eof (BinaryOp.ofToken?_of_compound found)
    rcases targets with _ | ⟨target, _ | ⟨second, rest⟩⟩
    · obtain rfl := List.map_eq_nil_iff.1 same.symm
      exact (givenValues_replays h rfl).weaken
    · obtain ⟨target', _, rfl, alike, none⟩ := List.map_eq_cons_iff.1 same.symm
      obtain rfl := List.map_eq_nil_iff.1 none
      exact compound_replays h id more start start' op alike.symm
    · obtain ⟨target', _, rfl, -, others⟩ := List.map_eq_cons_iff.1 same.symm
      obtain ⟨second', rest', rfl, -, -⟩ := List.map_eq_cons_iff.1 others
      exact (givenValues_replays h same).weaken

theorem assigned_replays (h : r.Replays w r') (same : first.unplaced = first'.unplaced) :
    Replays w loose none true w.Stops Stat.unplaced (assigned r start first)
      (assigned r' start' first') := by
  refine (targets_replays h False.elim same).upTo fun targets targets' alike => given_replays h ?_
  simpa using congrArg Array.toList alike

theorem assigned_moves {n : Nat} {a : Stat} (run : assigned (.level n) start first s = .ok a t) :
    s.Moves t := by
  have replays : Replays ⟨s.settings.dialect, [], [], rfl, rfl⟩ none none true
      (Frontier.Stops ⟨s.settings.dialect, [], [], rfl, rfl⟩) Stat.unplaced
      (assigned (.level n) start first) (assigned (.level n) start first) :=
    assigned_replays (Rules.level_replays le_rfl) rfl
  exact replays.onward rfl run

/-- An assignment goes on behind its first target with a comma, an equals sign or an operator. -/
def FollowsTarget (kind : TokenKind) : Prop :=
  kind = .comma ∨ kind = .assign ∨ (BinaryOp.ofCompound? kind).isSome = true

theorem FollowsTarget.ne_colon {kind : TokenKind} (h : FollowsTarget kind) : kind ≠ .colon := by
  rintro rfl
  rcases h with h | h | h <;> cases h

theorem FollowsTarget.isSuffix {kind : TokenKind} (h : FollowsTarget kind) :
    kind.isSuffix = false := by
  rcases h with rfl | rfl | h
  · rfl
  · rfl
  · cases kind <;> first | rfl | cases h

theorem givenValues_begins {a : Stat} (run : givenValues r start targets s = .ok a t) :
    (s.tokens.upcoming 0).token.kind = .assign := by
  unfold givenValues at run
  rw [peek_bind] at run
  split at run
  next assign => exact assign
  next => cases run

theorem given_begins {a : Stat} (run : given r start targets s = .ok a t) :
    FollowsTarget (s.tokens.upcoming 0).token.kind := by
  unfold given at run
  rw [peek_bind] at run
  cases found : BinaryOp.ofCompound? (s.tokens.upcoming 0).token.kind with
  | some op => exact .inr (.inr (by simp [found]))
  | none =>
    rw [found] at run
    exact .inr (.inl (by simpa using givenValues_begins run))

theorem assigned_begins {a : Stat} (run : assigned r start first s = .ok a t) :
    FollowsTarget (s.tokens.upcoming 0).token.kind := by
  by_cases comma : (s.tokens.upcoming 0).token.kind = .comma
  · exact .inl comma
  have round : moreTargets r #[first] s = .ok (.done #[first]) { s with tokens := s.tokens.look 1 } := by
    unfold moreTargets accepts accept
    simp only [bind_assoc]
    rw [peek_bind, if_neg comma]
    rfl
  have rounds : iterate #[first] (moreTargets r) s =
      .ok #[first] { s with tokens := s.tokens.look 1 } := by
    change iterateFor (moreTargets r) s.tokens.ahead #[first] s = _
    cases s.tokens.ahead <;> exact bind_of_ok round _
  unfold assigned at run
  rw [bind_of_ok rounds] at run
  simpa using given_begins run

/-! ## Functions in a class -/

/-- What a function is called that is a member of a class. -/
def FunctionName.inClass (owner name : String) (isStatic : Bool) : FunctionName :=
  if isStatic then .ofNames owner [name] none else .ofNames owner [] (some name)

theorem functionName_inClass {owner : String} {isStatic : Bool} {f : FunctionName}
    (mooc : s.settings.dialect = .mooc) (inside : s.scopes.currentClass? = some owner)
    (run : functionName isStatic s = .ok f t) : ∃ name, expectName s = .ok name t ∧
      f.unplaced = (FunctionName.inClass owner name.text isStatic).unplaced := by
  unfold functionName at run
  rw [isMooc_bind, mooc] at run
  obtain ⟨found, u, asked, run⟩ := bind_eq_ok.1 run
  cases asked
  rw [inside] at run
  obtain ⟨name, u, named, run⟩ := bind_eq_ok.1 run
  obtain ⟨rfl, rfl⟩ := pure_eq_ok.1 run
  refine ⟨name, named, ?_⟩
  cases isStatic <;> simp [FunctionName.inClass, FunctionName.ofNames, FunctionName.ofName,
    FunctionName.members, FunctionName.member, FunctionName.unplaced, Exp.field, Token.name]

theorem functionStyle_mooc {β : Type} {f : TokenKind × FunctionStyle → Parser β}
    (mooc : s.settings.dialect = .mooc) : (functionStyle >>= f) s = f (.kwFn, .braced) s := by
  unfold functionStyle
  rw [bind_assoc, isMooc_bind, mooc]
  rfl

/-- A function statement from its keyword on. -/
def fromKeyword (r : Rules) (start : Span) (isStatic : Bool) : Parser Assignment := do
  let (keyword, style) ← functionStyle
  let keyword ← expect keyword
  let name ← functionName isStatic
  let self : Param := ⟨"self", ← now⟩
  let body ← r.functionBody style
  let body : FunctionBody :=
    { body with
      params := if name.isMethod then self :: body.params else body.params
      isMethod := name.isMethod
      owner := name.owner
      name := some name.name }
  return {
    targets := [name.target]
    values := [.function body (← since keyword.span)]
    attr := .regular
    span := ← since start }

theorem functionStat_eq (r : Rules) (start : Span) (isStatic : Bool) :
    functionStat r start .regular isStatic = (do
      if isStatic then
        let _ ← next
      fromKeyword r start isStatic) := rfl

theorem fromKeyword_parts {n : Nat} {owner : String} {isStatic : Bool} {a : Assignment}
    (mooc : s.settings.dialect = .mooc) (inside : s.scopes.currentClass? = some owner)
    (run : fromKeyword (.level n) start isStatic s = .ok a t) :
    ∃ word name body u v, expect .kwFn s = .ok word u ∧ expectName u = .ok name v ∧
      (Rules.level n).functionBody .braced v = .ok body t ∧
      a.unplaced = ((FunctionName.inClass owner name.text isStatic).assigned body .regular .synthetic
        .synthetic .synthetic).unplaced := by
  unfold fromKeyword at run
  rw [functionStyle_mooc mooc] at run
  obtain ⟨word, u, opened, run⟩ := bind_eq_ok.1 run
  obtain ⟨f, v, named, run⟩ := bind_eq_ok.1 run
  obtain ⟨_, _, asked, run⟩ := bind_eq_ok.1 run
  cases asked
  obtain ⟨body, _, read, run⟩ := bind_eq_ok.1 run
  obtain ⟨_, _, asked, run⟩ := bind_eq_ok.1 run
  cases asked
  obtain ⟨_, _, asked, run⟩ := bind_eq_ok.1 run
  cases asked
  obtain ⟨rfl, rfl⟩ := pure_eq_ok.1 run
  have moves := Reads.moves (fun _ => expect_reads _) opened
  obtain ⟨name, named, called⟩ := functionName_inClass (moves.settings_eq ▸ mooc)
    (moves.currentClass?.trans inside) named
  exact ⟨word, name, body, u, v, opened, named, read, FunctionName.unplaced_assigned called rfl ..⟩

/-- The tokens of a function in a class, and what its body has been read as. -/
theorem fromKeyword_covers {n : Nat} {owner : String} {isStatic : Bool} {a : Assignment}
    (mooc : s.settings.dialect = .mooc) (inside : s.scopes.currentClass? = some owner)
    (ended : s.tokens.final.token.kind = .eof)
    (run : fromKeyword (.level n) start isStatic s = .ok a t) :
    s.Moves t ∧ ∀ ts, s.Covers t ts → ∃ word name rest body u, ts = word :: name :: rest ∧
      word.kind = .kwFn ∧ name.kind = .identifier ∧
      (Rules.level n).functionBody .braced u = .ok body t ∧ s.Moves u ∧ u.Covers t rest ∧
      a.unplaced = ((FunctionName.inClass owner name.text isStatic).assigned body .regular .synthetic
        .synthetic .synthetic).unplaced := by
  obtain ⟨word, name, body, u, v, opened, named, read, called⟩ := fromKeyword_parts mooc inside run
  have moves₁ := Reads.moves (fun _ => expect_reads _) opened
  have moves₂ := Reads.moves (fun _ => expectName_reads) named
  have moves₃ := Reads.moves (fun _ => (Rules.level_reads n).functionBody _) read
  refine ⟨moves₁.trans (moves₂.trans moves₃), fun ts covers => ?_⟩
  obtain ⟨_, _, rfl, covers₁, behind⟩ := covers.parts moves₁ (moves₂.trans moves₃)
  obtain ⟨_, rest, rfl, covers₂, covers₃⟩ := behind.parts moves₂ moves₃
  obtain ⟨rfl, wordKind⟩ := covers₁.checked opened (by decide) ended
  obtain ⟨rfl, nameKind⟩ := covers₂.checked named (by decide) (moves₁.final_eq ▸ ended)
  exact ⟨word, name, rest, body, v, rfl, wordKind, nameKind, read, moves₁.trans moves₂, covers₃,
    called⟩

/-! ## Members in a class -/

/-- Behind a member another one begins, or the body of the class ends. -/
def EndsMember (kind : TokenKind) : Prop :=
  kind = .kwFn ∨ kind = .kwStatic ∨ kind = .identifier ∨ kind = .rbrace

/-- No member goes on with what stands behind it. -/
theorem EndsMember.stops {kind : TokenKind} (h : EndsMember kind) :
    kind.isSuffix = false ∧ BinaryOp.ofToken? kind = none ∧ ¬ FollowsTarget kind := by
  unfold FollowsTarget
  rcases h with rfl | rfl | rfl | rfl <;> decide

/-- What these tokens have been read as in the body of a class. -/
inductive MemberRead (c : Settings) (root : Marker) (n : Nat) (owner : String) :
    List Token → Assignment → Prop
  | function (opening) {isStatic word name rest σ body σ' follow a} :
      opening.map (·.kind) = (if isStatic then [.kwStatic] else []) → word.kind = .kwFn →
      name.kind = .identifier → σ.root = root →
      Alone c σ ((Rules.level n).functionBody .braced) body σ' follow rest → EndsMember follow →
      a.unplaced = ((FunctionName.inClass owner name.text isStatic).assigned body .regular .synthetic
        .synthetic .synthetic).unplaced →
      MemberRead c root n owner (opening ++ word :: name :: rest) a
  | field {name rest start first σ a σ' follow} :
      name.kind = .identifier → σ.root = root →
      first.unplaced = ((Exp.name owner .synthetic).field name.text .synthetic).unplaced →
      Alone c σ (assigned (.level n) start first) (.assign a) σ' follow rest → EndsMember follow →
      MemberRead c root n owner (name :: rest) a

section Class

variable {n : Nat} {owner : String} {a : Assignment} {ts : List Token}

theorem functionStat_member {isStatic : Bool} (mooc : s.settings.dialect = .mooc)
    (inside : s.scopes.currentClass? = some owner) (file : s.scopes.root.kind = .file)
    (ended : s.tokens.final.token.kind = .eof)
    (facing : isStatic = true → (s.tokens.upcoming 0).token.kind = .kwStatic)
    (run : functionStat (.level n) start .regular isStatic s = .ok a t) :
    s.Moves t ∧ ∀ ts, s.Covers t ts → EndsMember (t.tokens.upcoming 0).token.kind →
      MemberRead s.settings s.scopes.root n owner ts a := by
  rw [functionStat_eq] at run
  cases isStatic with
  | false =>
    obtain ⟨moves, texts⟩ := fromKeyword_covers mooc inside ended run
    refine ⟨moves, fun ts covers ends => ?_⟩
    obtain ⟨word, name, rest, body, u, rfl, wordKind, nameKind, read, before, covers, called⟩ :=
      texts ts covers
    exact .function [] rfl wordKind nameKind (before.root file)
      (before.settings_eq ▸ covers.alone read (before.final_eq ▸ ended)) ends called
  | true =>
    obtain ⟨token, u, taken, run⟩ := bind_eq_ok.1 run
    have first := Reads.moves (fun _ => next_reads) taken
    obtain ⟨moves, texts⟩ := fromKeyword_covers (first.settings_eq ▸ mooc)
      (first.currentClass?.trans inside) (first.final_eq ▸ ended) run
    refine ⟨first.trans moves, fun ts covers ends => ?_⟩
    obtain ⟨_, _, rfl, opening, behind⟩ := covers.parts first moves
    obtain ⟨rfl, kind⟩ := opening.next taken (by simp [facing]) ended
    obtain ⟨word, name, rest, body, v, rfl, wordKind, nameKind, read, before, covers, called⟩ :=
      texts _ behind
    have before := first.trans before
    exact .function [token] (by simp [kind, facing]) wordKind nameKind
      (before.root file) (before.settings_eq ▸ covers.alone read (before.final_eq ▸ ended)) ends
      called

/-- A round of the loop over members reads one, or something that is none, or finds that there are no
more. -/
def MemberRound (n : Nat) (owner : String) (members members' : Array Assignment) (s t : Session) :
    Prop :=
  s.Moves t ∧ ∀ ts, s.Covers t ts → ∃ member : Option Assignment,
    members'.toList = members.toList ++ member.toList ∧
    (EndsMember (t.tokens.upcoming 0).token.kind → EndsMember (s.tokens.upcoming 0).token.kind ∧
      ∀ a ∈ member, MemberRead s.settings s.scopes.root n owner ts a)

variable {members : Array Assignment} {next : ForInStep (Array Assignment)}

theorem functionStat_round (isStatic : Bool) (mooc : s.settings.dialect = .mooc)
    (inside : s.scopes.currentClass? = some owner) (file : s.scopes.root.kind = .file)
    (ended : s.tokens.final.token.kind = .eof)
    (kind : (s.tokens.upcoming 0).token.kind = if isStatic then .kwStatic else .kwFn)
    (run : (do
      let start ← head
      let member ← functionStat (.level n) start .regular isStatic
      return ForInStep.yield (members.push member)) { s with tokens := s.tokens.look 1 } =
        .ok next t) : MemberRound n owner members next.value s t := by
  rw [head_bind] at run
  obtain ⟨a, _, read, same⟩ := bind_eq_ok.1 run
  obtain ⟨rfl, rfl⟩ := pure_eq_ok.1 same
  obtain ⟨moves, texts⟩ := functionStat_member
    (s := { s with tokens := (s.tokens.look 1).look 1 }) mooc inside file (by simpa using ended)
    (fun static => by simpa [static] using kind) read
  have moves : Session.Moves { s with tokens := s.tokens.look 1 } _ :=
    .trans (.look { s with tokens := s.tokens.look 1 } 1) moves
  refine ⟨.trans (.look s 1) moves, fun ts covers => ⟨some a, by simp, fun ends => ⟨?_, ?_⟩⟩⟩
  · cases isStatic <;> simp [kind, EndsMember]
  · rintro _ ⟨rfl⟩
    exact texts ts ((covers.look moves).look ‹_›) ends

theorem moreMembers_round (mooc : s.settings.dialect = .mooc)
    (inside : s.scopes.currentClass? = some owner) (file : s.scopes.root.kind = .file)
    (ended : s.tokens.final.token.kind = .eof)
    (run : moreMembers (.level n) owner members s = .ok next t) :
    MemberRound n owner members next.value s t := by
  unfold moreMembers at run
  rw [peek_bind] at run
  have looked : s.Moves { s with tokens := s.tokens.look 1 } := .look s 1
  generalize kind : (s.tokens.upcoming 0).token.kind = ahead at run
  split at run
  next => exact functionStat_round false mooc inside file ended kind run
  next => exact functionStat_round true mooc inside file ended kind run
  next =>
    obtain ⟨name, u, taken, run⟩ := bind_eq_ok.1 run
    obtain ⟨stat, v, read, run⟩ := bind_eq_ok.1 run
    have moves := Reads.moves (fun _ => next_reads) taken
    have moves' := Reads.moves (fun _ => assignRest_reads (Rules.level_reads n) _ _) read
    have starts : EndsMember (s.tokens.upcoming 0).token.kind := .inr (.inr (.inl kind))
    cases stat with
    | assign a =>
      obtain ⟨rfl, rfl⟩ := pure_eq_ok.1 run
      refine ⟨looked.trans (moves.trans moves'), fun ts covers => ⟨some a, by simp, fun ends =>
        ⟨starts, ?_⟩⟩⟩
      rintro _ ⟨rfl⟩
      obtain ⟨_, rest, rfl, first, behind⟩ := (covers.look (moves.trans moves')).parts moves moves'
      obtain ⟨rfl, same⟩ := first.next taken (by simp [kind]) (by simpa using ended)
      have before := looked.trans moves
      rw [assignRest_eq_assign (before.settings_eq ▸ mooc) rfl] at read
      exact .field (same.trans (by simpa using kind)) (before.root file) (by simp [Exp.field])
        (before.settings_eq ▸ behind.alone read (before.final_eq ▸ ended)) ends
    | _ =>
      obtain ⟨rfl, rfl⟩ := pure_eq_ok.1 run
      exact ⟨looked.trans (moves.trans moves'), fun ts covers => ⟨none, by simp, fun _ =>
        ⟨starts, nofun⟩⟩⟩
  next =>
    obtain ⟨rfl, rfl⟩ := pure_eq_ok.1 run
    exact ⟨looked, fun ts covers => ⟨none, by simp, fun ends => ⟨by simpa using ends, nofun⟩⟩⟩

/-- The items of a class body are divided into those that are members and the rest. -/
theorem members_covers {members : Array Assignment} (mooc : s.settings.dialect = .mooc)
    (inside : s.scopes.currentClass? = some owner) (file : s.scopes.root.kind = .file)
    (ended : s.tokens.final.token.kind = .eof)
    (run : iterate #[] (moreMembers (.level n) owner) s = .ok members t) :
    s.Moves t ∧ ∀ ts, s.Covers t ts → ∃ items : List (List Token × Option Assignment),
      ts = items.flatMap (·.1) ∧ members.toList = items.filterMap (·.2) ∧
      (EndsMember (t.tokens.upcoming 0).token.kind → ∀ item ∈ items, ∀ a ∈ item.2,
        MemberRead s.settings s.scopes.root n owner item.1 a) := by
  refine iterate_keeps (I := fun members u => s.Moves u ∧ ∀ ts, s.Covers u ts →
    ∃ items : List (List Token × Option Assignment),
      ts = items.flatMap (·.1) ∧ members.toList = items.filterMap (·.2) ∧
      (EndsMember (u.tokens.upcoming 0).token.kind → ∀ item ∈ items, ∀ a ∈ item.2,
        MemberRead s.settings s.scopes.root n owner item.1 a)) ?_ ?_ run
  · rintro members u next v ⟨before, texts⟩ once
    obtain ⟨moves, round⟩ := moreMembers_round (before.settings_eq ▸ mooc)
      (before.currentClass?.trans inside) ((before.root file).symm ▸ file) (before.final_eq ▸ ended)
      once
    refine ⟨before.trans moves, fun ts covers => ?_⟩
    obtain ⟨early, late, rfl, first, second⟩ := covers.parts before moves
    obtain ⟨items, rfl, read, known⟩ := texts early first
    obtain ⟨member, more, last⟩ := round late second
    rw [before.settings_eq, before.root file] at last
    refine ⟨items ++ [(late, member)], by simp, ?_, fun ends item among => ?_⟩
    · rw [more, read, List.filterMap_append]
      cases member <;> rfl
    · rcases List.mem_append.1 among with among | among
      · exact known (last ends).1 item among
      · obtain rfl := List.mem_singleton.1 among
        exact (last ends).2
  · refine ⟨.refl s, fun ts covers => ⟨[], ?_, rfl, nofun⟩⟩
    have none := covers.ahead
    simpa using none

/-- The tokens of a class, and what its members have been read as. -/
theorem classStat_covers {isExported : Bool} {d : ClassDecl} (mooc : s.settings.dialect = .mooc)
    (file : s.scopes.root.kind = .file) (ended : s.tokens.final.token.kind = .eof)
    (more : (s.tokens.upcoming 0).token.kind ≠ .eof)
    (run : classStat (.level n) start isExported s = .ok (.classDecl d) t) :
    s.Moves t ∧ ∀ ts, s.Covers t ts → ∃ (keyword name : Token) (header : List Token)
      (items : List (List Token × Option Assignment)) (closing : Token),
      ts = keyword :: name :: (header ++ (items.flatMap (·.1) ++ [closing])) ∧
      d.table.targets = [.name name.text name.span] ∧ d.members = items.filterMap (·.2) ∧
      ∀ item ∈ items, ∀ a ∈ item.2,
        MemberRead s.settings s.scopes.root n name.text item.1 a := by
  unfold classStat at run
  obtain ⟨keyword, u₁, taken, run⟩ := bind_eq_ok.1 run
  obtain ⟨name, u₂, named, run⟩ := bind_eq_ok.1 run
  obtain ⟨parent, u₃, inherits, run⟩ := bind_eq_ok.1 run
  obtain ⟨_, _, asked, run⟩ := bind_eq_ok.1 run
  cases asked
  obtain ⟨opening, u₄, opened, run⟩ := bind_eq_ok.1 run
  obtain ⟨members, u₅, read, run⟩ := bind_eq_ok.1 run
  obtain ⟨closing, u₆, closed, run⟩ := bind_eq_ok.1 run
  obtain ⟨_, _, asked, run⟩ := bind_eq_ok.1 run
  cases asked
  obtain ⟨same, rfl⟩ := pure_eq_ok.1 run
  obtain rfl := Stat.classDecl.inj same
  have moves₁ := Reads.moves (fun _ => next_reads) taken
  have moves₂ := Reads.moves (fun _ => expectName_reads) named
  have moves₃ := Reads.moves (fun _ => parentClass_reads _) inherits
  have moves₄ := Reads.moves (fun _ => expect_reads _) opened
  have moves₆ := Reads.moves (fun _ => expect_reads _) closed
  have before := (moves₁.trans moves₂).trans (moves₃.trans moves₄)
  obtain ⟨v, ran, rfl⟩ := within_eq_ok.1 read
  let inside : Session := { u₄ with scopes := u₄.scopes.push .classBody name.text }
  have root : inside.scopes.root = s.scopes.root := before.root file
  obtain ⟨moves₅, texts⟩ := members_covers (s := inside) (before.settings_eq ▸ mooc)
    (by simp [inside, ScopeStack.currentClass?]) (root ▸ file) (before.final_eq ▸ ended) ran
  have moves : u₄.Moves { v with scopes := v.scopes.pop.2 } := .within _ _ moves₅
  refine ⟨before.trans (moves.trans moves₆), fun ts covers => ?_⟩
  obtain ⟨_, _, rfl, first, behind⟩ := covers.parts moves₁
    (moves₂.trans ((moves₃.trans moves₄).trans (moves.trans moves₆)))
  obtain ⟨_, _, rfl, second, behind⟩ := behind.parts moves₂
    ((moves₃.trans moves₄).trans (moves.trans moves₆))
  obtain ⟨header, _, rfl, -, behind⟩ := behind.parts (moves₃.trans moves₄) (moves.trans moves₆)
  obtain ⟨body, _, rfl, within, last⟩ := behind.parts moves moves₆
  obtain ⟨rfl, -⟩ := first.next taken more ended
  obtain ⟨rfl, -⟩ := second.checked named (by decide) (moves₁.final_eq ▸ ended)
  obtain ⟨rfl, -⟩ := last.checked closed (by decide) ((before.trans moves).final_eq ▸ ended)
  obtain ⟨items, rfl, read, known⟩ := texts body ⟨moves₅, within.quiet, within.ahead⟩
  have ends : EndsMember (v.tokens.upcoming 0).token.kind :=
    .inr (.inr (.inr (checked_of_quiet closed last.quiet).2))
  refine ⟨keyword, name, header, items, closing, rfl, rfl, read, fun item among a some => ?_⟩
  rw [← root, ← before.settings_eq]
  exact known ends item among a some

end Class

end Parser

/-! ## Members outside of the class -/

/-- The tokens of a member of a class, and those of a statement that stands for it elsewhere. -/
inductive Detached (owner : String) : List Token → List Token → Prop
  /-- `fn m(P) { B }` and `fn C:m(P) { B }` -/
  | method {word name : Token} {body head body' : List Token} : word.kind = .kwFn →
      name.kind = .identifier →
      SameText .lua [.sign .kwFn, .name owner, .sign .colon, .name name.text] head →
      SameText .mooc body body' → Detached owner (word :: name :: body) (head ++ body')
  /-- `static fn s(P) { B }` and `fn C.s(P) { B }` -/
  | static {static word name : Token} {body head body' : List Token} : static.kind = .kwStatic →
      word.kind = .kwFn → name.kind = .identifier →
      SameText .lua [.sign .kwFn, .name owner, .sign .dot, .name name.text] head →
      SameText .mooc body body' → Detached owner (static :: word :: name :: body) (head ++ body')
  /-- `f = e` and `C.f = e` -/
  | field {name : Token} {rest head rest' : List Token} : name.kind = .identifier →
      SameText .lua [.name owner, .sign .dot, .name name.text] head →
      SameText .mooc rest rest' → Detached owner (name :: rest) (head ++ rest')

namespace Parser

variable {c : Backdrop} {σ : ScopeStack} {root : Marker} {n m : Nat} {owner : String}
  {ts ts' us : List Token} {a : Assignment}

theorem functionMember_reaches {first : String} {more : List String} {method : Option String}
    {word : Token} {ns bs : List Token} {τ τ' : ScopeStack} {body : FunctionBody}
    {follow : TokenKind} (mooc : c.settings.dialect = .mooc) (free : σ.currentClass? = none)
    (kind : word.kind = .kwFn)
    (name : SameText .lua (dottedTokens first more ++ methodTokens method) ns)
    (alone : Alone c.settings τ ((Rules.level n).functionBody .braced) body τ' follow bs)
    (le : n ≤ m) (root : σ.root = τ.root) (ends : EndsMember follow)
    (settles : (c.facing us).settles = true)
    (called : a.unplaced = ((FunctionName.ofNames first more method).assigned body .regular .synthetic
        .synthetic .synthetic).unplaced) :
    Reaches c σ (word :: (ns ++ (bs ++ us))) (Rules.level (m + 1)).stat us fun x =>
      x.unplaced = (Stat.assign a).unplaced := by
  have lparen : c.facing (bs ++ us) = .lparen :=
    alone.facing (P := (· = .lparen)) (Rules.functionBody_begins (by decide)) (by decide)
      (by rintro rfl; exact absurd ends.stops.1 (by decide)) us
  have behind : Reaches c σ (bs ++ us) ((Rules.level m).functionBody .braced) us fun body' =>
      body.unplaced = body'.unplaced :=
    alone.reaches (fun _ => True) root (fun w _ => (Rules.level_replays le).functionBody none .braced)
      (Reads.moves fun _ => (Rules.level_reads m).functionBody _) (fun _ _ _ => trivial)
      ends.stops.1 settles
      fun run quiet colon => by simp [Rules.functionBody_begins (by decide) run quiet] at colon
  have whole (start : Span) : Reaches c σ (word :: (ns ++ (bs ++ us)))
      (functionStat (.level m) start .regular false) us fun x => x.unplaced = a.unplaced := by
    rw [functionStat_eq]
    change Reaches _ _ _ (fromKeyword (.level m) start false) _ _
    unfold fromKeyword
    refine .after (.alone (Crosses.functionStyle mooc (.pure rfl))) ?_
    rintro _ rfl
    refine .expect kind (.after (Crosses.functionName (fun _ => free) name lparen) fun f known =>
      .now fun self => behind.bind fun _ body' same => .since fun _ => .since fun _ => .pure ?_)
    rw [called]
    exact FunctionName.unplaced_assigned known same.symm ..
  refine .nested ?_
  unfold Parser.stat moocStat
  refine .isMooc ?_
  rw [mooc]
  refine .peek ?_
  rw [Backdrop.facing_cons, kind]
  refine .head fun start => (whole start).bind fun _ x same => .pure ?_
  simp [same]

theorem fieldMember_reaches {first : String} {more : List String} {ns bs : List Token} {start : Span}
    {target : Exp} {τ τ' : ScopeStack} {follow : TokenKind} (mooc : c.settings.dialect = .mooc)
    (name : SameText .lua (dottedTokens first more) ns)
    (alone : Alone c.settings τ (assigned (.level n) start target) (.assign a) τ' follow bs)
    (le : n ≤ m) (root : σ.root = τ.root) (ends : EndsMember follow)
    (settles : (c.facing us).settles = true) (stops : BinaryOp.ofToken? (c.facing us) = none)
    (called : target.unplaced = (Exp.dotted first more).unplaced) :
    Reaches c σ (ns ++ (bs ++ us)) (Rules.level (m + 1)).stat us fun x =>
      x.unplaced = (Stat.assign a).unplaced := by
  have begins : c.facing (ns ++ (bs ++ us)) = .identifier := by
    obtain ⟨_, _, rfl, kind, -⟩ := name.cons
    exact kind
  have follows : FollowsTarget (c.facing (bs ++ us)) :=
    alone.facing (P := FollowsTarget) (fun run _ => assigned_begins run)
      (by unfold FollowsTarget; decide) ends.stops.2.2 us
  have rest (start : Span) (e : Exp) (known : e.unplaced = (Exp.dotted first more).unplaced) :
      Reaches c σ (bs ++ us) (assigned (.level m) start e) us fun x =>
        (Stat.assign a).unplaced = x.unplaced :=
    alone.reaches Frontier.Stops root
      (fun w _ => assigned_replays (Rules.level_replays le) (called.trans known.symm))
      assigned_moves
      (fun _ here there => .inr ⟨by rw [here]; exact ends.stops.2.1, by rw [there]; exact stops⟩)
      ends.stops.1 settles fun run _ colon => FollowsTarget.ne_colon (assigned_begins run) colon
  refine .nested ?_
  unfold Parser.stat moocStat
  refine .isMooc ?_
  rw [mooc]
  refine .peek ?_
  rw [begins]
  change Reaches _ _ _ (assignOrCall (.level m)) _ _
  rw [assignOrCall_eq]
  refine .head fun start => .after (Crosses.dottedExp name follows.isSuffix) fun e known => ?_
  have place : e.isPlace = true := Exp.isPlace_of_eq known.symm (Exp.isPlace_fields rfl more)
  rw [afterOperand_place place, ← assignRest_place place]
  intro s awaits
  obtain ⟨x, t, run, same, last⟩ := rest start e known s awaits
  obtain ⟨a', rfl⟩ : ∃ a', x = .assign a' := by
    cases x with
    | assign a' => exact ⟨a', rfl⟩
    | _ => cases same
  refine ⟨_, t, (assignRest_eq_assign ?_ place).2 run, same.symm, last⟩
  rw [awaits.settings, mooc]

/-- A member is read outside of the class as inside. -/
theorem MemberRead.reaches {root : Marker} (member : MemberRead c.settings root n owner ts a)
    (detached : Detached owner ts ts') (le : n ≤ m) (mooc : c.settings.dialect = .mooc)
    (free : σ.currentClass? = none) (same : σ.root = root) (settles : (c.facing us).settles = true)
    (stops : BinaryOp.ofToken? (c.facing us) = none) :
    Reaches c σ (ts' ++ us) (Rules.level (m + 1)).stat us fun x =>
      x.unplaced = (Stat.assign a).unplaced := by
  have respelled {α : Type} {p : Parser α} {b : α} {τ τ' : ScopeStack} {follow : TokenKind}
      {rest rest' : List Token} (alone : Alone c.settings τ p b τ' follow rest)
      (spelled : SameText .mooc rest rest') : Alone c.settings τ p b τ' follow rest' :=
    alone.respelled (mooc.symm ▸ spelled)
  cases member with
  | @function opening isStatic word name rest τ body τ' follow _ opens wordKind nameKind known alone
      ends called =>
    cases isStatic with
    | false =>
      obtain rfl := List.map_eq_nil_iff.1 opens
      cases detached with
      | method kind kind' head spelled =>
        obtain ⟨word, ns, rfl, kind, head⟩ := head.cons
        have head : SameText .lua (dottedTokens owner [] ++ methodTokens (some name.text)) ns := head
        simpa using functionMember_reaches mooc free kind head (respelled alone spelled) le
          (same.trans known.symm) ends settles called
      | static kind => simp [wordKind] at kind
      | field kind => simp [wordKind] at kind
    | true =>
      obtain ⟨static, _, rfl, kind, rest⟩ := List.map_eq_cons_iff.1 opens
      obtain rfl := List.map_eq_nil_iff.1 rest
      cases detached with
      | static _ _ _ head spelled =>
        obtain ⟨word, ns, rfl, kind, head⟩ := head.cons
        have head : SameText .lua (dottedTokens owner [name.text] ++ methodTokens none) ns := head
        simpa using functionMember_reaches mooc free kind head (respelled alone spelled) le
          (same.trans known.symm) ends settles called
      | method kind' => simp [kind] at kind'
      | field kind' => simp [kind] at kind'
  | @field name _ _ _ _ _ _ _ nameKind known target alone ends =>
    cases detached with
    | @field _ _ ns _ _ head spelled =>
      have head : SameText .lua (dottedTokens owner [name.text]) ns := head
      simpa using fieldMember_reaches mooc head (respelled alone spelled) le (same.trans known.symm)
        ends settles stops target
    | method kind => simp [nameKind] at kind
    | static kind => simp [nameKind] at kind

end Parser

theorem Detached.begins {owner : String} {ts ts' : List Token} (h : Detached owner ts ts') :
    ∃ t rest, ts' = t :: rest ∧ (t.kind = .kwFn ∨ t.kind = .identifier) := by
  cases h with
  | method _ _ head | static _ _ _ head =>
    obtain ⟨t, _, rfl, kind, -⟩ := head.cons
    exact ⟨t, _, rfl, .inl kind⟩
  | field _ head =>
    obtain ⟨t, _, rfl, kind, -⟩ := head.cons
    exact ⟨t, _, rfl, .inr kind⟩

/-- Each member may be written elsewhere. -/
theorem Parser.MemberRead.detached {c : Settings} {root : Marker} {n : Nat} {owner : String}
    {ts : List Token} {a : Assignment} (h : MemberRead c root n owner ts a) :
    ∃ ts', Detached owner ts ts' := by
  cases h with
  | @function opening isStatic _ _ _ _ _ _ _ _ opens wordKind nameKind =>
    cases isStatic with
    | false =>
      obtain rfl := List.map_eq_nil_iff.1 opens
      exact ⟨_, .method wordKind nameKind (.refl _) (.refl _)⟩
    | true =>
      obtain ⟨static, _, rfl, kind, rest⟩ := List.map_eq_cons_iff.1 opens
      obtain rfl := List.map_eq_nil_iff.1 rest
      exact ⟨_, .static kind wordKind nameKind (.refl _) (.refl _)⟩
  | field nameKind => exact ⟨_, .field nameKind (.refl _) (.refl _)⟩

def Stat.assignment? : Stat → Option Assignment
  | .assign a => some a
  | _ => none

theorem Stat.eq_of_assignment? {s : Stat} {a : Assignment} (h : s.assignment? = some a) :
    s = .assign a := by
  cases s with
  | assign => simpa [assignment?] using h
  | _ => cases h

theorem Stat.eq_of_class? {s : Stat} {d : ClassDecl} (h : s.class? = some d) : s = .classDecl d := by
  cases s with
  | classDecl => simpa [class?] using h
  | _ => cases h

/-- The labels in the functions of an assignment. -/
def Assignment.labels (a : Assignment) : List String :=
  (a.statements.filterMap Stat.label?).map (·.1)

theorem Stat.assign_of_unplaced {x : Stat} {a : Assignment} (h : x.unplaced = (Stat.assign a).unplaced) :
    ∃ a', x = .assign a' ∧ a'.unplaced = a.unplaced := by
  cases x with
  | assign a' => exact ⟨a', rfl, Stat.assign.inj h⟩
  | _ => cases h

namespace Session

section Member

variable {c : Settings} {root : Marker} {n m : Nat} {owner : String} {ts ts' : List Token}
  {a : Assignment}

/-- A member as a statement outside of classes, where as many loops are open as around the class. -/
theorem stat_of_member (member : MemberRead c root n owner ts a) (detached : Detached owner ts ts')
    (mooc : c.dialect = .mooc) {log : ErrorLog} {rest : List Token} {σ : ScopeStack} {s : Session}
    (before : s.Awaits ⟨c, log, rest⟩ σ ts') (same : σ.root = root) (free : σ.currentClass? = none)
    (ends : ∀ t ∈ rest.head?, t.kind.settles = true ∧ BinaryOp.ofToken? t.kind = none)
    (fits : ¬ (last ((Rules.level m).stat s)).TooDeep) :
    ∃ a' t, (Rules.level m).stat s = .ok (.assign a') t ∧ t.errors = s.errors ∧
      a'.unplaced = a.unplaced := by
  let behind : Backdrop := ⟨c, log, rest⟩
  have ends : (behind.facing []).settles = true ∧ BinaryOp.ofToken? (behind.facing []) = none := by
    cases rest with
    | nil => exact ⟨rfl, rfl⟩
    | cons t rest => exact ends t rfl
  have reaches : Reaches behind σ (ts' ++ []) (Rules.level (n + m + 1)).stat [] fun x =>
      x.unplaced = (Stat.assign a).unplaced :=
    member.reaches detached (by omega) mooc free same ends.1 ends.2
  obtain ⟨x, t, run, known, after⟩ := reaches s (by rwa [List.append_nil])
  obtain ⟨a', rfl, alike⟩ := Stat.assign_of_unplaced known
  refine ⟨a', t, Rules.stat_of_deeper (by omega) before.tidy fits run, ?_, alike⟩
  rw [Session.errors, Session.errors, after.log, before.log]

/-- A member as a chunk. -/
theorem analyze_of_member (member : MemberRead c root n owner ts a) (detached : Detached owner ts ts')
    (mooc : c.dialect = .mooc) {source : List UInt8} {name : String}
    (same : (ScopeStack.ofFile name).root = root) (lexed : tokenize source c.dialect = .ok ts')
    (fits : ¬ (start source name c).analyze.1.ExceedsLevels) :
    (start source name c).analyze.1.errors = [] ∧
      ∃ a', (start source name c).analyze.1.block.stats = [.assign a'] ∧
        (start source name c).analyze.1.block.returns = none ∧ a'.unplaced = a.unplaced := by
  let behind : Backdrop := ⟨c, { cap := c.maxErrors }, []⟩
  obtain ⟨t, rest, rfl, begins⟩ := detached.begins
  have reads : Reaches behind (.ofFile name) (t :: rest ++ [])
      (Rules.level (n + c.maxNesting + 1)).stat [] fun x => x.unplaced = (Stat.assign a).unplaced :=
    member.reaches detached (by omega) mooc rfl same rfl rfl
  rw [List.append_nil] at reads
  have stat := (reads.crosses rfl rfl (Reads.moves fun _ => (Rules.level_reads _).stat)).mono
    fun x known => Stat.assign_of_unplaced known
  have block := Crosses.single rfl (List.cons_ne_nil t rest) (by
    rw [Backdrop.facing_cons, mooc]
    rcases begins with kind | kind <;> rw [kind] <;> rfl)
    (by simp [ScopeStack.current, ScopeStack.ofFile])
    (stat.mono fun x known => ⟨by obtain ⟨a', rfl, -⟩ := known; rfl, known⟩)
  obtain ⟨clean, x, stats, none, a', rfl, known⟩ := analyze_known (by omega) lexed block fits
  exact ⟨clean, a', stats, none, known⟩

end Member

/-- **Members as statements.**  The tokens of a class that is read without complaint are a keyword, the
name of the class, the rest of its header, items, and a brace.  The members of the class are the
assignments that some of the items are read as, in turn.  Each of these items may be written outside of
the class: `fn m(P) { B }` as `fn C:m(P) { B }`, with `static` before it as `fn C.m(P) { B }`, and
`f = e` as `C.f = e`, whatever has been written for `P`, `B` and `= e`.  As a statement that stands
outside of class bodies, where as many loops are open as around the class, it is read without complaint
as the same assignment, but for places, unless it exceeds the levels; and where no loop is open around
the class it is read so as a chunk. -/
theorem classStat_detached {s t : Session} {n : Nat} {place : Span} {isExported : Bool}
    {d : ClassDecl} (mooc : s.settings.dialect = .mooc) (file : s.scopes.root.kind = .file)
    (ended : s.tokens.final.token.kind = .eof) (more : (s.tokens.upcoming 0).token.kind ≠ .eof)
    (run : classStat (.level n) place isExported s = .ok (.classDecl d) t)
    (clean : t.errors = s.errors) :
    ∃ (keyword name : Token) (header : List Token) (items : List (List Token × Option Assignment))
      (closing : Token), s.tokens.ahead.map (·.token) = keyword :: name :: (header ++
        (items.flatMap (·.1) ++ closing :: t.tokens.ahead.map (·.token))) ∧
      d.table.targets = [.name name.text name.span] ∧ d.members = items.filterMap (·.2) ∧
      ∀ item ∈ items, ∀ a ∈ item.2, (∃ ts, Detached name.text item.1 ts) ∧
        ∀ ts, Detached name.text item.1 ts →
          (∀ {m log rest σ} {s' : Session}, s'.Awaits ⟨s.settings, log, rest⟩ σ ts →
            σ.root = s.scopes.root → σ.currentClass? = none →
            (∀ u ∈ rest.head?, u.kind.settles = true ∧ BinaryOp.ofToken? u.kind = none) →
            ¬ (last ((Rules.level m).stat s')).TooDeep →
            ∃ a' t', (Rules.level m).stat s' = .ok (.assign a') t' ∧ t'.errors = s'.errors ∧
              a'.unplaced = a.unplaced) ∧
          ∀ source file, (ScopeStack.ofFile file).root = s.scopes.root →
            tokenize source s.settings.dialect = .ok ts →
            ¬ (start source file s.settings).analyze.1.ExceedsLevels →
            (start source file s.settings).analyze.1.errors = [] ∧
              ∃ a', (start source file s.settings).analyze.1.block.stats = [.assign a'] ∧
                (start source file s.settings).analyze.1.block.returns = none ∧
                a'.unplaced = a.unplaced := by
  obtain ⟨moves, texts⟩ := classStat_covers mooc file ended more run
  have quiet : Quiet s t := by
    simpa [Session.errors, Quiet] using congrArg List.length clean
  obtain ⟨taken, split⟩ := moves.ahead_suffix
  have covers : s.Covers t (taken.map (·.token)) :=
    ⟨moves, quiet, by rw [← List.map_append, split]⟩
  obtain ⟨keyword, name, header, items, closing, text, target, members, read⟩ := texts _ covers
  refine ⟨keyword, name, header, items, closing, ?_, target, members, fun item among a some => ?_⟩
  · rw [covers.ahead, text]
    simp
  · have member := read item among a some
    refine ⟨member.detached, fun ts detached => ⟨?_, ?_⟩⟩
    · exact fun before same free ends fits =>
        stat_of_member member detached mooc before same free ends fits
    · exact fun source file same lexed fits =>
        analyze_of_member member detached mooc same lexed fits

/-- A class with a field and two functions, each of which is read in a chunk of its own as in the
class -/
theorem classStat_detached_each :
    let name := "a.mooc"
    let settings := Settings.forChunk name
    let s := opened "class C : B \x7b a = 1 fn m(x) \x7b return self \x7d static fn s() \x7b \x7d \x7d".toUTF8.toList
      name settings
    ∃ d t, classStat (.level 200) .synthetic false s = .ok (.classDecl d) t ∧ d.members.length = 3 ∧
      ∃ items : List (List Token × Option Assignment), d.members = items.filterMap (·.2) ∧
        ∀ item ∈ items, ∀ a ∈ item.2, ∃ owner, (∃ ts, Detached owner item.1 ts) ∧
          ∀ ts, Detached owner item.1 ts → ∀ source, tokenize source .mooc = .ok ts →
            ¬ (start source name settings).analyze.1.ExceedsLevels →
            (start source name settings).analyze.1.errors = [] ∧
              ∃ a', (start source name settings).analyze.1.block.stats = [.assign a'] ∧
                a'.unplaced = a.unplaced := by
  intro name settings s
  have told : (returned? (classStat (.level 200) .synthetic false s)).map (fun r =>
      (r.1.class?.map (·.members.length), r.2.errors)) = some (some 3, []) := by decide +kernel
  obtain ⟨⟨x, t⟩, run, told⟩ := Option.map_eq_some_iff.1 told
  have run := returned?_eq_some run
  obtain ⟨found, clean⟩ := Prod.mk.inj told
  obtain ⟨d, found, length⟩ := Option.map_eq_some_iff.1 found
  obtain rfl := Stat.eq_of_class? found
  have mooc : settings.dialect = .mooc := by decide +kernel
  obtain ⟨_, owner, _, items, _, -, -, members, each⟩ := classStat_detached mooc (by decide +kernel)
    (by decide +kernel) (by decide +kernel) run (clean.trans (by decide +kernel))
  refine ⟨d, t, run, length, items, members, fun item among a some => ?_⟩
  obtain ⟨written, read⟩ := each item among a some
  refine ⟨owner.text, written, fun ts detached source lexed fits => ?_⟩
  obtain ⟨clean, a', stats, -, same⟩ := (read ts detached).2 source name rfl (mooc.symm ▸ lexed) fits
  exact ⟨clean, a', stats, same⟩

/-- A label for `continue` counts the open loops, and those around the class are not around the
statement. -/
theorem analyze_class_loop :
    let settings : Settings := { dialect := .mooc }
    let inside := (start
      "while x \x7b class C \x7b fn m() \x7b while y \x7b continue \x7d \x7d \x7d \x7d".toUTF8.toList
      "" settings).analyze.1
    let outside := (start "fn C:m() \x7b while y \x7b continue \x7d \x7d".toUTF8.toList
      "" settings).analyze.1
    inside.errors = [] ∧ outside.errors = [] ∧
      ∃ d a a', .classDecl d ∈ inside.block.statements ∧ d.members = [a] ∧
        outside.block.stats = [.assign a'] ∧ a.unplaced ≠ a'.unplaced := by
  intro settings inside outside
  have members : (inside.block.statements.filterMap Stat.class?).map
      (·.members.map (·.unplaced.labels)) = [[[continueLabel 2]]] := by decide +kernel
  have stats : outside.block.stats.map (fun s => s.assignment?.map (·.unplaced.labels)) =
      [some [continueLabel 1]] := by decide +kernel
  obtain ⟨d, among, members⟩ := List.mem_map.1 (members ▸ List.mem_singleton_self _)
  obtain ⟨a, single, labels⟩ := List.map_eq_singleton_iff.1 members
  obtain ⟨x, only, found⟩ := List.map_eq_singleton_iff.1 stats
  obtain ⟨a', found, labels'⟩ := Option.map_eq_some_iff.1 found
  obtain rfl := Stat.eq_of_assignment? found
  refine ⟨by decide +kernel, by decide +kernel, d, a, a', Stat.mem_class? among, single, only,
    fun same => ?_⟩
  rw [same, labels'] at labels
  exact absurd labels (by decide)

end Session

end LuaChunk
