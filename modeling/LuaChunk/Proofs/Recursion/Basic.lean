import LuaChunk.Analysis
import LuaChunk.Proofs.Parser.Primitives

/-!
# Readings that agree

A parser is built from those of the constructs it holds.  If these are exchanged for others that
read the same at some depth, the parser reads the same at that depth, comes back to it, and tells
no lexical error twice or not at all.  The rules of `Agree` follow the way parsers are put
together; they also follow how far a reading has got, since every round of a loop has to take a
token.
-/

set_option autoImplicit false

namespace LuaChunk

def Cause.isLexical : Cause → Bool
  | .lexical _ => true
  | _ => false

namespace Session

/-- The lexical errors that have been told and those still to be told, in this order. -/
def lexical (s : Session) : List Diagnostic :=
  s.errors.filter (·.cause.isLexical) ++ s.tokens.waiting.map LexicalError.diagnostic

/-- What every reading that returns keeps. -/
structure Keeps (s s' : Session) : Prop where
  settings : s'.settings = s.settings
  depth : s'.depth = s.depth
  final : s'.tokens.final = s.tokens.final
  lexical : s'.lexical = s.lexical

namespace Keeps

variable {s s' s'' : Session}

theorem refl (s : Session) : s.Keeps s := ⟨rfl, rfl, rfl, rfl⟩

theorem trans (h : s.Keeps s') (k : s'.Keeps s'') : s.Keeps s'' where
  settings := k.settings.trans h.settings
  depth := k.depth.trans h.depth
  final := k.final.trans h.final
  lexical := k.lexical.trans h.lexical

theorem look (s : Session) (count : Nat) : s.Keeps { s with tokens := s.tokens.look count } where
  settings := rfl
  depth := rfl
  final := s.tokens.final_look count
  lexical := by rw [Session.lexical, TokenStream.waiting_look]; rfl

theorem take (s : Session) : s.Keeps { s with tokens := s.tokens.next.2 } where
  settings := rfl
  depth := rfl
  final := s.tokens.final_next
  lexical := by rw [Session.lexical, TokenStream.waiting_next]; rfl

/-- The first pending error is told. -/
theorem note {s : Session} {e : LexicalError} {rest : List LexicalError}
    (pending : s.tokens.pending = e :: rest) : s.Keeps { s with
      tokens := { s.tokens with pending := rest }, log := s.log.push e.diagnostic } where
  settings := rfl
  depth := rfl
  final := rfl
  lexical := by
    have told : [e.diagnostic].filter (·.cause.isLexical) = [e.diagnostic] := rfl
    simp only [Session.lexical, errors, ErrorLog.push, Array.toList_push, List.filter_append, told,
      TokenStream.waiting, pending, List.map_append, List.map_cons, List.append_assoc]
    rfl

theorem report {d : Diagnostic} (other : d.cause.isLexical = false) (s : Session) :
    s.Keeps { s with log := s.log.push d } where
  settings := rfl
  depth := rfl
  final := rfl
  lexical := by
    have none : [d].filter (·.cause.isLexical) = [] := by simp [other]
    simp only [Session.lexical, errors, ErrorLog.push, Array.toList_push, List.filter_append, none,
      List.append_nil]

end Keeps

end Session

/-- How far a reading has got since some tokens were ahead. -/
structure Headway where
  /-- A token that is not the end of input is ahead. -/
  more : Bool := false
  /-- Such a token has been taken. -/
  moved : Bool := false

namespace Headway

/-- After a token has been taken. -/
def take (k : Headway) : Headway := ⟨false, k.more || k.moved⟩

/-- After a token may have been taken. -/
def pass (k : Headway) : Headway := ⟨false, k.moved⟩

/-- After the kind of the token ahead has been asked for. -/
def facing (k : Headway) (kind : TokenKind) : Headway := ⟨kind != .eof || k.more, k.moved⟩

/-- What a round of a loop has to reach: one that asks for another has taken a token. -/
def ofRound {σ : Type} : ForInStep σ → Headway
  | .done _ => {}
  | .yield _ => { moved := true }

/-- The tokens ahead of a stream, of which some list was ahead before, are as far as this says. -/
structure Holds (k : Headway) (origin : List Scanned) (s : TokenStream) : Prop where
  ended : s.final.token.kind = .eof
  suffix : s.ahead <:+ origin
  more : k.more = true → s.ahead ≠ []
  moved : k.moved = true → s.ahead.length < origin.length

/-- The first says all that the second says. -/
structure Covers (k l : Headway) : Prop where
  more : l.more = true → k.more = true
  moved : l.moved = true → k.moved = true

namespace Covers

variable {k l : Headway}

theorem holds (h : k.Covers l) {origin : List Scanned} {s : TokenStream} (g : k.Holds origin s) :
    l.Holds origin s :=
  ⟨g.ended, g.suffix, fun more => g.more (h.more more), fun moved => g.moved (h.moved moved)⟩

theorem none (k : Headway) : k.Covers {} := ⟨nofun, nofun⟩

theorem pass (k : Headway) : k.Covers k.pass := ⟨nofun, id⟩

theorem take (k : Headway) : k.take.Covers k.pass :=
  ⟨nofun, fun moved => Bool.or_eq_true_iff.2 (.inr moved)⟩

theorem facing (k : Headway) (kind : TokenKind) : (k.facing kind).Covers k :=
  ⟨fun more => Bool.or_eq_true_iff.2 (.inr more), id⟩

/-- A round may ask for another once a token has been taken. -/
theorem round {σ : Type} {x : σ} (moved : k.moved = true) : k.Covers (ofRound (.yield x)) :=
  ⟨nofun, fun _ => moved⟩

theorem round_take {σ : Type} {x : σ} (some : k.more = true ∨ k.moved = true) :
    k.take.Covers (ofRound (.yield x)) :=
  .round (Bool.or_eq_true_iff.2 some)

end Covers

namespace Holds

variable {k : Headway} {origin : List Scanned} {s : TokenStream}

theorem look (h : k.Holds origin s) (count : Nat) : k.Holds origin (s.look count) where
  ended := by rw [s.final_look, h.ended]
  suffix := by rw [s.ahead_look]; exact h.suffix
  more := by rw [s.ahead_look]; exact h.more
  moved := by rw [s.ahead_look]; exact h.moved

theorem facing (h : k.Holds origin s) : (k.facing (s.upcoming 0).token.kind).Holds origin s where
  ended := h.ended
  suffix := h.suffix
  more := by
    intro more last
    have eof : (s.upcoming 0).token.kind = .eof := by
      rw [TokenStream.upcoming, last]
      exact h.ended
    rcases Bool.or_eq_true_iff.1 more with other | more
    · simp [eof] at other
    · exact h.more more last
  moved := h.moved

theorem take (h : k.Holds origin s) : k.take.Holds origin s.next.2 where
  ended := by rw [s.final_next, h.ended]
  suffix := by
    rw [s.ahead_next]
    exact (List.tail_suffix _).trans h.suffix
  more := nofun
  moved := by
    intro moved
    rw [s.ahead_next, List.length_tail]
    have whole := h.suffix.length_le
    rcases Bool.or_eq_true_iff.1 moved with more | moved
    · have some := List.length_pos_iff.2 (h.more more)
      omega
    · have before := h.moved moved
      omega

/-- Seen from an earlier place, a token taken since is still taken. -/
theorem onward (h : k.Holds origin s) {l : Headway} {s' : TokenStream} (g : l.Holds s.ahead s') :
    k.pass.Holds origin s' where
  ended := g.ended
  suffix := g.suffix.trans h.suffix
  more := nofun
  moved := fun moved => Nat.lt_of_le_of_lt g.suffix.length_le (h.moved moved)

theorem here (ended : s.final.token.kind = .eof) : Holds {} s.ahead s :=
  ⟨ended, List.suffix_rfl, nofun, nofun⟩

end Holds

end Headway

namespace Parser

variable {α β σ : Type}

/-- Under the settings and at the depth both parsers read the same.  Where they return they have
kept what every reading keeps, and they get from the first headway to the second. -/
structure Agree (c : Settings) (d : Nat) (k : Headway) (p q : Parser α) (l : α → Headway) :
    Prop where
  same : ∀ s : Session, s.settings = c → s.depth = d → p s = q s
  kept : ∀ s : Session, s.settings = c → s.depth = d → Ends (p s) fun a s' => s.Keeps s' ∧
    ∀ origin, k.Holds origin s.tokens → (l a).Holds origin s'.tokens

namespace Agree

variable {c : Settings} {d : Nat} {k : Headway} {p q : Parser α} {l m : α → Headway}

theorem mono (h : Agree c d k p q m) (covers : ∀ a, (m a).Covers (l a)) : Agree c d k p q l where
  same := h.same
  kept s settings depth := (h.kept s settings depth).mono fun a _ ⟨keeps, headway⟩ =>
    ⟨keeps, fun origin holds => (covers a).holds (headway origin holds)⟩

theorem weaken {k' : Headway} (h : Agree c d k' p q l) (covers : k.Covers k') :
    Agree c d k p q l where
  same := h.same
  kept s settings depth := (h.kept s settings depth).mono fun _ _ ⟨keeps, headway⟩ =>
    ⟨keeps, fun origin holds => headway origin (covers.holds holds)⟩

theorem drop (h : Agree c d k p q fun _ => k.take) : Agree c d k p q fun _ => k.pass :=
  h.mono fun _ => .take k

theorem pure (a : α) : Agree c d (l a) (Pure.pure a) (Pure.pure a) l where
  same _ _ _ := rfl
  kept s _ _ := ⟨.refl s, fun _ holds => holds⟩

theorem done (a : α) (covers : k.Covers (l a)) : Agree c d k (Pure.pure a) (Pure.pure a) l where
  same _ _ _ := rfl
  kept s _ _ := ⟨.refl s, fun _ holds => covers.holds holds⟩

theorem still (a : α) : Agree c d k (Pure.pure a) (Pure.pure a) fun _ => k := .done a ⟨id, id⟩

theorem bind {f g : α → Parser β} {l : β → Headway} (h : Agree c d k p q m)
    (then' : ∀ a, Agree c d (m a) (f a) (g a) l) : Agree c d k (p >>= f) (q >>= g) l where
  same s settings depth := by
    have kept := h.kept s settings depth
    show EStateM.bind p f s = EStateM.bind q g s
    unfold EStateM.bind
    rw [← h.same s settings depth]
    revert kept
    cases p s with
    | error abort s' => exact fun _ => rfl
    | ok a s' =>
      intro ⟨keeps, _⟩
      exact (then' a).same s' (keeps.settings.trans settings) (keeps.depth.trans depth)
  kept s settings depth := by
    apply (h.kept s settings depth).bind
    intro a s' ⟨keeps, headway⟩
    apply ((then' a).kept s' (keeps.settings.trans settings) (keeps.depth.trans depth)).mono
    intro b s'' ⟨keeps', headway'⟩
    exact ⟨keeps.trans keeps', fun origin holds => headway' origin (headway origin holds)⟩

theorem map {f : α → β} {l : β → Headway} (h : Agree c d k p q m)
    (covers : ∀ a, (m a).Covers (l (f a))) :
    Agree c d k (do return f (← p)) (do return f (← q)) l :=
  .bind h fun a => .done _ (covers a)

/-- A parser that passes on what another has read. -/
theorem give {f : α → β} {l : Headway} (h : Agree c d k p q fun _ => l) :
    Agree c d k (do return f (← p)) (do return f (← q)) fun _ => l :=
  .bind h fun _ => .still _

theorem ite {P : Prop} [Decidable P] {p' q' : Parser α} (h : P → Agree c d k p q l)
    (g : ¬ P → Agree c d k p' q' l) :
    Agree c d k (if P then p else p') (if P then q else q') l := by
  split
  next holds => exact h holds
  next fails => exact g fails

/-! ## Looking -/

/-- A question about the session that its position in the tokens does not matter to. -/
theorem ask (f : Session → α) : Agree c d k (do return f (← get)) (do return f (← get)) fun _ => k
    where
  same _ _ _ := rfl
  kept s _ _ := ⟨.refl s, fun _ holds => holds⟩

theorem look {f : TokenStream → α × TokenStream} (looks : ∀ t, ∃ count, (f t).2 = t.look count) :
    Agree c d k (onTokens f) (onTokens f) fun _ => k where
  same _ _ _ := rfl
  kept s _ _ := by
    obtain ⟨count, looked⟩ := looks s.tokens
    unfold onTokens Ends
    dsimp only
    rw [looked]
    exact ⟨.look s count, fun _ holds => holds.look count⟩

theorem peek : Agree c d k peek peek k.facing where
  same _ _ _ := rfl
  kept s _ _ := ⟨.look s 1, fun _ holds => holds.facing.look 1⟩

/-- The kind of the token ahead may not matter for how far the reading gets. -/
theorem asked : Agree c d k Parser.peek Parser.peek fun _ => k :=
  .mono .peek fun kind => .facing k kind

theorem isMooc : Agree c d k isMooc isMooc fun _ => k := .give (.ask _)

theorem now : Agree c d k now now fun _ => k := .ask _

theorem since (start : Span) : Agree c d k (since start) (since start) fun _ => k := .give .now

theorem scopes : Agree c d k scopes scopes fun _ => k := .ask _

theorem insideLoop : Agree c d k insideLoop insideLoop fun _ => k := .give .scopes

theorem peekToken (n : Nat) : Agree c d k (peekToken n) (peekToken n) fun _ => k :=
  .look fun _ => ⟨n + 1, rfl⟩

theorem head : Agree c d k head head fun _ => k := .give (.peekToken 0)

theorem peekPair (first second : TokenKind) : Agree c d k (onTokens (·.peekPair first second))
    (onTokens (·.peekPair first second)) fun _ => k := by
  apply Agree.look
  intro t
  unfold TokenStream.peekPair
  split
  · exact ⟨2, rfl⟩
  · exact ⟨1, rfl⟩

theorem peekWhile (start : TokenKind) (ask : TokenKind → Verdict) :
    Agree c d k (onTokens (·.peekWhile start ask)) (onTokens (·.peekWhile start ask))
      fun _ => k := by
  apply Agree.look
  intro t
  unfold TokenStream.peekWhile
  split
  · exact ⟨_, rfl⟩
  · exact ⟨1, rfl⟩

/-! ## Complaining and taking -/

theorem recordAll_keeps (errors : List LexicalError) (s : Session) :
    Ends (recordAll errors s) fun _ s' =>
      Session.Keeps { s with tokens := { s.tokens with pending := errors ++ s.tokens.pending } } s'
        ∧ s'.tokens = s.tokens := by
  induction errors generalizing s with
  | nil => exact ⟨.refl s, rfl⟩
  | cons e rest inductionHypothesis =>
    unfold recordAll
    apply (record_ends _ s).bind
    rintro _ _ ⟨_, rfl⟩
    apply (inductionHypothesis _).mono
    rintro _ s' ⟨keeps, tokens⟩
    exact ⟨.trans (.note rfl) keeps, tokens⟩

/-- Telling some of the pending errors. -/
theorem drain {f : TokenStream → List LexicalError × TokenStream}
    (splits : ∀ t, ∃ cut, f t = (t.pending.take cut, { t with pending := t.pending.drop cut })) :
    Agree c d k (do recordAll (← onTokens f)) (do recordAll (← onTokens f)) fun _ => k where
  same _ _ _ := rfl
  kept s _ _ := by
    obtain ⟨cut, split⟩ := splits s.tokens
    have taken : Ends (onTokens f s) fun errors s' => errors = s.tokens.pending.take cut ∧
        s' = { s with tokens := { s.tokens with pending := s.tokens.pending.drop cut } } := by
      unfold onTokens
      rw [split]
      exact ⟨rfl, rfl⟩
    apply taken.bind
    rintro _ _ ⟨rfl, rfl⟩
    apply (recordAll_keeps _ _).mono
    intro _ s' ⟨keeps, tokens⟩
    rw [List.take_append_drop] at keeps
    refine ⟨keeps, fun origin holds => ?_⟩
    rw [tokens]
    exact ⟨holds.ended, holds.suffix, holds.more, holds.moved⟩

theorem syncBefore (p : Position) : Agree c d k (syncBefore p) (syncBefore p) fun _ => k :=
  .drain fun _ => ⟨_, rfl⟩

theorem takeErrors : Agree c d k (do recordAll (← onTokens (·.takeErrors)))
    (do recordAll (← onTokens (·.takeErrors))) fun _ => k := by
  apply Agree.drain
  intro t
  refine ⟨t.pending.length, ?_⟩
  rw [List.take_length, List.drop_length]
  rfl

theorem complain {cause : Cause} (other : cause.isLexical = false) (span : Span) :
    Agree c d k (complain cause span) (complain cause span) fun _ => k := by
  apply Agree.bind (.syncBefore _)
  intro _
  exact {
    same := fun _ _ _ => rfl
    kept := fun s _ _ => by
      apply (record_ends _ s).mono
      rintro _ _ ⟨_, rfl⟩
      exact ⟨.report other s, fun _ holds => holds⟩ }

/-- Whoever stops the analysis does not return. -/
theorem stop (cause : Cause) (span : Span) (abort : Abort) (f g : β → Parser α) :
    Agree c d k (do Parser.complain cause span; f (← throw abort))
      (do Parser.complain cause span; g (← throw abort)) l where
  same s _ _ := by
    show EStateM.bind (Parser.complain cause span) _ s = EStateM.bind (Parser.complain cause span) _ s
    unfold EStateM.bind
    cases Parser.complain cause span s with
    | ok _ s' => rfl
    | error abort s' => rfl
  kept s _ _ := complain_throw_ends cause span abort s _

theorem tooDeep : Agree c d k tooDeep (Parser.tooDeep : Parser α) l where
  same _ _ _ := rfl
  kept s _ _ := by
    have deeper : Ends ((modify fun s : Session => { s with depth := s.depth + 1 } : Parser Unit) s)
        fun _ _ => True := trivial
    apply deeper.bind
    intro _ s' _
    have looked : Ends (Parser.head s') fun _ _ => True := trivial
    apply looked.bind
    intro span s'' _
    exact complain_throw_ends .tooManyLevels span .tooDeep s'' _

theorem next : Agree c d k next next fun _ => k.take := by
  have taken : Agree c d k (onTokens (·.next)) (onTokens (·.next)) fun _ => k.take := {
    same := fun _ _ _ => rfl
    kept := fun s _ _ => ⟨.take s, fun _ holds => holds.take⟩ }
  unfold Parser.next
  simp only [← bind_assoc]
  apply Agree.bind taken
  intro token
  apply Agree.ite
  · intro _
    exact .bind .takeErrors fun _ => .still _
  · intro _
    exact .bind (.syncBefore _) fun _ => .still _

theorem expect (kind : TokenKind) : Agree c d k (expect kind) (expect kind) fun _ => k.take :=
  .bind .next fun _ => .ite (fun _ => .bind (.complain rfl _) fun _ => .still _) fun _ => .still _

theorem expectName : Agree c d k expectName expectName fun _ => k.take :=
  .bind .next fun _ => .ite (fun _ => .bind (.complain rfl _) fun _ => .still _) fun _ => .still _

theorem accept (kind : TokenKind) : Agree c d k (accept kind) (accept kind) fun _ => k.pass :=
  .bind .peek fun _ => .ite
    (fun _ => .map .next fun _ => ⟨nofun, fun moved => Bool.or_eq_true_iff.2 (.inr moved)⟩)
    fun _ => .done _ ⟨nofun, id⟩

theorem accepts (kind : TokenKind) : Agree c d k (accepts kind) (accepts kind) fun _ => k.pass :=
  .give (.accept kind)

/-- Where a token of another kind than the end of input is accepted, one is taken. -/
theorem onAccept {kind : TokenKind} (other : kind ≠ .eof) {f g : Option Token → Parser β}
    {l : β → Headway} (taken : ∀ t, Agree c d { moved := true } (f (some t)) (g (some t)) l)
    (none : Agree c d k.pass (f none) (g none) l) :
    Agree c d k (Parser.accept kind >>= f) (Parser.accept kind >>= g) l := by
  have accepted : Agree c d k (Parser.accept kind) (Parser.accept kind)
      fun t => if t.isSome then { moved := true } else k.pass := by
    apply Agree.bind .peek
    intro ahead
    apply Agree.ite
    · rintro rfl
      apply Agree.map .next
      intro _
      exact ⟨nofun, fun _ => by simp [Headway.take, Headway.facing, other]⟩
    · intro _
      exact .done _ ⟨nofun, id⟩
  apply accepted.bind
  intro t
  cases t with
  | none => exact none
  | some t => exact taken t

theorem ifAccepts {kind : TokenKind} (other : kind ≠ .eof) {p' q' : Parser α}
    (h : Agree c d { moved := true } p q l) (g : Agree c d k.pass p' q' l) :
    Agree c d k (do if ← Parser.accepts kind then p else p')
      (do if ← Parser.accepts kind then q else q') l := by
  unfold Parser.accepts
  simp only [bind_assoc, pure_bind]
  apply Agree.onAccept other
  · exact fun _ => h
  · exact g

/-! ## Constructs -/

theorem onScopes (f : ScopeStack → ScopeStack) :
    Agree c d k (onScopes f) (onScopes f) fun _ => k where
  same _ _ _ := rfl
  kept _ _ _ := ⟨⟨rfl, rfl, rfl, rfl⟩, fun _ holds => holds⟩

theorem within (kind : ScopeKind) (name : String) (h : Agree c d k p q l) :
    Agree c d k (within kind name p) (within kind name q) l :=
  .bind (.onScopes _) fun _ => .bind h fun _ => .bind (.onScopes _) fun _ => .pure _

/-- One level deeper and back. -/
theorem nested (h : Agree c (d + 1) k p q l) : Agree c d k (nested p) (nested q) l where
  same s settings depth := by
    unfold Parser.nested
    rw [h.same { s with depth := s.depth + 1 } settings (congrArg (· + 1) depth)]
  kept s settings depth := by
    have kept := h.kept { s with depth := s.depth + 1 } settings (congrArg (· + 1) depth)
    unfold Parser.nested
    revert kept
    cases p { s with depth := s.depth + 1 } with
    | error abort s' => exact id
    | ok a s' =>
      intro ⟨keeps, headway⟩
      exact ⟨⟨keeps.settings, by rw [keeps.depth]; rfl, keeps.final, keeps.lexical⟩, headway⟩

/-- Each round starts where the one before it ended. -/
theorem iterateFor {step step' : σ → Parser (ForInStep σ)}
    (h : ∀ x, Agree c d {} (step x) (step' x) Headway.ofRound) (clock : List Scanned) (x : σ) :
    Agree c d {} (iterateFor step clock x) (iterateFor step' clock x) fun _ => {} := by
  induction clock generalizing x with
  | nil =>
    apply (h x).bind
    intro next
    cases next with
    | done b => exact .done _ (.none _)
    | yield b => exact .done _ (.none _)
  | cons _ clock inductionHypothesis =>
    apply (h x).bind
    intro next
    cases next with
    | done b => exact .done _ (.none _)
    | yield b => exact (inductionHypothesis b).weaken (.none _)

theorem iterate {start : σ} {step step' : σ → Parser (ForInStep σ)}
    (h : ∀ x, Agree c d {} (step x) (step' x) Headway.ofRound) :
    Agree c d k (iterate start step) (iterate start step') fun _ => k.pass where
  same s settings depth := (iterateFor h s.tokens.ahead start).same s settings depth
  kept s settings depth := by
    apply ((iterateFor h s.tokens.ahead start).kept s settings depth).mono
    intro a s' ⟨keeps, headway⟩
    exact ⟨keeps, fun origin holds => holds.onward (headway _ (.here holds.ended))⟩

end Agree

end Parser

/-- Rules that agree under some settings at some depth; each but a block takes a token. -/
structure Rules.Agree (c : Settings) (d : Nat) (r r' : Rules) : Prop where
  block (k : Headway) : Parser.Agree c d k r.block r'.block fun _ => k.pass
  stat (k : Headway) : Parser.Agree c d k r.stat r'.stat fun _ => k.take
  operation (k : Headway) (limit : Nat) :
    Parser.Agree c d k (r.operation limit) (r'.operation limit) fun _ => k.take
  functionBody (k : Headway) (style : FunctionStyle) :
    Parser.Agree c d k (r.functionBody style) (r'.functionBody style) fun _ => k.take
  table (k : Headway) : Parser.Agree c d k r.table r'.table fun _ => k.take
  parenthesised (k : Headway) :
    Parser.Agree c d k r.parenthesised r'.parenthesised fun _ => k.take

end LuaChunk
