import LuaChunk.Proofs.Lexer.Queue
import LuaChunk.Proofs.Parser.Moves

/-!
# Readings without complaints

A reading that records no diagnostic is a matter of tokens alone: it leads from one place in the
token sequence to a later one.  `Parser.Reads` says of a parser which places it joins and with
which results, and its rules follow the way parsers are put together.
-/

set_option autoImplicit false

namespace LuaChunk

/-- The tokens of a text, read under some settings. -/
structure Text where
  settings : Settings
  tokens : List Token
  final : Token
  final_eof : final.kind = .eof
  not_eof : ∀ t ∈ tokens, t.kind ≠ .eof
  reserved : ∀ t ∈ tokens, t.kind ∈ TokenKind.moocKeywords → settings.dialect = .mooc
  start_le : ∀ t ∈ tokens, .start ≤ t.span.start
  start_lt : ∀ t ∈ tokens, t.span.start < t.span.stop
  ordered : (tokens ++ [final]).Pairwise fun a b => a.span.stop ≤ b.span.start

abbrev Text.dialect (c : Text) : Dialect := c.settings.dialect

/-- A name that the text holds. -/
def Text.Names (c : Text) (name : String) : Prop :=
  ∃ t ∈ c.tokens, t.kind = .identifier ∧ t.text = name

/-- A token is known by where it starts. -/
theorem Text.eq_of_start_eq {c : Text} {t u : Token} (h : t ∈ c.tokens) (k : u ∈ c.tokens)
    (same : t.span.start = u.span.start) : t = u :=
  Token.eq_of_start_eq c.start_lt (List.pairwise_append.1 c.ordered).1 h k same

/-- A place in a text: the tokens ahead and the span of the last one taken. -/
structure Place (c : Text) where
  now : Span
  ahead : List Token
  suffix : ahead <:+ c.tokens

namespace Place

variable {c : Text}

def token (i : Place c) (n : Nat) : Token := i.ahead[n]?.getD c.final

def head (i : Place c) : Token := i.token 0

/-- The place after the next token; the end of input is never used up. -/
def tail (i : Place c) : Place c where
  now := i.head.span
  ahead := i.ahead.tail
  suffix := (List.tail_suffix _).trans i.suffix

@[simp]
theorem now_tail (i : Place c) : i.tail.now = i.head.span := rfl

@[simp]
theorem ahead_tail (i : Place c) : i.tail.ahead = i.ahead.tail := rfl

theorem mem (i : Place c) {t : Token} (h : t ∈ i.ahead) : t ∈ c.tokens := i.suffix.mem h

/-- A token that is not the end of input is the first of those ahead. -/
theorem ahead_eq_cons {i : Place c} (h : i.head.kind ≠ .eof) :
    i.ahead = i.head :: i.tail.ahead := by
  cases tokens : i.ahead with
  | nil => exact absurd c.final_eof (by simpa [head, token, tokens] using h)
  | cons t rest => simp [head, token, tokens]

theorem head_reserved (i : Place c) (word : i.head.kind ∈ TokenKind.moocKeywords) :
    c.dialect = .mooc := by
  cases tokens : i.ahead with
  | nil =>
    have eof : i.head.kind = .eof := by simpa [head, token, tokens] using c.final_eof
    rw [eof] at word
    exact absurd word (by decide)
  | cons t rest => exact c.reserved i.head (i.mem (by simp [head, token, tokens])) word

end Place

/-- One token of a kind leads from a place to the next; it is no stray byte. -/
structure Takes {c : Text} (kind : TokenKind) (i : Place c) (t : Token) (o : Place c) :
    Prop where
  kind_eq : i.head.kind = kind
  token_eq : t = i.head
  rest_eq : o = i.tail
  legal : kind ≠ .illegal

namespace Takes

variable {c : Text} {kind : TokenKind} {i o : Place c} {t : Token}

theorem now (h : Takes kind i t o) : o.now = t.span := by
  rw [h.rest_eq, h.token_eq]
  rfl

theorem kind_token (h : Takes kind i t o) : t.kind = kind := h.token_eq ▸ h.kind_eq

theorem ahead (h : Takes kind i t o) (more : kind ≠ .eof) : i.ahead = t :: o.ahead := by
  rw [h.token_eq, h.rest_eq]
  exact Place.ahead_eq_cons (h.kind_eq ▸ more)

theorem mem (h : Takes kind i t o) (more : kind ≠ .eof) : t ∈ c.tokens :=
  i.mem (by simp [h.ahead more])

theorem names (h : Takes .identifier i t o) : c.Names t.text :=
  ⟨t, h.mem nofun, h.kind_token, rfl⟩

theorem of_kind (h : Takes t.kind i t o) (same : i.head.kind = kind) : Takes kind i t o :=
  ⟨same, h.token_eq, h.rest_eq, fun stray => h.legal (h.token_eq ▸ same.trans stray)⟩

theorem proper (h : Takes kind i t o) : kind.Proper c.dialect :=
  ⟨h.legal, fun word => i.head_reserved (h.kind_eq ▸ word)⟩

end Takes

/-- No open loop waits for the label of a `continue`. -/
structure ScopeStack.Quiet (s : ScopeStack) : Prop where
  root : s.root.kind ≠ .loop
  inner : ∀ m ∈ s.inner, m.kind = .loop → m.count = 0

namespace ScopeStack.Quiet

variable {s : ScopeStack}

theorem push (h : s.Quiet) (kind : ScopeKind) (name : String) : (s.push kind name).Quiet := by
  constructor
  · unfold ScopeStack.push
    split <;> exact h.root
  · rintro m membership loop
    rcases List.mem_cons.1 membership with rfl | below
    · rfl
    · exact h.inner m below loop

theorem pop (h : s.Quiet) : s.pop.2.Quiet := by
  unfold ScopeStack.pop
  split
  · exact h
  next m rest inner =>
    have below := h.inner
    rw [inner] at below
    refine ⟨?_, fun n membership => below n (.tail _ membership)⟩
    dsimp only
    split <;> exact h.root

theorem noteReturn (h : s.Quiet) : (Parser.noteReturn s).Quiet := by
  unfold Parser.noteReturn
  split
  next block =>
    unfold ScopeStack.current at block
    unfold ScopeStack.setCurrent
    split
    · exact ⟨h.root, h.inner⟩
    next m rest inner =>
      have below := h.inner
      rw [inner] at below block
      refine ⟨h.root, fun n membership loop => ?_⟩
      rcases List.mem_cons.1 membership with rfl | further
      · simp_all
      · exact below n (.tail _ further) loop
  · exact h

theorem current (h : s.Quiet) (loop : s.current.kind = .loop) : s.current.count = 0 := by
  unfold ScopeStack.current at *
  cases inner : s.inner with
  | nil => exact absurd (by simpa [inner] using loop) h.root
  | cons m rest => exact h.inner m (by simp [inner]) (by simpa [inner] using loop)

end ScopeStack.Quiet

/-- Every class whose body is open has one of the names. -/
structure ScopeStack.Owned (names : String → Prop) (s : ScopeStack) : Prop where
  root : s.root.kind ≠ .classBody
  inner : ∀ m ∈ s.inner, m.kind = .classBody → names m.name

namespace ScopeStack.Owned

variable {names : String → Prop} {s : ScopeStack}

theorem push (h : s.Owned names) {kind : ScopeKind} {name : String}
    (own : kind = .classBody → names name) : (s.push kind name).Owned names := by
  constructor
  · unfold ScopeStack.push
    split <;> exact h.root
  · exact List.forall_mem_cons.2 ⟨own, h.inner⟩

theorem pop (h : s.Owned names) : s.pop.2.Owned names := by
  unfold ScopeStack.pop
  split
  · exact h
  next m rest inner =>
    have below := h.inner
    rw [inner] at below
    refine ⟨?_, fun n membership => below n (.tail _ membership)⟩
    dsimp only
    split <;> exact h.root

theorem noteReturn (h : s.Owned names) : (Parser.noteReturn s).Owned names := by
  unfold Parser.noteReturn
  split
  · unfold ScopeStack.setCurrent
    split
    · exact ⟨h.root, h.inner⟩
    next m rest inner =>
      have below := h.inner
      rw [inner] at below
      exact ⟨h.root, List.forall_mem_cons.2 ⟨below m List.mem_cons_self,
        fun n membership => below n (.tail _ membership)⟩⟩
  · exact h

theorem setFound (h : s.Owned names) (kind stop : ScopeKind) (count : Nat) :
    (s.setFound kind stop count).Owned names := by
  obtain ⟨root, inner⟩ := s
  obtain ⟨top, below⟩ := h
  change (setNearest kind stop count root inner).Owned names
  dsimp only at top below
  induction inner with
  | nil =>
    unfold setNearest
    refine ⟨?_, List.forall_mem_nil _⟩
    dsimp only
    split <;> exact top
  | cons m rest inductionHypothesis =>
    rw [List.forall_mem_cons] at below
    unfold setNearest
    split
    · exact ⟨top, List.forall_mem_cons.2 below⟩
    split
    · exact ⟨top, List.forall_mem_cons.2 below⟩
    · have rest := inductionHypothesis below.2
      exact ⟨rest.root, List.forall_mem_cons.2 ⟨below.1, rest.inner⟩⟩

theorem currentClass (h : s.Owned names) {owner : String} (current : s.currentClass? = some owner) :
    names owner := by
  unfold currentClass? ScopeStack.current at current
  cases inner : s.inner with
  | nil => simp [inner, h.root] at current
  | cons m rest =>
    have same : m.kind = .classBody ∧ m.name = owner := by simpa [inner] using current
    exact same.2 ▸ h.inner m (by simp [inner]) same.1

end ScopeStack.Owned

/-- The session stands at a place, and no lexical error has been taken; a Lua session has no loop
that a `continue` has been read in, and the names of open classes are names of the text. -/
structure Session.At {c : Text} (s : Session) (i : Place c) : Prop where
  quiet : c.dialect = .lua → s.scopes.Quiet
  owned : s.scopes.Owned c.Names
  now : s.tokens.now = i.now
  ahead : s.tokens.ahead.map (·.token) = i.ahead
  final : s.tokens.final.token = c.final
  intact : s.tokens.Intact

namespace Session.At

variable {c : Text} {s : Session} {i : Place c}

theorem upcoming (h : s.At i) (n : Nat) : (s.tokens.upcoming n).token = i.token n := by
  unfold TokenStream.upcoming Place.token
  rw [← h.ahead, ← h.final, List.getElem?_map]
  cases s.tokens.ahead[n]? <;> rfl

theorem look (h : s.At i) (count : Nat) :
    Session.At { s with tokens := s.tokens.look count } i := by
  refine ⟨h.quiet, h.owned, ?_, ?_, ?_, h.intact.look count⟩
  all_goals simp [h.now, h.ahead, h.final]

theorem next_fst (h : s.At i) : s.tokens.next.1 = i.head := by
  have looked := h.look 1
  have first := h.upcoming 0
  unfold TokenStream.next
  dsimp only
  cases tokens : (s.tokens.look 1).ahead with
  | nil => simp_all [TokenStream.upcoming, Place.head]
  | cons r rest => simp_all [TokenStream.upcoming, Place.head]

/-- Where no error is to be taken with the next token, reading goes on to the next place. -/
theorem next (h : s.At i) (none : s.tokens.next.1.kind ≠ .eof →
    (s.tokens.next.2.takeErrorsBefore s.tokens.next.1.span.stop).1 = []) :
    Session.At { s with tokens := s.tokens.next.2 } i.tail ∧
      Takes s.tokens.next.1.kind i s.tokens.next.1 i.tail := by
  obtain ⟨intact, legal⟩ := h.intact.next none
  refine ⟨⟨h.quiet, h.owned, ?_, ?_, ?_, intact⟩, by rw [h.next_fst], h.next_fst, rfl, legal⟩
  · rw [Place.now_tail, ← h.next_fst]
    unfold TokenStream.next
    dsimp only
    cases (s.tokens.look 1).ahead <;> rfl
  · rw [Place.ahead_tail, ← h.ahead, ← List.map_tail]
    exact congrArg _ s.tokens.ahead_next
  · exact (congrArg Scanned.token s.tokens.final_next).trans h.final

theorem length (h : s.At i) : s.tokens.ahead.length = i.ahead.length := by
  rw [← h.ahead, List.length_map]

end Session.At

namespace Parser

variable {c : Text} {α β σ : Type}

/-- A run that is not stopped ends as the relation says; one that is stopped has recorded why. -/
def Ends (result : EStateM.Result Abort Session α) (Q : α → Session → Prop) : Prop :=
  match result with
  | .ok a s => Q a s
  | .error _ s => 0 < s.log.diagnostics.size

theorem Ends.mono {result : EStateM.Result Abort Session α} {Q T : α → Session → Prop}
    (h : Ends result Q) (sub : ∀ a s, Q a s → T a s) : Ends result T := by
  cases result with
  | ok a s => exact sub a s h
  | error _ s => exact h

theorem Ends.and {result : EStateM.Result Abort Session α} {Q T : α → Session → Prop}
    (h : Ends result Q) (k : Ends result T) : Ends result fun a s => Q a s ∧ T a s := by
  cases result with
  | ok a s => exact ⟨h, k⟩
  | error _ s => exact h

theorem Ends.bind {p : Parser α} {f : α → Parser β} {s : Session} {Q : α → Session → Prop}
    {T : β → Session → Prop} (h : Ends (p s) Q) (k : ∀ a s', Q a s' → Ends (f a s') T) :
    Ends ((p >>= f) s) T := by
  change Ends (EStateM.bind p f s) T
  unfold EStateM.bind
  revert h
  cases p s with
  | ok a s' => exact k a s'
  | error _ s' => exact id

theorem within_ends (kind : ScopeKind) (name : String) {p : Parser α} {s : Session}
    {Q : α → Session → Prop} (h : Ends (p { s with scopes := s.scopes.push kind name }) Q) :
    Ends (within kind name p s) fun a t => ∃ s', Q a s' ∧
      t = { s' with scopes := s'.scopes.pop.2 } := by
  have entered : Ends (onScopes (·.push kind name) s) fun _ s' =>
    s' = { s with scopes := s.scopes.push kind name } := rfl
  refine entered.bind ?_
  rintro _ _ rfl
  refine h.bind fun a s' known => ?_
  have left : Ends (onScopes (·.pop.2) s') fun _ s'' =>
    s'' = { s' with scopes := s'.scopes.pop.2 } := rfl
  refine left.bind ?_
  rintro _ _ rfl
  exact ⟨s', known, rfl⟩

/-- The end of a reading that only makes moves and, where it records nothing, leads from a place
to a place, with a result, as the relation says. -/
def Leads (s : Session) (R : Place c → α → Place c → Prop) (a : α) (s' : Session) : Prop :=
  s.Moves s' ∧ ∀ i, s.At i → s'.log.diagnostics.size = s.log.diagnostics.size →
    ∃ o, s'.At o ∧ R i a o

/-- Wherever the parser starts under the settings, it leads as the relation says unless it stops
the analysis. -/
def Reads (c : Text) (p : Parser α) (R : Place c → α → Place c → Prop) : Prop :=
  ∀ s : Session, s.settings = c.settings → Ends (p s) (Leads s R)

/-- All that is read inside constructs keeps what is known of them. -/
def Lasts (P : ScopeStack → Prop) : Prop := ∀ s s' : Session, s.Moves s' → P s.scopes → P s'.scopes

/-- The same of a parser that starts inside constructs of which something is known. -/
def ReadsIn (P : ScopeStack → Prop) (c : Text) (p : Parser α) (R : Place c → α → Place c → Prop) :
    Prop :=
  ∀ s : Session, s.settings = c.settings → P s.scopes → Ends (p s) (Leads s R)

/-- Wherever the parser starts under the settings, it only makes moves unless it stops the
analysis. -/
def Travels (c : Text) (p : Parser α) : Prop :=
  ∀ s : Session, s.settings = c.settings → Ends (p s) fun _ s' => s.Moves s'

theorem Reads.travels {p : Parser α} {R : Place c → α → Place c → Prop} (h : Reads c p R) :
    Travels c p :=
  fun s settings => (h s settings).mono fun _ _ => And.left

theorem Travels.bind {p : Parser α} {f : α → Parser β} (h : Travels c p)
    (k : ∀ a, Travels c (f a)) : Travels c (p >>= f) := by
  intro s settings
  refine (h s settings).bind fun a s' moves => ?_
  exact (k a s' (moves.settings_eq.trans settings)).mono fun _ _ => moves.trans

theorem Reads.pure (a : α) : Reads c (Pure.pure a) fun i b o => b = a ∧ o = i :=
  fun s _ => ⟨.refl s, fun i standing _ => ⟨i, standing, rfl, rfl⟩⟩

namespace ReadsIn

variable {P : ScopeStack → Prop} {p : Parser α} {R S : Place c → α → Place c → Prop}

theorem of (h : Reads c p R) : ReadsIn P c p R := fun s settings _ => h s settings

theorem reads (h : ReadsIn (fun _ => True) c p R) : Reads c p R :=
  fun s settings => h s settings trivial

theorem mono (h : ReadsIn P c p R) (sub : ∀ i a o, R i a o → S i a o) : ReadsIn P c p S := by
  intro s settings inside
  refine (h s settings inside).mono ?_
  rintro a s' ⟨moves, reads⟩
  refine ⟨moves, fun i standing clean => ?_⟩
  obtain ⟨o, stands, related⟩ := reads i standing clean
  exact ⟨o, stands, sub i a o related⟩

theorem bind {f : α → Parser β} {T : α → Place c → β → Place c → Prop} (lasts : Lasts P)
    (h : ReadsIn P c p R) (k : ∀ a, ReadsIn P c (f a) (T a)) :
    ReadsIn P c (p >>= f) fun i b o => ∃ a m, R i a m ∧ T a m b o := by
  intro s settings inside
  refine (h s settings inside).bind ?_
  rintro a s' ⟨moves, reads⟩
  refine (k a s' (moves.settings_eq.trans settings) (lasts s s' moves inside)).mono ?_
  rintro b s'' ⟨moves', reads'⟩
  refine ⟨moves.trans moves', fun i standing clean => ?_⟩
  have first := moves.size_le
  have second := moves'.size_le
  obtain ⟨m, stands, related⟩ := reads i standing (by omega)
  obtain ⟨o, stands', related'⟩ := reads' m stands (by omega)
  exact ⟨o, stands', a, m, related, related'⟩

theorem within_travels (kind : ScopeKind) (name : String)
    (opened : ∀ σ : ScopeStack, P (σ.push kind name)) (h : ReadsIn P c p R) :
    Travels c (Parser.within kind name p) := by
  intro s settings
  refine (within_ends kind name (h _ settings (opened s.scopes))).mono ?_
  rintro a _ ⟨s', ⟨moves, -⟩, rfl⟩
  exact .within kind name moves

/-- What is known inside a construct is known of the stack that it is opened on.  A class body is
opened under a name of the text. -/
theorem within (kind : ScopeKind) (name : String) (opened : ∀ σ : ScopeStack, P (σ.push kind name))
    (h : ReadsIn P c p R) (own : kind = .classBody → c.Names name) :
    Reads c (Parser.within kind name p) R := by
  intro s settings
  refine (within_ends kind name (h _ settings (opened s.scopes))).mono ?_
  rintro a _ ⟨s', ⟨moves, reads⟩, rfl⟩
  refine ⟨.within kind name moves, fun i standing clean => ?_⟩
  obtain ⟨o, stands, related⟩ := reads i ⟨fun lua => (standing.quiet lua).push kind name,
    standing.owned.push own, standing.now, standing.ahead, standing.final, standing.intact⟩ clean
  exact ⟨o, ⟨fun lua => (stands.quiet lua).pop, stands.owned.pop, stands.now, stands.ahead,
    stands.final, stands.intact⟩, related⟩

section Loops

variable {start : σ} {step : σ → Parser (ForInStep σ)}
  {Q : σ → Place c → ForInStep σ → Place c → Prop} {J : Place c → σ → Place c → Prop}

/-- What is left of a loop keeps what holds at its start and after every further round.  A round
that asks for another has taken a token, so the loop does not end for want of rounds. -/
theorem iterateFor (lasts : Lasts P) (h : ∀ x, ReadsIn P c (step x) (Q x))
    (again : ∀ i x m y o, J i x m → Q x m (.yield y) o → J i y o)
    (shorter : ∀ x m y o, Q x m (.yield y) o → o.ahead.length < m.ahead.length)
    (clock : List Scanned) (x : σ) :
    ReadsIn P c (Parser.iterateFor step clock x) fun m b o =>
      ∀ i, J i x m → m.ahead.length ≤ clock.length → ∃ y n, J i y n ∧ Q y n (.done b) o := by
  induction clock generalizing x with
  | nil =>
    refine mono (.bind lasts (h x) (T := fun next m b o => o = m ∧
      (next = .done b ∨ next = .yield b)) fun next => ?_) ?_
    · cases next with
      | done b => exact (of (.pure b)).mono fun _ _ _ ⟨same, still⟩ => ⟨still, .inl (same ▸ rfl)⟩
      | yield b => exact (of (.pure b)).mono fun _ _ _ ⟨same, still⟩ => ⟨still, .inr (same ▸ rfl)⟩
    · rintro m b o ⟨next, _, related, rfl, rfl | rfl⟩ i kept short
      · exact ⟨x, m, kept, related⟩
      · have less := shorter x m b _ related
        simp only [List.length_nil] at short
        omega
  | cons _ clock inductionHypothesis =>
    refine mono (.bind lasts (h x) (T := fun next m b o =>
      (next = .done b ∧ o = m) ∨ ∃ y, next = .yield y ∧
        ∀ i, J i y m → m.ahead.length ≤ clock.length → ∃ y n, J i y n ∧ Q y n (.done b) o)
      fun next => ?_) ?_
    · cases next with
      | done b => exact (of (.pure b)).mono fun _ _ _ ⟨same, still⟩ => .inl ⟨same ▸ rfl, still⟩
      | yield y => exact (inductionHypothesis y).mono fun _ _ _ rest => .inr ⟨y, rfl, rest⟩
    · rintro m b o ⟨next, n, related, ⟨rfl, rfl⟩ | ⟨y, rfl, rest⟩⟩ i kept short
      · exact ⟨x, m, kept, related⟩
      · have less := shorter x m y n related
        simp only [List.length_cons] at short
        exact rest i (again i x m y n kept related) (by omega)

theorem iterate (lasts : Lasts P) (h : ∀ x, ReadsIn P c (step x) (Q x)) (init : ∀ i, J i start i)
    (again : ∀ i x m y o, J i x m → Q x m (.yield y) o → J i y o)
    (shorter : ∀ x m y o, Q x m (.yield y) o → o.ahead.length < m.ahead.length) :
    ReadsIn P c (Parser.iterate start step) fun i b o => ∃ x m, J i x m ∧ Q x m (.done b) o := by
  intro s settings inside
  refine (iterateFor lasts h again shorter s.tokens.ahead start s settings inside).mono ?_
  rintro b s' ⟨moves, reads⟩
  refine ⟨moves, fun i standing clean => ?_⟩
  obtain ⟨o, stands, rest⟩ := reads i standing clean
  exact ⟨o, stands, rest i (init i) (Nat.le_of_eq standing.length.symm)⟩

end Loops

end ReadsIn

namespace Reads

variable {p q : Parser α} {R S : Place c → α → Place c → Prop}

theorem mono (h : Reads c p R) (sub : ∀ i a o, R i a o → S i a o) : Reads c p S :=
  (ReadsIn.mono (.of h) sub).reads

theorem bind {f : α → Parser β} {T : α → Place c → β → Place c → Prop}
    (h : Reads c p R) (k : ∀ a, Reads c (f a) (T a)) :
    Reads c (p >>= f) fun i b o => ∃ a m, R i a m ∧ T a m b o :=
  (ReadsIn.bind (fun _ _ _ _ => trivial) (.of h) fun a => .of (k a)).reads

/-- What follows need lead to no place where the first part has not led as it should. -/
theorem bind_of {f : α → Parser β} {T : α → Place c → β → Place c → Prop} {P : α → Prop}
    (h : Reads c p R) (holds : ∀ i a m, R i a m → P a) (k : ∀ a, P a → Reads c (f a) (T a))
    (moves : ∀ a, Travels c (f a)) : Reads c (p >>= f) fun i b o => ∃ a m, R i a m ∧ T a m b o := by
  intro s settings
  refine (h s settings).bind ?_
  rintro a s' ⟨moved, reads⟩
  have same := moved.settings_eq.trans settings
  by_cases good : P a
  · refine (k a good s' same).mono ?_
    rintro b s'' ⟨moved', reads'⟩
    refine ⟨moved.trans moved', fun i standing clean => ?_⟩
    have first := moved.size_le
    have second := moved'.size_le
    obtain ⟨m, stands, related⟩ := reads i standing (by omega)
    obtain ⟨o, stands', related'⟩ := reads' m stands (by omega)
    exact ⟨o, stands', a, m, related, related'⟩
  · refine (moves a s' same).mono fun b s'' moved' => ⟨moved.trans moved', fun i standing clean => ?_⟩
    have first := moved.size_le
    have second := moved'.size_le
    obtain ⟨m, -, related⟩ := reads i standing (by omega)
    exact absurd (holds i a m related) good

theorem map (f : α → β) (h : Reads c p R) :
    Reads c (do return f (← p)) fun i b o => ∃ a, b = f a ∧ R i a o := by
  refine (h.bind fun a => Reads.pure (f a)).mono ?_
  rintro i b o ⟨a, m, related, rfl, rfl⟩
  exact ⟨a, rfl, related⟩

theorem ite {P : Prop} [Decidable P] (h : P → Reads c p R) (k : ¬ P → Reads c q S) :
    Reads c (if P then p else q) fun i a o => (P ∧ R i a o) ∨ (¬ P ∧ S i a o) := by
  split
  next holds => exact (h holds).mono fun _ _ _ related => .inl ⟨holds, related⟩
  next fails => exact (k fails).mono fun _ _ _ related => .inr ⟨fails, related⟩

theorem nested (h : Reads c p R) : Reads c (Parser.nested p) R := by
  intro s settings
  have outcome := h { s with depth := s.depth + 1 } settings
  unfold Parser.nested
  revert outcome
  cases p { s with depth := s.depth + 1 } with
  | error _ s' => exact id
  | ok a s' =>
    rintro ⟨moves, reads⟩
    refine ⟨.nested moves, fun i standing clean => ?_⟩
    obtain ⟨o, stands, related⟩ := reads i
      ⟨standing.quiet, standing.owned, standing.now, standing.ahead, standing.final,
        standing.intact⟩ clean
    exact ⟨o, ⟨stands.quiet, stands.owned, stands.now, stands.ahead, stands.final,
      stands.intact⟩, related⟩

/-- A class body is opened under a name of the text. -/
theorem within (kind : ScopeKind) (name : String) (h : Reads c p R)
    (own : kind = .classBody → c.Names name) :
    Reads c (Parser.within kind name p) R :=
  ReadsIn.within (P := fun _ => True) kind name (fun _ => trivial) (.of h) own

theorem iterate {start : σ} {step : σ → Parser (ForInStep σ)}
    {Q : σ → Place c → ForInStep σ → Place c → Prop} {J : Place c → σ → Place c → Prop}
    (h : ∀ x, Reads c (step x) (Q x)) (init : ∀ i, J i start i)
    (again : ∀ i x m y o, J i x m → Q x m (.yield y) o → J i y o)
    (shorter : ∀ x m y o, Q x m (.yield y) o → o.ahead.length < m.ahead.length) :
    Reads c (Parser.iterate start step) fun i b o => ∃ x m, J i x m ∧ Q x m (.done b) o :=
  (ReadsIn.iterate (fun _ _ _ _ => trivial) (fun x => .of (h x)) init again shorter).reads

end Reads

end Parser

end LuaChunk
