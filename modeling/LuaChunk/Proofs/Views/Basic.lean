import LuaChunk.Analysis
import LuaChunk.Proofs.Tree.Recast

/-!
# Readings that are looked at

A view changes a session in parts that reading should not depend on: the spans of the tokens, or how
much is kept of a table.  A parser commutes with a view if it does to the session that is looked at
what one sees of what it does to the session itself; `Parser.Commutes` has one rule for each way in
which parsers are put together.
-/

set_option autoImplicit false

namespace LuaChunk

open LuaChunk.Parser (capped)

/-- A way to look at sessions of a dialect, and at the trees that they read. -/
structure View where
  dialect : Dialect
  place : Span → Span
  scanner : Scanner → Scanner
  settings : Settings → Settings
  /-- How much is seen of a table. -/
  cap : Option Nat
  dialect_settings (c : Settings) : (settings c).dialect = c.dialect
  maxNesting_settings (c : Settings) : (settings c).maxNesting = c.maxNesting
  capped_settings (c : Settings) {α : Type} (items : List α) : c.dialect = dialect →
    capped (settings c).fieldCap items = capped cap (capped c.fieldCap items)
  place_synthetic : place .synthetic = .synthetic
  place_merge (a b : Span) : place (a.merge b) = (place a).merge (place b)
  place_upTo (a b : Span) : place (a.upTo b) = (place a).upTo (place b)
  /-- Whether a block has taken a token is asked of the spans, and seen from them. -/
  place_block (head before after : Span) :
    place (if after = before then head.upTo head else head.merge after) =
      if place after = place before then (place head).upTo (place head)
      else (place head).merge (place after)
  /-- Only in Lua may spans be changed. -/
  exact_or_lua : (∀ a, place a = a) ∨ dialect = .lua

attribute [simp] View.dialect_settings View.place_synthetic View.place_merge View.place_upTo

namespace View

variable (v : View)

/-! ## What is seen -/

def token (t : Token) : Token := { t with span := v.place t.span }

def lexical (e : LexicalError) : LexicalError := { e with span := v.place e.span }

def scanned (r : Scanned) : Scanned := ⟨v.token r.token, r.errors.map v.lexical, v.scanner r.after⟩

def tokens (s : TokenStream) : TokenStream :=
  { s with
    taken := v.scanner s.taken
    ahead := s.ahead.map v.scanned
    final := v.scanned s.final
    pending := s.pending.map v.lexical
    now := v.place s.now
    previous := v.place s.previous }

def diagnostic (d : Diagnostic) : Diagnostic := { d with span := v.place d.span }

def log (l : ErrorLog) : ErrorLog := { l with diagnostics := l.diagnostics.map v.diagnostic }

def session (s : Session) : Session :=
  { s with settings := v.settings s.settings, tokens := v.tokens s.tokens, log := v.log s.log }

abbrev param (p : Param) : Param := p.recast v.place

abbrev exp (e : Exp) : Exp := e.recast v.place v.cap

abbrev body (b : FunctionBody) : FunctionBody := b.recast v.place v.cap

abbrev block (b : Block) : Block := b.recast v.place v.cap

abbrev branch (b : Branch) : Branch := b.recast v.place v.cap

abbrev assignment (a : Assignment) : Assignment := a.recast v.place v.cap

abbrev stat (s : Stat) : Stat := s.recast v.place v.cap

end View

/-! ## Tokens -/

/-- No token ahead has an error, and none is pending. -/
structure TokenStream.Silent (s : TokenStream) : Prop where
  pending : s.pending = []
  ahead : ∀ r ∈ s.ahead, r.errors = []
  final : s.final.errors = []

namespace TokenStream

variable {s : TokenStream}

theorem Silent.errorsOf {final : Scanned} {rest : List Scanned} (last : final.errors = [])
    (each : ∀ r ∈ rest, r.errors = []) (skip count : Nat) :
    TokenStream.errorsOf final rest skip count = [] := by
  induction rest generalizing skip count with
  | nil => cases skip <;> cases count <;> simp [TokenStream.errorsOf, last]
  | cons r rest inductionHypothesis =>
    obtain ⟨first, others⟩ := List.forall_mem_cons.1 each
    cases skip <;> cases count <;>
      simp [TokenStream.errorsOf, first, inductionHypothesis others]

theorem Silent.look (h : s.Silent) (count : Nat) : (s.look count).Silent := by
  unfold TokenStream.look
  split
  · exact ⟨by simp [h.pending, Silent.errorsOf h.final h.ahead], h.ahead, h.final⟩
  · exact h

theorem Silent.next (h : s.Silent) : s.next.2.Silent := by
  have looked := h.look 1
  unfold TokenStream.next
  dsimp only
  split
  · exact ⟨looked.pending, looked.ahead, looked.final⟩
  next rest ahead =>
    have each := looked.ahead
    rw [ahead] at each
    exact ⟨looked.pending, (List.forall_mem_cons.1 each).2, looked.final⟩

end TokenStream

namespace View

variable {v : View} {s : TokenStream}

@[simp]
theorem kind_token (t : Token) : (v.token t).kind = t.kind := rfl

@[simp]
theorem text_token (t : Token) : (v.token t).text = t.text := rfl

@[simp]
theorem span_token (t : Token) : (v.token t).span = v.place t.span := rfl

@[simp]
theorem near_token (t : Token) : (v.token t).near = t.near := rfl

@[simp]
theorem token_scanned (r : Scanned) : (v.scanned r).token = v.token r.token := rfl

@[simp]
theorem errors_scanned (r : Scanned) : (v.scanned r).errors = r.errors.map v.lexical := rfl

theorem errorsOf_scanned (final : Scanned) (rest : List Scanned) (skip count : Nat) :
    TokenStream.errorsOf (v.scanned final) (rest.map v.scanned) skip count =
      (TokenStream.errorsOf final rest skip count).map v.lexical := by
  induction rest generalizing skip count with
  | nil => cases skip <;> cases count <;> rfl
  | cons r rest inductionHypothesis =>
    cases skip <;> cases count <;> simp [TokenStream.errorsOf, inductionHypothesis]

theorem tokens_look (s : TokenStream) (count : Nat) :
    (v.tokens s).look count = v.tokens (s.look count) := by
  unfold TokenStream.look
  by_cases more : s.seen < count
  · simp [more, tokens, errorsOf_scanned]
  · simp [more, tokens]

theorem upcoming_tokens (s : TokenStream) (n : Nat) :
    (v.tokens s).upcoming n = v.scanned (s.upcoming n) := by
  unfold TokenStream.upcoming
  cases found : s.ahead[n]? <;> simp [tokens, found]

theorem next_tokens (s : TokenStream) :
    (v.tokens s).next = (v.token s.next.1, v.tokens s.next.2) := by
  unfold TokenStream.next
  rw [tokens_look]
  cases ahead : s.ahead <;> simp [tokens, ahead, scanned]

theorem peek_tokens (s : TokenStream) (n : Nat) :
    (v.tokens s).peek n = (v.token (s.peek n).1, v.tokens (s.peek n).2) := by
  unfold TokenStream.peek
  rw [tokens_look, upcoming_tokens]
  rfl

theorem peekPair_tokens (s : TokenStream) (first second : TokenKind) :
    (v.tokens s).peekPair first second =
      ((s.peekPair first second).1, v.tokens (s.peekPair first second).2) := by
  unfold TokenStream.peekPair
  simp only [tokens_look, upcoming_tokens]
  by_cases fits : (s.upcoming 0).token.kind = first <;> simp [fits, scanned]

theorem judge_scanned (ask : TokenKind → Verdict) (rest : List Scanned) (count : Nat) :
    TokenStream.judge ask (rest.map v.scanned) count = TokenStream.judge ask rest count := by
  induction rest generalizing count with
  | nil => rfl
  | cons r rest inductionHypothesis =>
    simp only [List.map_cons, TokenStream.judge, inductionHypothesis]
    rfl

theorem peekWhile_tokens (s : TokenStream) (start : TokenKind) (ask : TokenKind → Verdict) :
    (v.tokens s).peekWhile start ask =
      ((s.peekWhile start ask).1, v.tokens (s.peekWhile start ask).2) := by
  unfold TokenStream.peekWhile
  have judged : TokenStream.judge ask ((v.tokens s).ahead.drop 1) 1 =
      TokenStream.judge ask (s.ahead.drop 1) 1 := by
    change TokenStream.judge ask ((s.ahead.map v.scanned).drop 1) 1 = _
    rw [← List.map_drop, judge_scanned]
  simp only [tokens_look, upcoming_tokens, judged]
  by_cases fits : (s.upcoming 0).token.kind = start <;> simp [fits, scanned]

/-- The errors before a position are those before what is seen of it. -/
theorem takeErrorsBefore_tokens (p : Position) (clear : (∀ a, v.place a = a) ∨ s.Silent)
    {q : Position} (same : (∀ a, v.place a = a) → q = p) :
    (v.tokens s).takeErrorsBefore q =
      ((s.takeErrorsBefore p).1.map v.lexical, v.tokens (s.takeErrorsBefore p).2) := by
  rcases clear with exact | silent
  · obtain rfl := same exact
    have unchanged : v.lexical = id := funext fun e => by simp [lexical, exact]
    simp [TokenStream.takeErrorsBefore, tokens, unchanged]
  · simp [TokenStream.takeErrorsBefore, tokens, silent.pending]

theorem log_report (l : ErrorLog) (d : Diagnostic) :
    (v.log l).report (v.diagnostic d) = (v.log (l.report d).1, (l.report d).2) := by
  unfold ErrorLog.report
  by_cases room : l.diagnostics.size < l.cap <;> simp [log, room, diagnostic]

end View

/-! ## Parsers -/

/-- A session that the view changes nothing of that is asked for. -/
structure View.Fits (v : View) (s : Session) : Prop where
  dialect : s.settings.dialect = v.dialect
  clear : (∀ a, v.place a = a) ∨ s.tokens.Silent

/-- The second end is what is seen of the first. -/
inductive View.Shows {α : Type} (v : View) (F : α → α) :
    EStateM.Result Abort Session α → EStateM.Result Abort Session α → Prop
  | ok (a : α) {s : Session} : v.Fits s → Shows v F (.ok a s) (.ok (F a) (v.session s))
  | error (abort : Abort) {s : Session} : v.Fits s →
      Shows v F (.error abort s) (.error abort (v.session s))

namespace Parser

variable {α β σ : Type} {v : View}

/-- On a session that is looked at, the second parser does what is seen of what the first does. -/
def Commutes (v : View) (p q : Parser α) (F : α → α) : Prop :=
  ∀ s, v.Fits s → v.Shows F (p s) (q (v.session s))

/-- What is seen of a round of a loop. -/
def onRound (F : σ → σ) : ForInStep σ → ForInStep σ
  | .done a => .done (F a)
  | .yield a => .yield (F a)

@[simp]
theorem onRound_done (F : σ → σ) (a : σ) : onRound F (.done a) = .done (F a) := rfl

@[simp]
theorem onRound_yield (F : σ → σ) (a : σ) : onRound F (.yield a) = .yield (F a) := rfl

namespace Commutes

variable {p q : Parser α} {F : α → α} {G : β → β}

theorem pure {a b : α} (seen : b = F a) : Commutes v (Pure.pure a) (Pure.pure b) F := by
  rintro s fits
  rw [seen]
  exact .ok a fits

theorem still (a : α) : Commutes v (Pure.pure a) (Pure.pure a) id := .pure rfl

theorem bind {f g : α → Parser β} (h : Commutes v p q F)
    (k : ∀ a, Commutes v (f a) (g (F a)) G) : Commutes v (p >>= f) (q >>= g) G := by
  intro s fits
  have first := h s fits
  change v.Shows G (EStateM.bind p f s) (EStateM.bind q g (v.session s))
  unfold EStateM.bind
  generalize p s = done, q (v.session s) = seen at first
  cases first with
  | ok a fits => exact k a _ fits
  | error abort fits => exact .error abort fits

/-- What comes first is seen as it is. -/
theorem andThen {f g : α → Parser β} (h : Commutes v p q id)
    (k : ∀ a, Commutes v (f a) (g a) G) : Commutes v (p >>= f) (q >>= g) G :=
  bind h k

theorem map {f g : α → β} (h : Commutes v p q F) (image : ∀ a, g (F a) = G (f a)) :
    Commutes v (do return f (← p)) (do return g (← q)) G :=
  bind h fun a => pure (image a)

theorem ite {P : Prop} [Decidable P] {p' q' : Parser α} (h : P → Commutes v p q F)
    (g : ¬ P → Commutes v p' q' F) :
    Commutes v (if P then p else p') (if P then q else q') F := by
  split
  next holds => exact h holds
  next fails => exact g fails

theorem throw (abort : Abort) : Commutes v (throw abort : Parser α) (throw abort) F :=
  fun _ fits => .error abort fits

theorem get {f g : Session → Parser β}
    (k : ∀ s, v.Fits s → Commutes v (f s) (g (v.session s)) G) :
    Commutes v (MonadState.get >>= f) (MonadState.get >>= g) G :=
  fun s fits => k s fits s fits

theorem ask {f g : Session → α} (seen : ∀ s, v.Fits s → g (v.session s) = F (f s)) :
    Commutes v (do return f (← MonadState.get)) (do return g (← MonadState.get)) F :=
  .get fun s fits => .pure (seen s fits)

theorem onTokens {f g : TokenStream → α × TokenStream}
    (seen : ∀ s, (∀ a, v.place a = a) ∨ s.Silent → g (v.tokens s) = (F (f s).1, v.tokens (f s).2))
    (silent : ∀ s, s.Silent → (f s).2.Silent) : Commutes v (onTokens f) (onTokens g) F := by
  intro s fits
  have after : v.Fits { s with tokens := (f s.tokens).2 } :=
    ⟨fits.dialect, fits.clear.imp_right (silent s.tokens)⟩
  have shows : v.Shows F _ _ := .ok (f s.tokens).1 after
  have looked : Parser.onTokens g (v.session s) =
      .ok (F (f s.tokens).1) (v.session { s with tokens := (f s.tokens).2 }) := by
    unfold Parser.onTokens
    change EStateM.Result.ok (g (v.tokens s.tokens)).1
      { v.session s with tokens := (g (v.tokens s.tokens)).2 } = _
    rw [seen s.tokens fits.clear]
    rfl
  rw [looked]
  exact shows

theorem onScopes (f : ScopeStack → ScopeStack) : Commutes v (onScopes f) (onScopes f) id :=
  fun s fits =>
    have after : v.Fits { s with scopes := f s.scopes } := ⟨fits.dialect, fits.clear⟩
    .ok () after

theorem record (d : Diagnostic) : Commutes v (record d) (record (v.diagnostic d)) id := by
  intro s fits
  have seen : (v.session s).log.report (v.diagnostic d) = _ := v.log_report s.log d
  have after : v.Fits { s with log := (s.log.report d).1 } := ⟨fits.dialect, fits.clear⟩
  unfold Parser.record
  rw [seen]
  generalize s.log.report d = reported at after
  obtain ⟨log, abort⟩ := reported
  cases abort with
  | none => exact .ok () after
  | some abort => exact .error abort after

theorem nested (h : Commutes v p q F) : Commutes v (nested p) (nested q) F := by
  intro s fits
  have inside := h { s with depth := s.depth + 1 } ⟨fits.dialect, fits.clear⟩
  have deeper : v.session { s with depth := s.depth + 1 } =
      { v.session s with depth := (v.session s).depth + 1 } := rfl
  rw [deeper] at inside
  unfold Parser.nested
  generalize p { s with depth := s.depth + 1 } = done,
    q { v.session s with depth := (v.session s).depth + 1 } = seen at inside
  cases inside with
  | @ok a t fits =>
    have back : v.Fits { t with depth := t.depth - 1 } := ⟨fits.dialect, fits.clear⟩
    exact .ok a back
  | @error abort t fits =>
    have back : v.Fits { t with depth := t.depth - 1 } := ⟨fits.dialect, fits.clear⟩
    exact .error abort back

theorem within (kind : ScopeKind) (name : String) (h : Commutes v p q F) :
    Commutes v (within kind name p) (within kind name q) F :=
  .andThen (.onScopes _) fun _ => .bind h fun _ => .andThen (.onScopes _) fun _ => .pure rfl

/-- As many rounds are seen as there are. -/
theorem iterate {step step' : σ → Parser (ForInStep σ)} {F : σ → σ} {start start' : σ}
    (init : start' = F start)
    (round : ∀ a, Commutes v (step a) (step' (F a)) (onRound F)) :
    Commutes v (iterate start step) (iterate start' step') F := by
  have rounds (clock : List Scanned) (a : σ) :
      Commutes v (iterateFor step clock a) (iterateFor step' (clock.map v.scanned) (F a)) F := by
    induction clock generalizing a with
    | nil =>
      refine .bind (round a) fun next => ?_
      cases next with
      | done b => exact .pure rfl
      | yield b => exact .pure rfl
    | cons _ clock inductionHypothesis =>
      refine .bind (round a) fun next => ?_
      cases next with
      | done b => exact .pure rfl
      | yield b => exact inductionHypothesis b
  intro s fits
  rw [init]
  exact rounds s.tokens.ahead start s fits

/-! ## Steps that read no tree -/

theorem recordAll (errors : List LexicalError) :
    Commutes v (recordAll errors) (recordAll (errors.map v.lexical)) id := by
  induction errors with
  | nil => exact .still ()
  | cons e rest inductionHypothesis => exact .andThen (.record _) fun _ => inductionHypothesis

/-- Where spans are changed nothing is pending, so the position does not matter. -/
theorem syncBefore {p q : Position} (same : (∀ a, v.place a = a) → q = p) :
    Commutes v (syncBefore p) (syncBefore q) id := by
  refine .bind (F := List.map v.lexical) (.onTokens (fun s clear => ?_) fun s silent => ?_)
    .recordAll
  · exact View.takeErrorsBefore_tokens p clear same
  · exact ⟨by simp [TokenStream.takeErrorsBefore, silent.pending], silent.ahead, silent.final⟩

theorem complain (cause : Cause) (span : Span) :
    Commutes v (complain cause span) (complain cause (v.place span)) id :=
  .andThen (.syncBefore fun exact => by rw [exact]) fun _ => .record _

theorem next : Commutes v next next v.token := by
  refine .bind (.onTokens (fun s _ => View.next_tokens s) fun s silent => silent.next) fun token =>
    .ite (fun _ => .bind (F := List.map v.lexical) (.onTokens (fun s _ => rfl) fun s silent => ?_)
      fun _ => .andThen (.recordAll _) fun _ => .pure rfl)
    fun _ => .andThen (.syncBefore fun exact => ?_) fun _ => .pure rfl
  · exact ⟨rfl, silent.ahead, silent.final⟩
  · rw [View.span_token, exact]

theorem expect (kind : TokenKind) : Commutes v (expect kind) (expect kind) v.token :=
  .bind .next fun _ => .ite (fun _ => .andThen (.complain _ _) fun _ => .pure rfl)
    fun _ => .pure rfl

theorem expectName : Commutes v expectName expectName v.token :=
  .bind .next fun _ => .ite (fun _ => .andThen (.complain _ _) fun _ => .pure rfl)
    fun _ => .pure rfl

theorem peekToken (n : Nat) : Commutes v (peekToken n) (peekToken n) v.token :=
  .onTokens (fun s _ => View.peek_tokens s n) fun _ silent => silent.look (n + 1)

theorem peek : Commutes v peek peek id := .map (.peekToken 0) fun _ => rfl

theorem head : Commutes v head head v.place := .map (.peekToken 0) fun _ => rfl

theorem now : Commutes v now now v.place := .ask fun _ _ => rfl

theorem since (start : Span) : Commutes v (since start) (since (v.place start)) v.place :=
  .map .now fun _ => (v.place_merge _ _).symm

theorem dialect : Commutes v dialect dialect id :=
  .ask (f := (·.settings.dialect)) fun s _ => v.dialect_settings s.settings

/-- The dialect is known from the view. -/
theorem isMooc {f g : Bool → Parser β}
    (k : Commutes v (f (v.dialect == .mooc)) (g (v.dialect == .mooc)) G) :
    Commutes v (Parser.isMooc >>= f) (Parser.isMooc >>= g) G := by
  intro s fits
  change v.Shows G (f (s.settings.dialect == .mooc) s)
    (g ((v.settings s.settings).dialect == .mooc) (v.session s))
  rw [v.dialect_settings, fits.dialect]
  exact k s fits

theorem accept (kind : TokenKind) : Commutes v (accept kind) (accept kind) (Option.map v.token) :=
  .andThen .peek fun _ => .ite (fun _ => .map .next fun _ => rfl) fun _ => .pure rfl

theorem accepts (kind : TokenKind) : Commutes v (accepts kind) (accepts kind) id :=
  .map (.accept kind) fun _ => Option.isSome_map

theorem scopes : Commutes v scopes scopes id := .ask fun _ _ => rfl

theorem insideLoop : Commutes v insideLoop insideLoop id := .map .scopes fun _ => rfl

theorem peekPair (first second : TokenKind) : Commutes v (Parser.onTokens (·.peekPair first second))
    (Parser.onTokens (·.peekPair first second)) id := by
  refine .onTokens (fun s _ => View.peekPair_tokens s first second) fun s silent => ?_
  unfold TokenStream.peekPair
  split
  · exact silent.look 2
  · exact silent.look 1

theorem peekWhile (start : TokenKind) (ask : TokenKind → Verdict) :
    Commutes v (Parser.onTokens (·.peekWhile start ask))
      (Parser.onTokens (·.peekWhile start ask)) id := by
  refine .onTokens (fun s _ => View.peekWhile_tokens s start ask) fun s silent => ?_
  unfold TokenStream.peekWhile
  split
  · exact silent.look _
  · exact silent.look 1

theorem tooDeep : Commutes v (tooDeep : Parser α) tooDeep F := by
  have deeper : Commutes v (modify fun s => { s with depth := s.depth + 1 } : Parser PUnit)
      (modify fun s => { s with depth := s.depth + 1 }) id := fun s fits =>
    have after : v.Fits { s with depth := s.depth + 1 } := ⟨fits.dialect, fits.clear⟩
    .ok () after
  exact .andThen deeper fun _ => .bind .head fun _ => .andThen (.complain _ _) fun _ => .throw _

end Commutes

end Parser

end LuaChunk
