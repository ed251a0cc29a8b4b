import LuaChunk.Proofs.Replay.Chunk

/-!
# Fragments among other constructs

What an expression or a function is read as does not depend on the constructs it stands in, but for
the number of open loops.  So the parts of a run that nothing complains of may be put among other
constructs: the run is divided into the tokens that each part comes over (`Session.Covers`), and
behind a part in its new place it does not matter what has been noted in the constructs around it
(`Parser.Reaches`).
-/

set_option autoImplicit false

open LuaChunk.Parser

namespace LuaChunk

/-! ## Parts of a run -/

namespace Session.Moves

variable {s t : Session}

theorem errors_prefix (h : s.Moves t) : s.errors <+: t.errors := by
  induction h with
  | trans _ _ first second => exact first.trans second
  | note => simp [Session.errors, ErrorLog.push]
  | report => simp [Session.errors, ErrorLog.push]
  | within _ _ _ inner => exact inner
  | nested _ inner => exact inner
  | _ => exact List.prefix_rfl

/-- What is left in the stack are notes. -/
theorem noted (h : s.Moves t) (file : s.scopes.root.kind = .file) : s.scopes.Noted t.scopes := by
  induction h with
  | trans _ _ first second =>
    have before := first file
    exact before.trans (second ((before.keeps file).root ▸ file))
  | within kind name _ inner => exact (inner (ScopeStack.root_push.trans file)).pop file
  | markLoop s => exact .continued .refl
  | markReturn s => exact .returned .refl
  | nested _ inner => exact inner file
  | _ => exact .refl

theorem root (h : s.Moves t) (file : s.scopes.root.kind = .file) : t.scopes.root = s.scopes.root :=
  ((h.noted file).keeps file).root

end Session.Moves

/-- The session has come over these tokens, and nothing has been complained of. -/
structure Session.Covers (s t : Session) (ts : List Token) : Prop where
  moves : s.Moves t
  quiet : Quiet s t
  ahead : s.tokens.ahead.map (·.token) = ts ++ t.tokens.ahead.map (·.token)

namespace Session.Covers

variable {s t u : Session} {ts : List Token}

theorem errors (h : s.Covers t ts) : t.errors = s.errors := by
  refine (h.moves.errors_prefix.eq_of_length ?_).symm
  have quiet := h.quiet
  simpa [Session.errors, Quiet] using quiet.symm

/-- Both halves of the way. -/
theorem parts (h : s.Covers t ts) (first : s.Moves u) (second : u.Moves t) :
    ∃ ts₁ ts₂, ts = ts₁ ++ ts₂ ∧ s.Covers u ts₁ ∧ u.Covers t ts₂ := by
  obtain ⟨early, late⟩ := h.quiet.parts first second
  obtain ⟨taken₁, split₁⟩ := first.ahead_suffix
  obtain ⟨taken₂, split₂⟩ := second.ahead_suffix
  have ahead₁ := congrArg (List.map (·.token)) split₁
  have ahead₂ := congrArg (List.map (·.token)) split₂
  rw [List.map_append] at ahead₁ ahead₂
  refine ⟨_, _, ?_, ⟨first, early, ahead₁.symm⟩, ⟨second, late, ahead₂.symm⟩⟩
  have whole := h.ahead
  rw [← ahead₁, ← ahead₂, ← List.append_assoc] at whole
  exact (List.append_cancel_right whole).symm

/-- Tokens that are only looked at are not taken. -/
theorem look (h : s.Covers t ts) (second : Session.Moves { s with tokens := s.tokens.look 1 } t) :
    Session.Covers { s with tokens := s.tokens.look 1 } t ts :=
  ⟨second, h.quiet, by simpa using h.ahead⟩

theorem quietly {α : Type} {p : Parser α} {a : α} (h : s.Covers t ts) (run : p s = .ok a t)
    (ended : s.tokens.final.token.kind = .eof) : Quietly p s t a ts :=
  ⟨run, h.errors, h.ahead, ended⟩

/-- What is read on the way may be put into other texts. -/
theorem alone {α : Type} {p : Parser α} {a : α} (h : s.Covers t ts) (run : p s = .ok a t)
    (ended : s.tokens.final.token.kind = .eof) :
    Alone s.settings s.scopes p a t.scopes (t.tokens.upcoming 0).token.kind ts :=
  ⟨s, t, ts, h.quietly run ended, rfl, rfl, rfl, rfl, .refl ts⟩

/-- A single token. -/
theorem next {a : Token} (h : s.Covers t ts) (run : Parser.next s = .ok a t)
    (more : (s.tokens.upcoming 0).token.kind ≠ .eof) (ended : s.tokens.final.token.kind = .eof) :
    ts = [a] ∧ a.kind = (s.tokens.upcoming 0).token.kind := by
  obtain ⟨rfl, rfl⟩ := next_of_quiet run h.quiet
  have whole := h.ahead
  cases ahead : s.tokens.ahead with
  | nil => exact absurd ended (by simpa [TokenStream.upcoming, ahead] using more)
  | cons r rest =>
    rw [TokenStream.ahead_next, ahead, List.tail_cons, List.map_cons, ← List.singleton_append] at whole
    rw [TokenStream.next_fst]
    simp only [TokenStream.upcoming, ahead, List.getElem?_cons_zero, Option.getD_some, and_true]
    exact (List.append_cancel_right whole).symm

/-- A token that is asked for. -/
theorem checked {kind : TokenKind} {cause : Token → Cause} {a : Token} (h : s.Covers t ts)
    (run : Parser.checked kind cause s = .ok a t) (more : kind ≠ .eof)
    (ended : s.tokens.final.token.kind = .eof) : ts = [a] ∧ a.kind = kind := by
  obtain ⟨taken, same⟩ := checked_of_quiet run h.quiet
  obtain ⟨single, kinds⟩ := h.next taken (same ▸ more) ended
  exact ⟨single, kinds.trans same⟩

end Session.Covers

namespace Parser

variable {α β γ : Type}

/-- From before a text the parser comes to another one without complaint, and something is known of its
result.  Which constructs are open there is not asked. -/
def Reaches (c : Backdrop) (σ : ScopeStack) (ts : List Token) (p : Parser α) (ts' : List Token)
    (P : α → Prop) : Prop :=
  ∀ s : Session, s.Awaits c σ ts → ∃ a t, p s = .ok a t ∧ P a ∧ t.Awaits c t.scopes ts'

theorem Crosses.reaches {c : Backdrop} {σ σ' : ScopeStack} {ts ts' : List Token} {p : Parser α}
    {P : α → Prop} (h : Crosses c σ ts p σ' ts' P) : Reaches c σ ts p ts' P := by
  intro s awaits
  obtain ⟨a, t, run, result, after⟩ := h s awaits
  exact ⟨a, t, run, result, after.scopes ▸ after⟩

namespace Reaches

variable {c : Backdrop} {σ σ' : ScopeStack} {ts ts₁ ts' : List Token} {p : Parser α}
  {f : α → Parser β} {P : α → Prop} {Q : β → Prop}

theorem bind (h : Reaches c σ ts p ts₁ P) (k : ∀ τ a, P a → Reaches c τ ts₁ (f a) ts' Q) :
    Reaches c σ ts (p >>= f) ts' Q := by
  intro s awaits
  obtain ⟨a, u, first, result, later⟩ := h s awaits
  obtain ⟨b, t, second, known, last⟩ := k _ a result u later
  exact ⟨b, t, (bind_of_ok first f).trans second, known, last⟩

/-- What is read first leads to another text inside known constructs. -/
theorem after (h : Crosses c σ ts p σ' ts₁ P) (k : ∀ a, P a → Reaches c σ' ts₁ (f a) ts' Q) :
    Reaches c σ ts (p >>= f) ts' Q := by
  intro s awaits
  obtain ⟨a, u, first, result, later⟩ := h s awaits
  obtain ⟨b, t, second, known, last⟩ := k a result u later
  exact ⟨b, t, (bind_of_ok first f).trans second, known, last⟩

theorem pure {a : α} (result : P a) : Reaches c σ ts (Pure.pure a) ts P :=
  (Crosses.pure result).reaches

theorem peek {g : TokenKind → Parser β} (k : Reaches c σ ts (g (c.facing ts)) ts' Q) :
    Reaches c σ ts (Parser.peek >>= g) ts' Q :=
  .after (.alone (.peek (.pure rfl))) fun _ same => same ▸ k

theorem isMooc {g : Bool → Parser β}
    (k : Reaches c σ ts (g (c.settings.dialect == .mooc)) ts' Q) :
    Reaches c σ ts (Parser.isMooc >>= g) ts' Q :=
  .after (.alone (.isMooc (.pure rfl))) fun _ same => same ▸ k

theorem head {g : Span → Parser β} (k : ∀ span, Reaches c σ ts (g span) ts' Q) :
    Reaches c σ ts (Parser.head >>= g) ts' Q :=
  .after (.alone (.head fun _ => .pure trivial)) fun span _ => k span

theorem now {g : Span → Parser β} (k : ∀ span, Reaches c σ ts (g span) ts' Q) :
    Reaches c σ ts (Parser.now >>= g) ts' Q :=
  .after (.alone (.now fun _ => .pure trivial)) fun span _ => k span

theorem since {start : Span} {g : Span → Parser β} (k : ∀ span, Reaches c σ ts (g span) ts' Q) :
    Reaches c σ ts (Parser.since start >>= g) ts' Q :=
  .after (.alone (.since fun _ => .pure trivial)) fun span _ => k span

theorem expect {t : Token} {kind : TokenKind} {g : Token → Parser β} (same : t.kind = kind)
    (k : Reaches c σ ts (g t) ts' Q) : Reaches c σ (t :: ts) (Parser.expect kind >>= g) ts' Q :=
  .after (.alone (.expect same (.pure rfl))) fun _ same => same ▸ k

theorem nested (h : Reaches c σ ts p ts' P) : Reaches c σ ts (Parser.nested p) ts' P := by
  intro s awaits
  obtain ⟨a, t, run, result, last⟩ := h _ (awaits.withDepth (s.depth + 1))
  exact ⟨a, _, nested_eq_ok.2 ⟨t, run, rfl⟩, result, last.withDepth _⟩

/-- Outside of all constructs there is nothing that could be noted. -/
theorem crosses (h : Reaches c σ ts p ts' P) (file : σ.root.kind = .file) (outermost : σ.inner = [])
    (moves : ∀ {s t : Session} {a : α}, p s = .ok a t → s.Moves t) : Crosses c σ ts p σ ts' P := by
  intro s awaits
  obtain ⟨a, t, run, result, last⟩ := h s awaits
  obtain rfl := awaits.scopes
  have same := (((moves run).noted file).keeps file).eq_of_outermost outermost
  exact ⟨a, t, run, result, same ▸ last⟩

end Reaches

/-- **A fragment among other constructs.**  It is read as it has been read where as many loops are
open in the same chunk. -/
theorem Alone.reaches {c : Backdrop} {σ σ' τ : ScopeStack} {follow : TokenKind} {ts ts' : List Token}
    {taking : Bool} (ends : Frontier → Prop) {look : α → γ} {p q : Parser α} {a : α}
    (alone : Alone c.settings σ p a σ' follow ts) (root : τ.root = σ.root)
    (h : ∀ w : Frontier, w.dialect = c.settings.dialect →
      Replays w none none taking (ends w) look p q)
    (moves : ∀ {s t : Session} {a : α}, q s = .ok a t → s.Moves t)
    (may : ∀ w : Frontier, nextKind w.first = follow → nextKind w.second = c.facing ts' → ends w)
    (stops : follow.isSuffix = false) (settles : (c.facing ts').settles = true)
    (opens : ∀ {s t : Session} {a : α}, p s = .ok a t → Quiet s t →
      (s.tokens.upcoming 0).token.kind ≠ .colon) :
    Reaches c τ (ts ++ ts') q ts' fun a' => look a = look a' := by
  obtain ⟨u, v, fs, alone, settings, rfl, rfl, kind, same⟩ := alone
  have dialect := congrArg Settings.dialect settings
  have moved := (h ⟨c.settings.dialect, [], [], rfl, rfl⟩ rfl).onward dialect alone.run
  have ended : v.tokens.final.token.kind = .eof := moved.final_eq ▸ alone.final
  have first : nextKind (v.tokens.ahead.map (·.token.word)) = follow := by
    rw [← kind, TokenStream.upcoming_kind_of_ahead ended rfl, ← nextKind_eq]
  let w : Frontier := ⟨c.settings.dialect, v.tokens.ahead.map (·.token.word),
    (ts' ++ c.rest).map Token.word, by rw [first]; exact stops, settles⟩
  have parallel : u.scopes.Parallel none τ := ⟨root, nofun⟩
  intro s awaits
  obtain ⟨a', t, σ', ran, result, -, after⟩ := alone.replays (h w rfl) moves
    (may w first rfl) same dialect settings.symm rfl rfl parallel
    (opens alone.run alone.quietly) awaits
  exact ⟨a', t, ran, result, after.scopes ▸ after⟩

end Parser

end LuaChunk
