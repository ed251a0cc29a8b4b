import LuaChunk.Proofs.Parser.Results
import LuaChunk.Proofs.Recursion.Equations
import LuaChunk.Proofs.Replay.Twins
import LuaChunk.Proofs.Views.Basic

/-!
# Reading a fragment again

A parser has read words of a fragment, without complaint and not beyond its end.  Where the fragment
stands in another text the same words are read with the same result, but for the places:
`Parser.Replays`, with one rule for each way in which parsers are put together.  The first reading
decides how far it goes, so a parser that stops right behind the fragment has to be one that stops
there in the other text too.
-/

set_option autoImplicit false

namespace LuaChunk

/-- What is read last is still ahead. -/
theorem Session.Moves.final_eq {s t : Session} (h : s.Moves t) : t.tokens.final = s.tokens.final := by
  induction h with
  | trans _ _ first second => exact second.trans first
  | look s count => simp
  | take s => exact s.tokens.final_next
  | within _ _ _ inner => exact inner
  | nested _ inner => exact inner
  | _ => rfl

/-- A token that is ahead in the fragment after another one has been taken is one of the words behind
the first. -/
theorem Session.Twins.mem_tail {w : Frontier} {loose : Option Looseness} {words : List Word}
    {s s' u : Session} (h : s.Twins w loose words s') (moves : s.Moves u)
    (shorter : u.tokens.ahead.length < s.tokens.ahead.length) (inside : w.Within False u) :
    ∃ x ∈ words.tail, x.kind = (u.tokens.upcoming 0).token.kind := by
  obtain ⟨taken, split⟩ := moves.ahead_suffix
  have length := h.length
  have further : w.first.length < u.tokens.ahead.length := inside.resolve_right fun here => here.2
  have ahead := congrArg (List.map (·.token.word)) split
  rw [List.map_append, h.ahead] at ahead
  have left : taken.length + u.tokens.ahead.length = s.tokens.ahead.length := by
    rw [← List.length_append, split]
  have here : u.tokens.ahead.map (·.token.word) = words.drop taken.length ++ w.first := by
    rw [← List.drop_append_of_le_length (by omega), ← ahead]
    exact (List.drop_left' (List.length_map _)).symm
  cases rest : words.drop taken.length with
  | nil =>
    have none := List.drop_eq_nil_iff.1 rest
    omega
  | cons x more =>
    rw [rest] at here
    have kind := TokenStream.upcoming_kind_of_ahead (moves.final_eq ▸ h.final) here 0
    refine ⟨x, ?_, kind.symm⟩
    cases taken with
    | nil => simp only [List.length_nil] at left; omega
    | cons _ taken =>
      have among : x ∈ words.tail.drop taken.length := by
        rw [List.drop_tail, ← List.length_cons, rest]
        exact .head _
      exact List.mem_of_mem_drop among

namespace Parser

variable {α β γ σ : Type}

/-! ## Runs without complaints -/

/-- The run has recorded nothing. -/
def Quiet (s t : Session) : Prop := t.log.diagnostics.size = s.log.diagnostics.size

theorem Quiet.parts {s t u : Session} (first : s.Moves t) (second : t.Moves u) (quiet : Quiet s u) :
    Quiet s t ∧ Quiet t u := by
  have grows := first.size_le
  have grows' := second.size_le
  unfold Quiet at *
  omega

theorem Reads.moves {p : Parser α} {R : (c : Text) → Place c → α → Place c → Prop}
    (h : ∀ c, Reads c p (R c)) {s t : Session} {a : α} (run : p s = .ok a t) : s.Moves t := by
  have travels := (h (.blank s.settings)).travels s rfl
  rw [run] at travels
  exact travels

theorem tooDeep_ne_ok {s t : Session} {a : α} : tooDeep s ≠ .ok a t := by
  intro run
  obtain ⟨_, _, _, run⟩ := bind_eq_ok.1 run
  obtain ⟨_, _, _, run⟩ := bind_eq_ok.1 run
  obtain ⟨_, _, _, run⟩ := bind_eq_ok.1 run
  cases run

theorem complain_loud {cause : Cause} {span : Span} {s t : Session} {u : Unit}
    (run : complain cause span s = .ok u t) : ¬ Quiet s t := by
  obtain ⟨_, v, synced, recorded⟩ := bind_eq_ok.1 run
  have grows := (Reads.moves (fun _ => syncBefore_reads _) synced).size_le
  have ends := record_ends { cause := cause, span := span } v
  rw [recorded] at ends
  obtain ⟨_, rfl⟩ := ends
  intro quiet
  simp only [Quiet, ErrorLog.push, Array.size_push] at quiet
  omega

/-- What a quiet run that takes a token does. -/
theorem next_of_quiet {s t : Session} {a : Token} (run : next s = .ok a t) (quiet : Quiet s t) :
    a = s.tokens.next.1 ∧ t = { s with tokens := s.tokens.next.2 } := by
  obtain ⟨b, u, taken, rest⟩ := bind_eq_ok.1 run
  obtain ⟨rfl, rfl⟩ : s.tokens.next.1 = b ∧ { s with tokens := s.tokens.next.2 } = u := by
    cases taken
    exact ⟨rfl, rfl⟩
  have silent {f : TokenStream → List LexicalError × TokenStream}
      (splits : ∀ t, ∃ cut, f t = (t.pending.take cut, { t with pending := t.pending.drop cut }))
      (run : (do recordAll (← onTokens f); return s.tokens.next.1)
        { s with tokens := s.tokens.next.2 } = .ok a t) :
      a = s.tokens.next.1 ∧ t = { s with tokens := s.tokens.next.2 } := by
    rw [← bind_assoc] at run
    obtain ⟨_, v, drained, same⟩ := bind_eq_ok.1 run
    obtain ⟨rfl, rfl⟩ := pure_eq_ok.1 same
    have ends := drain_ends splits { s with tokens := s.tokens.next.2 }
    rw [drained] at ends
    exact ⟨rfl, (ends.2 quiet).2⟩
  split at rest
  · exact silent (fun t => ⟨t.pending.length, by simp [TokenStream.takeErrors]⟩) rest
  · exact silent (fun _ => ⟨_, rfl⟩) rest

/-- What happens where a token without errors is taken. -/
theorem next_of_clean {s : Session} {r : Scanned} {rest : List Scanned} (tidy : s.tokens.Tidy)
    (ahead : s.tokens.ahead = r :: rest) (clean : r.errors = []) :
    next s = .ok r.token { s with tokens := s.tokens.next.2 } := by
  obtain ⟨token, -, -⟩ := TokenStream.next_of_ahead_eq_cons ahead
  have more : r.token.kind ≠ .eof := tidy.found.not_eof _ (by simp [ahead])
  have taken : onTokens (·.next) s = .ok r.token { s with tokens := s.tokens.next.2 } := by
    rw [← token]
    rfl
  have none := (tidy.next_of_clean ahead clean).2
  unfold next
  rw [bind_of_ok taken, if_neg more]
  have synced : syncBefore r.token.span.stop { s with tokens := s.tokens.next.2 } =
      .ok () { s with tokens := s.tokens.next.2 } :=
    syncBefore_of_cut (s := { s with tokens := s.tokens.next.2 }) none
  rw [bind_of_ok synced]
  rfl

theorem next_advances {s t : Session} {a : Token} (run : next s = .ok a t) (quiet : Quiet s t)
    (more : (s.tokens.upcoming 0).token.kind ≠ .eof)
    (ended : s.tokens.final.token.kind = .eof) :
    t.tokens.ahead.length < s.tokens.ahead.length := by
  obtain ⟨rfl, rfl⟩ := next_of_quiet run quiet
  rw [TokenStream.ahead_next]
  cases ahead : s.tokens.ahead with
  | nil => exact absurd ended (by simpa [TokenStream.upcoming, ahead] using more)
  | cons r rest => exact Nat.lt_succ_self _

/-- Takes the next token and complains if it is of another kind than it should be. -/
def checked (kind : TokenKind) (cause : Token → Cause) : Parser Token := do
  let token ← next
  if token.kind ≠ kind then complain (cause token) token.span
  return token

theorem expect_eq_checked (kind : TokenKind) :
    expect kind = checked kind fun token => .expected kind token.near := rfl

theorem checked_of_quiet {kind : TokenKind} {cause : Token → Cause} {s t : Session} {a : Token}
    (run : checked kind cause s = .ok a t) (quiet : Quiet s t) :
    next s = .ok a t ∧ (s.tokens.upcoming 0).token.kind = kind := by
  obtain ⟨b, u, taken, rest⟩ := bind_eq_ok.1 run
  split at rest
  · obtain ⟨_, v, complained, same⟩ := bind_eq_ok.1 rest
    obtain ⟨-, rfl⟩ := pure_eq_ok.1 same
    have quietly := quiet.parts (Reads.moves (fun _ => next_reads) taken)
      (Reads.moves (fun _ => complain_reads _ _) complained)
    exact absurd quietly.2 (complain_loud complained)
  · next right =>
    obtain ⟨rfl, rfl⟩ := pure_eq_ok.1 rest
    obtain ⟨rfl, -⟩ := next_of_quiet taken quiet
    exact ⟨taken, s.tokens.next_fst ▸ Decidable.not_not.1 right⟩

theorem checked_advances {kind : TokenKind} {cause : Token → Cause} {s t : Session} {a : Token}
    (more : kind ≠ .eof) (run : checked kind cause s = .ok a t) (quiet : Quiet s t)
    (ended : s.tokens.final.token.kind = .eof) :
    t.tokens.ahead.length < s.tokens.ahead.length := by
  obtain ⟨taken, same⟩ := checked_of_quiet run quiet
  exact next_advances taken quiet (same ▸ more) ended

theorem within_eq_ok {kind : ScopeKind} {name : String} {p : Parser α} {s t : Session} {a : α} :
    within kind name p s = .ok a t ↔
      ∃ u, p { s with scopes := s.scopes.push kind name } = .ok a u ∧
        t = { u with scopes := u.scopes.pop.2 } := by
  constructor
  · intro run
    obtain ⟨_, _, entered, rest⟩ := bind_eq_ok.1 run
    cases entered
    obtain ⟨b, u, ran, rest⟩ := bind_eq_ok.1 rest
    obtain ⟨_, _, left, rest⟩ := bind_eq_ok.1 rest
    cases left
    obtain ⟨rfl, rfl⟩ := pure_eq_ok.1 rest
    exact ⟨u, ran, rfl⟩
  · rintro ⟨u, ran, rfl⟩
    have entered : onScopes (·.push kind name) s =
        .ok () { s with scopes := s.scopes.push kind name } := rfl
    unfold within
    rw [bind_of_ok entered, bind_of_ok ran]
    rfl

/-! ## Looking ahead -/

/-- All that the parser does is to look at tokens ahead, and to tell something. -/
def OnlyLooks (p : Parser α) (value : Session → α) : Prop :=
  ∀ s, ∃ u, s.tokens.Looked u ∧ p s = .ok (value s) { s with tokens := u }

namespace OnlyLooks

theorem ask (f : Session → α) : OnlyLooks (do return f (← get)) f :=
  fun s => ⟨s.tokens, .refl, rfl⟩

theorem peekToken (n : Nat) : OnlyLooks (peekToken n) fun s => (s.tokens.upcoming n).token :=
  fun _ => ⟨_, .look _ .refl, rfl⟩

theorem onTokens {f : TokenStream → α × TokenStream}
    (looks : ∀ t, ∃ count, (f t).2 = t.look count) : OnlyLooks (onTokens f) fun s => (f s.tokens).1 := by
  intro s
  obtain ⟨count, looked⟩ := looks s.tokens
  refine ⟨s.tokens.look count, .look _ .refl, ?_⟩
  rw [← looked]
  rfl

end OnlyLooks

/-- A quiet run takes a token of this kind, which is not the first that it takes. -/
def Passes (d : Dialect) (kind : TokenKind) (p : Parser α) : Prop :=
  ∀ {s t : Session} {a : α}, s.settings.dialect = d → s.tokens.final.token.kind = .eof →
    p s = .ok a t → Quiet s t → ∃ u : Session, s.Moves u ∧
      u.tokens.ahead.length < s.tokens.ahead.length ∧
      t.tokens.ahead.length < u.tokens.ahead.length ∧ (u.tokens.upcoming 0).token.kind = kind

theorem Passes.nested {d : Dialect} {kind : TokenKind} {p : Parser α} (h : Passes d kind p) :
    Passes d kind (nested p) := by
  intro s t a dialect ended run quiet
  obtain ⟨u, ran, rfl⟩ := nested_eq_ok.1 run
  obtain ⟨v, moves, shorter, further, same⟩ :=
    h (s := { s with depth := s.depth + 1 }) (t := u) dialect ended ran quiet
  exact ⟨_, .nested moves, shorter, further, same⟩

/-! ## The judgement -/

/-- Before the same words, with a kind of the first of them known, the second parser does what the
first has done quietly and inside the fragment; of the results only a part is compared.  Some parsers
are known to take a token whenever they are quiet. -/
structure Replays (w : Frontier) (loose : Option Looseness) (known : Option TokenKind)
    (taking : Bool) (ends : Prop) (look : α → γ) (p q : Parser α) : Prop where
  onward {s t : Session} {a : α} : s.settings.dialect = w.dialect → p s = .ok a t → s.Moves t
  takes {s t : Session} {a : α} : taking = true → s.settings.dialect = w.dialect →
    s.tokens.final.token.kind = .eof → (∀ kind ∈ known, (s.tokens.upcoming 0).token.kind = kind) →
    p s = .ok a t → Quiet s t → t.tokens.ahead.length < s.tokens.ahead.length
  follows {words : List Word} {s s' t : Session} {a : α} : s.Twins w loose words s' →
    (∀ kind ∈ known, (s.tokens.upcoming 0).token.kind = kind) → p s = .ok a t → Quiet s t →
    w.Within ends t → ∃ a' t' words', q s' = .ok a' t' ∧ look a = look a' ∧
      t.Twins w loose words' t' ∧ t'.log = s'.log

namespace Replays

variable {w : Frontier} {loose : Option Looseness} {known : Option TokenKind} {taking taking' : Bool}
  {ends ends' : Prop} {look : α → γ} {p q : Parser α}

theorem mono (h : Replays w loose known taking ends look p q) (sub : ends' → ends) :
    Replays w loose known taking ends' look p q where
  onward := h.onward
  takes := h.takes
  follows twins facing run quiet within :=
    h.follows twins facing run quiet (within.imp_right fun ⟨same, may⟩ => ⟨same, sub may⟩)

/-- What is ahead need not be known. -/
theorem weaken (h : Replays w loose none taking ends look p q) :
    Replays w loose known taking ends look p q where
  onward := h.onward
  takes always dialect ended _ := h.takes always dialect ended nofun
  follows twins _ := h.follows twins nofun

/-- A parser that is known to take a token may be used where that is not asked. -/
theorem any (h : Replays w loose known true ends look p q) :
    Replays w loose known taking ends look p q where
  onward := h.onward
  takes _ := h.takes rfl
  follows := h.follows

theorem pure {a a' : α} (same : look a = look a') :
    Replays w loose known false ends look (Pure.pure a) (Pure.pure a') where
  onward _ run := by
    obtain ⟨-, rfl⟩ := pure_eq_ok.1 run
    exact .refl _
  takes := nofun
  follows twins _ run _ _ := by
    obtain ⟨rfl, rfl⟩ := pure_eq_ok.1 run
    exact ⟨a', _, _, rfl, same, twins, rfl⟩

/-- Nothing is to be shown of a parser that is never quiet. -/
theorem loud (moves : ∀ {s t : Session} {a : α}, s.settings.dialect = w.dialect → p s = .ok a t →
      s.Moves t ∧ ¬ Quiet s t) : Replays w loose known taking ends look p q where
  onward dialect run := (moves dialect run).1
  takes _ dialect _ _ run quiet := absurd quiet (moves dialect run).2
  follows twins _ run quiet _ := absurd quiet (moves twins.dialect run).2

theorem throw (abort : Abort) : Replays w loose known taking ends look (throw abort) q :=
  .loud fun _ run => by cases run

/-- Whoever complains is not quiet. -/
theorem complaining {cause : Cause} {span : Span} {f : Unit → Parser α} {q' : Parser α}
    (k : Replays w loose none false ends look (f ()) q') :
    Replays w loose known taking ends look (complain cause span >>= f) q := by
  refine .loud fun {s t a} dialect run => ?_
  obtain ⟨_, u, complained, rest⟩ := bind_eq_ok.1 run
  have moves := Reads.moves (fun _ => complain_reads _ _) complained
  have moves' := k.onward (moves.settings_eq ▸ dialect) rest
  exact ⟨moves.trans moves', fun quiet => complain_loud complained (quiet.parts moves moves').1⟩

section Bind

variable {δ : Type} {look' : β → δ} {f g : α → Parser β}

theorem bind (h : Replays w loose known taking ends look p q)
    (k : ∀ a a', look a = look a' → Replays w loose none false ends look' (f a) (g a')) :
    Replays w loose known taking ends look' (p >>= f) (q >>= g) where
  onward dialect run := by
    obtain ⟨a, t, first, second⟩ := bind_eq_ok.1 run
    have moves := h.onward dialect first
    exact moves.trans ((k a a rfl).onward (moves.settings_eq ▸ dialect) second)
  takes always dialect ended facing run quiet := by
    obtain ⟨a, t, first, second⟩ := bind_eq_ok.1 run
    have moves := h.onward dialect first
    have moves' := (k a a rfl).onward (moves.settings_eq ▸ dialect) second
    have shorter := h.takes always dialect ended facing first (quiet.parts moves moves').1
    exact Nat.lt_of_le_of_lt moves'.ahead_suffix.length_le shorter
  follows {_ s s' u b} twins facing run quiet within := by
    obtain ⟨a, t, first, second⟩ := bind_eq_ok.1 run
    have moves := h.onward twins.dialect first
    have moves' := (k a a rfl).onward (moves.settings_eq ▸ twins.dialect) second
    have quietly := quiet.parts moves moves'
    obtain ⟨a', t', words', ran, same, twins, log⟩ :=
      h.follows twins facing first quietly.1 (within.back moves')
    obtain ⟨b', u', words', ran', result, twins, log'⟩ :=
      (k a a' same).follows twins nofun second quietly.2 within
    exact ⟨b', u', words', (bind_of_ok ran g).trans ran', result, twins, log'.trans log⟩

/-- Up to what takes another token the first parser stays inside the fragment. -/
theorem upTo (h : Replays w loose known false False look p q)
    (k : ∀ a a', look a = look a' → Replays w loose none true ends look' (f a) (g a')) :
    Replays w loose known taking ends look' (p >>= f) (q >>= g) := by
  have parts {s u : Session} {b : β} (dialect : s.settings.dialect = w.dialect)
      (ended : s.tokens.final.token.kind = .eof) (run : (p >>= f) s = .ok b u) (quiet : Quiet s u) :
      ∃ a t, p s = .ok a t ∧ f a t = .ok b u ∧ s.Moves t ∧ Quiet s t ∧ Quiet t u ∧
        u.tokens.ahead.length < t.tokens.ahead.length := by
    obtain ⟨a, t, first, second⟩ := bind_eq_ok.1 run
    have moves := h.onward dialect first
    have dialect' := moves.settings_eq ▸ dialect
    have quietly := quiet.parts moves ((k a a rfl).onward dialect' second)
    exact ⟨a, t, first, second, moves, quietly.1, quietly.2,
      (k a a rfl).takes rfl dialect' (moves.final_eq ▸ ended) nofun second quietly.2⟩
  refine .any ⟨fun dialect run => ?_, fun _ dialect ended _ run quiet => ?_,
    fun {_ s s' u b} twins facing run quiet within => ?_⟩
  · obtain ⟨a, t, first, second⟩ := bind_eq_ok.1 run
    have moves := h.onward dialect first
    exact moves.trans ((k a a rfl).onward (moves.settings_eq ▸ dialect) second)
  · obtain ⟨a, t, -, -, moves, -, -, shorter⟩ := parts dialect ended run quiet
    exact Nat.lt_of_lt_of_le shorter moves.ahead_suffix.length_le
  · obtain ⟨a, t, first, second, moves, early, late, shorter⟩ :=
      parts twins.dialect twins.final run quiet
    obtain ⟨a', t', words', ran, same, twins, log⟩ :=
      h.follows twins facing first early (within.before shorter)
    obtain ⟨b', u', words', ran', result, twins, log'⟩ :=
      (k a a' same).follows twins nofun second late within
    exact ⟨b', u', words', (bind_of_ok ran g).trans ran', result, twins, log'.trans log⟩

theorem andThen (h : Replays w loose known taking ends id p q)
    (k : ∀ a, Replays w loose none false ends look' (f a) (g a)) :
    Replays w loose known taking ends look' (p >>= f) (q >>= g) :=
  .bind h fun a _ same => by
    cases same
    exact k a

theorem map {f' g' : α → β} (h : Replays w loose known taking ends look p q)
    (image : ∀ a a', look a = look a' → look' (f' a) = look' (g' a')) :
    Replays w loose known taking ends look' (do return f' (← p)) (do return g' (← q)) :=
  .bind h fun a a' same => .pure (image a a' same)

/-- A value that is given stands for one that is read. -/
theorem giving (look : α → γ) {a a' : α} (same : look a = look a')
    (k : ∀ a a', look a = look a' → Replays w loose none false ends look' (f a) (g a')) :
    Replays w loose known false ends look' (Pure.pure a >>= f) (Pure.pure a' >>= g) :=
  .bind (.pure same) k

end Bind

theorem ite {c : Prop} [Decidable c] {p' q' : Parser α}
    (h : c → Replays w loose known taking ends look p q)
    (k : ¬ c → Replays w loose known taking ends look p' q') :
    Replays w loose known taking ends look (if c then p else p') (if c then q else q') := by
  split
  next holds => exact h holds
  next fails => exact k fails

/-- A question that both answer alike. -/
theorem iteOf {c c' : Prop} [Decidable c] [Decidable c'] {p' q' : Parser α} (same : c ↔ c')
    (h : Replays w loose known taking ends look p q)
    (k : Replays w loose known taking ends look p' q') :
    Replays w loose known taking ends look (if c then p else p') (if c' then q else q') := by
  by_cases holds : c
  · rw [if_pos holds, if_pos (same.1 holds)]
    exact h
  · rw [if_neg holds, if_neg (same.not.1 holds)]
    exact k

theorem nested (h : Replays w loose known taking ends look p q) :
    Replays w loose known taking ends look (nested p) (nested q) where
  onward dialect run := by
    obtain ⟨u, ran, rfl⟩ := nested_eq_ok.1 run
    exact .nested (h.onward dialect ran)
  takes {s _ _} always dialect ended facing run quiet := by
    obtain ⟨u, ran, rfl⟩ := nested_eq_ok.1 run
    exact h.takes (s := { s with depth := s.depth + 1 }) (t := u) always dialect ended facing ran
      quiet
  follows {_ s s' _ _} twins facing run quiet within := by
    obtain ⟨u, ran, rfl⟩ := nested_eq_ok.1 run
    obtain ⟨a', t', words', ran', same, after, log⟩ :=
      h.follows (twins.withDepth (s.depth + 1) (s'.depth + 1)) facing ran quiet within
    exact ⟨a', _, words', nested_eq_ok.2 ⟨t', ran', rfl⟩, same, after.withDepth _ _, log⟩

/-! ### Looking -/

section Look

variable {δ ε : Type} {look' : β → γ} {f g : δ → Parser β}

/-- What is only looked at may be asked by both if they are told the same, at least where the first
goes on quietly and inside the fragment. -/
theorem lookingBack (look₁ : δ → ε) {l l' : Parser δ} {v v' : Session → δ} (first : OnlyLooks l v)
    (second : OnlyLooks l' v')
    (same : ∀ {words s s' u t b}, Session.Twins w loose words s s' →
      (∀ kind ∈ known, (s.tokens.upcoming 0).token.kind = kind) → s.tokens.Looked u →
      f (v s) { s with tokens := u } = .ok b t → Quiet s t → w.Within ends t →
      look₁ (v s) = look₁ (v' s'))
    (k : ∀ a a', look₁ a = look₁ a' → Replays w loose known taking ends look' (f a) (g a')) :
    Replays w loose known taking ends look' (l >>= f) (l' >>= g) where
  onward {s t b} dialect run := by
    obtain ⟨u, looked, ran⟩ := first s
    rw [bind_of_ok ran] at run
    exact looked.moves.trans ((k _ _ rfl).onward dialect run)
  takes {s t b} always dialect ended facing run quiet := by
    obtain ⟨u, looked, ran⟩ := first s
    rw [bind_of_ok ran] at run
    rw [← looked.ahead]
    exact (k _ _ rfl).takes (s := { s with tokens := u }) always dialect
      (looked.final ▸ ended) (by simpa only [looked.upcoming] using facing) run quiet
  follows {_ s s' t b} twins facing run quiet within := by
    obtain ⟨u, looked, ran⟩ := first s
    obtain ⟨u', looked', ran'⟩ := second s'
    rw [bind_of_ok ran] at run
    rw [bind_of_ok ran']
    exact (k _ _ (same twins facing looked run quiet within)).follows (twins.looked looked looked')
      (by simpa only [looked.upcoming] using facing) run quiet within

theorem looking (look₁ : δ → ε) {l l' : Parser δ} {v v' : Session → δ} (first : OnlyLooks l v)
    (second : OnlyLooks l' v')
    (same : ∀ {words s s'}, Session.Twins w loose words s s' →
      (∀ kind ∈ known, (s.tokens.upcoming 0).token.kind = kind) → look₁ (v s) = look₁ (v' s'))
    (k : ∀ a a', look₁ a = look₁ a' → Replays w loose known taking ends look' (f a) (g a')) :
    Replays w loose known taking ends look' (l >>= f) (l' >>= g) :=
  .lookingBack look₁ first second (fun twins facing _ _ _ _ => same twins facing) k

/-- Places are not compared. -/
theorem head {f g : Span → Parser β}
    (k : ∀ a a', Replays w loose known taking ends look' (f a) (g a')) :
    Replays w loose known taking ends look' (Parser.head >>= f) (Parser.head >>= g) := by
  have looks : OnlyLooks Parser.head fun s => (s.tokens.upcoming 0).token.span :=
    fun s => ⟨_, .look _ .refl, rfl⟩
  exact .looking (fun _ => ()) looks looks (fun _ _ => rfl) fun a a' _ => k a a'

theorem now {f g : Span → Parser β}
    (k : ∀ a a', Replays w loose known taking ends look' (f a) (g a')) :
    Replays w loose known taking ends look' (Parser.now >>= f) (Parser.now >>= g) :=
  .looking (fun _ => ()) (.ask _) (.ask _) (fun _ _ => rfl) fun a a' _ => k a a'

theorem since {f g : Span → Parser β} {start start' : Span}
    (k : ∀ a a', Replays w loose known taking ends look' (f a) (g a')) :
    Replays w loose known taking ends look' (Parser.since start >>= f)
      (Parser.since start' >>= g) := by
  have looks (start : Span) : OnlyLooks (Parser.since start) fun s => start.merge s.tokens.now :=
    fun s => ⟨_, .refl, rfl⟩
  exact .looking (fun _ => ()) (looks _) (looks _) (fun _ _ => rfl) fun a a' _ => k a a'

/-- Something about the session. -/
theorem ask (look₁ : Session → ε) {f g : Session → Parser β}
    (same : ∀ {words s s'}, Session.Twins w loose words s s' → look₁ s = look₁ s')
    (k : ∀ a a', look₁ a = look₁ a' → Replays w loose known taking ends look' (f a) (g a')) :
    Replays w loose known taking ends look' (MonadState.get >>= f) (MonadState.get >>= g) :=
  .looking look₁ (.ask id) (.ask id) (fun twins _ => same twins) k

/-- What the dialect tells is the same in both texts. -/
theorem told {l : Parser δ} {a : δ} (tells : ∀ s, s.settings.dialect = w.dialect → l s = .ok a s)
    (k : Replays w loose known taking ends look' (f a) (g a)) :
    Replays w loose known taking ends look' (l >>= f) (l >>= g) where
  onward dialect run := by
    rw [bind_of_ok (tells _ dialect)] at run
    exact k.onward dialect run
  takes always dialect ended facing run := by
    rw [bind_of_ok (tells _ dialect)] at run
    exact k.takes always dialect ended facing run
  follows twins facing run quiet within := by
    rw [bind_of_ok (tells _ twins.dialect)] at run
    rw [bind_of_ok (tells _ twins.dialect')]
    exact k.follows twins facing run quiet within

theorem dialect {f g : Dialect → Parser β}
    (k : Replays w loose known taking ends look' (f w.dialect) (g w.dialect)) :
    Replays w loose known taking ends look' (Parser.dialect >>= f) (Parser.dialect >>= g) :=
  .told (fun s same => by rw [← same]; rfl) k

theorem isMooc {f g : Bool → Parser β} (k : Replays w loose known taking ends look'
      (f (w.dialect == .mooc)) (g (w.dialect == .mooc))) :
    Replays w loose known taking ends look' (Parser.isMooc >>= f) (Parser.isMooc >>= g) :=
  .told (fun s same => by rw [← same]; rfl) k

/-- Something about the constructs that are open. -/
theorem scopes (look₁ : ScopeStack → ε) {f g : ScopeStack → Parser β}
    (same : ∀ {a a'}, a.Parallel loose a' → look₁ a = look₁ a')
    (k : ∀ a a', look₁ a = look₁ a' → Replays w loose known taking ends look' (f a) (g a')) :
    Replays w loose known taking ends look' (Parser.scopes >>= f) (Parser.scopes >>= g) :=
  .looking look₁ (.ask _) (.ask _) (fun twins _ => same twins.scopes) k

theorem insideLoop {loose : Looseness} {f g : Bool → Parser β}
    (k : ∀ b, Replays w loose known taking ends look' (f b) (g b)) :
    Replays w loose known taking ends look' (Parser.insideLoop >>= f)
      (Parser.insideLoop >>= g) := by
  have looks : OnlyLooks Parser.insideLoop fun s => (s.scopes.find? .loop .function).isSome :=
    fun s => ⟨_, .refl, rfl⟩
  refine .looking id looks looks (fun twins _ => ?_) fun b _ same => ?_
  · rw [id, id, twins.scopes.insideLoop]
  · cases same
    exact k b

/-- A search ahead for a pattern.  Behind the fragment the second finds no part of it, and the first
takes the end of the pattern if it finds one. -/
theorem peekWhile {f g : Bool → Parser β} {start : TokenKind} {ask : TokenKind → Verdict}
    (first : start.settles = false) (rejects : ∀ kind, kind.settles = true → ask kind = .reject)
    {last : TokenKind} (stops : ask last ≠ .proceed) (passes : Passes w.dialect last (f true))
    (k : ∀ b, Replays w loose known taking ends look' (f b) (g b)) :
    Replays w loose known taking ends look' (Parser.onTokens (·.peekWhile start ask) >>= f)
      (Parser.onTokens (·.peekWhile start ask) >>= g) := by
  have looks : OnlyLooks (Parser.onTokens (·.peekWhile start ask))
      fun s => (s.tokens.peekWhile start ask).1 := by
    refine .onTokens fun t => ?_
    unfold TokenStream.peekWhile
    split
    · exact ⟨_, rfl⟩
    · exact ⟨1, rfl⟩
  refine .lookingBack id looks looks (fun {words s s' v t b} twins _ looked run quiet within => ?_)
    fun b _ same => ?_
  · refine twins.peekWhile first rejects fun found => ?_
    rw [found] at run
    have before := twins.looked looked .refl
    obtain ⟨u, moves, shorter, further, kind⟩ := passes before.dialect before.final run quiet
    obtain ⟨x, among, same⟩ := before.mem_tail moves shorter (within.before further)
    exact ⟨x, among, (same.trans kind).symm ▸ stops⟩
  · cases same
    exact k b

theorem peekPair_onlyLooks (first second : TokenKind) :
    OnlyLooks (Parser.onTokens (·.peekPair first second))
      fun s => (s.tokens.peekPair first second).1 := by
  refine .onTokens fun t => ?_
  unfold TokenStream.peekPair
  split
  · exact ⟨2, rfl⟩
  · exact ⟨1, rfl⟩

theorem facing_of_peekPair {s : TokenStream} {first second : TokenKind}
    (found : (s.peekPair first second).1 = true) : (s.upcoming 0).token.kind = first := by
  unfold TokenStream.peekPair at found
  split at found
  next same => exact same
  next => cases found

/-- A search for two tokens is answered alike where what follows takes one of them and does not leave
the fragment. -/
theorem peekPair {f g : Bool → Parser β} {first second : TokenKind}
    (h : Replays w loose (some first) true False look' (f true) (g true))
    (k : Replays w loose known true False look' (f false) (g false)) :
    Replays w loose known taking False look' (Parser.onTokens (·.peekPair first second) >>= f)
      (Parser.onTokens (·.peekPair first second) >>= g) := by
  have branch (b : Bool) : Replays w loose (if b then some first else known) true False look' (f b)
      (g b) := by
    cases b with
    | true => exact h
    | false => exact k
  have told {s : Session} (facing : ∀ kind ∈ known, (s.tokens.upcoming 0).token.kind = kind) :
      ∀ kind ∈ if (s.tokens.peekPair first second).1 then some first else known,
        (s.tokens.upcoming 0).token.kind = kind := by
    split
    next found =>
      intro kind same
      exact (facing_of_peekPair found).trans (Option.some.inj same)
    next => exact facing
  refine .any ⟨fun {s t b} dialect run => ?_, fun {s t b} _ dialect ended facing run quiet => ?_,
    fun {words s s' t b} twins facing run quiet within => ?_⟩
  · obtain ⟨u, looked, ran⟩ := peekPair_onlyLooks first second s
    rw [bind_of_ok ran] at run
    exact looked.moves.trans ((branch _).onward (s := { s with tokens := u }) dialect run)
  · obtain ⟨u, looked, ran⟩ := peekPair_onlyLooks first second s
    rw [bind_of_ok ran] at run
    rw [← looked.ahead]
    exact (branch _).takes (s := { s with tokens := u }) rfl dialect (looked.final ▸ ended)
      (by simpa only [looked.upcoming] using told facing) run quiet
  · obtain ⟨u, looked, ran⟩ := peekPair_onlyLooks first second s
    obtain ⟨u', looked', ran'⟩ := peekPair_onlyLooks first second s'
    rw [bind_of_ok ran] at run
    have facing' : ∀ kind ∈ if (s.tokens.peekPair first second).1 then some first else known,
        (u.upcoming 0).token.kind = kind := by
      simpa only [looked.upcoming] using told facing
    have after := twins.looked looked looked'
    have shorter := (branch _).takes rfl after.dialect after.final facing' run quiet
    have two := after.two_le within shorter
    rw [bind_of_ok ran']
    dsimp only
    rw [twins.peekPair two]
    exact (branch _).follows after facing' run quiet within

end Look

/-! ### Taking -/

section Take

variable {look' : β → γ}

/-- What is done where the token behind the fragment is seen: both see the same, or the first parser
takes it, or neither does anything. -/
inductive Halts (w : Frontier) (loose : Option Looseness) (ends : Prop) (look' : β → γ)
    (f g : TokenKind → Parser β) : Prop
  | same : w.Same → Halts w loose ends look' f g
  | takes : Replays w loose (some (nextKind w.first)) true ends look' (f (nextKind w.first))
      (g (nextKind w.first)) → Halts w loose ends look' f g
  | still {b b' : β} : f (nextKind w.first) = Pure.pure b → g (nextKind w.second) = Pure.pure b' →
      look' b = look' b' → Halts w loose ends look' f g

/-- One way or another by the kind of the token ahead. -/
theorem peek {f g : TokenKind → Parser β} (stop : ends → Halts w loose ends look' f g)
    (k : ∀ kind, Replays w loose (some kind) taking ends look' (f kind) (g kind)) :
    Replays w loose known taking ends look' (Parser.peek >>= f) (Parser.peek >>= g) where
  onward {s t b} dialect run := by
    have moves := (k _).onward (s := { s with tokens := s.tokens.look 1 }) dialect run
    exact .trans (.look s 1) moves
  takes {s t b} always dialect ended _ run quiet := by
    have shorter := (k _).takes (s := { s with tokens := s.tokens.look 1 }) always dialect
      (by simpa using ended) (by simp) run quiet
    simpa using shorter
  follows {words s s' t b} twins _ run quiet within := by
    change f (s.tokens.upcoming 0).token.kind { s with tokens := s.tokens.look 1 } = _ at run
    change ∃ a' t' words', g (s'.tokens.upcoming 0).token.kind
      { s' with tokens := s'.tokens.look 1 } = _ ∧ _
    have looked := twins.look 1 1
    have facing : ∀ kind ∈ some (nextKind (words ++ w.first)),
        ((s.tokens.look 1).upcoming 0).token.kind = kind := by
      simpa using twins.kind
    rw [twins.kind] at run
    rw [twins.kind']
    cases words with
    | cons x rest => exact (k _).follows looked facing run quiet within
    | nil =>
      have moves := (k _).onward (s := { s with tokens := s.tokens.look 1 }) twins.dialect run
      rw [List.nil_append] at run facing ⊢
      rcases stop (looked.ends_of_nil (within.back moves)) with same | takes | ⟨first, second, result⟩
      · rw [← same]
        exact (k _).follows looked facing run quiet within
      · have shorter := takes.takes rfl looked.dialect looked.final facing run quiet
        exact absurd rfl (looked.ne_nil (within.before shorter))
      · rw [first] at run
        rw [second]
        obtain ⟨rfl, rfl⟩ := pure_eq_ok.1 run
        exact ⟨_, _, _, rfl, result, looked, rfl⟩

/-- The token behind the fragment does not matter where any token ahead would be taken. -/
theorem peekTaking {f g : TokenKind → Parser β}
    (k : ∀ kind, Replays w loose (some kind) true ends look' (f kind) (g kind)) :
    Replays w loose known taking ends look' (Parser.peek >>= f) (Parser.peek >>= g) :=
  .any (.peek (fun _ => .takes (k _)) k)

/-- A token that is known not to be the end of input lies in the fragment. -/
theorem next {kind : TokenKind} (more : kind ≠ .eof) {f g : Token → Parser β}
    (k : ∀ kind text span span', Replays w loose none false ends look' (f ⟨kind, text, span⟩)
      (g ⟨kind, text, span'⟩)) :
    Replays w loose (some kind) taking ends look' (Parser.next >>= f) (Parser.next >>= g) := by
  have parts {s t : Session} {b : β} (dialect : s.settings.dialect = w.dialect)
      (run : (Parser.next >>= f) s = .ok b t) : ∃ a u, Parser.next s = .ok a u ∧ f a u = .ok b t ∧
        s.Moves u ∧ u.Moves t := by
    obtain ⟨a, u, taken, rest⟩ := bind_eq_ok.1 run
    have moves := Reads.moves (fun _ => next_reads) taken
    exact ⟨a, u, taken, rest, moves,
      (k a.kind a.text a.span a.span).onward (moves.settings_eq ▸ dialect) rest⟩
  refine ⟨fun {s t b} dialect run => ?_, fun {s t b} _ dialect ended facing run quiet => ?_,
    fun {words s s' t b} twins facing run quiet within => ?_⟩
  · obtain ⟨a, u, -, -, moves, moves'⟩ := parts dialect run
    exact moves.trans moves'
  · obtain ⟨a, u, taken, -, moves, moves'⟩ := parts dialect run
    have shorter := next_advances taken (quiet.parts moves moves').1
      (by rw [facing kind rfl]; exact more) ended
    exact Nat.lt_of_le_of_lt moves'.ahead_suffix.length_le shorter
  · obtain ⟨a, u, taken, rest, moves, moves'⟩ := parts twins.dialect run
    have quietly := quiet.parts moves moves'
    have shorter := next_advances taken quietly.1 (by rw [facing kind rfl]; exact more) twins.final
    obtain ⟨x, words, rfl⟩ :=
      List.exists_cons_of_ne_nil (twins.ne_nil ((within.back moves').before shorter))
    obtain ⟨rfl, rfl⟩ := next_of_quiet taken quietly.1
    obtain ⟨r, _, r', _, ahead, ahead', first, second, clean⟩ := twins.heads
    have same : r'.token = ⟨r.token.kind, r.token.text, r'.token.span⟩ := by
      have kind : r'.token.kind = r.token.kind := congrArg Word.kind (second.trans first.symm)
      have text : r'.token.text = r.token.text := congrArg Word.text (second.trans first.symm)
      rw [← kind, ← text]
    rw [(TokenStream.next_of_ahead_eq_cons ahead).1] at rest
    obtain ⟨b', t', words', ran, result⟩ := (k _ _ _ r'.token.span).follows twins.next nofun rest
      quietly.2 within
    refine ⟨b', t', words', ?_, result⟩
    rw [bind_of_ok (next_of_clean twins.tidy ahead' clean), same, ran]

/-- A token that is complained of is taken by nobody who is quiet. -/
theorem refused {cause : Token → Cause} {f : Token → Unit → Parser β} {q : Parser β}
    {q' : Token → Parser β}
    (k : ∀ token, Replays w loose none false ends look' (f token ()) (q' token)) :
    Replays w loose known taking ends look'
      (Parser.next >>= fun token => Parser.complain (cause token) token.span >>= f token) q := by
  refine .loud fun {s t b} dialect run => ?_
  obtain ⟨a, u, taken, rest⟩ := bind_eq_ok.1 run
  obtain ⟨_, v, complained, rest⟩ := bind_eq_ok.1 rest
  have moves := Reads.moves (fun _ => next_reads) taken
  have moves' := Reads.moves (fun _ => complain_reads _ _) complained
  have moves'' := (k a).onward ((moves.trans moves').settings_eq ▸ dialect) rest
  refine ⟨(moves.trans moves').trans moves'', fun quiet => complain_loud complained ?_⟩
  exact ((quiet.parts (moves.trans moves') moves'').1.parts moves moves').2

/-- Tokens are compared by kind and text. -/
theorem token {p q : Parser Token} (h : Replays w loose known taking ends Token.word p q)
    {f g : Token → Parser β} (k : ∀ kind text span span',
      Replays w loose none false ends look' (f ⟨kind, text, span⟩) (g ⟨kind, text, span'⟩)) :
    Replays w loose known taking ends look' (p >>= f) (q >>= g) := by
  refine .bind h ?_
  rintro ⟨kind, text, span⟩ ⟨_, _, span'⟩ same
  obtain ⟨rfl, rfl⟩ := Word.mk.inj same
  exact k kind text span span'

/-- Whoever has read quietly has not complained of the kind of the token ahead. -/
theorem facing (Fits : TokenKind → Prop) {p q : Parser β} {one : TokenKind} (fits : Fits one)
    (k : ∀ kind, Fits kind → Replays w loose (some kind) taking ends look' p q)
    (quietly : ∀ {s t : Session} {b : β}, s.settings.dialect = w.dialect → p s = .ok b t → Quiet s t →
      Fits (s.tokens.upcoming 0).token.kind) :
    Replays w loose known taking ends look' p q where
  onward := (k one fits).onward
  takes always dialect ended _ run quiet :=
    (k _ (quietly dialect run quiet)).takes always dialect ended (by simp) run quiet
  follows twins _ run quiet :=
    (k _ (quietly twins.dialect run quiet)).follows twins (by simp) run quiet

theorem checked {kind : TokenKind} (more : kind ≠ .eof) (cause : Token → Cause) :
    Replays w loose known taking ends Token.word (checked kind cause)
      (Parser.checked kind cause) := by
  refine .facing (· = kind) rfl ?_ fun _ run quiet => (checked_of_quiet run quiet).2
  rintro _ rfl
  exact .next more fun _ _ _ _ => .ite (fun _ => .complaining (.pure rfl)) fun _ => .pure rfl

theorem expect {kind : TokenKind} (more : kind ≠ .eof) {f g : Token → Parser β}
    (k : ∀ kind text span span', Replays w loose none false ends look' (f ⟨kind, text, span⟩)
      (g ⟨kind, text, span'⟩)) :
    Replays w loose known taking ends look' (Parser.expect kind >>= f)
      (Parser.expect kind >>= g) :=
  .token (.checked more _) k

theorem expectName {f g : Token → Parser β}
    (k : ∀ kind text span span', Replays w loose none false ends look' (f ⟨kind, text, span⟩)
      (g ⟨kind, text, span'⟩)) :
    Replays w loose known taking ends look' (Parser.expectName >>= f)
      (Parser.expectName >>= g) :=
  .token (.checked (by decide) _) k

/-- One way if a token of a kind is ahead, and another if not.  What stands behind the fragment is not
such a token, or is one in both texts. -/
theorem accept {kind : TokenKind} (more : kind ≠ .eof)
    (stop : ends → w.Same ∨ nextKind w.second ≠ kind) {f g : Option Token → Parser β}
    (some : ∀ kind text span span', Replays w loose none false ends look' (f (some ⟨kind, text, span⟩))
      (g (some ⟨kind, text, span'⟩)))
    (none : Replays w loose none false ends look' (f none) (g none)) :
    Replays w loose known false ends look' (Parser.accept kind >>= f)
      (Parser.accept kind >>= g) := by
  have took {taking : Bool} : Replays w loose (Option.some kind) taking ends (Option.map Token.word)
      (do return Option.some (← Parser.next)) (do return Option.some (← Parser.next)) :=
    .next more fun _ _ _ _ => .pure rfl
  have taken : Replays w loose known false ends (Option.map Token.word) (Parser.accept kind)
      (Parser.accept kind) := by
    refine .peek (fun may => ?_) fun kind' => .ite ?_ fun _ => .pure rfl
    · rcases stop may with same | other
      · exact .same same
      by_cases same : nextKind w.first = kind
      · refine .takes ?_
        rw [if_pos same, same]
        exact took
      · exact .still (if_neg same) (if_neg other) rfl
    · rintro rfl
      exact took
  refine .bind taken ?_
  rintro (_ | ⟨kind, text, span⟩) (_ | ⟨kind', text', span'⟩) same
  · exact none
  · cases same
  · cases same
  · obtain ⟨rfl, rfl⟩ := Word.mk.inj (Option.some.inj same)
    exact some kind text span span'

theorem accepts {kind : TokenKind} (more : kind ≠ .eof)
    (stop : ends → w.Same ∨ nextKind w.second ≠ kind) :
    Replays w loose known false ends id (Parser.accepts kind) (Parser.accepts kind) :=
  .accept more stop (fun _ _ _ _ => .pure rfl) (.pure rfl)

end Take

/-! ### Constructs and repetition -/

/-- The constructs that are open are changed alike. -/
theorem onScopes {f : ScopeStack → ScopeStack} {look' : β → γ} {k k' : Unit → Parser β}
    (moves : ∀ s : Session, s.Moves { s with scopes := f s.scopes })
    (parallel : ∀ {a a'}, a.Parallel loose a' → (f a).Parallel loose (f a'))
    (rest : Replays w loose known taking ends look' (k ()) (k' ())) :
    Replays w loose known taking ends look' (Parser.onScopes f >>= k)
      (Parser.onScopes f >>= k') where
  onward {s _ _} dialect run :=
    .trans (moves s) (rest.onward (s := { s with scopes := f s.scopes }) dialect run)
  takes {s _ _} always dialect ended facing run quiet :=
    rest.takes (s := { s with scopes := f s.scopes }) always dialect ended facing run quiet
  follows twins facing run quiet within :=
    rest.follows (twins.withScopes (parallel twins.scopes)) facing run quiet within

/-- A construct is opened alike. -/
theorem withinBoth {kind : ScopeKind} {name : String}
    (push : ∀ {a a' : ScopeStack}, a.Parallel loose a' →
      (a.push kind name).Parallel (some (.inside loose)) (a'.push kind name))
    (h : Replays w (some (.inside loose)) known taking ends look p q) :
    Replays w loose known taking ends look (Parser.within kind name p)
      (Parser.within kind name q) where
  onward {s _ _} dialect run := by
    obtain ⟨u, ran, rfl⟩ := within_eq_ok.1 run
    exact .within kind name
      (h.onward (s := { s with scopes := s.scopes.push kind name }) dialect ran)
  takes {s _ _} always dialect ended facing run quiet := by
    obtain ⟨u, ran, rfl⟩ := within_eq_ok.1 run
    exact h.takes (s := { s with scopes := s.scopes.push kind name }) (t := u) always dialect ended
      facing ran quiet
  follows twins facing run quiet within := by
    obtain ⟨u, ran, rfl⟩ := within_eq_ok.1 run
    obtain ⟨a', u', words', ran', same, after, log⟩ :=
      h.follows (twins.withScopes (push twins.scopes)) facing ran quiet within
    exact ⟨a', _, words', within_eq_ok.2 ⟨u', ran', rfl⟩, same,
      after.withScopes after.scopes.pop, log⟩

theorem within {loose : Looseness} (kind : ScopeKind) (name : String)
    (h : Replays w (some (.same loose)) known taking ends look p q) :
    Replays w loose known taking ends look (Parser.within kind name p)
      (Parser.within kind name q) :=
  .withinBoth (fun parallel => parallel.push kind name) h

/-- Wherever a function stands. -/
theorem withinFunction (name : String)
    (h : Replays w (some (.inside loose)) known taking ends look p q) :
    Replays w loose known taking ends look (Parser.within .function name p)
      (Parser.within .function name q) :=
  .withinBoth (fun parallel => parallel.pushFunction name) h

section Loop

variable {step step' : σ → Parser (ForInStep σ)} {look : σ → σ}

theorem iterateFor_moves (moves : ∀ {x : σ} {s t : Session} {next : ForInStep σ},
      s.settings.dialect = w.dialect → step x s = .ok next t → s.Moves t)
    (clock : List Scanned) {x y : σ} {s t : Session} (dialect : s.settings.dialect = w.dialect)
    (run : iterateFor step clock x s = .ok y t) : s.Moves t := by
  induction clock generalizing x s with
  | nil =>
    obtain ⟨next, u, once, rest⟩ := bind_eq_ok.1 run
    have moved := moves dialect once
    cases next <;> obtain ⟨rfl, rfl⟩ := pure_eq_ok.1 rest <;> exact moved
  | cons _ clock inductionHypothesis =>
    obtain ⟨next, u, once, rest⟩ := bind_eq_ok.1 run
    have moved := moves dialect once
    cases next with
    | done z =>
      obtain ⟨rfl, rfl⟩ := pure_eq_ok.1 rest
      exact moved
    | yield z => exact moved.trans (inductionHypothesis (moved.settings_eq ▸ dialect) rest)

/-- The last round of a loop. -/
theorem iterateFor_done {x x' y : σ} {words : List Word} {s s' t : Session}
    (round : Replays w loose none false ends (onRound look) (step x) (step' x'))
    (clock' : List Scanned) (twins : s.Twins w loose words s') (once : step x s = .ok (.done y) t)
    (quiet : Quiet s t) (within : w.Within ends t) :
    ∃ y' t' words', iterateFor step' clock' x' s' = .ok y' t' ∧ look y = look y' ∧
      t.Twins w loose words' t' ∧ t'.log = s'.log := by
  obtain ⟨next', t', words', ran, result, rest⟩ := round.follows twins nofun once quiet within
  cases next' with
  | yield y' => cases result
  | done y' =>
    refine ⟨y', t', words', ?_, ForInStep.done.inj result, rest⟩
    cases clock' <;> exact bind_of_ok ran _

/-- As many rounds are taken again as there are: a round that asks for another takes a token, so that
neither clock runs out. -/
theorem iterateFor (takes : ∀ c d x, Agree c d {} (step x) (step x) Headway.ofRound)
    (round : ∀ x x', look x = look x' →
      Replays w loose none false ends (onRound look) (step x) (step' x'))
    (clock clock' : List Scanned) {x x' y : σ} (same : look x = look x') {words : List Word}
    {s s' t : Session} (twins : s.Twins w loose words s')
    (enough : s.tokens.ahead.length ≤ clock.length) (enough' : words.length ≤ clock'.length)
    (run : iterateFor step clock x s = .ok y t) (quiet : Quiet s t) (within : w.Within ends t) :
    ∃ y' t' words', iterateFor step' clock' x' s' = .ok y' t' ∧ look y = look y' ∧
      t.Twins w loose words' t' ∧ t'.log = s'.log := by
  have shorter {x z : σ} {s u : Session} (ended : s.tokens.final.token.kind = .eof)
      (once : step x s = .ok (.yield z) u) : u.tokens.ahead.length < s.tokens.ahead.length :=
    (((takes _ _ x).returned once).2 s.tokens.ahead (.here ended)).moved rfl
  induction clock generalizing clock' x x' words s s' with
  | nil =>
    obtain ⟨next, u, once, rest⟩ := bind_eq_ok.1 run
    cases next with
    | done z =>
      obtain ⟨rfl, rfl⟩ := pure_eq_ok.1 rest
      exact iterateFor_done (round x x' same) clock' twins once quiet within
    | yield z => exact absurd (shorter twins.final once) (by rw [List.length_nil] at enough; omega)
  | cons c clock inductionHypothesis =>
    obtain ⟨next, u, once, rest⟩ := bind_eq_ok.1 run
    cases next with
    | done z =>
      obtain ⟨rfl, rfl⟩ := pure_eq_ok.1 rest
      exact iterateFor_done (round x x' same) clock' twins once quiet within
    | yield z =>
      have moves := (round x x rfl).onward twins.dialect once
      have moves' := iterateFor_moves (fun dialect ran => (round _ _ rfl).onward dialect ran) clock
        (moves.settings_eq ▸ twins.dialect) rest
      have quietly := quiet.parts moves moves'
      obtain ⟨next', u', words₁, ran, result, after, log⟩ :=
        (round x x' same).follows twins nofun once quietly.1 (within.back moves')
      have taken := shorter twins.final once
      have length := twins.length
      have length' := after.length
      cases next' with
      | done z' => cases result
      | yield z' =>
        cases clock' with
        | nil =>
          rw [List.length_nil] at enough'
          omega
        | cons c' clock' =>
          rw [List.length_cons] at enough enough'
          obtain ⟨y', t', words', ran', last, twins', log'⟩ := inductionHypothesis clock'
            (ForInStep.yield.inj result) after (by omega) (by omega) rest quietly.2
          exact ⟨y', t', words', (bind_of_ok ran _).trans ran', last, twins', log'.trans log⟩

theorem iterate (look : σ → σ) {start start' : σ}
    (takes : ∀ c d x, Agree c d {} (step x) (step x) Headway.ofRound)
    (init : look start = look start')
    (round : ∀ x x', look x = look x' →
      Replays w loose none false ends (onRound look) (step x) (step' x')) :
    Replays w loose known false ends look (iterate start step) (iterate start' step') where
  onward {s _ _} dialect run :=
    iterateFor_moves (fun dialect ran => (round _ _ rfl).onward dialect ran) s.tokens.ahead dialect run
  takes := nofun
  follows {words s s' _ _} twins _ run quiet within :=
    iterateFor takes round s.tokens.ahead s'.tokens.ahead init twins (Nat.le_refl _)
      (by rw [twins.length']; exact Nat.le_add_right _ _) run quiet within

end Loop

theorem tooDeep {q : Parser α} : Replays w loose known taking ends look tooDeep q :=
  .loud fun _ run => absurd run tooDeep_ne_ok

end Replays

end Parser

end LuaChunk
