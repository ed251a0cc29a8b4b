import LuaChunk.Proofs.Control.Balance
import LuaChunk.Proofs.Levels.Chunk
import LuaChunk.Proofs.Replay.Crossing
import LuaChunk.Proofs.Views.Layout

/-!
# Chunks of known text

What a chunk is read as at one level it is read as at every other, unless that is too deep.  So a
chunk of which all tokens are known may be read with as many levels as one likes.
-/

set_option autoImplicit false

open LuaChunk.Parser

namespace LuaChunk

/-- What a run that is not stopped returns, and the session it ends in. -/
def Parser.returned? {α : Type} : EStateM.Result Abort Session α → Option (α × Session)
  | .ok a s => some (a, s)
  | .error _ _ => none

theorem Parser.returned?_eq_some {α : Type} {run : EStateM.Result Abort Session α} {a : α}
    {s : Session} (h : returned? run = some (a, s)) : run = .ok a s := by
  cases run with
  | ok => cases h; rfl
  | error => cases h

/-- Where nothing waits nothing is complained of at the end of input. -/
theorem Session.Awaits.expect_eof {c : Backdrop} {σ : ScopeStack} {s : Session} (h : s.Awaits c σ [])
    (last : c.rest = []) (fine : s.tokens.final.errors = []) :
    ∃ token t, expect .eof s = .ok token t ∧ t.errors = s.errors := by
  have ahead : s.tokens.ahead = [] := by simpa [last] using h.ahead
  have waiting : s.tokens.next.2.waiting = [] := by
    rw [TokenStream.waiting_next]
    have rest := h.tidy.waiting
    rw [TokenStream.errorLists, ahead, fine] at rest
    exact List.suffix_nil.1 rest
  have pending : s.tokens.next.2.pending = [] := (List.append_eq_nil_iff.1 waiting).1
  have eof : s.tokens.next.1.kind = .eof :=
    (TokenStream.next_of_ahead_eq_nil ahead).1 ▸ h.tidy.found.final_kind
  have taken : onTokens (·.next) s = .ok s.tokens.next.1 { s with tokens := s.tokens.next.2 } := rfl
  have drained : onTokens (·.takeErrors) { s with tokens := s.tokens.next.2 } =
      .ok s.tokens.next.2.pending { s with tokens := { s.tokens.next.2 with pending := [] } } := rfl
  rw [pending] at drained
  have run : Parser.next s =
      .ok s.tokens.next.1 { s with tokens := { s.tokens.next.2 with pending := [] } } := by
    unfold Parser.next
    rw [bind_of_ok taken, if_pos eof, bind_of_ok drained]
    rfl
  have rest : expect .eof s =
      .ok s.tokens.next.1 { s with tokens := { s.tokens.next.2 with pending := [] } } := by
    unfold expect
    rw [bind_of_ok run, if_neg (not_not.2 eof)]
    rfl
  exact ⟨_, _, rest, rfl⟩

theorem Analysis.not_exceedsLevels {a : Analysis} (clean : a.errors = []) : ¬ a.ExceedsLevels := by
  simp [ExceedsLevels, clean]

/-- A statement that is read with more levels is read with fewer, unless that is too deep. -/
theorem Rules.stat_of_deeper {n m : Nat} {s t : Session} {a : Stat} (le : n ≤ m)
    (tidy : s.tokens.Tidy) (fits : ¬ (last ((level n).stat s)).TooDeep)
    (run : (level m).stat s = .ok a t) : (level n).stat s = .ok a t := by
  have tracks := (Rules.level_tracked (n := s.settings.maxNesting) le).stat s tidy
  rw [show s.allowing s.settings.maxNesting = s from rfl, run] at tracks
  cases low : (level n).stat s with
  | ok a' u =>
    have moves := Reads.moves (fun _ => (level_reads n).stat) low
    rw [low] at tracks
    obtain ⟨-, same⟩ := tracks
    injection same with result session
    subst result session
    rw [← moves.settings_eq]
    rfl
  | error _ u =>
    rw [low] at tracks fits
    exact absurd (tracks.resolve_right fun ended => ended.1) fits

namespace Session

variable {source : List UInt8} {name : String} {settings : Settings} {ts : List Token}

/-- Before the first token of a text. -/
theorem opened_awaits (lexed : tokenize source settings.dialect = .ok ts) :
    (opened source name settings).Awaits ⟨settings, { cap := settings.maxErrors }, []⟩
      (.ofFile name) ts ∧ (opened source name settings).tokens.final.errors = [] := by
  obtain ⟨⟨each, last⟩, rfl⟩ := tokenize_eq_ok_iff.1 lexed
  refine ⟨⟨rfl, rfl, rfl, (List.append_nil _).symm, opened_grounded.tidy, fun r among => ?_⟩, last⟩
  exact List.flatMap_eq_nil_iff.1 each r (List.mem_of_mem_take among)

/-- The tokens are those of an expression: in a text of them that is read as a single expression all
are taken, and nothing is complained of. -/
def ReadsExp (settings : Settings) (name : String) (ts : List Token) (e : Exp) : Prop :=
  ∃ source, (start source name settings).exp.1 = some e ∧
    (start source name settings).exp.2.errors = [] ∧
    (start source name settings).exp.2.tokens.ahead = [] ∧
    SameText settings.dialect ((start source name settings).tokens.ahead.map (·.token)) ts

theorem ReadsExp.respelled {ts' : List Token} {e : Exp} (h : ReadsExp settings name ts e)
    (same : SameText settings.dialect ts ts') : ReadsExp settings name ts' e := by
  obtain ⟨source, result, clean, complete, own⟩ := h
  exact ⟨source, result, clean, complete, own.trans same⟩

theorem ReadsExp.alone {e : Exp} (h : ReadsExp settings name ts e) :
    Alone settings (.ofFile name) (Rules.level settings.maxNesting).exp e (.ofFile name) .eof ts := by
  obtain ⟨source, result, clean, complete, same⟩ := h
  have final : (start source name settings).tokens.final.token.kind = .eof :=
    (Scanner.run_finds settings.dialect (Scanner.ofBytes source)).final_kind
  unfold Session.exp at result clean complete
  cases run : (start source name settings).rules.exp (start source name settings) with
  | error _ u =>
    rw [run] at result
    cases result
  | ok e' v =>
    rw [run] at result clean complete
    obtain rfl := Option.some.inj result
    have stepwise : Stepwise (start source name settings).rules.exp := ParseFunction.exp.stepwise
    have keeps := (stepwise.balances rfl run).noted.keeps rfl
    have moves := Reads.moves (fun _ => (Rules.level_reads _).exp) run
    refine ⟨_, v, _, ⟨run, clean, ?_, final⟩, rfl, rfl, keeps.eq_of_outermost rfl, ?_, same⟩
    · rw [show v.tokens.ahead = [] from complete, List.map_nil, List.append_nil]
    · simp only [TokenStream.upcoming, show v.tokens.ahead = [] from complete, moves.final_eq]
      exact final

/-- **A chunk of known text.**  What its block is read as by rules that reach far enough is what the
analysis returns, without an error, unless that exceeds its levels. -/
theorem analyze_known {m : Nat} {σ : ScopeStack} {P : Block → Prop} (le : settings.maxNesting ≤ m)
    (lexed : tokenize source settings.dialect = .ok ts)
    (reads : Crosses ⟨settings, { cap := settings.maxErrors }, []⟩ (.ofFile name) ts
      (Rules.level m).block σ [] P)
    (fits : ¬ (start source name settings).analyze.1.ExceedsLevels) :
    (start source name settings).analyze.1.errors = [] ∧
      P (start source name settings).analyze.1.block := by
  obtain ⟨awaits, fine⟩ := @opened_awaits source name settings ts lexed
  obtain ⟨b, s, read, known, after⟩ := reads _ awaits
  have moves := Reads.moves (fun _ => (Rules.level_reads m).block) read
  obtain ⟨token, t, ended, errors⟩ := after.expect_eof rfl (moves.final_eq ▸ fine)
  have run : chunk (.level m) (opened source name settings) = .ok b t := by
    unfold chunk
    rw [bind_of_ok read, bind_of_ok ended]
    rfl
  have none : t.errors = [] := by
    rw [errors, Session.errors, after.log]
  have tracks := chunk_tracks (n := settings.maxNesting) le (opened source name settings)
    opened_grounded.tidy
  rw [show (opened source name settings).allowing settings.maxNesting = opened source name settings
    from rfl, run] at tracks
  rw [analyze_start] at fits ⊢
  cases low : chunk (.level settings.maxNesting) (opened source name settings) with
  | ok b' u =>
    rw [low] at tracks
    obtain ⟨-, same⟩ := tracks
    injection same with result session
    subst result session
    exact ⟨none, known⟩
  | error _ u =>
    rw [low] at tracks fits
    refine absurd (tracks.resolve_right ?_) fun deep => fits (deep.exceedsLevels _ _)
    rintro ⟨⟨⟩, -⟩

end Session

end LuaChunk
