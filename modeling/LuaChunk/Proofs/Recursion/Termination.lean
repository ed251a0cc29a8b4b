import LuaChunk.Proofs.Lexer.Rounds
import LuaChunk.Proofs.Recursion.Equations

/-!
# Every reading comes to its end

A round of a loop either leaves the loop or takes a token that is not the end of input, though the
end of input can be taken again and again.  So a loop that is repeated as often as it asks for comes
to an end before the tokens ahead are used up, and with the bound on the nesting every reading does.
-/

set_option autoImplicit false

namespace LuaChunk

/-! ## Loops -/

namespace Parser

/-- The steps of all loops of the parsers. -/
inductive Loop (r : Rules) : {σ : Type} → (σ → Parser (ForInStep σ)) → Prop
  | stats : Loop r (moreStats r)
  | exps : Loop r (moreExps r)
  | infixOps (limit : Nat) (start : Span) : Loop r (infixOp r limit start)
  | suffixes : Loop r (suffix r)
  | fields : Loop r (moreFields r)
  | params : Loop r moreParams
  | attrNames : Loop r moreAttrNames
  | targets : Loop r (moreTargets r)
  | branches : Loop r (moreBranches r)
  | vars : Loop r moreVars
  | names : Loop r moreNames
  | cases : Loop r (moreCases r)
  | members (owner : String) : Loop r (moreMembers r owner)
  | keys (source : ImportSource) (names : List Param) : Loop r (moreKeys source names)

/-- Rounds of a step one after the other, as many as it asks for, and what they end in. -/
inductive Repeats {σ : Type} (step : σ → Parser (ForInStep σ)) :
    σ → Session → EStateM.Result Abort Session σ → Prop
  | done {x y : σ} {s s' : Session} : step x s = .ok (.done y) s' → Repeats step x s (.ok y s')
  | stop {x : σ} {s s' : Session} {abort : Abort} : step x s = .error abort s' →
      Repeats step x s (.error abort s')
  | again {x y : σ} {s s' : Session} {result : EStateM.Result Abort Session σ} :
      step x s = .ok (.yield y) s' → Repeats step y s' result → Repeats step x s result

section Loops

variable {σ : Type} {r : Rules} {step : σ → Parser (ForInStep σ)} {c : Settings} {d : Nat}

theorem Loop.agree (loop : Loop r step) (h : r.Agree c d r) (x : σ) :
    Agree c d {} (step x) (step x) Headway.ofRound := by
  cases loop with
  | stats => exact moreStats_agree h x
  | exps => exact moreExps_agree h x
  | infixOps limit start => exact infixOp_agree h limit start x
  | suffixes => exact suffix_agree h x
  | fields => exact moreFields_agree h x
  | params => exact moreParams_agree x
  | attrNames => exact moreAttrNames_agree x
  | targets => exact moreTargets_agree h x
  | branches => exact moreBranches_agree h x
  | vars => exact moreVars_agree x
  | names => exact moreNames_agree x
  | cases => exact moreCases_agree h x
  | members owner => exact moreMembers_agree h owner x
  | keys source names => exact moreKeys_agree source names x

theorem Loop.returns (loop : Loop .recursive step) (x : σ) : (step x).Returns :=
  .of_agree fun c d => loop.agree (Rules.recursive_agree_self c d) x

/-- A round that asks for another has taken some of the tokens ahead, and not the end of input. -/
theorem Loop.progress (loop : Loop .recursive step) {x y : σ} {s s' : Session} (closed : s.Closed)
    (again : step x s = .ok (.yield y) s') : ∃ taken ≠ [],
      s.tokens.ahead = taken ++ s'.tokens.ahead ∧ ∀ r ∈ taken, r.token.kind ≠ .eof := by
  have agree := loop.agree (Rules.recursive_agree_self s.settings s.depth) x
  obtain ⟨_, headway⟩ := agree.returned again
  have reached := headway s.tokens.ahead (.here closed.final)
  obtain ⟨taken, whole⟩ := reached.suffix
  refine ⟨taken, ?_, whole.symm, ?_⟩
  · rintro rfl
    have shorter := reached.moved rfl
    rw [← whole] at shorter
    exact Nat.lt_irrefl _ shorter
  · intro r membership
    apply closed.endsOnce r
    rw [← whole]
    exact List.mem_append_left _ membership

/-- What a first round comes to, and the rounds after it if it asks for them. -/
theorem repeats_iff_first {x : σ} {s : Session} {result : EStateM.Result Abort Session σ} :
    Repeats step x s result ↔ match step x s with
      | .ok (.done y) s' => result = .ok y s'
      | .ok (.yield y) s' => Repeats step y s' result
      | .error abort s' => result = .error abort s' := by
  constructor
  · intro h
    cases h with
    | done first => rw [first]
    | stop first => rw [first]
    | again first rest => rw [first]; exact rest
  · intro h
    cases first : step x s with
    | error abort s' => rw [first] at h; subst h; exact .stop first
    | ok next s' =>
      rw [first] at h
      cases next with
      | done y => subst h; exact .done first
      | yield y => exact .again first h

theorem Repeats.unique {x : σ} {s : Session} {result result' : EStateM.Result Abort Session σ}
    (h : Repeats step x s result) (k : Repeats step x s result') : result = result' := by
  induction h with
  | done first => rw [repeats_iff_first, first] at k; exact k.symm
  | stop first => rw [repeats_iff_first, first] at k; exact k.symm
  | again first _ inductionHypothesis =>
    rw [repeats_iff_first, first] at k
    exact inductionHypothesis k

/-- The tokens ahead are enough of a clock: the loop is done before it runs out. -/
theorem Loop.repeats_iterateFor (loop : Loop .recursive step) (clock : List Scanned) (x : σ)
    {s : Session} (closed : s.Closed) (enough : s.tokens.ahead.length ≤ clock.length) :
    Repeats step x s (iterateFor step clock x s) := by
  induction clock generalizing x s with
  | nil =>
    show Repeats step x s (EStateM.bind (step x) _ s)
    unfold EStateM.bind
    cases round : step x s with
    | error abort s' => exact .stop round
    | ok next s' =>
      cases next with
      | done y => exact .done round
      | yield y =>
        obtain ⟨taken, some, whole, _⟩ := loop.progress closed round
        rw [List.length_eq_zero_iff.1 (Nat.le_zero.1 enough)] at whole
        exact absurd (List.append_eq_nil_iff.1 whole.symm).1 some
  | cons _ clock inductionHypothesis =>
    show Repeats step x s (EStateM.bind (step x) _ s)
    unfold EStateM.bind
    cases round : step x s with
    | error abort s' => exact .stop round
    | ok next s' =>
      cases next with
      | done y => exact .done round
      | yield y =>
        obtain ⟨taken, some, whole, _⟩ := loop.progress closed round
        obtain ⟨closed', _⟩ := (loop.returns x s _ s' round).2 closed
        apply Repeats.again round
        apply inductionHypothesis y closed'
        have pos := List.length_pos_iff.2 some
        rw [whole, List.length_append, List.length_cons] at enough
        omega

theorem Loop.repeats_iff (loop : Loop .recursive step) (x : σ) {s : Session} (closed : s.Closed)
    (result : EStateM.Result Abort Session σ) :
    Repeats step x s result ↔ iterate x step s = result := by
  have run := loop.repeats_iterateFor s.tokens.ahead x closed (Nat.le_refl _)
  constructor
  · exact fun repeats => run.unique repeats
  · rintro rfl
    exact run

end Loops

end Parser

/-! ## Lookahead -/

namespace TokenStream

theorem judge_count_le (ask : TokenKind → Verdict) (ahead : List Scanned) (n : Nat) :
    (judge ask ahead n).2 ≤ n + ahead.length + 1 := by
  induction ahead generalizing n with
  | nil => exact Nat.le_refl _
  | cons r ahead inductionHypothesis =>
    have onward := inductionHypothesis (n + 1)
    unfold judge
    rw [List.length_cons]
    cases ask r.token.kind with
    | proceed =>
      show (judge ask ahead (n + 1)).2 ≤ _
      omega
    | accept =>
      show n + 1 ≤ _
      omega
    | reject =>
      show n + 1 ≤ _
      omega

/-- The search for a pattern looks at the end of input at most once. -/
theorem peekWhile_looks {s : TokenStream} {start : TokenKind} (other : start ≠ .eof)
    (ended : s.final.token.kind = .eof) (ask : TokenKind → Verdict) :
    ∃ count ≤ s.ahead.length + 1, (s.peekWhile start ask).2 = s.look count := by
  unfold peekWhile
  split
  next first =>
    have some : s.ahead ≠ [] := by
      intro last
      rw [upcoming, last] at first
      exact other (first.symm.trans ended)
    refine ⟨_, ?_, rfl⟩
    have bound := judge_count_le ask (s.ahead.drop 1) 1
    have pos := List.length_pos_iff.2 some
    rw [List.length_drop] at bound
    omega
  next => exact ⟨1, Nat.le_add_left _ _, rfl⟩

end TokenStream

/-! ## Readings -/

namespace Session

/-- What brings every reading to its end: its recursion is bounded by the nesting that is left, and
its loops by the tokens ahead. -/
structure Halting : Prop where
  /-- Whatever is read, the sessions that readings begin with stand at a single end of input. -/
  begins (source : List UInt8) (name : String) (settings : Settings) :
    (start source name settings).Closed ∧ (opened source name settings).Closed
  /-- The end of input can be taken again and again. -/
  ends {s : Session} : s.Closed → s.tokens.ahead = [] →
    s.tokens.next.1.kind = .eof ∧ s.tokens.next.2.ahead = []
  /-- The parsers that hold each other, each behind its guard, are determined by this alone. -/
  recursion (r : Rules) : r = r.unfold ↔ r = .recursive
  /-- One more unfolding than levels are left reads the same whatever it is put on. -/
  unrolled (below : Rules) {s : Session} {n : Nat} : s.settings.maxNesting - s.depth < n →
    Rules.SameAt s (Rules.unfold^[n] below) .recursive
  /-- Behind the guard no more levels than allowed are open. -/
  guarded {α : Type} {p q : Parser α} :
    (∀ s : Session, 0 < s.depth → s.depth ≤ s.settings.maxNesting → p s = q s) →
    p.guarded = q.guarded
  /-- A construct that has been read closes the levels that it has opened. -/
  returns : Rules.recursive.Each Parser.Returns
  /-- A round of a loop closes its levels too, and leaves the loop or takes tokens before the end
  of input. -/
  rounds {σ : Type} {step : σ → Parser (ForInStep σ)} (loop : Parser.Loop .recursive step) (x : σ) :
    (step x).Returns ∧ ∀ s y s', s.Closed → step x s = .ok (.yield y) s' → ∃ taken ≠ [],
      s.tokens.ahead = taken ++ s'.tokens.ahead ∧ ∀ r ∈ taken, r.token.kind ≠ .eof
  /-- As many rounds as a loop asks for are as many as it is given. -/
  loops {σ : Type} {step : σ → Parser (ForInStep σ)} (loop : Parser.Loop .recursive step) (x : σ)
    {s : Session} : s.Closed → ∀ result,
      Parser.Repeats step x s result ↔ Parser.iterate x step s = result
  /-- A search ahead goes no further than the end of input. -/
  lookahead {s : Session} {first : TokenKind} (ask : TokenKind → Verdict) :
    s.Closed → first ≠ .eof → ∃ count ≤ s.tokens.ahead.length + 1,
      (s.tokens.peekWhile first ask).2 = s.tokens.look count
  /-- Scanning comes to the end of input. -/
  scanning (d : Dialect) (s : Scanner) (tokens : List Scanned) (final : Scanned) :
    Scanner.Finds d s tokens final ↔ s.run d = (tokens, final)
  /-- The gap before a token has no more rounds than it has glyphs. -/
  gaps (s : Scanner) (errors : List LexicalError) {clock clock' : List Glyph} :
    s.cursor.rest.length ≤ clock.length → s.cursor.rest.length ≤ clock'.length →
    Scanner.skipTrivia clock s errors = Scanner.skipTrivia clock' s errors
  /-- Nor has a quoted literal. -/
  literals (quote : UInt8) (position : Position) (p : QuotedLiteral.Progress)
    {clock clock' : List Glyph} :
    p.cursor.rest.length ≤ clock.length → p.cursor.rest.length ≤ clock'.length →
    QuotedLiteral.finish quote position clock p = QuotedLiteral.finish quote position clock' p
  /-- A chunk is read with these parsers. -/
  chunks (s : Session) : chunk s.rules s = chunk .recursive s
  /-- So is an expression. -/
  exps (s : Session) : s.rules.exp s = Rules.recursive.exp s

/-- Every reading halts: of any source, in either dialect and under any settings. -/
theorem reading_halts : Halting where
  begins source name settings := ⟨.start source name settings, .opened source name settings⟩
  ends closed last := by
    obtain ⟨token, ahead⟩ := TokenStream.next_of_ahead_eq_nil last
    exact ⟨token ▸ closed.final, ahead⟩
  recursion _ := Rules.eq_unfold_iff
  unrolled := Rules.unfold_iterate_sameAt
  guarded := Parser.guarded_congr
  returns := Rules.recursive_returns
  rounds loop x := ⟨loop.returns x, fun _ _ _ closed again => loop.progress closed again⟩
  loops loop x _ closed result := loop.repeats_iff x closed result
  lookahead ask closed other := TokenStream.peekWhile_looks other closed.final ask
  scanning := Scanner.finds_iff_run
  gaps s errors _ _ := Scanner.skipTrivia_clock s errors
  literals quote position p _ _ := QuotedLiteral.finish_clock quote position p
  chunks s := (chunk_agree (k := {}) (Rules.recursive_agree s.settings s.depth)).same s rfl rfl
  exps _ := rfl

/-- The names of `a.b`, read on from the dot, are read in two rounds. -/
theorem reading_halts_dotted_name :
    let first : Parser.FunctionName := ⟨.name "a" .synthetic, false, none, "a"⟩
    let dotted := start [0x2E, 0x62] "" {}
    Parser.Repeats Parser.moreNames first dotted (Parser.iterate first Parser.moreNames dotted) ∧
      (match Parser.iterate first Parser.moreNames dotted with
        | .ok read s => read.name == "b" && s.tokens.ahead.isEmpty
        | .error _ _ => false) = true :=
  ⟨(reading_halts.loops .names _ (reading_halts.begins _ _ _).1 _).2 rfl, by decide +kernel⟩

end Session

end LuaChunk
