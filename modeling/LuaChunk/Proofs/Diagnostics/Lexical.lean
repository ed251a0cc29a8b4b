import LuaChunk.Proofs.Lexer.Partition
import LuaChunk.Proofs.Recursion.Equations

/-!
# Lexical errors in an analysis

The lexical errors that have been told and those that still wait are together, in this order, the
errors of the source; this is the account that every reading keeps.  A chunk that is read to its
end leaves none waiting, so its analysis tells all of them, each once, and has met all comments.
-/

set_option autoImplicit false

namespace LuaChunk

namespace TokenStream

variable {s : TokenStream}

/-! ## The plain run -/

/-- A run of nothing but takings tells no error and loses none. -/
theorem waiting_after (s : TokenStream) (n : Nat) : (s.after n).waiting = s.waiting := by
  induction n generalizing s with
  | zero => rfl
  | succ n inductionHypothesis => rw [after, inductionHypothesis, waiting_next]

/-- A run of nothing but takings that has got to the end of input. -/
theorem exhausted_after (more : ∀ r ∈ s.ahead, r.token.kind ≠ .eof) {n : Nat}
    (eof : (s.after n).next.1.kind = .eof) : (s.after n).next.2.pending = s.waiting ∧
      (s.after n).next.2.comments = s.final.after.comments := by
  have last : (s.after n).ahead = [] := by
    apply ahead_eq_nil_of_next _ eof
    rw [ahead_after]
    exact fun r membership => more r (List.mem_of_mem_drop membership)
  have exhausted := Exhausted.next last
  constructor
  · rw [← exhausted.waiting, waiting_next, waiting_after]
  · rw [exhausted.comments, final_next, final_after]

end TokenStream

namespace Session

/-- A chunk that has been read keeps the account, and is at its end or complains. -/
theorem chunk_ends {r : Rules} {s : Session} (closed : s.Closed)
    (h : r.Agree s.settings s.depth r) :
    Parser.Ends (chunk r s) fun _ s' => s.Keeps s' ∧ (MissesEnd s'.errors ∨ s'.Finished) := by
  apply ((h.block {}).kept s rfl rfl).bind
  intro block s₁ ⟨keeps, headway⟩
  have reached := headway s.tokens.ahead (.here closed.final)
  have once := (closed.headway reached).endsOnce
  have expects := (Parser.Agree.expect (k := {}) .eof).kept s₁ rfl rfl
  apply (expects.and (expect_eof_finished once)).bind
  intro _ s₂ ⟨⟨keeps', _⟩, finished⟩
  exact ⟨keeps.trans keeps', finished⟩

/-! ## Whole analyses -/

/-- The chunk is read to its end: nothing stops the analysis before. -/
def completes (s : Session) : Bool :=
  let s := { s with tokens := s.tokens.skipShebang }
  match chunk s.rules s with
  | .ok _ _ => true
  | .error _ _ => false

variable {source : List UInt8} {name : String} {settings : Settings}

/-- A complete analysis that has not missed the end of input has finished with all tokens. -/
theorem analyze_finished (complete : (start source name settings).completes = true)
    (ended : ¬ MissesEnd (start source name settings).analyze.1.errors) :
    ∃ s, (start source name settings).analyze.1.errors = s.errors ∧
      (start source name settings).analyze.1.comments = s.tokens.comments ∧
      (opened source name settings).Keeps s ∧ s.Finished := by
  have ends := chunk_ends (.opened source name settings)
    (Rules.level_agree settings.maxNesting settings 0)
  have rules : (opened source name settings).rules = .level settings.maxNesting := rfl
  simp only [completes, opened_eq, rules] at complete
  rw [analyze_start] at ended ⊢
  cases result : chunk (.level settings.maxNesting) (opened source name settings) with
  | ok block s =>
    rw [result] at ended ends
    obtain ⟨keeps, finished⟩ := ends
    exact ⟨s, rfl, rfl, keeps, finished.resolve_left ended⟩
  | error abort s =>
    rw [result] at complete
    exact nomatch complete

/-- The account at the end: the errors told are those that waited when reading began. -/
theorem analyze_account (complete : (start source name settings).completes = true)
    (ended : ¬ MissesEnd (start source name settings).analyze.1.errors) :
    (start source name settings).analyze.1.errors.filter (·.cause.isLexical) =
        (opened source name settings).tokens.waiting.map LexicalError.diagnostic ∧
      (start source name settings).analyze.1.comments =
        (opened source name settings).tokens.final.after.comments := by
  obtain ⟨s, errors, comments, keeps, finished⟩ := analyze_finished complete ended
  constructor
  · have lexical := keeps.lexical
    rw [Session.lexical, finished.waiting, List.map_nil, List.append_nil] at lexical
    rw [errors, lexical]
    rfl
  · rw [comments, finished.comments, keeps.final]

/-- A complete analysis that has not missed the end of input tells the errors that a plain run
through the tokens meets, each once and in their order, and has met the same comments.  Where an
analysis tells nothing, the source falls into tokens without a lexical error. -/
theorem analyze_lexical (source : List UInt8) (name : String) (settings : Settings) :
    let analysis := (start source name settings).analyze.1
    let stream := (TokenStream.ofBytes settings.dialect source).skipShebang
    (∃ n, (stream.after n).next.1.kind = .eof) ∧
    ((start source name settings).completes = true → ¬ MissesEnd analysis.errors →
      ∀ n, (stream.after n).next.1.kind = .eof →
        let plain := (stream.after n).next.2
        (plain.pending.map LexicalError.diagnostic).Sublist analysis.errors ∧
        analysis.errors.filter (·.cause.isLexical) =
          plain.pending.map LexicalError.diagnostic ∧
        analysis.comments = plain.comments) ∧
    (analysis.errors = [] → ∃ tokens, tokenize source settings.dialect = .ok tokens) := by
  intro analysis stream
  have layout : stream = (opened source name settings).tokens :=
    congrArg Session.tokens (opened_eq source name settings)
  have closed := Closed.opened source name settings
  rw [layout]
  refine ⟨?_, ?_, ?_⟩
  · refine ⟨(opened source name settings).tokens.ahead.length, ?_⟩
    rw [TokenStream.next_after, TokenStream.upcoming, List.getElem?_eq_none (Nat.le_refl _)]
    exact closed.final
  · intro complete ended n eof plain
    obtain ⟨told, comments⟩ := analyze_account complete ended
    obtain ⟨pending, noted⟩ := TokenStream.exhausted_after closed.endsOnce eof
    rw [← pending] at told
    rw [← noted] at comments
    refine ⟨?_, told, comments⟩
    rw [← told]
    exact List.filter_sublist
  · intro clean
    obtain ⟨c, _, tokens, _⟩ := analyze_spells clean
    exact ⟨c.tokens, tokens⟩

/-- An escape that is none, and a comment behind it. -/
theorem analyze_lexical_escape :
    let source := "return '\\q' -- c".toUTF8.toList
    let analysis := (start source "" {}).analyze.1
    let plain := ((TokenStream.ofBytes .lua source).skipShebang.after 2).next.2
    (start source "" {}).completes = true ∧ ¬ MissesEnd analysis.errors ∧
      plain.pending.length = 1 ∧ analysis.errors.filter (·.cause.isLexical) =
        plain.pending.map LexicalError.diagnostic ∧
      analysis.comments = plain.comments := by
  intro source analysis plain
  have complete : (start source "" {}).completes = true := by decide +kernel
  have lexical : analysis.errors.all (·.cause.isLexical) = true := by decide +kernel
  have ended : ¬ MissesEnd analysis.errors := by
    rintro ⟨d, membership, near, cause⟩
    have told := List.all_eq_true.1 lexical d membership
    rw [cause] at told
    exact nomatch told
  have eof : ((TokenStream.ofBytes .lua source).skipShebang.after 2).next.1.kind = .eof := by
    decide +kernel
  obtain ⟨_, told, comments⟩ := (analyze_lexical source "" {}).2.1 complete ended 2 eof
  exact ⟨complete, ended, by decide +kernel, told, comments⟩

end Session

end LuaChunk
