import LuaChunk.Analysis
import LuaChunk.Proofs.Spelling.Mooc

/-!
# What a clean analysis has read

At every level of nesting the rules return what the tokens spell, so an analysis without
diagnostics returns a block that is spelled by all tokens of the source.
-/

set_option autoImplicit false

namespace LuaChunk

namespace Parser

variable {c : Text} {r : Rules}

/-! ## Blocks -/

theorem atBlockEnd_reads : Reads c atBlockEnd fun i _ o => o = i := by
  refine Reads.mono (dialect_reads.bind fun _ => peek_reads.map _) ?_
  rintro i b o ⟨_, _, ⟨_, rfl⟩, _, _, _, rfl⟩
  rfl

theorem moreStats_reads (h : r.Reads c) (stats : Array Stat) :
    Reads c (moreStats r stats) fun m next o => (next = .done stats ∧ o = m) ∨
      ∃ s, Spells m (.stat s) o ∧
        next = .yield (if s.isEmpty then stats else stats.push s) := by
  refine Reads.mono (atBlockEnd_reads.bind fun isEnd => .ite (P := isEnd = true)
    (fun _ => .pure _) fun _ => h.stat.bind fun _ => .pure _) ?_
  rintro m next o ⟨_, _, rfl, ⟨_, rfl, rfl⟩ | ⟨_, s, _, spelled, rfl, rfl⟩⟩
  · exact .inl ⟨rfl, rfl⟩
  · exact .inr ⟨s, spelled, rfl⟩

theorem stats_reads (h : r.Reads c) :
    Reads c (iterate #[] (moreStats r)) fun i stats o => Spells i (.stats stats.toList) o := by
  refine Reads.mono (Reads.iterate (J := fun i stats o => Spells i (.stats stats.toList) o)
    (moreStats_reads h) (fun _ => .noStats) ?_ ?_) ?_
  · rintro i stats m y o before (⟨⟨⟩, _⟩ | ⟨s, spelled, equality⟩)
    cases equality
    have further := before.moreStats spelled
    cases empty : s.isEmpty <;> simpa [empty] using further
  · rintro stats m y o (⟨⟨⟩, _⟩ | ⟨s, spelled, _⟩)
    exact spelled.length
  · rintro i y o ⟨stats, m, before, ⟨equality, rfl⟩ | ⟨_, _, ⟨⟩⟩⟩
    cases equality
    exact before

theorem pendingLabel_reads : Reads c pendingLabel fun i label o => o = i ∧
    (label = [] ∨ (c.dialect = .mooc ∧ ∃ depth, label = [.label (continueLabel depth) i.now])) := by
  refine Reads.mono (quietScopes_reads.bind fun _ => .ite (fun _ => now_reads.map _)
    fun _ => .pure _) ?_
  rintro i label o ⟨scopes, _, ⟨quiet, rfl⟩, ⟨⟨loop, waits⟩, _, rfl, rfl, rfl⟩ | ⟨_, rfl, rfl⟩⟩
  · refine ⟨rfl, .inr ⟨?_, _, rfl⟩⟩
    cases dialect : c.dialect with
    | lua => simp [(quiet dialect).current loop] at waits
    | mooc => rfl
  · exact ⟨rfl, .inl rfl⟩

theorem returnStat_reads (h : r.Reads c) :
    Reads c (returnStat r) fun i rs o => Spells i (.returns rs) o := by
  have notes : Reads c (onScopes noteReturn) fun i _ o => o = i :=
    onScopes_reads .markReturn (fun _ _ => .noteReturn) fun _ => .noteReturn
  refine Reads.mono (peek_reads.bind fun kind => .ite (P := kind ≠ .kwReturn) (fun _ => .pure _)
    fun _ => notes.bind fun _ => next_reads.bind fun _ => atBlockEnd_reads.bind fun isEnd => .ite
      (P := isEnd = true) (fun _ => .pure _) fun _ => accepts_bind_reads .semi (.pure _)
      ((expList_reads h).bind fun _ => (accepts_reads .semi).bind fun _ => .pure _)) ?_
  rintro i rs o ⟨_, _, ⟨rfl, rfl⟩, ⟨_, rfl, rfl⟩ | ⟨kind, _, _, rfl, t, j, word, _, _, rfl, way⟩⟩
  · exact .noReturn
  have word := word.of_kind (Decidable.not_not.1 kind)
  rcases way with ⟨_, rfl, rfl⟩ |
    ⟨_, ⟨u, _, semi, rfl, rfl⟩ | ⟨_, es, k, spelled, _, _, last, rfl, rfl⟩⟩
  · exact .bareReturn word
  · exact .bareReturnSemi word semi
  · rcases last with ⟨_, u, semi⟩ | ⟨_, rfl, _⟩
    · exact .returnsSemi word spelled semi
    · exact .returns word spelled

theorem block_reads (h : r.Reads c) : Reads c (block r) fun i b o => Spells i (.block b) o := by
  refine Reads.mono (head_reads.bind fun _ => now_reads.bind fun _ => (stats_reads h).bind fun _ =>
    pendingLabel_reads.bind fun _ => (returnStat_reads h).bind fun _ => now_reads.map _) ?_
  rintro i b o ⟨_, _, ⟨rfl, rfl⟩, _, _, ⟨rfl, rfl⟩, stats, j, spelled, label, _, ⟨rfl, pending⟩,
    rs, _, returns, _, rfl, rfl, rfl⟩
  rcases pending with rfl | ⟨mooc, depth, rfl⟩
  · rw [List.append_nil]
    exact .block spelled returns
  · exact .labelledBlock depth mooc spelled returns

theorem stat_reads (h : r.Reads c) : Reads c (stat r) fun i s o => Spells i (.stat s) o := by
  refine isMooc_bind_reads ?_
  cases dialect : c.dialect with
  | lua => exact luaStat_reads h dialect
  | mooc => exact moocStat_reads h dialect

end Parser

namespace Rules

variable {c : Text}

theorem exhausted_reads : exhausted.Reads c where
  block := Parser.tooDeep_reads.mono fun _ _ _ => False.elim
  stat := Parser.tooDeep_reads.mono fun _ _ _ => False.elim
  operation _ := Parser.tooDeep_reads.mono fun _ _ _ => False.elim
  functionBody _ := Parser.tooDeep_reads.mono fun _ _ _ => False.elim
  table := Parser.tooDeep_reads.mono fun _ _ _ => False.elim
  parenthesised := Parser.tooDeep_reads.mono fun _ _ _ => False.elim

theorem deepen_reads {r : Unit → Rules} (h : (r ()).Reads c) : (deepen r).Reads c where
  block := (Parser.block_reads h).nested
  stat := (Parser.stat_reads h).nested
  operation limit := (Parser.operation_reads h limit).nested
  functionBody style := (Parser.functionBody_reads h style).nested
  table := (Parser.table_reads h).nested
  parenthesised := h.exp.nested

theorem level_reads (n : Nat) : (level n).Reads c := by
  induction n with
  | zero => exact exhausted_reads
  | succ n inductionHypothesis => exact deepen_reads inductionHypothesis

end Rules

def Text.blank (settings : Settings) : Text where
  settings := settings
  tokens := []
  final := ⟨.eof, "", .synthetic⟩
  final_eof := rfl
  not_eof := nofun
  reserved := nofun
  start_le := nofun
  start_lt := nofun
  ordered := List.pairwise_singleton _ _

/-! ## The end of input -/

namespace Session

/-- None of the tokens ahead is the end of input. -/
def EndsOnce (s : Session) : Prop := ∀ r ∈ s.tokens.ahead, r.token.kind ≠ .eof

theorem Moves.endsOnce {s s' : Session} (h : Moves s s') (once : s.EndsOnce) : s'.EndsOnce :=
  fun r membership => once r (h.ahead_suffix.mem membership)

/-- The complaint that the end of input was expected. -/
def MissesEnd (errors : List Diagnostic) : Prop :=
  ∃ d ∈ errors, ∃ near, d.cause = .expected .eof near

/-- Reading has come to the end of input, and nothing is left to tell. -/
structure Finished (s : Session) : Prop where
  waiting : s.tokens.waiting = []
  comments : s.tokens.comments = s.tokens.final.after.comments

theorem complain_mem (cause : Cause) (span : Span) (s : Session) :
    Parser.Ends (Parser.complain cause span s) fun _ s' => { cause, span } ∈ s'.errors := by
  apply (Parser.syncBefore_ends _ s).bind
  intro _ s' _
  apply (Parser.record_ends _ s').mono
  rintro _ _ ⟨_, rfl⟩
  simp [errors, ErrorLog.push]

theorem recordAll_tokens (errors : List LexicalError) (s : Session) :
    Parser.Ends (Parser.recordAll errors s) fun _ s' => s'.tokens = s.tokens := by
  induction errors generalizing s with
  | nil => exact rfl
  | cons e rest inductionHypothesis =>
    apply (Parser.record_ends _ s).bind
    rintro _ _ ⟨_, rfl⟩
    exact inductionHypothesis _

theorem next_eof_finished {s : Session} (once : s.EndsOnce) :
    Parser.Ends (Parser.next s) fun token s' => token.kind = .eof → s'.Finished := by
  have taken : Parser.Ends (Parser.onTokens (·.next) s) fun token s' =>
      token = s.tokens.next.1 ∧ s'.tokens = s.tokens.next.2 := ⟨rfl, rfl⟩
  apply taken.bind
  rintro _ s₁ ⟨rfl, tokens⟩
  split
  next eof =>
    have exhausted : s₁.tokens.Exhausted := by
      rw [tokens]
      exact .next (TokenStream.ahead_eq_nil_of_next once eof)
    have errors : Parser.Ends (Parser.onTokens (·.takeErrors) s₁) fun errors s₂ =>
        errors = s₁.tokens.pending ∧ s₂.tokens = { s₁.tokens with pending := [] } := ⟨rfl, rfl⟩
    apply errors.bind
    rintro _ s₂ ⟨rfl, drained⟩
    apply (recordAll_tokens _ s₂).bind
    intro _ s₃ same _
    have drained : s₃.tokens = { s₁.tokens with pending := [] } := same.trans drained
    exact {
      waiting := by rw [drained]; exact exhausted.drained.waiting
      comments := by rw [drained]; exact exhausted.drained.comments }
  next more =>
    apply (Parser.syncBefore_ends _ s₁).bind
    intro _ _ _ eof
    exact absurd eof more

theorem expect_eof_finished {s : Session} (once : s.EndsOnce) :
    Parser.Ends (Parser.expect .eof s) fun _ s' => MissesEnd s'.errors ∨ s'.Finished := by
  apply (next_eof_finished once).bind
  intro token s' finished
  split
  next other =>
    apply (complain_mem (.expected .eof token.near) token.span s').bind
    intro _ s'' told
    exact .inl ⟨_, told, _, rfl⟩
  next eof => exact .inr (finished (Decidable.not_not.1 eof))

theorem expect_eof_ends {s : Session} (once : s.EndsOnce) :
    Parser.Ends (Parser.expect .eof s) fun _ s' =>
      s'.log.diagnostics.size = 0 → s'.tokens.waiting = [] := by
  apply (expect_eof_finished once).mono
  intro _ s' reached nothing
  cases reached with
  | inl missed =>
    obtain ⟨d, told, _⟩ := missed
    have some := List.length_pos_of_mem told
    rw [errors, Array.length_toList] at some
    omega
  | inr finished => exact finished.waiting

/-! ## Whole chunks -/

variable {c : Text} {r : Rules}

theorem chunk_reads (h : r.Reads c) : Parser.Reads c (chunk r) fun i b o =>
    ∃ m t, Spells i (.block b) m ∧ Takes .eof m t o := by
  refine Parser.Reads.mono
    (h.block.bind fun _ => (Parser.expect_reads .eof).bind fun _ => .pure _) ?_
  rintro i b o ⟨_, m, spelled, t, _, eof, rfl, rfl⟩
  exact ⟨m, t, spelled, eof⟩

theorem chunk_eof_ends (h : r.Reads c) (s : Session) (settings : s.settings = c.settings)
    (once : s.EndsOnce) : Parser.Ends (chunk r s) fun _ s' =>
      s'.log.diagnostics.size = 0 → s'.tokens.waiting = [] := by
  refine (h.block s settings).bind ?_
  rintro b s' ⟨moves, _⟩
  exact (expect_eof_ends (moves.endsOnce once)).bind fun _ _ nothing => nothing

/-- Where a chunk is read without a diagnostic, none had been recorded before and no lexical error
was waiting. -/
theorem chunk_clean_ends (h : r.Reads c) (s : Session) (settings : s.settings = c.settings)
    (once : s.EndsOnce) : Parser.Ends (chunk r s) fun _ s' => s'.log.diagnostics.size = 0 →
      s.log.diagnostics.size = 0 ∧ s.tokens.waiting = [] := by
  refine ((chunk_reads h s settings).and (chunk_eof_ends h s settings once)).mono ?_
  rintro b s' ⟨⟨moves, _⟩, nothing⟩ none
  have account := moves.account_sublist
  have empty : s'.account = [] := by
    simp [Session.account, nothing none, Array.eq_empty_of_size_eq_zero none]
  rw [empty, List.sublist_nil] at account
  simp only [Session.account, List.append_eq_nil_iff, List.map_eq_nil_iff] at account
  refine ⟨?_, account.2⟩
  rw [← Array.length_toList, account.1]
  rfl

/-- Only at the end of a text does the end of input stand next. -/
theorem ahead_of_eof {i o : Place c} {t : Token} (h : Takes .eof i t o) : i.ahead = [] := by
  cases tokens : i.ahead with
  | nil => rfl
  | cons t rest =>
    have first := c.not_eof t (i.mem (by simp [tokens]))
    have head := h.kind_eq
    simp [Place.head, Place.token, tokens, first] at head

/-- Where a source is read from: past a `#` line. -/
def opening (source : List UInt8) : Scanner := (Scanner.ofBytes source).skipShebang

theorem ofBytes_position (source : List UInt8) :
    (Scanner.ofBytes source).cursor.position = .start := by
  unfold Scanner.ofBytes Cursor.ofBytes
  dsimp only
  split <;> rfl

theorem opening_start_le (source : List UInt8) : .start ≤ (opening source).cursor.position := by
  rw [← ofBytes_position source]
  unfold opening Scanner.skipShebang
  split
  · exact Cursor.position_le_forward _ _
  · exact Position.le_refl _

/-- The session in which a fresh one reads its chunk. -/
def opened (source : List UInt8) (name : String) (settings : Settings) : Session where
  settings := settings
  tokens :=
    { dialect := settings.dialect
      taken := opening source
      ahead := ((opening source).run settings.dialect).1
      final := ((opening source).run settings.dialect).2 }
  scopes := .ofFile name
  log := { cap := settings.maxErrors }

theorem opened_eq (source : List UInt8) (name : String) (settings : Settings) :
    { start source name settings with
      tokens := (start source name settings).tokens.skipShebang } =
    opened source name settings := by
  unfold opened start TokenStream.ofBytes TokenStream.skipShebang opening Scanner.skipShebang
  dsimp only
  split
  next line =>
    rw [if_pos line.2]
    rfl
  next plain =>
    rw [if_neg fun line => plain ⟨rfl, line⟩]

end Session

/-- The text of a scan. -/
def Text.ofScan (settings : Settings) {s : Scanner} {tokens : List Scanned} {final : Scanned}
    (found : Scanner.Finds settings.dialect s tokens final) (start : .start ≤ s.cursor.position) :
    Text where
  settings := settings
  tokens := tokens.map (·.token)
  final := final.token
  final_eof := found.final_kind
  not_eof := found.not_eof
  reserved := List.forall_mem_map.2 (found.all fun s _ => s.scan_reserved _)
  start_le := by
    have after := found.start_le
    simpa using fun r membership =>
      Position.le_trans start (after r (List.mem_append_left _ membership))
  start_lt := found.start_lt
  ordered := found.ordered_tokens

def Text.first (c : Text) : Place c := ⟨.synthetic, c.tokens, List.suffix_rfl⟩

namespace Session

variable {source : List UInt8} {name : String} {settings : Settings}

theorem opened_endsOnce : (opened source name settings).EndsOnce :=
  (Scanner.run_finds settings.dialect (opening source)).all
    (P := fun r => r.token.kind ≠ .eof) fun _ more => more

/-- What a scanner finds is a text, and reading starts before its first token. -/
theorem scan_at (scanner : Scanner) (low : .start ≤ scanner.cursor.position) :
    ∃ c : Text, c.settings = settings ∧
      c.tokens = (scanner.run settings.dialect).1.map (·.token) ∧
      Session.At
        { settings, scopes := .ofFile name, log := { cap := settings.maxErrors },
          tokens :=
            { dialect := settings.dialect, taken := scanner,
              ahead := (scanner.run settings.dialect).1,
              final := (scanner.run settings.dialect).2 } } c.first := by
  have found := Scanner.run_finds settings.dialect scanner
  refine ⟨.ofScan settings found low, rfl, rfl, fun _ => ⟨?_, ?_⟩, ⟨?_, ?_⟩, rfl, rfl, rfl, found, ?_⟩
  · simp [ScopeStack.ofFile]
  · simp [ScopeStack.ofFile]
  · simp [ScopeStack.ofFile]
  · simp [ScopeStack.ofFile]
  · simp [TokenStream.waiting]

theorem opened_at : ∃ c : Text, c.settings = settings ∧
    c.tokens = ((opening source).run settings.dialect).1.map (·.token) ∧
      (opened source name settings).At c.first :=
  scan_at (opening source) (opening_start_le source)

theorem start_at : ∃ c : Text, c.settings = settings ∧
    c.tokens = ((Scanner.ofBytes source).run settings.dialect).1.map (·.token) ∧
      (start source name settings).At c.first :=
  scan_at (Scanner.ofBytes source) (ofBytes_position source ▸ Position.le_refl _)

/-- Where no lexical error waits, the tokens are those that a lexer gives. -/
theorem tokenize_of_waiting (clean : (opened source name settings).tokens.waiting = []) :
    tokenize source settings.dialect =
      .ok (((opening source).run settings.dialect).1.map (·.token)) := by
  have none : ((opening source).run settings.dialect).1.flatMap (·.errors) ++
      ((opening source).run settings.dialect).2.errors = [] := by
    simpa [opened, TokenStream.waiting, TokenStream.errorLists, List.flatMap_def] using clean
  unfold tokenize
  dsimp only
  rw [show ((Scanner.ofBytes source).skipShebang.run settings.dialect) =
    (opening source).run settings.dialect from rfl, none]

theorem analyze_start : (start source name settings).analyze.1 =
    match chunk (.level settings.maxNesting) (opened source name settings) with
    | .ok b s => ⟨b, s.tokens.comments, s.errors⟩
    | .error _ s => ⟨.empty, s.tokens.comments, s.errors⟩ := by
  have rules : (opened source name settings).rules = .level settings.maxNesting := rfl
  simp only [analyze, opened_eq, rules]
  cases chunk (.level settings.maxNesting) (opened source name settings) <;> rfl

/-- An analysis without diagnostics has found no lexical error, and its block is spelled by all
tokens of the source. -/
theorem analyze_spells (clean : (start source name settings).analyze.1.errors = []) :
    ∃ c : Text, c.settings = settings ∧ tokenize source settings.dialect = .ok c.tokens ∧
      ∃ o, o.ahead = [] ∧
        Spells c.first (.block (start source name settings).analyze.1.block) o := by
  have reads (c : Text) : (Rules.level settings.maxNesting).Reads c := Rules.level_reads _
  have quiet := chunk_clean_ends (reads (.blank settings)) (opened source name settings) rfl
    opened_endsOnce
  have empty {s : Session} (none : s.errors = []) : s.log.diagnostics.size = 0 := by
    rw [← Array.length_toList]
    exact congrArg List.length none
  rw [analyze_start] at clean ⊢
  cases result : chunk (.level settings.maxNesting) (opened source name settings) with
  | ok b s =>
    rw [result] at quiet clean
    obtain ⟨nothing, waiting⟩ := quiet (empty clean)
    obtain ⟨c, same, tokens, standing⟩ := @opened_at source name settings
    have leads := chunk_reads (reads c) (opened source name settings) same.symm
    rw [result] at leads
    obtain ⟨o, _, m, t, spelled, eof⟩ := leads.2 c.first standing ((empty clean).trans nothing.symm)
    exact ⟨c, same, tokens ▸ tokenize_of_waiting waiting, m, ahead_of_eof eof, spelled⟩
  | error _ s =>
    rw [result] at quiet clean
    exact absurd (empty clean) (Nat.pos_iff_ne_zero.1 quiet)

/-- An expression that is read without diagnostics is spelled by the tokens up to where reading ends. -/
theorem exp_spells {e : Exp} {s : Session} (read : (start source name settings).exp = (some e, s))
    (clean : s.errors = []) : ∃ c : Text, c.settings = settings ∧
      c.tokens = ((Scanner.ofBytes source).run settings.dialect).1.map (·.token) ∧
        ∃ o, s.At o ∧ Spells c.first (.exp e) o := by
  obtain ⟨c, same, tokens, standing⟩ := @start_at source name settings
  have leads := (Rules.level_reads settings.maxNesting).exp (start source name settings) same.symm
  have rules : (start source name settings).rules = .level settings.maxNesting := rfl
  unfold exp at read
  rw [rules] at read
  cases result : (Rules.level settings.maxNesting).exp (start source name settings) with
  | error _ t => simp [result] at read
  | ok a t =>
    rw [result] at leads read
    obtain ⟨rfl, rfl⟩ : a = e ∧ t = s := by simpa using read
    have size : t.log.diagnostics.size = 0 := by
      rw [← Array.length_toList]
      exact congrArg List.length clean
    obtain ⟨o, there, spelled⟩ := leads.2 c.first standing size
    exact ⟨c, same, tokens, o, there, spelled⟩

end Session

end LuaChunk
