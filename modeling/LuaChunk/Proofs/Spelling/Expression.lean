import LuaChunk.Parser.Block
import LuaChunk.Proofs.Spelling.Progress

/-!
# Expressions are spelled by the tokens taken

One reading lemma for each parser of expressions.  They rest on the readings of the level below,
which `Rules.Reads` gathers.
-/

set_option autoImplicit false

namespace LuaChunk

/-- What the rules of a level return is spelled by the tokens they take. -/
structure Rules.Reads (c : Text) (r : Rules) : Prop where
  block : Parser.Reads c r.block fun i b o => Spells i (.block b) o
  stat : Parser.Reads c r.stat fun i s o => Spells i (.stat s) o
  operation (limit : Nat) : Parser.Reads c (r.operation limit) fun i e o => Spells i (.exp e) o
  functionBody (style : FunctionStyle) :
    Parser.Reads c (r.functionBody style) fun i b o => Spells i (.functionBody style b) o
  table : Parser.Reads c r.table fun i e o => Spells i (.table e) o
  parenthesised : Parser.Reads c r.parenthesised fun i e o => Spells i (.exp e) o

theorem Rules.Reads.exp {c : Text} {r : Rules} (h : r.Reads c) :
    Parser.Reads c r.exp fun i e o => Spells i (.exp e) o :=
  h.operation 0

namespace Parser

variable {c : Text} {r : Rules} {σ : Type}

/-! ## Loops that extend a phrase -/

section Loops

variable {f : σ → Phrase} {step : σ → Parser (ForInStep σ)} {start : σ}

/-- A round of a loop extends the phrase and takes a token, or ends the loop with what it has. -/
def Extends (f : σ → Phrase) (x : σ) (m : Place c) (next : ForInStep σ) (o : Place c) : Prop :=
  (∃ y, next = .yield y ∧ o.ahead.length < m.ahead.length ∧
    ∀ i, Spells i (f x) m → Spells i (f y) o) ∨ (next = .done x ∧ o = m)

theorem Extends.yield {x y : σ} {kind : TokenKind} {t : Token} {m k o : Place c}
    (taken : Takes kind m t k) (more : kind ≠ .eof) (le : o.ahead.length ≤ k.ahead.length)
    (extend : ∀ i, Spells i (f x) m → Spells i (f y) o) : Extends f x m (.yield y) o := by
  have := taken.length more
  exact .inl ⟨y, rfl, by omega, extend⟩

theorem loop_readsIn {P : ScopeStack → Prop} (lasts : Lasts P)
    (h : ∀ x, ReadsIn P c (step x) (Extends f x)) :
    ReadsIn P c (iterate start step) fun m x o =>
      ∀ i, Spells i (f start) m → Spells i (f x) o := by
  refine (ReadsIn.iterate (J := fun m x o => ∀ i, Spells i (f start) m → Spells i (f x) o) lasts h
    (fun _ _ => id) ?_ ?_).mono ?_
  · rintro m x n y o kept (⟨_, equality, _, further⟩ | ⟨⟨⟩, _⟩) i first
    cases equality
    exact further i (kept i first)
  · rintro x m y o (⟨_, _, shorter, _⟩ | ⟨⟨⟩, _⟩)
    exact shorter
  · rintro m b o ⟨x, n, kept, ⟨_, ⟨⟩, _⟩ | ⟨equality, rfl⟩⟩
    cases equality
    exact kept

theorem loop_reads (h : ∀ x, Reads c (step x) (Extends f x)) :
    Reads c (iterate start step) fun m x o => ∀ i, Spells i (f start) m → Spells i (f x) o :=
  (loop_readsIn (fun _ _ _ _ => trivial) fun x => .of (h x)).reads

/-- A loop whose every further round takes a token of a kind and reads one more part. -/
theorem chain_reads {β : Type} (f : σ → Phrase) (push : σ → β → σ) (kind : TokenKind)
    (more : kind ≠ .eof) {p : Parser β} {R : Place c → β → Place c → Prop} (h : Reads c p R)
    (le : ∀ {k a o}, R k a o → o.ahead.length ≤ k.ahead.length)
    (extend : ∀ {x t a} {i m k o : Place c}, Spells i (f x) m → Takes kind m t k → R k a o →
      Spells i (f (push x a)) o) (x : σ) :
    Reads c (do if ← accepts kind then return .yield (push x (← p)) else return .done x)
      (Extends f x) := by
  refine (accepts_bind_reads kind (h.map fun a => ForInStep.yield (push x a))
    (Reads.pure (ForInStep.done x))).mono ?_
  rintro m next o (⟨t, k, taken, a, rfl, part⟩ | ⟨_, rfl, rfl⟩)
  · exact .yield taken more (le part) fun i spelled => extend spelled taken part
  · exact .inr ⟨rfl, rfl⟩

end Loops

/-! ## Lists and literals -/

theorem expList_reads (h : r.Reads c) :
    Reads c (expList r) fun i es o => Spells i (.exps es) o := by
  have round := chain_reads (fun es : Array Exp => .exps es.toList) Array.push .comma
    (by decide) h.exp Spells.length_le fun spelled comma part => by
      simpa using spelled.more comma part
  refine Reads.mono (h.exp.bind fun first => (loop_reads round).map Array.toList) ?_
  rintro i es o ⟨first, j, spelled, _, rfl, extended⟩
  exact extended i (.one spelled)

theorem numeral_reads :
    Reads c numeral fun i e o => i.head.kind = .number → Spells i (.exp e) o := by
  refine Reads.mono (next_reads.bind (T := fun t m e o =>
    ∀ i, Takes .number i t m → Spells i (.exp e) o) fun t => ?_) ?_
  · split
    next value read =>
      refine (Reads.pure _).mono ?_
      rintro m e o ⟨rfl, rfl⟩ i taken
      exact .integer taken read
    next value read =>
      refine (Reads.pure _).mono ?_
      rintro m e o ⟨rfl, rfl⟩ i taken
      exact .float taken read
    next => exact Reads.mono (complain_bind_reads (Reads.pure _)) fun _ _ _ => False.elim
  · rintro i e o ⟨t, m, taken, rest⟩ kind
    exact rest i (taken.of_kind kind)

/-! ## Functions -/

theorem moreParams_reads (read : Array Param × Bool) :
    Reads c (moreParams read) fun m next o =>
      (∃ t k n, Takes .comma m t k ∧ Takes .identifier k n o ∧
        next = .yield (read.1.push ⟨n.text, n.span⟩, false)) ∨
      (∃ t k u, Takes .comma m t k ∧ Takes .vararg k u o ∧ next = .done (read.1, true)) ∨
      (next = .done read ∧ o = m) := by
  refine Reads.mono (accepts_bind_reads .comma (peek_reads.bind fun kind => Reads.ite
    (fun _ => next_reads.map _) fun _ => (expect_reads .vararg).map _) (.pure _)) ?_
  rintro m next o (⟨t, k, comma, _, _, ⟨rfl, rfl⟩, ⟨name, n, rfl, taken⟩ | ⟨_, u, rfl, taken⟩⟩ |
    ⟨_, rfl, rfl⟩)
  · exact .inl ⟨t, _, n, comma, taken.of_kind name, rfl⟩
  · exact .inr (.inl ⟨t, _, u, comma, taken, rfl⟩)
  · exact .inr (.inr ⟨rfl, rfl⟩)

theorem paramNames_reads (first : Param) :
    Reads c (iterate (#[first], false) moreParams) fun m read o =>
      ∀ i, Spells i (.names [first]) m → Spells i (.params read.1.toList read.2) o := by
  refine Reads.mono (Reads.iterate (J := fun m read o => read.2 = false ∧
    ∀ i, Spells i (.names [first]) m → Spells i (.names read.1.toList) o)
    moreParams_reads (fun _ => ⟨rfl, fun _ => id⟩) ?_ ?_) ?_
  · rintro j ⟨names, isVararg⟩ m read o ⟨rfl, kept⟩
      (⟨t, k, n, comma, name, equality⟩ | ⟨_, _, _, _, _, ⟨⟩⟩ | ⟨⟨⟩, _⟩)
    cases equality
    exact ⟨rfl, fun i spelled => by simpa using (kept i spelled).moreNames comma name⟩
  · rintro x m y o (⟨t, k, n, comma, name, _⟩ | ⟨_, _, _, _, _, ⟨⟩⟩ | ⟨⟨⟩, _⟩)
    have := comma.length (by decide)
    have := name.length_le
    omega
  · rintro j read o ⟨⟨names, isVararg⟩, m, ⟨rfl, kept⟩,
      ⟨_, _, _, _, _, ⟨⟩⟩ | ⟨t, k, u, comma, vararg, equality⟩ | ⟨equality, rfl⟩⟩ i spelled
    · cases equality
      exact .lastVarargs (kept i spelled) comma vararg
    · cases equality
      exact .params (kept i spelled)

theorem params_reads : Reads c params fun i ps o => Spells i (.params ps.1 ps.2) o := by
  refine Reads.mono (peek_reads.bind fun kind => isMooc_reads.bind fun mooc => .ite
    (fun _ => .pure _) fun _ => .ite (fun _ => next_reads.bind fun t => .pure _)
    fun _ => expectName_reads.bind fun first => (paramNames_reads _).bind fun _ => .pure _) ?_
  rintro i ps o ⟨_, _, ⟨rfl, rfl⟩, mooc, _, ⟨_, rfl⟩, way⟩
  rcases way with ⟨_, rfl, rfl⟩ | ⟨_, ⟨kind, t, _, taken, rfl, rfl⟩ | ⟨_, first, m, name, way⟩⟩
  · exact .noParams
  · exact .varargs (taken.of_kind kind)
  · obtain ⟨read, _, extended, rfl, rfl⟩ := way
    exact extended _ (.oneName name)

theorem functionBody_reads (h : r.Reads c) (style : FunctionStyle) :
    Reads c (functionBody r style) fun i b o => Spells i (.functionBody style b) o := by
  have block : Reads c (within .function "function" r.block) _ := h.block.within _ _ nofun
  cases style with
  | ended =>
    refine Reads.mono ((expect_reads .lparen).bind fun _ => params_reads.bind fun _ =>
      ((expect_reads .rparen).bind fun _ => .pure _).bind fun _ => block.bind fun _ =>
      (expect_reads .kwEnd).bind fun _ => .pure _) ?_
    rintro i b o ⟨_, j, opening, ⟨names, isVararg⟩, k, params, _, l, ⟨_, m, closing, rfl, rfl⟩,
      block, _, body, _, _, word, rfl, rfl⟩
    exact .endedBody opening params closing body word
  | braced =>
    refine Reads.mono ((expect_reads .lparen).bind fun _ => params_reads.bind fun _ =>
      ((expect_reads .rparen).bind fun _ => (expect_reads .lbrace).bind fun _ => .pure _).bind
      fun _ => block.bind fun _ => (expect_reads .rbrace).bind fun _ => .pure _) ?_
    rintro i b o ⟨_, j, opening, ⟨names, isVararg⟩, k, params, _, l,
      ⟨_, m, closing, _, _, brace, rfl, rfl⟩, block, _, body, _, _, last, rfl, rfl⟩
    exact .bracedBody opening params closing brace body last
  | anonymous =>
    refine Reads.mono ((expect_reads .lbrace).bind fun _ => params_reads.bind fun _ =>
      ((expect_reads .kwIn).bind fun _ => .pure _).bind fun _ => block.bind fun _ =>
      (expect_reads .rbrace).bind fun _ => .pure _) ?_
    rintro i b o ⟨_, j, opening, ⟨names, isVararg⟩, k, params, _, l, ⟨_, m, word, rfl, rfl⟩,
      block, _, body, _, _, last, rfl, rfl⟩
    exact .anonymousBody opening params word body last

theorem functionExp_reads (h : r.Reads c) (style : FunctionStyle) (start : Span) :
    Reads c (functionExp r style start) fun i e o => ∃ body, Spells i (.functionBody style body) o ∧
      e = .function body (start.merge o.now) := by
  refine Reads.mono ((h.functionBody style).bind fun body => (since_reads start).map _) ?_
  rintro i e o ⟨body, m, spelled, _, rfl, rfl, rfl⟩
  exact ⟨body, spelled, rfl⟩

theorem atAnonymousFunction_reads : Reads c atAnonymousFunction fun i b o =>
    (b = true → c.dialect = .mooc) ∧ o = i := by
  refine Reads.mono (isMooc_reads.bind fun mooc => .ite (P := mooc = true)
    (fun _ => peekWhile_reads _ _) fun _ => .pure _) ?_
  rintro i b o ⟨mooc, _, ⟨dialect, rfl⟩, ⟨isMooc, rfl⟩ | ⟨_, rfl, rfl⟩⟩
  · exact ⟨fun _ => dialect.1 isMooc, rfl⟩
  · exact ⟨nofun, rfl⟩

/-! ## Tables -/

/-- An expression that is a name is spelled by that name alone. -/
theorem name_inv {i o : Place c} {text : String} {span : Span}
    (h : Spells i (.exp (.name text span)) o) :
    ∃ t, Takes .identifier i t o ∧ text = t.text ∧ span = t.span := by
  cases h with
  | prefixed h =>
    cases h with
    | name taken => exact ⟨_, taken, rfl, rfl⟩
  | tableExp h => cases h

theorem bracketedField_reads (h : r.Reads c) :
    Reads c (bracketedField r) fun j f o => ∀ i t, Takes .lbracket i t j →
      Spells i (.field f) o := by
  refine Reads.mono (h.exp.bind fun key => (expect_reads .rbracket).bind fun _ =>
    (expect_reads .assign).bind fun _ => h.exp.map _) ?_
  rintro j f o ⟨key, k, left, _, l, closing, _, m, assign, value, rfl, right⟩ i t opening
  exact .bracketed opening left closing assign right

theorem plainField_reads (h : r.Reads c) :
    Reads c (plainField r) fun i f o => Spells i (.field f) o := by
  refine Reads.mono (h.exp.bind (T := fun exp m f o =>
    ∀ i, Spells i (.exp exp) m → Spells i (.field f) o) fun exp => ?_) ?_
  · split
    next text span =>
      refine Reads.mono (accepts_bind_reads .assign (h.exp.map _) (.pure _)) ?_
      rintro m f o (⟨t, k, assign, value, rfl, right⟩ | ⟨_, rfl, rfl⟩) i spelled
      · obtain ⟨name, taken, rfl, rfl⟩ := name_inv spelled
        exact .named taken assign right
      · exact .positional spelled
    next =>
      refine (Reads.pure _).mono ?_
      rintro m f o ⟨rfl, rfl⟩ i spelled
      exact .positional spelled
  · rintro i f o ⟨exp, m, spelled, rest⟩
    exact rest i spelled

theorem atLiteralKey_reads : Reads c atLiteralKey fun i _ o => o = i := by
  refine Reads.mono ((peekPair_reads _ _).bind fun taken => .ite (P := taken = true)
    (fun _ => .pure _) fun _ => peekPair_reads _ _) ?_
  rintro i b o ⟨_, _, ⟨_, rfl⟩, ⟨_, _, rfl⟩ | ⟨_, _, rfl⟩⟩ <;> rfl

theorem not_mooc {d : Dialect} {mooc : Bool} (h : mooc = true ↔ d = .mooc)
    (other : (!mooc) = true) : d = .lua := by
  cases d <;> simp_all

theorem field_reads (h : r.Reads c) : Reads c (field r) fun i f o => Spells i (.field f) o := by
  refine Reads.mono (accepts_bind_reads .lbracket (bracketedField_reads h)
    (isMooc_reads.bind fun mooc => .ite (P := (!mooc) = true) (fun _ => plainField_reads h) fun _ =>
    atLiteralKey_reads.bind fun isKey => .ite (P := isKey = true) (fun _ => h.exp.bind fun key =>
      (expect_reads .assign).bind fun _ => h.exp.map _) fun _ =>
    (peekPair_reads .assign .identifier).bind fun isName => .ite (P := isName = true)
      (fun _ => next_reads.bind fun _ => expectName_reads.bind fun _ => .pure _)
      fun _ => plainField_reads h)) ?_
  rintro i f o (⟨t, j, opening, rest⟩ | ⟨_, mooc, _, ⟨dialect, rfl⟩, ⟨_, spelled⟩ | ⟨isMooc, rest⟩⟩)
  · exact rest i t opening
  · exact spelled
  · have mooc : c.dialect = .mooc := dialect.1 (by simpa using isMooc)
    rcases rest with ⟨isKey, _, rfl, ⟨_, key, j, left, t, k, assign, value, rfl, right⟩ | ⟨_, rest⟩⟩
    · exact .literalKey mooc left assign right
    · obtain ⟨isName, _, ⟨pair, rfl⟩, ⟨name, t, j, sign, n, k, name, rfl, rfl⟩ | ⟨_, spelled⟩⟩ :=
        rest
      · exact .shorthand mooc (sign.of_kind (pair.1 ‹_›).1) name
      · exact spelled

theorem moreFields_reads (h : r.Reads c) (fields : Array (Option Exp × Exp)) :
    Reads c (moreFields r fields) fun m next o => (next = .done fields ∧ o = m) ∨
      ∃ f k, Spells m (.field f) k ∧
        ((next = .done (fields.push f) ∧ o = k) ∨ (next = .yield (fields.push f) ∧
          ∃ t : Token, (t.kind = .comma ∨ t.kind = .semi) ∧ Takes t.kind k t o)) := by
  refine Reads.mono (peek_reads.bind fun _ => .ite (fun _ => .pure _) fun _ =>
    (field_reads h).bind fun f => peek_reads.bind fun _ => .ite
      (fun _ => next_reads.bind fun _ => .pure _) fun _ => .pure _) ?_
  rintro m next o ⟨_, _, ⟨rfl, rfl⟩, ⟨_, rfl, rfl⟩ | ⟨_, f, k, spelled, _, _, ⟨rfl, rfl⟩, way⟩⟩
  · exact .inl ⟨rfl, rfl⟩
  · refine .inr ⟨f, _, spelled, ?_⟩
    rcases way with ⟨kind, t, _, taken, rfl, rfl⟩ | ⟨_, rfl, rfl⟩
    · exact .inr ⟨rfl, t, taken.kind_eq ▸ kind, taken⟩
    · exact .inl ⟨rfl, rfl⟩

theorem fields_reads (h : r.Reads c) :
    Reads c (iterate #[] (moreFields r)) fun i fs o => Spells i (.fields fs.toList) o := by
  refine Reads.mono (Reads.iterate (J := fun i fs o => Spells i (.openFields fs.toList) o)
    (moreFields_reads h) (fun _ => .noFields) ?_ ?_) ?_
  · rintro i fs m y o kept (⟨⟨⟩, _⟩ | ⟨f, k, spelled, ⟨⟨⟩, _⟩ | ⟨equality, t, kind, taken⟩⟩)
    cases equality
    simpa using kept.separated spelled kind taken
  · rintro fs m y o (⟨⟨⟩, _⟩ | ⟨f, k, spelled, ⟨⟨⟩, _⟩ | ⟨_, t, kind, taken⟩⟩)
    have := spelled.length
    have := taken.length_le
    simp only [Phrase.least] at *
    omega
  · rintro i b o ⟨fs, m, kept, ⟨equality, rfl⟩ | ⟨f, k, spelled, ⟨equality, rfl⟩ | ⟨⟨⟩, _⟩⟩⟩
    · cases equality
      exact .closedFields kept
    · cases equality
      simpa using kept.lastField spelled

theorem table_reads (h : r.Reads c) : Reads c (table r) fun i e o => Spells i (.table e) o := by
  refine Reads.mono ((expect_reads .lbrace).bind fun _ => (fields_reads h).bind fun _ =>
    (expect_reads .rbrace).bind fun _ => (since_reads _).bind fun _ => get_reads.bind fun _ =>
    .pure _) ?_
  rintro i e o ⟨t, j, opening, fs, k, spelled, u, _, closing, _, _, ⟨rfl, rfl⟩, s, _, ⟨same, rfl⟩,
    rfl, rfl⟩
  rw [same]
  exact .table opening spelled closing

/-! ## Prefix expressions -/

theorem args_reads (h : r.Reads c) : Reads c (args r) fun i es o => Spells i (.args es) o := by
  refine Reads.mono (peek_reads.bind fun kind => isMooc_reads.bind fun mooc => .ite
    (fun _ => next_reads.bind fun _ => .pure _) fun _ => .ite (fun _ => h.table.map _) fun _ =>
    (expect_reads .lparen).bind fun _ => peek_reads.bind fun kind => .ite
      (fun _ => (expect_reads .rparen).bind fun _ => .pure _)
      fun _ => (expList_reads h).bind fun _ => (expect_reads .rparen).bind fun _ => .pure _) ?_
  rintro i es o ⟨_, _, ⟨rfl, rfl⟩, mooc, _, ⟨dialect, rfl⟩,
    ⟨kind, t, _, taken, rfl, rfl⟩ | ⟨_, way⟩⟩
  · exact .stringArg (not_mooc dialect kind.2) (taken.of_kind kind.1)
  rcases way with ⟨kind, e, rfl, spelled⟩ | ⟨_, t, j, opening, _, _, ⟨rfl, rfl⟩, way⟩
  · exact .tableArg (not_mooc dialect kind.2) spelled
  · rcases way with ⟨kind, u, _, closing, rfl, rfl⟩ | ⟨_, es, k, spelled, u, _, closing, rfl, rfl⟩
    · exact .noArgs opening closing
    · exact .args opening spelled closing

theorem atMethodCall_reads : Reads c atMethodCall fun i _ o => o = i := by
  refine Reads.mono (isMooc_reads.bind fun mooc => .ite (P := (!mooc) = true) (fun _ => .pure _)
    fun _ => now_reads.bind fun _ => (peekToken_reads 0).bind fun _ => (peekToken_reads 1).bind
      fun _ => (peekToken_reads 2).bind fun _ => .pure _) ?_
  rintro i b o ⟨_, _, ⟨_, rfl⟩, ⟨_, _, rfl⟩ | ⟨_, _, _, ⟨_, rfl⟩, _, _, ⟨_, rfl⟩, _, _, ⟨_, rfl⟩,
    _, _, ⟨_, rfl⟩, _, rfl⟩⟩ <;> rfl

theorem callOf_reads (h : r.Reads c) (callee : Exp) (method : Option Param) :
    Reads c (callOf r callee method) fun i e o => ∃ es, Spells i (.args es) o ∧
      e = .call ⟨callee, method, es⟩ (callee.span.merge o.now) := by
  refine Reads.mono ((args_reads h).bind fun es => (since_reads _).map _) ?_
  rintro i e o ⟨es, _, spelled, _, rfl, rfl, rfl⟩
  exact ⟨es, spelled, rfl⟩

theorem suffix_reads (h : r.Reads c) (e : Exp) :
    Reads c (suffix r e) (Extends .prefixExp e) := by
  have stays : Reads c (pure (ForInStep.done e)) (Extends .prefixExp e) :=
    (Reads.pure _).mono fun _ _ _ still => .inr still
  have calls : Reads c (do return .yield (← callOf r e none)) (Extends .prefixExp e) := by
    refine Reads.mono ((callOf_reads h e none).map ForInStep.yield) ?_
    rintro m next o ⟨_, rfl, es, spelled, rfl⟩
    exact .inl ⟨_, rfl, spelled.length, fun i before => .call before spelled⟩
  refine peek_bind_reads fun kind => ?_
  split
  · refine Reads.mono (next_reads.bind fun _ => expectName_reads.bind fun _ => .pure _) ?_
    rintro m next o ⟨t, k, dot, n, _, name, rfl, rfl⟩ kind
    have dot := dot.of_kind kind
    exact .yield dot (by decide) name.length_le fun i spelled => .dot spelled dot name
  · refine Reads.mono (next_reads.bind fun _ => h.exp.bind fun _ =>
      (expect_reads .rbracket).bind fun _ => (since_reads _).bind fun _ => .pure _) ?_
    rintro m next o ⟨t, k, bracket, key, l, key, u, _, closing, _, _, ⟨rfl, rfl⟩, rfl, rfl⟩ kind
    have bracket := bracket.of_kind kind
    exact .yield bracket (by decide) (Nat.le_trans closing.length_le key.length_le)
      fun i spelled => .index spelled bracket key closing
  · refine Reads.mono (atMethodCall_reads.bind fun isMethod => .ite (P := isMethod = true)
      (fun _ => next_reads.bind fun _ => expectName_reads.bind fun _ =>
        (callOf_reads h e _).map _) fun _ => .pure _) ?_
    rintro m next o ⟨_, _, rfl, ⟨_, t, k, colon, n, l, name, _, rfl, es, args, rfl⟩ |
      ⟨_, rfl, rfl⟩⟩ kind
    · have colon := colon.of_kind kind
      exact .yield colon (by decide) (Nat.le_trans args.length_le name.length_le)
        fun i spelled => .method spelled colon name args
    · exact .inr ⟨rfl, rfl⟩
  · exact calls.mono fun _ _ _ related _ => related
  · refine Reads.mono (isMooc_reads.bind fun mooc => .ite (P := mooc = true) (fun _ => stays)
      fun _ => calls) ?_
    rintro m next o ⟨_, _, ⟨_, rfl⟩, ⟨_, related⟩ | ⟨_, related⟩⟩ _ <;> exact related
  · refine Reads.mono (isMooc_reads.bind fun mooc => .ite (P := mooc = true) (fun _ => stays)
      fun _ => calls) ?_
    rintro m next o ⟨_, _, ⟨_, rfl⟩, ⟨_, related⟩ | ⟨_, related⟩⟩ _ <;> exact related
  · exact stays.mono fun _ _ _ related _ => related

theorem prefixExp_reads (h : r.Reads c) :
    Reads c (prefixExp r) fun i e o => Spells i (.prefixExp e) o := by
  refine peek_bind_reads fun kind => ?_
  split
  · refine Reads.mono (next_reads.bind fun _ => loop_reads (suffix_reads h)) ?_
    rintro i e o ⟨t, j, name, extended⟩ kind
    exact extended i (.name (name.of_kind kind))
  · refine Reads.mono (next_reads.bind fun _ => h.parenthesised.bind fun _ =>
      (expect_reads .rparen).bind fun _ => (since_reads _).bind fun _ =>
      loop_reads (suffix_reads h)) ?_
    rintro i e o ⟨t, j, opening, inner, k, spelled, u, l, closing, _, _, ⟨rfl, rfl⟩, extended⟩ kind
    exact extended i (.paren (opening.of_kind kind) spelled closing)
  · exact Reads.mono (next_reads.bind fun _ => complain_bind_reads (Reads.pure _))
      fun _ _ _ ⟨_, _, _, impossible⟩ => impossible.elim

theorem literal_reads (exp : Span → Exp) :
    Reads c (literal exp) fun i e o => ∃ t, Takes t.kind i t o ∧ e = exp t.span := by
  refine Reads.mono (next_reads.map _) ?_
  rintro i e o ⟨t, rfl, taken⟩
  exact ⟨t, taken, rfl⟩

theorem primary_reads (h : r.Reads c) :
    Reads c (primary r) fun i e o => Spells i (.exp e) o := by
  have lit (kind : TokenKind) (exp : Span → Exp)
      (rule : ∀ {i t} {o : Place c}, Takes kind i t o → Spells i (.exp (exp t.span)) o) :
      Reads c (literal exp) fun i e o => i.head.kind = kind → Spells i (.exp e) o := by
    refine Reads.mono (literal_reads exp) ?_
    rintro i e o ⟨t, taken, rfl⟩ kind
    exact rule (taken.of_kind kind)
  have simple : Reads c (prefixExp r) fun i e o => Spells i (.exp e) o :=
    (prefixExp_reads h).mono fun _ _ _ => .prefixed
  refine peek_bind_reads fun kind => ?_
  split
  · exact lit _ _ .vararg
  · exact lit _ _ .nil
  · exact lit _ _ .kwTrue
  · exact lit _ _ .kwFalse
  · refine Reads.mono (next_reads.bind fun _ => .pure _) ?_
    rintro i e o ⟨t, _, taken, rfl, rfl⟩ kind
    exact .string (taken.of_kind kind)
  · exact numeral_reads
  · refine Reads.mono (atAnonymousFunction_reads.bind fun isFunction =>
      .ite (P := isFunction = true)
      (fun _ => head_reads.bind fun _ => functionExp_reads h .anonymous _) fun _ => h.table) ?_
    rintro i e o ⟨_, _, ⟨mooc, rfl⟩, ⟨isFunction, _, _, ⟨rfl, rfl⟩, body, spelled, rfl⟩ |
      ⟨_, spelled⟩⟩ _
    · exact .anonymous (mooc isFunction) spelled
    · exact .tableExp spelled
  · refine Reads.mono (isMooc_reads.bind fun mooc => .ite (P := mooc = true) (fun _ => simple)
      fun _ => next_reads.bind fun _ => functionExp_reads h .ended _) ?_
    rintro i e o ⟨mooc, _, ⟨dialect, rfl⟩,
      ⟨_, spelled⟩ | ⟨other, t, j, word, body, spelled, rfl⟩⟩ kind
    · exact spelled
    · exact .function (not_mooc dialect (by simpa using other)) (word.of_kind kind) spelled
  · refine Reads.mono (next_reads.bind fun _ => functionExp_reads h .braced _) ?_
    rintro i e o ⟨t, j, word, body, spelled, rfl⟩ kind
    have word := word.of_kind kind
    exact .fn (word.proper.reserved (by decide)) word spelled
  · exact simple.mono fun _ _ _ spelled _ => spelled

/-! ## Operators -/

theorem operand_reads (h : r.Reads c) :
    Reads c (operand r) fun i e o => Spells i (.exp e) o := by
  refine peek_bind_reads fun kind => ?_
  split
  next op found =>
    refine Reads.mono (next_reads.bind fun _ => (h.operation _).bind fun _ =>
      (since_reads _).bind fun _ => .pure _) ?_
    rintro i e o ⟨t, j, sign, inner, _, spelled, _, _, ⟨rfl, rfl⟩, rfl, rfl⟩ kind
    exact .unary (by rw [sign.token_eq, kind, found]) sign spelled
  next => exact (primary_reads h).mono fun _ _ _ spelled _ => spelled

/-- One more operator with its right operand, for an operation that begins at the span. -/
theorem infixOp_reads (h : r.Reads c) (limit : Nat) (start : Span) (left : Exp) :
    Reads c (infixOp r limit start left) fun m next o =>
      (∃ op t k right, BinaryOp.ofToken? t.kind = some op ∧ limit < op.priority ∧
        Takes t.kind m t k ∧ Spells k (.exp right) o ∧
        next = .yield (.binary op left right (start.merge o.now))) ∨
      (next = .done left ∧ o = m) := by
  refine peek_bind_reads fun kind => ?_
  split
  next op found =>
    refine Reads.mono (.ite (fun _ => .pure _) fun _ => next_reads.bind fun _ =>
      (h.operation _).bind fun _ => (since_reads _).bind fun _ => .pure _) ?_
    rintro m next o (⟨_, rfl, rfl⟩ | ⟨above, t, k, sign, right, _, spelled, _, _, ⟨rfl, rfl⟩,
      rfl, rfl⟩) kind
    · exact .inr ⟨rfl, rfl⟩
    · exact .inl ⟨op, t, k, right, by rw [sign.token_eq, kind, found], by omega, sign, spelled, rfl⟩
  next => exact (Reads.pure _).mono fun _ _ _ still _ => .inr still

theorem operation_reads (h : r.Reads c) (limit : Nat) :
    Reads c (operation r limit) fun i e o => Spells i (.exp e) o := by
  refine Reads.mono (head_reads.bind fun start => (operand_reads h).bind fun first =>
    Reads.iterate (J := fun j left o => ∀ i, start = i.head.span → Spells i (.exp first) j →
      Spells i (.exp left) o) (infixOp_reads h limit start) (fun _ _ _ => id) ?_ ?_) ?_
  · rintro j left m y o kept (⟨op, t, k, right, found, _, sign, spelled, equality⟩ | ⟨⟨⟩, _⟩) i rfl
      first
    cases equality
    exact .binary (kept i rfl first) found sign spelled
  · rintro left m y o (⟨op, t, k, right, found, _, sign, spelled, _⟩ | ⟨⟨⟩, _⟩)
    have := sign.length (BinaryOp.ne_eof found)
    have := spelled.length_le
    omega
  · rintro i e o ⟨_, _, ⟨rfl, rfl⟩, first, j, spelled, left, m, kept,
      ⟨_, _, _, _, _, _, _, _, ⟨⟩⟩ | ⟨equality, rfl⟩⟩
    cases equality
    exact kept _ rfl spelled

end Parser

end LuaChunk
