import LuaChunk.Proofs.Reread.Basic
import Mathlib.Data.List.Forall2

/-!
# Goes of single words

How the parsers that every other parser is made of run over known words, each with what is done
next: looking ahead tells the next word, and taking a token takes it.
-/

set_option autoImplicit false

namespace LuaChunk.Parser.Goes

variable {α β σ : Type} {c : Bounds} {scopes : ScopeStack} {words rest : List Word} {w : Word}
  {F G : Prop} {P : α → Prop} {Q : β → Prop}

/-! ## What is only looked at -/

theorem peek_bind {f : TokenKind → Parser β} (k : Goes c scopes words (f (nextKind words)) F rest Q) :
    Goes c scopes words (peek >>= f) F rest Q := by
  have looks : Goes c scopes words peek True words (· = nextKind words) :=
    fun _ faces => ⟨fun _ => ⟨faces.kind, faces.look 1⟩, fun never => absurd trivial never⟩
  refine looks.andThen ?_
  rintro _ rfl
  exact k

theorem isMooc_bind {f : Bool → Parser β} (k : Goes c scopes words (f false) F rest Q) :
    Goes c scopes words (isMooc >>= f) F rest Q := by
  have asks : Goes c scopes words isMooc True words (· = false) := by
    refine fun s faces => ⟨fun _ => ⟨?_, faces⟩, fun never => absurd trivial never⟩
    rw [faces.lua]
    rfl
  refine asks.andThen ?_
  rintro _ rfl
  exact k

theorem dialect_bind {f : Dialect → Parser β} (k : Goes c scopes words (f .lua) F rest Q) :
    Goes c scopes words (dialect >>= f) F rest Q := by
  have asks : Goes c scopes words dialect True words (· = .lua) :=
    fun s faces => ⟨fun _ => ⟨faces.lua, faces⟩, fun never => absurd trivial never⟩
  refine asks.andThen ?_
  rintro _ rfl
  exact k

theorem head_bind {f : Span → Parser β} (k : ∀ span, Goes c scopes words (f span) F rest Q) :
    Goes c scopes words (head >>= f) F rest Q := by
  have looks : Goes c scopes words head True words fun _ => True :=
    fun _ faces => ⟨fun _ => ⟨trivial, faces.look 1⟩, fun never => absurd trivial never⟩
  exact looks.andThen fun span _ => k span

theorem now_bind {f : Span → Parser β} (k : ∀ span, Goes c scopes words (f span) F rest Q) :
    Goes c scopes words (now >>= f) F rest Q := by
  have looks : Goes c scopes words now True words fun _ => True :=
    fun _ faces => ⟨fun _ => ⟨trivial, faces⟩, fun never => absurd trivial never⟩
  exact looks.andThen fun span _ => k span

theorem since_bind {start : Span} {f : Span → Parser β}
    (k : ∀ span, Goes c scopes words (f span) F rest Q) :
    Goes c scopes words (since start >>= f) F rest Q := by
  have looks : Goes c scopes words (since start) True words fun _ => True :=
    fun _ faces => ⟨fun _ => ⟨trivial, faces⟩, fun never => absurd trivial never⟩
  exact looks.andThen fun span _ => k span

theorem get_bind {f : Session → Parser β}
    (k : ∀ s : Session, s.Faces c scopes words → Goes c scopes words (f s) F rest Q) :
    Goes c scopes words (get >>= f) F rest Q := by
  have looks : Goes c scopes words (get : Parser Session) True words
      (fun s => s.Faces c scopes words) :=
    fun _ faces => ⟨fun _ => ⟨faces, faces⟩, fun never => absurd trivial never⟩
  exact looks.andThen k

theorem scopes_bind {f : ScopeStack → Parser β}
    (k : ∀ s : ScopeStack, s.Alike scopes → s.Quiet → Goes c scopes words (f s) F rest Q) :
    Goes c scopes words (Parser.scopes >>= f) F rest Q := by
  have looks : Goes c scopes words Parser.scopes True words
      (fun s => s.Alike scopes ∧ s.Quiet) :=
    fun _ faces => ⟨fun _ => ⟨⟨faces.scopes, faces.quiet⟩, faces⟩,
      fun never => absurd trivial never⟩
  exact looks.andThen fun s known => k s known.1 known.2

theorem noteReturn_bind {f : Unit → Parser β} (file : scopes.root.kind = .file)
    (k : Goes c scopes words (f ()) F rest Q) :
    Goes c scopes words (onScopes noteReturn >>= f) F rest Q := by
  have notes : Goes c scopes words (onScopes noteReturn) True words fun _ => True :=
    fun _ faces => ⟨fun _ => ⟨trivial, faces.withScopes (faces.scopes.noteReturn file)
      faces.quiet.noteReturn⟩, fun never => absurd trivial never⟩
  exact notes.andThen fun _ _ => k

theorem syncBefore_run (p : Position) :
    Goes c scopes words (syncBefore p) True words fun _ => True := by
  refine fun s faces => ⟨fun _ => ?_, fun never => absurd trivial never⟩
  change Arrived c scopes words _ (EStateM.bind (onTokens (·.takeErrorsBefore p)) recordAll s)
  simp only [EStateM.bind, onTokens, TokenStream.takeErrorsBefore_of_waiting faces.waiting p]
  exact ⟨trivial, faces⟩

/-- Below the deepest level the first complaint is the only one. -/
theorem tooDeep_run : Goes c scopes words (tooDeep : Parser α) False rest P := by
  have stops (span : Span) (s : Session) (faces : s.Faces c scopes words) :
      OutOfLevels ((do record { cause := .tooManyLevels, span }; throw .tooDeep : Parser α) s) := by
    change OutOfLevels (EStateM.bind (record { cause := .tooManyLevels, span }) _ s)
    unfold EStateM.bind record ErrorLog.report
    rw [faces.log]
    by_cases room : (#[] : Array Diagnostic).size < c.errors
    · simp only [if_pos room]
      rfl
    · simp only [if_neg room]
      rfl
  have deeper : Goes c scopes words
      (modify fun s : Session => { s with depth := s.depth + 1 } : Parser PUnit) True words
      fun _ => True :=
    fun s faces => ⟨fun _ => ⟨trivial, faces.depth _⟩, fun never => absurd trivial never⟩
  refine deeper.andThen fun _ _ => head_bind fun span => ?_
  simp only [complain, bind_assoc]
  refine (syncBefore_run _).andThen fun _ _ => ?_
  exact fun s faces => ⟨False.elim, fun _ => stops span s faces⟩

/-! ## Taking words -/

theorem next_bind {f : Token → Parser β} (more : w.kind ≠ .eof)
    (k : ∀ t : Token, t.word = w → Goes c scopes words (f t) F rest Q) :
    Goes c scopes (w :: words) (next >>= f) F rest Q := by
  have take : Goes c scopes (w :: words) (onTokens (·.next)) True words (·.word = w) :=
    fun _ faces => ⟨fun _ => ⟨faces.next_fst, faces.next⟩, fun never => absurd trivial never⟩
  have takes : Goes c scopes (w :: words) next True words (·.word = w) := by
    refine take.andThen fun t word => ?_
    have more : t.kind ≠ .eof := by rwa [← word] at more
    dsimp only
    rw [if_neg more]
    exact (syncBefore_run _).andThen fun _ _ => .pure word
  exact takes.andThen k

theorem expect_bind {kind : TokenKind} {f : Token → Parser β} (same : w.kind = kind)
    (more : kind ≠ .eof) (k : ∀ t : Token, t.word = w → Goes c scopes words (f t) F rest Q) :
    Goes c scopes (w :: words) (expect kind >>= f) F rest Q := by
  have takes : Goes c scopes (w :: words) (expect kind) True words (·.word = w) := by
    refine next_bind (same ▸ more) fun t word => ?_
    have kind : t.kind = kind := (congrArg Word.kind word).trans same
    dsimp only
    rw [if_neg (not_not.2 kind)]
    exact .pure word
  exact takes.andThen k

theorem expectName_bind {name : String} {f : Token → Parser β}
    (k : ∀ t : Token, t.text = name → Goes c scopes words (f t) F rest Q) :
    Goes c scopes (⟨.identifier, name⟩ :: words) (expectName >>= f) F rest Q := by
  have takes : Goes c scopes (⟨.identifier, name⟩ :: words) expectName True words
      (·.text = name) := by
    refine next_bind (by simp) fun t word => ?_
    have kind : t.kind = .identifier := congrArg Word.kind word
    dsimp only
    rw [if_neg (not_not.2 kind)]
    exact .pure (congrArg Word.text word)
  exact takes.andThen k

theorem accept_bind {kind : TokenKind} {f : Option Token → Parser β} (same : w.kind = kind)
    (more : kind ≠ .eof)
    (k : ∀ t : Token, t.word = w → Goes c scopes words (f (some t)) F rest Q) :
    Goes c scopes (w :: words) (accept kind >>= f) F rest Q := by
  have takes : Goes c scopes (w :: words) (accept kind) True words
      fun taken => ∃ t, taken = some t ∧ t.word = w := by
    refine peek_bind ?_
    rw [nextKind_cons, if_pos same]
    exact next_bind (same ▸ more) fun t word => .pure ⟨t, rfl, word⟩
  refine takes.andThen ?_
  rintro _ ⟨t, rfl, word⟩
  exact k t word

theorem accept_none_bind {kind : TokenKind} {f : Option Token → Parser β}
    (other : nextKind words ≠ kind) (k : Goes c scopes words (f none) F rest Q) :
    Goes c scopes words (accept kind >>= f) F rest Q := by
  have stays : Goes c scopes words (accept kind) True words (· = none) := by
    refine peek_bind ?_
    rw [if_neg other]
    exact .pure rfl
  refine stays.andThen ?_
  rintro _ rfl
  exact k

theorem accepts_bind {kind : TokenKind} {f : Bool → Parser β} (same : w.kind = kind)
    (more : kind ≠ .eof) (k : Goes c scopes words (f true) F rest Q) :
    Goes c scopes (w :: words) (accepts kind >>= f) F rest Q := by
  have takes : Goes c scopes (w :: words) (accepts kind) True words (· = true) :=
    accept_bind same more fun t _ => .pure rfl
  refine takes.andThen ?_
  rintro _ rfl
  exact k

theorem accepts_none_bind {kind : TokenKind} {f : Bool → Parser β}
    (other : nextKind words ≠ kind) (k : Goes c scopes words (f false) F rest Q) :
    Goes c scopes words (accepts kind >>= f) F rest Q := by
  have stays : Goes c scopes words (accepts kind) True words (· = false) :=
    accept_none_bind other (.pure rfl)
  refine stays.andThen ?_
  rintro _ rfl
  exact k

/-- After the last word stands the end of input, and nothing waits there. -/
theorem expect_eof : Goes c scopes [] (expect .eof) True [] fun _ => True := by
  have take : Goes c scopes [] (onTokens (·.next)) True [] (·.kind = .eof) := by
    refine fun s faces => ⟨fun _ => ⟨?_, faces.next⟩, fun never => absurd trivial never⟩
    have none := List.map_eq_nil_iff.1 faces.ahead
    exact (congrArg Token.kind (TokenStream.next_of_ahead_eq_nil none).1).trans faces.final
  have drain : Goes c scopes [] (onTokens (·.takeErrors)) True [] (· = []) := by
    refine fun s faces => ⟨fun _ => ?_, fun never => absurd trivial never⟩
    simp only [onTokens, TokenStream.takeErrors_of_waiting faces.waiting]
    exact ⟨rfl, faces⟩
  have takes : Goes c scopes [] next True [] (·.kind = .eof) := by
    refine take.andThen fun t last => ?_
    rw [if_pos last]
    refine drain.andThen ?_
    rintro _ rfl
    exact .pure last
  refine takes.andThen fun t last => ?_
  rw [if_neg (not_not.2 last)]
  exact .pure trivial

/-! ## Loops -/

/-- The rounds of a loop from some state on, however many the clock grants beyond those needed. -/
def Rounds (c : Bounds) (scopes : ScopeStack) (words : List Word)
    (step : σ → Parser (ForInStep σ)) (x : σ) (F : Prop) (rest : List Word) (P : σ → Prop) : Prop :=
  ∀ clock : List Scanned, words.length ≤ clock.length →
    Goes c scopes words (iterateFor step clock x) F rest P

section Loops

variable {step : σ → Parser (ForInStep σ)} {x : σ} {mid : List Word} {P Q : σ → Prop}

theorem iterate (h : Rounds c scopes words step x F rest P) :
    Goes c scopes words (Parser.iterate x step) F rest P := by
  refine get_bind fun s faces => h s.tokens.ahead ?_
  rw [← faces.ahead, List.length_map]

theorem Rounds.done (h : Goes c scopes words (step x) F rest fun n => ∃ y, n = .done y ∧ P y) :
    Rounds c scopes words step x F rest P := by
  intro clock _
  cases clock with
  | nil | cons =>
    refine (h.bind fun next ends => ?_).congr (and_iff_left trivial)
    obtain ⟨y, rfl, result⟩ := ends
    exact .pure result

theorem Rounds.yield (h : Goes c scopes words (step x) F mid fun n => ∃ y, n = .yield y ∧ Q y)
    (less : mid.length < words.length)
    (k : ∀ y, Q y → Rounds c scopes mid step y G rest P) :
    Rounds c scopes words step x (F ∧ G) rest P := by
  intro clock long
  cases clock with
  | nil => exact absurd (Nat.lt_of_lt_of_le less long) (Nat.not_lt_zero _)
  | cons r clock =>
    refine h.bind ?_
    rintro _ ⟨y, rfl, result⟩
    exact k y result clock (Nat.le_of_lt_succ (Nat.lt_of_lt_of_le less long))

theorem Rounds.mono {P' : σ → Prop} (h : Rounds c scopes words step x F rest P)
    (sub : ∀ y, P y → P' y) : Rounds c scopes words step x F rest P' :=
  fun clock long => (h clock long).mono sub

theorem Rounds.congr (h : Rounds c scopes words step x F rest P) (same : F ↔ G) :
    Rounds c scopes words step x G rest P :=
  fun clock long => (h clock long).congr same

/-- A loop that takes one item after the other and then goes on with what is left.  The invariant
is about the items taken so far and the state. -/
theorem Rounds.each {ι : Type} (item : ι → List Word) {fits : ι → Prop} (I : List ι → σ → Prop)
    {items : List ι} (some : ∀ y ∈ items, item y ≠ [])
    (round : ∀ taken y later, taken ++ y :: later = items → ∀ z, I taken z →
      Goes c scopes (item y ++ (later.flatMap item ++ mid)) (step z) (fits y)
        (later.flatMap item ++ mid) fun n => ∃ z', n = .yield z' ∧ I (taken ++ [y]) z')
    (last : ∀ z, I items z → Rounds c scopes mid step z G rest P) (start : I [] x) :
    Rounds c scopes (items.flatMap item ++ mid) step x ((∀ y ∈ items, fits y) ∧ G) rest P := by
  have go (taken later : List ι) (whole : taken ++ later = items) (z : σ) (holds : I taken z) :
      Rounds c scopes (later.flatMap item ++ mid) step z ((∀ y ∈ later, fits y) ∧ G) rest P := by
    induction later generalizing taken z with
    | nil =>
      have all : taken = items := by simpa using whole
      simpa using last z (all ▸ holds)
    | cons y later inductionHypothesis =>
      have own := round taken y later whole z holds
      have shorter : (later.flatMap item ++ mid).length <
          (item y ++ (later.flatMap item ++ mid)).length := by
        have taken := List.length_pos_of_ne_nil (some y (whole ▸ by simp))
        simp only [List.length_append]
        omega
      have whole : (taken ++ [y]) ++ later = items := by simpa using whole
      have rounds := Rounds.yield own shorter fun z' => inductionHypothesis (taken ++ [y]) whole z'
      simpa [and_assoc] using rounds
  exact go [] items rfl x start

/-- A loop that adds what it reads of each item to an array. -/
theorem Rounds.pushes {ι α : Type} {step : Array α → Parser (ForInStep (Array α))}
    (item : ι → List Word) {G : ι → Prop} {R : ι → α → Prop} {items : List ι} {z : Array α}
    (some : ∀ y ∈ items, item y ≠ [])
    (round : ∀ taken y later, taken ++ y :: later = items → ∀ z,
      Goes c scopes (item y ++ (later.flatMap item ++ rest)) (step z) (G y)
        (later.flatMap item ++ rest) fun n => ∃ a, n = .yield (z.push a) ∧ R y a)
    (last : ∀ z, Goes c scopes rest (step z) True rest (· = .done z)) :
    Rounds c scopes (items.flatMap item ++ rest) step z (∀ y ∈ items, G y) rest
      fun z' => ∃ as, z'.toList = z.toList ++ as ∧ List.Forall₂ R items as := by
  refine (Rounds.each item (fun taken z' => ∃ as, z'.toList = z.toList ++ as ∧
    List.Forall₂ R taken as) some (fun taken y later whole z' holds => ?_) (fun z' holds => ?_)
    ⟨[], by simp, .nil⟩).congr (and_iff_left trivial)
  · obtain ⟨as, same, all⟩ := holds
    refine (round taken y later whole z').mono ?_
    rintro _ ⟨a, rfl, own⟩
    refine ⟨_, rfl, as ++ [a], by simp [same], List.rel_append all (.cons own .nil)⟩
  · refine .done ((last z').mono ?_)
    rintro _ rfl
    exact ⟨z', rfl, holds⟩

end Loops

end LuaChunk.Parser.Goes
