import LuaChunk.Proofs.Lexer.Queue
import LuaChunk.Proofs.Reread.Basic

/-!
# Two sessions before the same words

A fragment stands in two texts, with other words behind it in the one than in the other.  Two
sessions are twins if they stand before the same words of such a fragment.  They need not have come
there on the same way: other places, other logs and other errors further ahead make no difference,
and a construct that is a branch for one of them may be a `guard` for the other.
-/

set_option autoImplicit false

namespace LuaChunk

open LuaChunk.Parser (touches)

/-! ## Open constructs -/

/-- A branch or the body of a `guard`: nothing that is read inside asks which. -/
def Marker.IsBranch (m : Marker) : Prop := m.kind = .branch ∨ m.kind = .guardBlock

/-- How the constructs that are open in two sessions may differ. -/
inductive Looseness
  /-- Not at all. -/
  | strict
  /-- The innermost construct is the same function.  What it stands in is not compared. -/
  | around
  /-- The innermost construct is the same. -/
  | same (outer : Looseness)
  /-- The innermost construct is a branch for the one, and for the other the body of a `guard` with
  this count. -/
  | branch (count : Nat) (outer : Looseness)

namespace Looseness

/-- Inside a function, or another construct where something is known of those around it. -/
def inside : Option Looseness → Looseness
  | none => around
  | some loose => same loose

/-- No difference as far as these constructs go. -/
def along : List Marker → Looseness
  | [] => strict
  | _ :: rest => same (along rest)

def IsStrict : Looseness → Prop
  | strict => True
  | same outer => outer.IsStrict
  | around | branch _ _ => False

theorem isStrict_along (ms : List Marker) : (along ms).IsStrict := by
  induction ms with
  | nil => trivial
  | cons _ _ inductionHypothesis => exact inductionHypothesis

end Looseness

/-- Markers that are the same, with such differences. -/
inductive Marker.Alike : Looseness → List Marker → List Marker → Prop
  | strict : Alike .strict [] []
  | around {ms ms' : List Marker} {m : Marker} : m.kind = .function →
      Alike .around (m :: ms) (m :: ms')
  | same {loose : Looseness} {ms ms' : List Marker} (m : Marker) :
      Alike loose ms ms' → Alike (.same loose) (m :: ms) (m :: ms')
  | branch {loose : Looseness} {ms ms' : List Marker} {m m' : Marker} {count : Nat} :
      m.kind = .branch → m'.kind = .guardBlock → m'.count = count → Alike loose ms ms' →
      Alike (.branch count loose) (m :: ms) (m' :: ms')

/-- As many loops are open in the same chunk, and the same constructs with such differences, if
anything is known of them. -/
structure ScopeStack.Parallel (loose : Option Looseness) (s s' : ScopeStack) : Prop where
  root : s'.root = s.root
  inner : ∀ known ∈ loose, Marker.Alike known s.inner s'.inner

namespace ScopeStack.Parallel

variable {loose : Looseness} {s s' : ScopeStack}

theorem refl (s : ScopeStack) : s.Parallel (some (.along s.inner)) s := by
  refine ⟨rfl, ?_⟩
  rintro _ ⟨⟩
  induction s.inner with
  | nil => exact .strict
  | cons m rest inductionHypothesis => exact .same m inductionHypothesis

/-- Inside a function nothing more need be known. -/
theorem pushFunction {loose : Option Looseness} (h : s.Parallel loose s') (name : String) :
    (s.push .function name).Parallel (some (.inside loose)) (s'.push .function name) := by
  refine ⟨h.root, ?_⟩
  rintro _ ⟨⟩
  cases loose with
  | none => exact .around rfl
  | some loose => exact .same _ (h.inner _ rfl)

theorem push (h : s.Parallel loose s') (kind : ScopeKind) (name : String) :
    (s.push kind name).Parallel (some (.same loose)) (s'.push kind name) := by
  refine ⟨?_, ?_⟩
  · simp [ScopeStack.push, h.root]
  · rintro _ ⟨⟩
    exact .same _ (h.inner _ rfl)

/-- The one enters a branch and the other a `guard`. -/
theorem pushBranch (h : s.Parallel loose s') (name name' : String) :
    (s.push .branch name).Parallel (some (.branch 0 loose)) (s'.push .guardBlock name') := by
  refine ⟨h.root, ?_⟩
  rintro _ ⟨⟩
  exact .branch rfl rfl rfl (h.inner _ rfl)

theorem pop {loose : Option Looseness} (h : s.Parallel (some (.inside loose)) s') :
    s.pop.2.Parallel loose s'.pop.2 := by
  obtain ⟨root, inner⟩ := s
  obtain ⟨root', inner'⟩ := s'
  obtain ⟨rfl, inner⟩ := h
  cases loose with
  | none =>
    cases inner _ rfl with
    | around function => exact ⟨by simp [ScopeStack.pop, function], nofun⟩
  | some loose =>
    cases inner _ rfl with
    | same m rest =>
      refine ⟨rfl, ?_⟩
      rintro _ ⟨⟩
      exact rest

theorem popBranch {count : Nat} (h : s.Parallel (some (.branch count loose)) s') :
    s.pop.2.Parallel loose s'.pop.2 := by
  obtain ⟨root, inner⟩ := s
  obtain ⟨root', inner'⟩ := s'
  obtain ⟨rfl, inner⟩ := h
  cases inner _ rfl with
  | branch first second _ rest =>
    refine ⟨by simp [ScopeStack.pop, first, second], ?_⟩
    rintro _ ⟨⟩
    exact rest

theorem openLoops {loose : Option Looseness} (h : s.Parallel loose s') :
    s'.openLoops = s.openLoops := by
  rw [ScopeStack.openLoops, ScopeStack.openLoops, h.root]

/-- The innermost construct is the same, or a branch. -/
theorem current (h : s.Parallel loose s') :
    s'.current = s.current ∨ s.current.IsBranch ∧ s'.current.IsBranch := by
  obtain ⟨root, inner⟩ := s
  obtain ⟨root', inner'⟩ := s'
  obtain ⟨rfl, inner⟩ := h
  cases inner _ rfl with
  | strict => exact .inl rfl
  | around => exact .inl rfl
  | same m _ => exact .inl rfl
  | branch first second => exact .inr ⟨.inl first, .inr second⟩

theorem current_same (h : s.Parallel (some (.same loose)) s') : s'.current = s.current := by
  obtain ⟨root, inner⟩ := s
  obtain ⟨root', inner'⟩ := s'
  obtain ⟨rfl, inner⟩ := h
  cases inner _ rfl with
  | same m _ => rfl

theorem pending_iff (h : s.Parallel loose s') :
    s'.current.kind = .loop ∧ 0 < s'.current.count ↔
      s.current.kind = .loop ∧ 0 < s.current.count := by
  rcases h.current with same | ⟨first, second⟩
  · rw [same]
  · rcases first with first | first <;> rcases second with second | second <;> simp [first, second]

theorem currentClass? (h : s.Parallel loose s') : s'.currentClass? = s.currentClass? := by
  unfold ScopeStack.currentClass?
  rcases h.current with same | ⟨first, second⟩
  · rw [same]
  · rcases first with first | first <;> rcases second with second | second <;> simp [first, second]

/-- A search inside the innermost function, for a construct that is no branch, passes over all
branches. -/
theorem find? (h : s.Parallel loose s') {kind : ScopeKind}
    (other : kind ≠ .branch ∧ kind ≠ .guardBlock) :
    s'.find? kind .function = s.find? kind .function := by
  have passes {m : Marker} (branch : m.IsBranch) (rest : List Marker) :
      nearest? kind .function (m :: rest) = nearest? kind .function rest := by
    have own : m.kind ≠ kind := by
      rcases branch with branch | branch <;> rw [branch]
      · exact other.1.symm
      · exact other.2.symm
    have stays : m.kind ≠ .function := by
      rcases branch with branch | branch <;> rw [branch] <;> decide
    simp [nearest?, own, stays]
  obtain ⟨root, inner⟩ := s
  obtain ⟨root', inner'⟩ := s'
  obtain ⟨rfl, inner⟩ := h
  replace inner := inner _ rfl
  change nearest? kind .function (inner' ++ [root']) = nearest? kind .function (_ ++ [root'])
  dsimp only at inner
  induction inner with
  | strict => rfl
  | around function => simp [nearest?, function]
  | same m _ inductionHypothesis => simp [nearest?, inductionHypothesis]
  | branch first second _ _ inductionHypothesis =>
    rw [List.cons_append, List.cons_append, passes (.inl first), passes (.inr second),
      inductionHypothesis]

theorem insideLoop (h : s.Parallel loose s') :
    s'.find? .loop .function = s.find? .loop .function :=
  h.find? (by decide)

/-- A `continue` marks the same loop. -/
theorem setFound (h : s.Parallel loose s') (count : Nat) :
    (s.setFound .loop .function count).Parallel loose (s'.setFound .loop .function count) := by
  obtain ⟨root, inner⟩ := s
  obtain ⟨root', inner'⟩ := s'
  obtain ⟨rfl, inner⟩ := h
  replace inner := inner _ rfl
  change (setNearest _ _ count root' _).Parallel loose (setNearest _ _ count root' inner')
  dsimp only at inner
  have known {loose : Looseness} {s s' : ScopeStack} (root : s'.root = s.root)
      (inner : Marker.Alike loose s.inner s'.inner) : s.Parallel loose s' :=
    ⟨root, by rintro _ ⟨⟩; exact inner⟩
  induction inner with
  | strict => exact known rfl .strict
  | around function =>
    unfold setNearest
    rw [if_neg (by rw [function]; decide), if_pos function, if_neg (by rw [function]; decide),
      if_pos function]
    exact known rfl (.around function)
  | same m rest inductionHypothesis =>
    unfold setNearest
    split
    · exact known rfl (.same _ rest)
    split
    · exact known rfl (.same _ rest)
    · exact known inductionHypothesis.root (.same _ (inductionHypothesis.inner _ rfl))
  | branch first second own _ inductionHypothesis =>
    unfold setNearest
    rw [if_neg (by rw [first]; decide), if_neg (by rw [first]; decide), if_neg (by rw [second]; decide),
      if_neg (by rw [second]; decide)]
    exact known inductionHypothesis.root
      (.branch first second own (inductionHypothesis.inner _ rfl))

/-- A `return` is noted in the same block. -/
theorem noteReturn {loose : Option Looseness} (h : s.Parallel (some (.inside loose)) s') :
    (Parser.noteReturn s).Parallel (some (.inside loose)) (Parser.noteReturn s') := by
  obtain ⟨root, inner⟩ := s
  obtain ⟨root', inner'⟩ := s'
  have whole := h
  obtain ⟨rfl, inner⟩ := h
  have noted {m : Marker} {ms ms' : List Marker} (block : Prop) [Decidable block]
      (before : Parallel (some (.inside loose)) ⟨root', m :: ms⟩ ⟨root', m :: ms'⟩)
      (after : Marker.Alike (.inside loose) ({ m with count := 1 } :: ms)
        ({ m with count := 1 } :: ms')) : Parallel (some (.inside loose))
        (if block then setCurrent ⟨root', m :: ms⟩ 1 else ⟨root', m :: ms⟩)
        (if block then setCurrent ⟨root', m :: ms'⟩ 1 else ⟨root', m :: ms'⟩) := by
    split
    · exact ⟨rfl, by rintro _ ⟨⟩; exact after⟩
    · exact before
  cases loose with
  | none => cases inner _ rfl with | around function => exact noted _ whole (.around function)
  | some loose => cases inner _ rfl with | same m rest => exact noted _ whole (.same _ rest)

/-- A `guard` counts the `return` that a branch does not. -/
theorem noteReturn_guard {count : Nat} (h : s.Parallel (some (.branch count loose)) s') :
    (Parser.noteReturn s).Parallel (some (.branch 1 loose)) (Parser.noteReturn s') := by
  obtain ⟨root, inner⟩ := s
  obtain ⟨root', inner'⟩ := s'
  obtain ⟨rfl, inner⟩ := h
  cases inner _ rfl with
  | branch first second _ rest =>
    simp only [Parser.noteReturn, ScopeStack.current, List.headD_cons, first, second]
    refine ⟨rfl, ?_⟩
    rintro _ ⟨⟩
    exact .branch first second rfl rest

/-- The count of a `guard` that stands for a branch. -/
theorem count_guard {count : Nat} (h : s.Parallel (some (.branch count loose)) s') :
    s'.current.count = count := by
  obtain ⟨root, inner⟩ := s
  obtain ⟨root', inner'⟩ := s'
  obtain ⟨rfl, inner⟩ := h
  cases inner _ rfl with
  | branch _ _ own _ => exact own

/-- Where they do not differ the constructs are the same. -/
theorem eq_of_strict (h : s.Parallel loose s') (strict : loose.IsStrict) : s' = s := by
  obtain ⟨root, inner⟩ := s
  obtain ⟨root', inner'⟩ := s'
  obtain ⟨rfl, inner⟩ := h
  replace inner := inner _ rfl
  refine congrArg (ScopeStack.mk root') ?_
  dsimp only at inner
  induction inner with
  | strict => rfl
  | around => cases strict
  | same m _ inductionHypothesis => rw [inductionHypothesis strict]
  | branch => cases strict

end ScopeStack.Parallel

/-! ## Words and what stands behind them -/

/-- Whether a colon and the tokens beside it touch, which decides on method calls in Mooc. -/
def colonBonds : List Token → List Bool
  | t :: u :: rest =>
    ((t.kind == .colon || u.kind == .colon) && touches t.span u.span) :: colonBonds (u :: rest)
  | _ => []

theorem colonBonds_tail {t t' : Token} {ts ts' : List Token} (length : ts.length = ts'.length)
    (h : colonBonds (t :: ts) = colonBonds (t' :: ts')) : colonBonds ts = colonBonds ts' := by
  cases ts with
  | nil => rw [List.length_eq_zero_iff.1 length.symm]
  | cons u rest =>
    cases ts' with
    | nil => cases length
    | cons u' rest' => exact (List.cons.inj h).2

/-- Where one of two tokens is a colon, they touch in both lists or in none. -/
theorem colonBonds_head {t t' u u' : Token} {ts ts' : List Token}
    (h : colonBonds (t :: u :: ts) = colonBonds (t' :: u' :: ts')) (first : t'.kind = t.kind)
    (second : u'.kind = u.kind) (colon : t.kind = .colon ∨ u.kind = .colon) :
    touches t.span u.span = touches t'.span u'.span := by
  have bond := (List.cons.inj h).1
  rw [first, second, show (t.kind == .colon || u.kind == .colon) = true by simpa using colon] at bond
  exact bond

/-- A token of this kind is not part of an operand that stands before it, nor of a pattern that is
looked for ahead. -/
def TokenKind.settles : TokenKind → Bool
  | .identifier | .vararg | .comma | .colon | .kwIn | .dot | .lparen | .lbracket | .lbrace
  | .string => false
  | _ => true

theorem TokenKind.isSuffix_of_settles {kind : TokenKind} (h : kind.settles = true) :
    kind.isSuffix = false := by
  cases kind <;> first | rfl | cases h

/-- What stands behind a fragment in two texts of a dialect.  Nothing goes on with an operand there, and
in the second text nothing is part of a pattern. -/
structure Frontier where
  dialect : Dialect
  first : List Word
  second : List Word
  first_stops : (nextKind first).isSuffix = false
  second_settles : (nextKind second).settles = true

namespace Frontier

/-- A token of the same kind follows. -/
def Same (w : Frontier) : Prop := nextKind w.first = nextKind w.second

/-- What follows ends an expression in both texts, or is of the same kind. -/
def Stops (w : Frontier) : Prop :=
  w.Same ∨ BinaryOp.ofToken? (nextKind w.first) = none ∧
    BinaryOp.ofToken? (nextKind w.second) = none

theorem Same.stops {w : Frontier} (h : w.Same) : w.Stops := .inl h

/-- A reading has not gone beyond the fragment, and up to its end only if it may end there. -/
def Within (w : Frontier) (ends : Prop) (t : Session) : Prop :=
  w.first.length < t.tokens.ahead.length ∨ w.first.length = t.tokens.ahead.length ∧ ends

namespace Within

variable {w : Frontier} {ends : Prop} {s t : Session}

theorem back (h : w.Within ends t) (moves : s.Moves t) : w.Within ends s := by
  have shrinks := moves.ahead_suffix.length_le
  rcases h with further | ⟨here, may⟩
  · exact .inl (by omega)
  · exact (Nat.lt_or_eq_of_le (by omega)).imp_right fun same => ⟨same, may⟩

/-- Before a further token has been taken there is some of the fragment left. -/
theorem before (h : w.Within ends t) (shorter : t.tokens.ahead.length < s.tokens.ahead.length) :
    w.Within False s := by
  refine .inl ?_
  rcases h with further | ⟨here, _⟩ <;> omega

end Within

end Frontier

/-- The tokens of a fragment that are ahead, when so many words of it are left. -/
def TokenStream.fragment (s : TokenStream) (length : Nat) : List Token :=
  (s.ahead.take length).map (·.token)

/-- The colon ahead touches what stands before and behind it, and a call of a method follows. -/
def TokenStream.beginsMethodCall (s : TokenStream) : Bool :=
  touches s.now (s.upcoming 0).token.span &&
    touches (s.upcoming 0).token.span (s.upcoming 1).token.span &&
    (s.upcoming 1).token.kind == .identifier && (s.upcoming 2).token.kind == .lparen

/-- Two sessions before the same words of a fragment.  The second meets no lexical error in it. -/
structure Session.Twins (w : Frontier) (loose : Option Looseness) (words : List Word)
    (s s' : Session) : Prop where
  dialect : s.settings.dialect = w.dialect
  dialect' : s'.settings.dialect = w.dialect
  fieldCap : s'.settings.fieldCap = s.settings.fieldCap
  scopes : s.scopes.Parallel loose s'.scopes
  ahead : s.tokens.ahead.map (·.token.word) = words ++ w.first
  ahead' : s'.tokens.ahead.map (·.token.word) = words ++ w.second
  final : s.tokens.final.token.kind = .eof
  tidy : s'.tokens.Tidy
  clean : ∀ r ∈ s'.tokens.ahead.take words.length, r.errors = []
  bonds : w.dialect = .mooc →
    colonBonds (s.tokens.fragment words.length) = colonBonds (s'.tokens.fragment words.length)
  link : w.dialect = .mooc → nextKind words = .colon →
    touches s.tokens.now (s.tokens.upcoming 0).token.span =
      touches s'.tokens.now (s'.tokens.upcoming 0).token.span

namespace TokenStream

variable {s : TokenStream} {r : Scanned} {rest : List Scanned}

/-- Nothing is to be recorded with a token that has no errors. -/
theorem Tidy.next_of_clean (h : s.Tidy) (ahead : s.ahead = r :: rest) (clean : r.errors = []) :
    s.next.2.Tidy ∧ s.next.2.takeErrorsBefore r.token.span.stop = ([], s.next.2) := by
  obtain ⟨position, taken, left, queue, cut, tidy⟩ := h.next ahead
  have later : ∀ e ∈ s.next.2.pending, ¬ e.span.start < r.token.span.stop := by
    intro e among early
    have waits : e ∈ s.next.2.waiting := List.mem_append_left _ among
    have further : e ∈ (errorLists s.next.2.final s.next.2.ahead).flatten := by
      rw [waiting_next] at waits
      have own := h.waiting.mem waits
      rw [ahead, errorLists, List.map_cons, List.cons_append, List.flatten_cons, clean,
        List.nil_append] at own
      rwa [ahead_next, final_next, ahead]
    refine Position.not_le.2 early ?_
    exact position ▸ (tidy.found.errors_lie e further).low_le
  have none := takeErrorsBefore_none later
  obtain ⟨rfl, same⟩ := Prod.ext_iff.1 (cut.symm.trans none)
  exact ⟨same ▸ tidy, none⟩

theorem next_fst (s : TokenStream) : s.next.1 = (s.upcoming 0).token := by
  cases ahead : s.ahead with
  | nil => rw [(next_of_ahead_eq_nil ahead).1, upcoming, ahead]; rfl
  | cons r rest => rw [(next_of_ahead_eq_cons ahead).1, upcoming, ahead]; rfl

theorem upcoming_kind_of_ahead {words : List Word} (ended : s.final.token.kind = .eof)
    (ahead : s.ahead.map (·.token.word) = words) (n : Nat) :
    (s.upcoming n).token.kind = (words[n]?.map Word.kind).getD .eof := by
  unfold upcoming
  rw [← ahead, List.getElem?_map]
  cases s.ahead[n]? with
  | none => exact ended
  | some r => rfl

end TokenStream

/-- Tokens ahead have been looked at, and nothing else. -/
inductive TokenStream.Looked (s : TokenStream) : TokenStream → Prop
  | refl : Looked s s
  | look {u : TokenStream} (count : Nat) : Looked s u → Looked s (u.look count)

namespace TokenStream.Looked

variable {s u : TokenStream}

theorem ahead (h : s.Looked u) : u.ahead = s.ahead := by
  induction h with
  | refl => rfl
  | look count _ inductionHypothesis => rw [ahead_look, inductionHypothesis]

theorem upcoming (h : s.Looked u) (n : Nat) : u.upcoming n = s.upcoming n := by
  induction h with
  | refl => rfl
  | look count _ inductionHypothesis => rw [upcoming_look, inductionHypothesis]

theorem final (h : s.Looked u) : u.final = s.final := by
  induction h with
  | refl => rfl
  | look count _ inductionHypothesis => rw [final_look, inductionHypothesis]

theorem moves {s : Session} (h : s.tokens.Looked u) : s.Moves { s with tokens := u } := by
  induction h with
  | refl => exact .refl s
  | @look u count _ inductionHypothesis =>
    exact .trans inductionHypothesis (.look { s with tokens := u } count)

end TokenStream.Looked

namespace TokenStream

variable {ask : TokenKind → Verdict} {words rest rest' : List Word} {ahead ahead' : List Scanned}

/-- A search that ends inside these words does not depend on what stands behind them. -/
theorem judge_congr (decided : ∃ x ∈ words, ask x.kind ≠ .proceed)
    (same : ahead.map (·.token.word) = words ++ rest)
    (same' : ahead'.map (·.token.word) = words ++ rest') (count : Nat) :
    (judge ask ahead count).1 = (judge ask ahead' count).1 := by
  induction words generalizing ahead ahead' count with
  | nil => simp at decided
  | cons x words inductionHypothesis =>
    obtain ⟨r, ahead, rfl, head, same⟩ := List.map_eq_cons_iff.1 same
    obtain ⟨r', ahead', rfl, head', same'⟩ := List.map_eq_cons_iff.1 same'
    have kind : r.token.kind = x.kind := congrArg Word.kind head
    have kind' : r'.token.kind = x.kind := congrArg Word.kind head'
    simp only [judge, kind, kind']
    cases verdict : ask x.kind with
    | proceed =>
      have later : ∃ y ∈ words, ask y.kind ≠ .proceed := by simpa [verdict] using decided
      exact inductionHypothesis later same same' (count + 1)
    | accept | reject => rfl

/-- A search that comes to the end of these words is rejected behind them. -/
theorem judge_of_proceeds (proceeds : ∀ x ∈ words, ask x.kind = .proceed)
    (same : ahead.map (·.token.word) = words ++ rest) (rejects : ask (nextKind rest) = .reject)
    (count : Nat) : (judge ask ahead count).1 = false := by
  induction words generalizing ahead count with
  | nil =>
    cases ahead with
    | nil => rfl
    | cons r more =>
      rw [← List.nil_append rest, ← same] at rejects
      have kind : ask r.token.kind = .reject := rejects
      rw [judge, kind]
  | cons x words inductionHypothesis =>
    obtain ⟨r, ahead, rfl, head, same⟩ := List.map_eq_cons_iff.1 same
    have kind : r.token.kind = x.kind := congrArg Word.kind head
    simp only [judge, kind, proceeds x (.head _)]
    exact inductionHypothesis (fun y among => proceeds y (.tail _ among)) same (count + 1)

end TokenStream

theorem nextKind_eq (words : List Word) : nextKind words = (words[0]?.map Word.kind).getD .eof := by
  cases words <;> rfl

namespace Session.Twins

variable {w : Frontier} {loose : Option Looseness} {words : List Word} {s s' : Session}

theorem final' (h : s.Twins w loose words s') : s'.tokens.final.token.kind = .eof :=
  h.tidy.found.final_kind

theorem kind (h : s.Twins w loose words s') :
    (s.tokens.upcoming 0).token.kind = nextKind (words ++ w.first) := by
  rw [nextKind_eq, TokenStream.upcoming_kind_of_ahead h.final h.ahead]

theorem kind' (h : s.Twins w loose words s') :
    (s'.tokens.upcoming 0).token.kind = nextKind (words ++ w.second) := by
  rw [nextKind_eq, TokenStream.upcoming_kind_of_ahead h.final' h.ahead']

/-- Inside the fragment the same token is ahead. -/
theorem kind_of_lt (h : s.Twins w loose words s') {n : Nat} (inside : n < words.length) :
    (s'.tokens.upcoming n).token.kind = (s.tokens.upcoming n).token.kind := by
  rw [TokenStream.upcoming_kind_of_ahead h.final h.ahead,
    TokenStream.upcoming_kind_of_ahead h.final' h.ahead', List.getElem?_append_left inside,
    List.getElem?_append_left inside]

/-- Right behind the fragment the second finds what is settled. -/
theorem settles (h : s.Twins w loose words s') :
    (s'.tokens.upcoming words.length).token.kind.settles = true := by
  rw [TokenStream.upcoming_kind_of_ahead h.final' h.ahead',
    List.getElem?_append_right (Nat.le_refl _), Nat.sub_self, ← nextKind_eq]
  exact w.second_settles

theorem length (h : s.Twins w loose words s') :
    s.tokens.ahead.length = words.length + w.first.length := by
  simpa using congrArg List.length h.ahead

theorem length' (h : s.Twins w loose words s') :
    s'.tokens.ahead.length = words.length + w.second.length := by
  simpa using congrArg List.length h.ahead'

theorem ne_nil (h : s.Twins w loose words s') (inside : w.Within False s) : words ≠ [] := by
  rintro rfl
  have length := h.length
  rcases inside with further | ⟨_, ⟨⟩⟩
  rw [length, List.length_nil] at further
  omega

/-- Nothing of the fragment is left. -/
theorem ends_of_nil {ends : Prop} (h : s.Twins w loose [] s') (within : w.Within ends s) : ends := by
  have length := h.length
  rcases within with further | ⟨_, may⟩
  · rw [length, List.length_nil] at further
    omega
  · exact may

theorem look (h : s.Twins w loose words s') (count count' : Nat) :
    Session.Twins w loose words { s with tokens := s.tokens.look count }
      { s' with tokens := s'.tokens.look count' } where
  dialect := h.dialect
  dialect' := h.dialect'
  fieldCap := h.fieldCap
  scopes := h.scopes
  ahead := by simpa using h.ahead
  ahead' := by simpa using h.ahead'
  final := by simpa using h.final
  tidy := h.tidy.look count'
  clean := by simpa using h.clean
  bonds := by simpa [TokenStream.fragment] using h.bonds
  link := by simpa using h.link

theorem looked {u u' : TokenStream} (h : s.Twins w loose words s') (first : s.tokens.Looked u)
    (second : s'.tokens.Looked u') :
    Session.Twins w loose words { s with tokens := u } { s' with tokens := u' } := by
  induction first with
  | refl =>
    induction second with
    | refl => exact h
    | look count _ inductionHypothesis => exact inductionHypothesis.look 0 count
  | look count _ inductionHypothesis => exact inductionHypothesis.look count 0

theorem withScopes {loose' : Option Looseness} (h : s.Twins w loose words s')
    {scopes scopes' : ScopeStack} (parallel : scopes.Parallel loose' scopes') :
    Session.Twins w loose' words { s with scopes := scopes } { s' with scopes := scopes' } :=
  ⟨h.dialect, h.dialect', h.fieldCap, parallel, h.ahead, h.ahead', h.final, h.tidy, h.clean,
    h.bonds, h.link⟩

/-- The depth is counted apart. -/
theorem withDepth (h : s.Twins w loose words s') (depth depth' : Nat) :
    Session.Twins w loose words { s with depth := depth } { s' with depth := depth' } :=
  ⟨h.dialect, h.dialect', h.fieldCap, h.scopes, h.ahead, h.ahead', h.final, h.tidy, h.clean,
    h.bonds, h.link⟩

/-- The tokens that both sessions take next. -/
theorem heads {word : Word} (h : s.Twins w loose (word :: words) s') :
    ∃ r rest r' rest', s.tokens.ahead = r :: rest ∧ s'.tokens.ahead = r' :: rest' ∧
      r.token.word = word ∧ r'.token.word = word ∧ r'.errors = [] := by
  obtain ⟨r, rest, ahead, first, -⟩ := List.map_eq_cons_iff.1 h.ahead
  obtain ⟨r', rest', ahead', second, -⟩ := List.map_eq_cons_iff.1 h.ahead'
  exact ⟨r, rest, r', rest', ahead, ahead', first, second, h.clean r' (by simp [ahead'])⟩

/-- After a token has been taken the colons ahead are still bound alike. -/
theorem bonds_next {r r' : Scanned} {rest rest' : List Scanned} {word : Word}
    (h : s.Twins w loose (word :: words) s') (ahead : s.tokens.ahead = r :: rest)
    (ahead' : s'.tokens.ahead = r' :: rest') (mooc : w.dialect = .mooc) :
    colonBonds (s.tokens.next.2.fragment words.length) =
        colonBonds (s'.tokens.next.2.fragment words.length) ∧
      (nextKind words = .colon →
        touches r.token.span (s.tokens.next.2.upcoming 0).token.span =
          touches r'.token.span (s'.tokens.next.2.upcoming 0).token.span) := by
  have length := h.length
  have length' := h.length'
  have bonds := h.bonds mooc
  have later := h.ahead
  have later' := h.ahead'
  simp only [TokenStream.fragment, ahead, ahead', List.length_cons, List.take_succ_cons,
    List.map_cons, List.cons_append, List.cons.injEq] at length length' bonds later later'
  have left : s.tokens.next.2.ahead = rest := by rw [TokenStream.ahead_next, ahead, List.tail_cons]
  have left' : s'.tokens.next.2.ahead = rest' := by
    rw [TokenStream.ahead_next, ahead', List.tail_cons]
  refine ⟨?_, fun colon => ?_⟩
  · simp only [TokenStream.fragment, left, left']
    refine colonBonds_tail ?_ bonds
    simp only [List.length_map, List.length_take]
    omega
  · cases words with
    | nil => cases colon
    | cons x more =>
      obtain ⟨q, rest, rfl, first, -⟩ := List.map_eq_cons_iff.1 later.2
      obtain ⟨q', rest', rfl, second, -⟩ := List.map_eq_cons_iff.1 later'.2
      simp only [TokenStream.upcoming, left, left', List.getElem?_cons_zero, Option.getD_some]
      have kind : q.token.kind = x.kind := congrArg Word.kind first
      have kind' : q'.token.kind = x.kind := congrArg Word.kind second
      have same : r'.token.kind = r.token.kind :=
        congrArg Word.kind (later'.1.trans later.1.symm)
      exact colonBonds_head bonds same (kind'.trans kind.symm) (.inr (kind.trans colon))

theorem next {word : Word} (h : s.Twins w loose (word :: words) s') :
    Session.Twins w loose words { s with tokens := s.tokens.next.2 }
      { s' with tokens := s'.tokens.next.2 } := by
  obtain ⟨r, rest, r', rest', ahead, ahead', first, second, clean⟩ := h.heads
  have left := s.tokens.ahead_next
  have left' := s'.tokens.ahead_next
  rw [ahead, List.tail_cons] at left
  rw [ahead', List.tail_cons] at left'
  have later := h.ahead
  have later' := h.ahead'
  rw [ahead, List.map_cons, List.cons_append, List.cons.injEq] at later
  rw [ahead', List.map_cons, List.cons_append, List.cons.injEq] at later'
  exact {
    dialect := h.dialect
    dialect' := h.dialect'
    fieldCap := h.fieldCap
    scopes := h.scopes
    ahead := left ▸ later.2
    ahead' := left' ▸ later'.2
    final := by rw [TokenStream.final_next]; exact h.final
    tidy := (h.tidy.next_of_clean ahead' clean).1
    clean := fun r among => h.clean r (by
      rw [left'] at among
      rw [ahead', List.length_cons, List.take_succ_cons]
      exact .tail _ among)
    bonds := fun mooc => (h.bonds_next ahead ahead' mooc).1
    link := fun mooc => by
      rw [TokenStream.now_next, TokenStream.now_next, (TokenStream.next_of_ahead_eq_cons ahead).1,
        (TokenStream.next_of_ahead_eq_cons ahead').1]
      exact (h.bonds_next ahead ahead' mooc).2 }

/-- A colon and the word behind it touch for both, or for none. -/
theorem touches_colon {x y : Word} (h : s.Twins w loose (x :: y :: words) s')
    (mooc : w.dialect = .mooc) (colon : x.kind = .colon) :
    touches (s.tokens.upcoming 0).token.span (s.tokens.upcoming 1).token.span =
      touches (s'.tokens.upcoming 0).token.span (s'.tokens.upcoming 1).token.span := by
  have bonds := h.bonds mooc
  have same := h.kind_of_lt (n := 0) (by simp)
  have next := h.kind_of_lt (n := 1) (by simp)
  have first : (s.tokens.upcoming 0).token.kind = x.kind := h.kind
  obtain ⟨r, _, ahead, -, later⟩ := List.map_eq_cons_iff.1 h.ahead
  obtain ⟨q, _, rfl, -, -⟩ := List.map_eq_cons_iff.1 later
  obtain ⟨r', _, ahead', -, later'⟩ := List.map_eq_cons_iff.1 h.ahead'
  obtain ⟨q', _, rfl, -, -⟩ := List.map_eq_cons_iff.1 later'
  simp only [TokenStream.fragment, TokenStream.upcoming, ahead, ahead', List.length_cons,
    List.take_succ_cons, List.map_cons, List.getElem?_cons_zero, List.getElem?_cons_succ,
    Option.getD_some] at bonds same next first ⊢
  exact colonBonds_head bonds same next (.inl (first.trans colon))

/-- Whether the colon ahead begins a method call is the same for both, unless the first takes it for
one that goes beyond the fragment. -/
theorem beginsMethodCall (h : s.Twins w loose words s') (mooc : w.dialect = .mooc)
    (colon : nextKind words = .colon)
    (within : s.tokens.beginsMethodCall = true → 3 ≤ words.length) :
    s'.tokens.beginsMethodCall = s.tokens.beginsMethodCall := by
  have link := h.link mooc colon
  have kinds := fun n => h.kind_of_lt (n := n)
  have behind := h.settles
  match words, colon with
  | [_], _ =>
    have none : s.tokens.beginsMethodCall = false := Bool.eq_false_iff.2 fun found =>
      absurd (within found) (by decide : ¬ 3 ≤ 1)
    have name : ((s'.tokens.upcoming 1).token.kind == .identifier) = false :=
      beq_false_of_ne fun same => by simp [same, TokenKind.settles] at behind
    rw [none, TokenStream.beginsMethodCall, name]
    simp
  | [_, _], _ =>
    have none : s.tokens.beginsMethodCall = false := Bool.eq_false_iff.2 fun found =>
      absurd (within found) (by decide : ¬ 3 ≤ 2)
    have paren : ((s'.tokens.upcoming 2).token.kind == .lparen) = false :=
      beq_false_of_ne fun same => by simp [same, TokenKind.settles] at behind
    rw [none, TokenStream.beginsMethodCall, paren]
    simp
  | x :: y :: z :: rest, colon =>
    unfold TokenStream.beginsMethodCall
    rw [link, h.touches_colon mooc colon, kinds 1 (by simp), kinds 2 (by simp)]

/-- A search ahead comes to the same end: the second finds no part of a pattern behind the fragment,
and the first does not look there if it takes what ends the pattern. -/
theorem peekWhile (h : s.Twins w loose words s') {start : TokenKind} {ask : TokenKind → Verdict}
    (first : start.settles = false) (rejects : ∀ kind, kind.settles = true → ask kind = .reject)
    (within : (s.tokens.peekWhile start ask).1 = true → ∃ x ∈ words.tail, ask x.kind ≠ .proceed) :
    (s.tokens.peekWhile start ask).1 = (s'.tokens.peekWhile start ask).1 := by
  cases words with
  | nil =>
    have none : (s.tokens.peekWhile start ask).1 = false :=
      Bool.eq_false_iff.2 fun found => absurd (within found) (by simp)
    have here : (s'.tokens.upcoming 0).token.kind ≠ start := fun same => by
      have settles := h.settles
      rw [List.length_nil, same, first] at settles
      cases settles
    rw [none, TokenStream.peekWhile, if_neg here]
  | cons x rest =>
    obtain ⟨r, ahead, before, -, same⟩ := List.map_eq_cons_iff.1 h.ahead
    obtain ⟨r', ahead', before', -, same'⟩ := List.map_eq_cons_iff.1 h.ahead'
    unfold TokenStream.peekWhile at within ⊢
    rw [h.kind_of_lt (n := 0) (by simp)]
    split at within
    next begins =>
      rw [if_pos begins, if_pos begins]
      rw [before] at within ⊢
      rw [before']
      by_cases decided : ∃ x ∈ rest, ask x.kind ≠ .proceed
      · exact TokenStream.judge_congr decided same same' 1
      · have none : (TokenStream.judge ask ahead 1).1 = false :=
          Bool.eq_false_iff.2 fun found => decided (within found)
        have none' : (TokenStream.judge ask ahead' 1).1 = false :=
          TokenStream.judge_of_proceeds (fun x among => Decidable.not_not.1 fun stops =>
            decided ⟨x, among, stops⟩) same' (rejects _ w.second_settles) 1
        exact none.trans none'.symm
    next other => rw [if_neg other, if_neg other]

/-- Two words of the fragment are left before a token of it is taken and another is still ahead. -/
theorem two_le (h : s.Twins w loose words s') {t : Session} (inside : w.Within False t)
    (shorter : t.tokens.ahead.length < s.tokens.ahead.length) : 2 ≤ words.length := by
  have length := h.length
  rcases inside with further | ⟨_, ⟨⟩⟩
  omega

/-- A search for two tokens tells the same where two words of the fragment are left. -/
theorem peekPair (h : s.Twins w loose words s') (two : 2 ≤ words.length)
    (first second : TokenKind) :
    (s'.tokens.peekPair first second).1 = (s.tokens.peekPair first second).1 := by
  unfold TokenStream.peekPair
  rw [h.kind_of_lt (n := 0) (by omega), h.kind_of_lt (n := 1) (by omega)]
  split <;> rfl

end Session.Twins

end LuaChunk
