import LuaChunk.Proofs.Control.Scopes
import LuaChunk.Proofs.Layout.Printable
import LuaChunk.Proofs.Lexer.Words
import LuaChunk.Proofs.Parser.Primitives
import LuaChunk.Parser.Block

/-!
# Goes over known words

A session that faces known words of Lua, without anything recorded so far, is run by a parser: if
the levels of nesting suffice, the parser takes the words up to some place and returns a result of
which something is known, and otherwise the analysis is stopped for want of levels.
-/

set_option autoImplicit false

namespace LuaChunk

/-! ## Open constructs -/

/-- The same constructs are open, whatever has been noted in them. -/
structure ScopeStack.Alike (s σ : ScopeStack) : Prop where
  root : s.root = σ.root
  kinds : s.inner.map (·.kind) = σ.inner.map (·.kind)

namespace ScopeStack.Alike

variable {s σ : ScopeStack}

theorem refl (s : ScopeStack) : s.Alike s := ⟨rfl, rfl⟩

theorem push (h : s.Alike σ) (kind : ScopeKind) (name : String) :
    (s.push kind name).Alike (σ.push kind name) := by
  constructor
  · simp [ScopeStack.push, h.root]
  · simp [ScopeStack.push, h.kinds]

theorem pop {kind : ScopeKind} {name : String} (h : s.Alike (σ.push kind name)) :
    s.pop.2.Alike σ := by
  obtain ⟨root, inner⟩ := s
  obtain ⟨same, kinds⟩ := h
  cases inner with
  | nil => simp [ScopeStack.push] at kinds
  | cons m rest =>
    have popped := congrArg Prod.snd (pop_push σ kind name)
    simp only [ScopeStack.push, List.map_cons, List.cons.injEq] at kinds
    obtain ⟨own, kinds⟩ := kinds
    dsimp only at same
    refine ⟨?_, kinds⟩
    simp only [ScopeStack.pop, own, same]
    exact congrArg ScopeStack.root popped

theorem noteReturn (file : σ.root.kind = .file) (h : s.Alike σ) :
    (Parser.noteReturn s).Alike σ := by
  obtain ⟨root, inner⟩ := s
  have same := h.root
  unfold Parser.noteReturn
  split
  next block =>
    cases inner with
    | nil =>
      dsimp only at same
      simp [ScopeStack.current, same, file] at block
    | cons m rest => exact ⟨h.root, h.kinds⟩
  next => exact h

theorem insideLoop {w : Site} (h : s.Alike σ) (follows : σ.Follows w) :
    (s.find? .loop .function).isSome = true ↔ w.InLoop :=
  (follows.of_kinds h.root h.kinds).find_loop

end ScopeStack.Alike

/-! ## Sessions before known words -/

/-- What is asked of the tree that has been written, and how many errors are kept. -/
structure Bounds extends Demand where
  errors : Nat

/-- The session reads Lua and stands before some words, inside some constructs; nothing has been
recorded, and nothing waits. -/
structure Session.Faces (c : Bounds) (σ : ScopeStack) (words : List Word) (s : Session) :
    Prop where
  lua : s.settings.dialect = .lua
  fields : c.fields ≤ s.settings.tableFieldLimit
  scopes : s.scopes.Alike σ
  quiet : s.scopes.Quiet
  ahead : s.tokens.ahead.map (·.token.word) = words
  final : s.tokens.final.token.kind = .eof
  waiting : s.tokens.waiting = []
  log : s.log = { cap := c.errors }

/-- A field, an index or a call begins with it. -/
def TokenKind.isSuffix : TokenKind → Bool
  | .dot | .lbracket | .colon | .lparen | .string | .lbrace => true
  | _ => false

/-- The kind of the next word. -/
def nextKind : List Word → TokenKind
  | [] => .eof
  | w :: _ => w.kind

@[simp]
theorem nextKind_cons (w : Word) (words : List Word) : nextKind (w :: words) = w.kind := rfl

namespace Session.Faces

variable {c : Bounds} {σ : ScopeStack} {words : List Word} {w : Word} {s : Session}

theorem look (h : s.Faces c σ words) (count : Nat) :
    Session.Faces c σ words { s with tokens := s.tokens.look count } where
  lua := h.lua
  fields := h.fields
  scopes := h.scopes
  quiet := h.quiet
  ahead := by simp [h.ahead]
  final := by simp [h.final]
  waiting := by simp [h.waiting]
  log := h.log

theorem kind (h : s.Faces c σ words) : (s.tokens.upcoming 0).token.kind = nextKind words := by
  rw [← h.ahead]
  unfold TokenStream.upcoming
  cases s.tokens.ahead with
  | nil => exact h.final
  | cons r rest => rfl

theorem next_fst (h : s.Faces c σ (w :: words)) : s.tokens.next.1.word = w := by
  have looked := (h.look 1).ahead
  unfold TokenStream.next
  dsimp only at looked ⊢
  cases ahead : (s.tokens.look 1).ahead with
  | nil =>
    rw [ahead] at looked
    cases looked
  | cons r more =>
    rw [ahead, List.map_cons, List.cons.injEq] at looked
    exact looked.1

theorem next (h : s.Faces c σ words) :
    Session.Faces c σ words.tail { s with tokens := s.tokens.next.2 } where
  lua := h.lua
  fields := h.fields
  scopes := h.scopes
  quiet := h.quiet
  ahead := by
    have ahead := congrArg List.tail h.ahead
    rwa [← List.map_tail, ← s.tokens.ahead_next] at ahead
  final := (congrArg (·.token.kind) s.tokens.final_next).trans h.final
  waiting := s.tokens.waiting_next.trans h.waiting
  log := h.log

/-- The depth is counted apart. -/
theorem depth (h : s.Faces c σ words) (depth : Nat) :
    Session.Faces c σ words { s with depth := depth } :=
  ⟨h.lua, h.fields, h.scopes, h.quiet, h.ahead, h.final, h.waiting, h.log⟩

theorem withScopes {σ' : ScopeStack} {scopes : ScopeStack} (h : s.Faces c σ words)
    (alike : scopes.Alike σ') (quiet : scopes.Quiet) :
    Session.Faces c σ' words { s with scopes := scopes } :=
  ⟨h.lua, h.fields, alike, quiet, h.ahead, h.final, h.waiting, h.log⟩

end Session.Faces

namespace Parser

variable {α β σ : Type}

/-! ## Goes -/

/-- A run ends before some words, with a result of which something is known. -/
def Arrived (c : Bounds) (scopes : ScopeStack) (rest : List Word) (P : α → Prop) :
    EStateM.Result Abort Session α → Prop
  | .ok a s => P a ∧ s.Faces c scopes rest
  | .error _ _ => False

/-- A run is stopped for want of levels, and nothing else has been complained of. -/
def OutOfLevels : EStateM.Result Abort Session α → Prop
  | .ok _ _ => False
  | .error _ s => s.log.diagnostics.toList.map (·.cause) = [.tooManyLevels]

/-- Before some words the parser returns, up to other words, if something fits, and otherwise it
stops the analysis. -/
def Goes (c : Bounds) (scopes : ScopeStack) (words : List Word) (p : Parser α) (fits : Prop)
    (rest : List Word) (P : α → Prop) : Prop :=
  ∀ s : Session, s.Faces c scopes words →
    (fits → Arrived c scopes rest P (p s)) ∧ (¬ fits → OutOfLevels (p s))

theorem OutOfLevels.bind {p : Parser α} {f : α → Parser β} {s : Session}
    (h : OutOfLevels (p s)) : OutOfLevels ((p >>= f) s) := by
  change OutOfLevels (EStateM.bind p f s)
  unfold EStateM.bind
  revert h
  cases p s with
  | ok => exact False.elim
  | error => exact id

namespace Goes

variable {c : Bounds} {scopes : ScopeStack} {words mid rest : List Word} {p : Parser α}
  {f : α → Parser β} {F G : Prop} {P : α → Prop} {Q : β → Prop}

theorem pure {a : α} (result : P a) : Goes c scopes words (Pure.pure a) True words P :=
  fun _ faces => ⟨fun _ => ⟨result, faces⟩, fun never => absurd trivial never⟩

theorem bind (h : Goes c scopes words p F mid P)
    (k : ∀ a, P a → Goes c scopes mid (f a) G rest Q) :
    Goes c scopes words (p >>= f) (F ∧ G) rest Q := by
  intro s faces
  obtain ⟨returns, stops⟩ := h s faces
  by_cases fit : F
  · have ends := returns fit
    change (_ → Arrived c scopes rest Q (EStateM.bind p f s)) ∧
      (_ → OutOfLevels (EStateM.bind p f s))
    unfold EStateM.bind
    revert ends
    cases p s with
    | error => exact False.elim
    | ok a s' =>
      rintro ⟨result, after⟩
      obtain ⟨returns, stops⟩ := k a result s' after
      exact ⟨fun fits => returns fits.2, fun deep => stops fun fits => deep ⟨fit, fits⟩⟩
  · exact ⟨fun fits => absurd fits.1 fit, fun _ => (stops fit).bind⟩

/-- A parser that always returns may be followed by one that needs levels. -/
theorem andThen (h : Goes c scopes words p True mid P)
    (k : ∀ a, P a → Goes c scopes mid (f a) G rest Q) :
    Goes c scopes words (p >>= f) G rest Q := by
  have whole := h.bind k
  rwa [true_and] at whole

theorem mono {P' : α → Prop} (h : Goes c scopes words p F rest P) (sub : ∀ a, P a → P' a) :
    Goes c scopes words p F rest P' := by
  intro s faces
  obtain ⟨returns, stops⟩ := h s faces
  refine ⟨fun fits => ?_, stops⟩
  have ends := returns fits
  revert ends
  cases p s with
  | ok a s' => exact fun ⟨result, after⟩ => ⟨sub a result, after⟩
  | error => exact id

theorem congr (h : Goes c scopes words p F rest P) (same : F ↔ G) :
    Goes c scopes words p G rest P := by
  rwa [← propext same]

/-- A result that is only passed on. -/
theorem map {g : α → β} (h : Goes c scopes words p F rest P) (sub : ∀ a, P a → Q (g a)) :
    Goes c scopes words (do return g (← p)) F rest Q := by
  have whole := h.bind fun a result => Goes.pure (a := g a) (sub a result)
  rwa [and_true] at whole

theorem nested (h : Goes c scopes words p F rest P) :
    Goes c scopes words (Parser.nested p) F rest P := by
  intro s faces
  obtain ⟨returns, stops⟩ := h { s with depth := s.depth + 1 } (faces.depth _)
  unfold Parser.nested
  revert returns stops
  cases p { s with depth := s.depth + 1 } with
  | ok a s' => exact fun returns stops =>
      ⟨fun fits => ⟨(returns fits).1, (returns fits).2.depth _⟩, stops⟩
  | error => exact fun returns stops => ⟨returns, stops⟩

theorem within (kind : ScopeKind) (name : String)
    (h : Goes c (scopes.push kind name) words p F rest P) :
    Goes c scopes words (Parser.within kind name p) F rest P := by
  intro s faces
  have pushed := faces.withScopes (faces.scopes.push kind name) (faces.quiet.push kind name)
  obtain ⟨returns, stops⟩ := h { s with scopes := s.scopes.push kind name } pushed
  change (_ → Arrived c scopes rest P (EStateM.bind p _ { s with scopes := s.scopes.push kind name }))
    ∧ (_ → OutOfLevels (EStateM.bind p _ { s with scopes := s.scopes.push kind name }))
  unfold EStateM.bind
  revert returns stops
  cases p { s with scopes := s.scopes.push kind name } with
  | error => exact fun returns stops => ⟨returns, stops⟩
  | ok a s' =>
    intro returns stops
    refine ⟨fun fits => ⟨(returns fits).1, ?_⟩, stops⟩
    have after := (returns fits).2
    exact after.withScopes after.scopes.pop after.quiet.pop

end Goes

end Parser

end LuaChunk
