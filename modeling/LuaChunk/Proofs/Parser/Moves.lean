import LuaChunk.Parser.Block
import LuaChunk.Proofs.Lexer.Waiting

/-!
# What reading does to a session

Whatever is read, the session changes by a few kinds of moves: tokens are looked at or taken,
diagnostics are recorded while there is room, markers are set, and constructs are entered and left
again.  Every property that each move keeps is kept by every reading that is not stopped.
-/

set_option autoImplicit false

namespace LuaChunk

def LexicalError.diagnostic (e : LexicalError) : Diagnostic :=
  { cause := .lexical e.fault, span := e.span }

namespace ErrorLog

/-- One more diagnostic is kept without ending the analysis. -/
def HasRoom (log : ErrorLog) : Prop := log.diagnostics.size < log.cap

def push (log : ErrorLog) (d : Diagnostic) : ErrorLog :=
  { log with diagnostics := log.diagnostics.push d }

theorem report_of_hasRoom {log : ErrorLog} (h : log.HasRoom) (d : Diagnostic) :
    log.report d = (log.push d, none) := if_pos h

theorem report_of_not_hasRoom {log : ErrorLog} (h : ¬ log.HasRoom) (d : Diagnostic) :
    log.report d = (log.push { d with overflow := true }, some (.tooManyErrors log.cap)) :=
  if_neg h

end ErrorLog

namespace ScopeStack

/-- The constructs that are open, the innermost first and the chunk last. -/
def constructs (s : ScopeStack) : List (ScopeKind × String) :=
  (s.inner ++ [s.root]).map fun m => (m.kind, m.name)

variable (s : ScopeStack)

theorem currentClass?_eq : s.currentClass? =
    s.constructs.head?.bind fun c => if c.1 = .classBody then some c.2 else none := by
  obtain ⟨root, inner⟩ := s
  cases inner <;> rfl

theorem constructs_push (kind : ScopeKind) (name : String) :
    (s.push kind name).constructs = (kind, name) :: s.constructs := by
  by_cases loop : kind = .loop <;> simp [constructs, push, loop]

theorem constructs_pop {s : ScopeStack} (opened : s.inner ≠ []) :
    s.pop.2.constructs = s.constructs.tail := by
  obtain ⟨root, inner⟩ := s
  cases inner with
  | nil => exact absurd rfl opened
  | cons m rest => by_cases loop : m.kind = .loop <;> simp [constructs, pop, loop]

theorem constructs_setFound (kind stop : ScopeKind) (count : Nat) :
    (s.setFound kind stop count).constructs = s.constructs := by
  obtain ⟨root, inner⟩ := s
  unfold setFound
  dsimp only
  induction inner with
  | nil => by_cases found : root.kind = kind <;> simp [setNearest, constructs, found]
  | cons m rest inductionHypothesis =>
    unfold setNearest
    split
    · simp [constructs]
    split
    · rfl
    · simpa [constructs] using inductionHypothesis

theorem constructs_noteReturn : (Parser.noteReturn s).constructs = s.constructs := by
  obtain ⟨root, inner⟩ := s
  unfold Parser.noteReturn setCurrent
  split
  · cases inner <;> simp [constructs]
  · rfl

end ScopeStack

namespace Session

/-- How a reading that is not stopped changes a session. -/
inductive Moves : Session → Session → Prop
  | refl (s) : Moves s s
  | trans {a b c} : Moves a b → Moves b c → Moves a c
  | look (s : Session) (count : Nat) : Moves s { s with tokens := s.tokens.look count }
  | take (s : Session) : Moves s { s with tokens := s.tokens.next.2 }
  /-- The first pending error is recorded. -/
  | note {s : Session} {e rest} : s.tokens.pending = e :: rest → s.log.HasRoom →
      Moves s { s with
        tokens := { s.tokens with pending := rest }, log := s.log.push e.diagnostic }
  | report {s : Session} (d : Diagnostic) : s.log.HasRoom → Moves s { s with log := s.log.push d }
  | within (kind : ScopeKind) (name : String) {s s' : Session} :
      Moves { s with scopes := s.scopes.push kind name } s' →
      Moves s { s' with scopes := s'.scopes.pop.2 }
  | markLoop (s : Session) : Moves s { s with scopes := s.scopes.setFound .loop .function 1 }
  | markReturn (s : Session) : Moves s { s with scopes := Parser.noteReturn s.scopes }
  | nested {s s' : Session} : Moves { s with depth := s.depth + 1 } s' →
      Moves s { s' with depth := s'.depth - 1 }

/-- All diagnostics recorded, and the lexical errors that are still to be recorded. -/
def account (s : Session) : List Diagnostic :=
  s.log.diagnostics.toList ++ s.tokens.waiting.map LexicalError.diagnostic

namespace Moves

variable {s s' : Session}

theorem settings_eq (h : Moves s s') : s'.settings = s.settings := by
  induction h with
  | trans _ _ first second => exact second.trans first
  | within _ _ _ inner => exact inner
  | nested _ inner => exact inner
  | _ => rfl

theorem ahead_suffix (h : Moves s s') : s'.tokens.ahead <:+ s.tokens.ahead := by
  induction h with
  | trans _ _ first second => exact second.trans first
  | look s count => simp
  | take s => exact s.tokens.ahead_next ▸ List.tail_suffix _
  | within _ _ _ inner => exact inner
  | nested _ inner => exact inner
  | _ => exact List.suffix_rfl

/-- No diagnostic is withdrawn. -/
theorem size_le (h : Moves s s') : s.log.diagnostics.size ≤ s'.log.diagnostics.size := by
  induction h with
  | trans _ _ first second => exact Nat.le_trans first second
  | note => simp [ErrorLog.push]
  | report => simp [ErrorLog.push]
  | within _ _ _ inner => exact inner
  | nested _ inner => exact inner
  | _ => exact Nat.le_refl _

/-- What is opened is closed again. -/
theorem constructs (h : Moves s s') : s'.scopes.constructs = s.scopes.constructs := by
  induction h with
  | trans _ _ first second => exact second.trans first
  | @within kind name s s' _ inner =>
    dsimp only at inner ⊢
    rw [ScopeStack.constructs_push] at inner
    have opened : s'.scopes.inner ≠ [] := by
      intro none
      have same := congrArg List.length inner
      simp [ScopeStack.constructs, none] at same
    rw [ScopeStack.constructs_pop opened, inner, List.tail_cons]
  | markLoop s => exact s.scopes.constructs_setFound ..
  | markReturn s => exact s.scopes.constructs_noteReturn
  | nested _ inner => exact inner
  | _ => rfl

theorem currentClass? (h : Moves s s') : s'.scopes.currentClass? = s.scopes.currentClass? := by
  rw [ScopeStack.currentClass?_eq, ScopeStack.currentClass?_eq, h.constructs]

/-- No lexical error is lost, and their order is kept. -/
theorem account_sublist (h : Moves s s') : s.account.Sublist s'.account := by
  induction h with
  | trans _ _ first second => exact first.trans second
  | look s count => simp [account]
  | take s => simp [account, TokenStream.waiting_next]
  | note pending _ => simp [account, ErrorLog.push, TokenStream.waiting, pending]
  | report d _ => simp [account, ErrorLog.push]
  | within _ _ _ inner => exact inner
  | nested _ inner => exact inner
  | _ => exact .refl _

end Moves

end Session

end LuaChunk
