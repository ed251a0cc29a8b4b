import LuaChunk.Lexer.Error
import LuaChunk.Token

/-!
Diagnostics and the log that keeps them. A diagnostic is a cause at a span; its wording follows
from the cause. The log keeps a fixed number: one more is kept too, marked as the last, and ends
the analysis.
-/

set_option autoImplicit false

namespace LuaChunk

inductive Cause where
  | lexical (fault : LexicalFault)
  /-- A token of one kind stands where another was wanted. -/
  | expected (kind : TokenKind) (near : String)
  | nameExpected (near : String)
  | unexpectedSymbol (near : String)
  | notANumber (numeral : String)
  | tooManyLevels
  | breakOutsideLoop
  | continueOutsideLoop
  | deferOutsideFunction
  | guardFallsThrough
  | structInherits
  | secondClose
  | unknownAttribute (name : String)
  | severalCompoundTargets
  | notAStatement
  | notAssignable
  | badImportSource (near : String)
  | importCount
  /-- The chunk could not be read. -/
  | unreadable (reason : String)
  /-- Any other complaint about the text of a chunk. -/
  | other (message : String)
  deriving DecidableEq, Repr, Inhabited

def Cause.message : Cause → String
  | lexical fault => fault.message
  | expected kind near => "'" ++ kind.spelling ++ "' expected near '" ++ near ++ "'"
  | nameExpected near => "<name> expected near '" ++ near ++ "'"
  | unexpectedSymbol near => "unexpected symbol near '" ++ near ++ "'"
  | notANumber numeral => "not a number: " ++ numeral
  | tooManyLevels => "chunk has too many syntax levels"
  | breakOutsideLoop => "break should be inside loop for/while/repeat"
  | continueOutsideLoop => "continue should be inside loop for/while/repeat"
  | deferOutsideFunction => "defer should be inside function body"
  | guardFallsThrough => "guard should transfer control with return/break/goto/continue"
  | structInherits => "struct can not inherit"
  | secondClose => "more than one to-be-closed variable in local list"
  | unknownAttribute name => "unrecognized local variable attribute '" ++ name ++ "'"
  | severalCompoundTargets => "compound assignment needs exactly one target"
  | notAStatement => "expression cannot be used as a statement"
  | notAssignable => "cannot assign to this expression"
  | badImportSource near =>
    "invalid library name near '" ++ near ++ "', should be string or name"
  | importCount => "import name list and value list should have the same length"
  | unreadable reason => reason
  | other message => message

structure Diagnostic where
  cause : Cause
  span : Span
  /-- It is the one that the log had no room for. -/
  overflow : Bool := false
  deriving DecidableEq, Repr, Inhabited

namespace Diagnostic

def overflowMark : String := "(too many errors...)"

def message (d : Diagnostic) : String :=
  if d.overflow then d.cause.message ++ overflowMark else d.cause.message

def text (d : Diagnostic) : String :=
  d.message ++ " at line " ++ toString d.span.start.line
    ++ ", column " ++ toString d.span.start.column

/-- The chunk could not be read, as opposed to a fault in its text. -/
def isUnreadable (d : Diagnostic) : Bool :=
  match d.cause with
  | .unreadable _ => true
  | _ => false

/-- A failure to read stands at no place in the text. -/
def unreadable (reason : String) : Diagnostic := { cause := .unreadable reason, span := .synthetic }

end Diagnostic

/-- Why an analysis stopped before the end of its chunk. -/
inductive Abort where
  | tooManyErrors (cap : Nat)
  | invariant (message : String)
  | tooDeep
  deriving DecidableEq, Repr, Inhabited

def Abort.message : Abort → String
  | tooManyErrors cap => "too many errors, stopped after " ++ toString cap
  | invariant message => "internal parser invariant violated: " ++ message
  | tooDeep => "chunk has too many syntax levels"

structure ErrorLog where
  cap : Nat
  diagnostics : Array Diagnostic := #[]
  deriving Repr, Inhabited

namespace ErrorLog

def isEmpty (log : ErrorLog) : Bool := log.diagnostics.isEmpty

/-- Keeps a diagnostic, and says whether the analysis has to stop. -/
def report (log : ErrorLog) (d : Diagnostic) : ErrorLog × Option Abort :=
  if log.diagnostics.size < log.cap then
    ({ log with diagnostics := log.diagnostics.push d }, none)
  else
    ({ log with diagnostics := log.diagnostics.push { d with overflow := true } },
      some (.tooManyErrors log.cap))

theorem size_report (log : ErrorLog) (d : Diagnostic) :
    (log.report d).1.diagnostics.size = log.diagnostics.size + 1 := by
  unfold report
  split <;> simp

/-- The analysis goes on as long as there is room. -/
theorem report_snd_eq_none_iff (log : ErrorLog) (d : Diagnostic) :
    (log.report d).2 = none ↔ log.diagnostics.size < log.cap := by
  unfold report
  split <;> simp_all

end ErrorLog

end LuaChunk
