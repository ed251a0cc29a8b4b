import LuaChunk.Analysis
import LuaChunk.Tree.Layout

/-!
The command line: a command and its inputs, which are files except for `expr`, whose inputs are
expressions. Every input is worked on, and the exit code tells whether one of them had a fault.
-/

set_option autoImplicit false

namespace LuaChunk.CommandLine

/-- What a run leaves: an exit code and the texts of the two output streams. -/
structure Report where
  exit : UInt32
  stdout : String
  stderr : String
  deriving DecidableEq, Repr, Inhabited

/-- What one input leaves. -/
structure Outcome where
  failed : Bool
  stdout : String := ""
  stderr : String := ""
  deriving DecidableEq, Repr, Inhabited

/-- The contents of the file under a path, or why it cannot be read. -/
abbrev Files := String → Except String (List UInt8)

def line (text : String) : String := text ++ "\n"

def usage : String :=
  String.join <| [
    "Usage: luaparse <command> [files...]",
    "",
    "Commands:",
    "  check   Report syntax errors in the given chunks",
    "  dump    Print the parsed (and desugared) chunks",
    "  tokens  Print the token stream of the given chunks",
    "  expr    Parse each argument as a Lua expression",
    "",
    "Files ending in .mooc are parsed as Mooc, all others as Lua.",
    "Set RUST_LOG=debug for parser tracing."].map line

inductive Command where
  | check
  | dump
  | tokens
  | expr
  deriving DecidableEq, Repr

def Command.ofName? (name : String) : Option Command :=
  if name = "check" then some .check
  else if name = "dump" then some .dump
  else if name = "tokens" then some .tokens
  else if name = "expr" then some .expr
  else none

def errorLines (path : String) (a : Analysis) : String :=
  String.join (a.errors.map fun e => line (path ++ ": " ++ e.text))

def check (files : Files) (path : String) : Outcome :=
  let a := analyzeFile path (files path)
  if a.hasErrors then { failed := true, stderr := errorLines path a }
  else
    { failed := false
      stderr := line (path ++ ": ok (" ++ toString a.block.stats.length ++ " statement(s), "
        ++ toString a.comments.runs.length ++ " comment(s))") }

def dump (files : Files) (path : String) : Outcome :=
  let a := analyzeFile path (files path)
  { failed := a.hasErrors, stdout := a.block.text, stderr := errorLines path a }

def tokenLine (t : Token) : String :=
  line (t.span.text ++ "\t" ++ t.kind.spelling ++ "\t" ++ t.text)

def tokens (files : Files) (path : String) : Outcome :=
  match files path with
  | .error reason => { failed := true, stderr := line (path ++ ": " ++ reason) }
  | .ok source =>
    match tokenize source (.ofChunkName path) with
    | .ok ts => { failed := false, stdout := String.join (ts.map tokenLine) }
    | .error e => { failed := true, stderr := line (path ++ ": " ++ e.text) }

def expr (text : String) : Outcome :=
  let refusal : Outcome := { failed := true, stderr := line (text ++ ": not an expression") }
  match analyzeExp text.toUTF8.toList with
  | some e => if e.isBad then refusal else { failed := false, stdout := line e.text }
  | none => refusal

def Command.outcome (files : Files) : Command → String → Outcome
  | check => CommandLine.check files
  | dump => CommandLine.dump files
  | tokens => CommandLine.tokens files
  | expr => CommandLine.expr

/-- The outcomes of all inputs, in turn. -/
def report (outcomes : List Outcome) : Report where
  exit := if outcomes.any (·.failed) then 1 else 0
  stdout := String.join (outcomes.map (·.stdout))
  stderr := String.join (outcomes.map (·.stderr))

theorem exit_report_eq_zero_iff (outcomes : List Outcome) :
    (report outcomes).exit = 0 ↔ ∀ o ∈ outcomes, o.failed = false := by
  cases h : outcomes.any (·.failed) <;> simp_all [report]

/-- A misuse of the program. -/
def misuse (message : String) : Report := ⟨2, "", message⟩

/-- Runs the program with its arguments, its own name not among them. -/
def run (files : Files) : List String → Report
  | [] => misuse usage
  | name :: inputs =>
    if name = "--help" ∨ name = "-h" then misuse usage
    else if inputs.isEmpty then misuse (line "Error: no input specified")
    else
      match Command.ofName? name with
      | some command => report (inputs.map (command.outcome files))
      | none => misuse (line ("Unknown command: " ++ name))

end LuaChunk.CommandLine
