import LuaChunk.Parser.Block

/-!
Reading whole chunks and single expressions. An analysis never fails: where reading stops early
its block is empty, and the diagnostics tell why. A session may be used again; it goes on where
the last reading stopped.
-/

set_option autoImplicit false

namespace LuaChunk

structure Analysis where
  block : Block
  comments : CommentLog
  errors : List Diagnostic

def Analysis.hasErrors (a : Analysis) : Bool := !a.errors.isEmpty

namespace Session

def start (source : List UInt8) (chunkName : String) (settings : Settings) : Session where
  settings := settings
  tokens := .ofBytes settings.dialect source
  scopes := .ofFile chunkName
  log := { cap := settings.maxErrors }

/-- The rules for the nesting that is left. -/
def rules (s : Session) : Rules := .level (s.settings.maxNesting - s.depth)

def errors (s : Session) : List Diagnostic := s.log.diagnostics.toList

/-- A block and the end of input. -/
def chunk (r : Rules) : Parser Block := do
  let block ← r.block
  let _ ← Parser.expect .eof
  return block

/-- Reads the chunk from here to its end, past a `#` line. -/
def analyze (s : Session) : Analysis × Session :=
  let s := { s with tokens := s.tokens.skipShebang }
  let (block, s) :=
    match chunk s.rules s with
    | .ok block s => (block, s)
    | .error _ s => (.empty, s)
  (⟨block, s.tokens.comments, s.errors⟩, s)

/-- Reads one expression, if reading does not stop the analysis. -/
def exp (s : Session) : Option Exp × Session :=
  match s.rules.exp s with
  | .ok e s => (some e, s)
  | .error _ s => (none, s)

end Session

/-- Analyses a chunk in the dialect that its name asks for. -/
def analyze (source : List UInt8) (chunkName : String) : Analysis :=
  (Session.start source chunkName (.forChunk chunkName)).analyze.1

/-- Reads a Lua expression; what follows it is not looked at. -/
def analyzeExp (source : List UInt8) : Option Exp :=
  (Session.start source "" {}).exp.1

/-- The block of a chunk without errors, or its first error. -/
def parse (source : String) (chunkName : String) : Except Diagnostic Block :=
  let a := analyze source.toUTF8.toList chunkName
  match a.errors with
  | [] => .ok a.block
  | e :: _ => .error e

/-- All tokens of a chunk without lexical errors, or its first error. -/
def tokenize (source : List UInt8) (d : Dialect) : Except LexicalError (List Token) :=
  let (tokens, final) := (Scanner.ofBytes source).skipShebang.run d
  match tokens.flatMap (·.errors) ++ final.errors with
  | [] => .ok (tokens.map (·.token))
  | e :: _ => .error e

/-- Analyses a file that has been read under its path, or reports why it could not be read. -/
def analyzeFile (path : String) (contents : Except String (List UInt8)) : Analysis :=
  match contents with
  | .ok source => analyze source path
  | .error reason =>
    { block := .empty, comments := {}, errors := [.unreadable (path ++ ": " ++ reason)] }

end LuaChunk
