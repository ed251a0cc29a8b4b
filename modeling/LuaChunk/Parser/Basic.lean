import LuaChunk.Diagnostic
import LuaChunk.Lexer.TokenStream
import LuaChunk.Scope
import LuaChunk.Settings
import LuaChunk.Tree.Basic

/-!
The reading of trees from tokens. A session holds everything a reading changes; a parser acts on
it and either gives a result or stops the whole analysis. Faults in the source stop nothing: they
are complained of, and reading goes on with what is there.

Every construct that may hold another of its kind is read one level deeper. `Rules` are the
parsers of these constructs at some level, and the parsers of a level are built from those of the
next, so no parser refers to itself and the number of levels bounds the depth of every reading.
Loops are bounded by the tokens ahead, of which every round but the last takes one.
-/

set_option autoImplicit false

namespace LuaChunk

structure Session where
  settings : Settings
  tokens : TokenStream
  scopes : ScopeStack
  log : ErrorLog
  /-- Nested constructs open now. -/
  depth : Nat := 0
  deriving Inhabited

abbrev Parser := EStateM Abort Session

namespace Parser

variable {α σ : Type}

/-! Tokens -/

/-- Acts on the tokens only. -/
def onTokens (f : TokenStream → α × TokenStream) : Parser α := fun s =>
  let (a, tokens) := f s.tokens
  .ok a { s with tokens := tokens }

def dialect : Parser Dialect := return (← get).settings.dialect

def isMooc : Parser Bool := return (← dialect) == .mooc

/-- The token some places ahead. -/
def peekToken (n : Nat) : Parser Token := onTokens (·.peek n)

/-- The kind of the next token. -/
def peek : Parser TokenKind := return (← peekToken 0).kind

/-- The span of the next token. -/
def head : Parser Span := return (← peekToken 0).span

/-- The span of the last token taken. -/
def now : Parser Span := return (← get).tokens.now

/-- From the start of a span to the end of the last token taken. -/
def since (start : Span) : Parser Span := return start.merge (← now)

/-! Complaints -/

def record (d : Diagnostic) : Parser Unit := fun s =>
  match s.log.report d with
  | (log, none) => .ok () { s with log := log }
  | (log, some abort) => .error abort { s with log := log }

def recordAll : List LexicalError → Parser Unit
  | [] => return
  | e :: rest => do
    record { cause := .lexical e.fault, span := e.span }
    recordAll rest

/-- Records the lexical errors that start before a position; those of tokens still ahead wait. -/
def syncBefore (p : Position) : Parser Unit := do
  recordAll (← onTokens (·.takeErrorsBefore p))

/-- Records a fault after the lexical errors that start at or before it. -/
def complain (cause : Cause) (span : Span) : Parser Unit := do
  syncBefore span.start.nextColumn
  record { cause := cause, span := span }

/-- Takes the next token; at the end of input no lexical error waits any longer. -/
def next : Parser Token := do
  let token ← onTokens (·.next)
  if token.kind = .eof then recordAll (← onTokens (·.takeErrors))
  else syncBefore token.span.stop
  return token

/-- Takes the next token and complains if it is of another kind. -/
def expect (kind : TokenKind) : Parser Token := do
  let token ← next
  if token.kind ≠ kind then complain (.expected kind token.near) token.span
  return token

def expectName : Parser Token := do
  let token ← next
  if token.kind ≠ .identifier then complain (.nameExpected token.near) token.span
  return token

/-- Takes the next token if it is of this kind. -/
def accept (kind : TokenKind) : Parser (Option Token) := do
  if (← peek) = kind then return some (← next) else return none

/-- Takes the next token if it is of this kind, and tells whether it did. -/
def accepts (kind : TokenKind) : Parser Bool := return (← accept kind).isSome

/-! Scopes -/

def scopes : Parser ScopeStack := return (← get).scopes

def onScopes (f : ScopeStack → ScopeStack) : Parser Unit :=
  modify fun s => { s with scopes := f s.scopes }

/-- Reads inside a construct. -/
def within (kind : ScopeKind) (name : String) (p : Parser α) : Parser α := do
  onScopes (·.push kind name)
  let a ← p
  onScopes (·.pop.2)
  return a

/-- A loop is open between here and the nearest function. -/
def insideLoop : Parser Bool := return ((← scopes).find? .loop .function).isSome

/-! Repetition and depth -/

/-- Repeats a step at most once for each token of a list and once more. -/
def iterateFor (step : σ → Parser (ForInStep σ)) : List Scanned → σ → Parser σ
  | [], a => do
    match ← step a with
    | .done b => return b
    | .yield b => return b
  | _ :: clock, a => do
    match ← step a with
    | .done b => return b
    | .yield b => iterateFor step clock b

/-- Repeats a step until it is done. A step that is not done has taken a token. -/
def iterate (start : σ) (step : σ → Parser (ForInStep σ)) : Parser σ := do
  iterateFor step (← get).tokens.ahead start

/-- Reads one level deeper, and comes back up also when the reading stops the analysis. -/
def nested (p : Parser α) : Parser α := fun s =>
  match p { s with depth := s.depth + 1 } with
  | .ok a s => .ok a { s with depth := s.depth - 1 }
  | .error abort s => .error abort { s with depth := s.depth - 1 }

/-- Stops the analysis at a level that is not there. The level stays counted. -/
def tooDeep : Parser α := do
  modify fun s => { s with depth := s.depth + 1 }
  complain .tooManyLevels (← head)
  throw .tooDeep

end Parser

/-- How a function is written after its keyword. -/
inductive FunctionStyle where
  /-- Parameters in parentheses, a block, `end`. -/
  | ended
  /-- Parameters in parentheses, a block in braces. -/
  | braced
  /-- Parameters, `in` and a block, all in one pair of braces. -/
  | anonymous
  deriving DecidableEq, Repr

/-- The constructs that are read one level deeper than what holds them. -/
structure Rules where
  block : Parser Block
  stat : Parser Stat
  /-- An expression of operators that bind more tightly than a limit. -/
  operation : Nat → Parser Exp
  functionBody : FunctionStyle → Parser FunctionBody
  table : Parser Exp
  /-- The expression between parentheses, which is a level of its own. -/
  parenthesised : Parser Exp

/-- The rules below the deepest level. -/
def Rules.exhausted : Rules where
  block := Parser.tooDeep
  stat := Parser.tooDeep
  operation _ := Parser.tooDeep
  functionBody _ := Parser.tooDeep
  table := Parser.tooDeep
  parenthesised := Parser.tooDeep

def Rules.exp (r : Rules) : Parser Exp := r.operation 0

end LuaChunk
