import LuaChunk.Parser.Mooc

/-!
Blocks, and the levels of nesting. `Rules.level n` reads constructs that nest at most `n` deep.
-/

set_option autoImplicit false

namespace LuaChunk

namespace Parser

/-- Tokens that no statement of a dialect starts with and that end a block. -/
def endsBlock : Dialect → TokenKind → Bool
  | _, .kwReturn | _, .eof => true
  | .mooc, .rbrace | .mooc, .kwCase | .mooc, .kwDefault => true
  | .lua, .kwEnd | .lua, .kwElse | .lua, .kwElseif | .lua, .kwUntil => true
  | _, _ => false

def atBlockEnd : Parser Bool := return endsBlock (← dialect) (← peek)

/-- Statements up to the end of the block; empty ones are not kept. -/
def moreStats (r : Rules) (stats : Array Stat) : Parser (ForInStep (Array Stat)) := do
  if ← atBlockEnd then return .done stats
  let stat ← r.stat
  return .yield (if stat.isEmpty then stats else stats.push stat)

/-- The label for a `continue` of the loop whose body ends here. -/
def pendingLabel : Parser (List Stat) := do
  let scopes ← scopes
  if scopes.current.kind = .loop ∧ 0 < scopes.current.count then
    return [.label (continueLabel scopes.openLoops) (← now)]
  else return []

/-- Notes in the marker of a `do` or `guard` block that it returns. -/
def noteReturn (s : ScopeStack) : ScopeStack :=
  if s.current.kind = .doBlock ∨ s.current.kind = .guardBlock then s.setCurrent 1 else s

/-- The `return` that may close a block. -/
def returnStat (r : Rules) : Parser (Option (List Exp)) := do
  if (← peek) ≠ .kwReturn then return none
  onScopes noteReturn
  let _ ← next
  if (← atBlockEnd) then return some []
  if ← accepts .semi then return some []
  let exps ← expList r
  let _ ← accepts .semi
  return some exps

/-- A block that takes no token is an empty span at the token ahead. -/
def block (r : Rules) : Parser Block := do
  let head ← head
  let before ← now
  let stats ← iterate #[] (moreStats r)
  let label ← pendingLabel
  let returns ← returnStat r
  let after ← now
  let span := if after = before then head.upTo head else head.merge after
  return ⟨stats.toList ++ label, returns, span⟩

def stat (r : Rules) : Parser Stat := do
  if ← isMooc then moocStat r else luaStat r

end Parser

/-- The rules of a level, given those of the next. -/
def Rules.deepen (r : Unit → Rules) : Rules where
  block := fun s => Parser.nested (Parser.block (r ())) s
  stat := fun s => Parser.nested (Parser.stat (r ())) s
  operation := fun limit s => Parser.nested (Parser.operation (r ()) limit) s
  functionBody := fun style s => Parser.nested (Parser.functionBody (r ()) style) s
  table := fun s => Parser.nested (Parser.table (r ())) s
  parenthesised := fun s => Parser.nested (r ()).exp s

def Rules.level : Nat → Rules
  | 0 => .exhausted
  | n + 1 => .deepen fun _ => Rules.level n

theorem Rules.level_zero : Rules.level 0 = .exhausted := rfl

theorem Rules.level_succ (n : Nat) : Rules.level (n + 1) = .deepen fun _ => Rules.level n := rfl

end LuaChunk
