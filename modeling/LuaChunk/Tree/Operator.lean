import LuaChunk.Token

/-!
Operators. A binary operator binds more tightly the higher its priority; of two with the same
priority the left one is applied first, except for powers and concatenation.
-/

set_option autoImplicit false

namespace LuaChunk

inductive UnaryOp where
  | neg
  | not
  | len
  | bnot
  deriving DecidableEq, Repr, Inhabited

namespace UnaryOp

def ofToken? : TokenKind → Option UnaryOp
  | .minus => some neg
  | .kwNot => some not
  | .hash => some len
  | .tilde => some bnot
  | _ => none

def text : UnaryOp → String
  | neg => "-"
  | not => "not"
  | len => "#"
  | bnot => "~"

/-- Operands of prefix operators are read to this limit: only powers bind more tightly. -/
def priority : Nat := 10

end UnaryOp

inductive BinaryOp where
  | add
  | sub
  | mul
  | div
  | idiv
  | mod
  | pow
  | concat
  | shl
  | shr
  | band
  | bxor
  | bor
  | lt
  | le
  | gt
  | ge
  | eq
  | ne
  | and
  | or
  deriving DecidableEq, Repr, Inhabited

namespace BinaryOp

def ofToken? : TokenKind → Option BinaryOp
  | .plus => some add
  | .minus => some sub
  | .star => some mul
  | .slash => some div
  | .doubleSlash => some idiv
  | .percent => some mod
  | .caret => some pow
  | .concat => some concat
  | .shiftLeft => some shl
  | .shiftRight => some shr
  | .ampersand => some band
  | .tilde => some bxor
  | .pipe => some bor
  | .less => some lt
  | .lessEqual => some le
  | .greater => some gt
  | .greaterEqual => some ge
  | .equal => some eq
  | .notEqual => some ne
  | .kwAnd => some and
  | .kwOr => some or
  | _ => none

def priority : BinaryOp → Nat
  | pow => 12
  | mul | div | idiv | mod => 10
  | add | sub => 9
  | concat => 8
  | shl | shr => 7
  | band => 6
  | bxor => 5
  | bor => 4
  | lt | le | gt | ge | eq | ne => 3
  | and => 2
  | or => 1

def isRightAssoc : BinaryOp → Bool
  | pow | concat => true
  | _ => false

/-- The limit to which the right operand is read. -/
def rightLimit (op : BinaryOp) : Nat :=
  if op.isRightAssoc then op.priority - 1 else op.priority

theorem priority_pos (op : BinaryOp) : 0 < op.priority := by cases op <;> decide

/-- An operator may follow itself within its own right operand exactly if it is applied from the
right. -/
theorem rightLimit_lt_priority_iff (op : BinaryOp) :
    op.rightLimit < op.priority ↔ op.isRightAssoc = true := by
  cases op <;> decide

def text : BinaryOp → String
  | add => "+"
  | sub => "-"
  | mul => "*"
  | div => "/"
  | idiv => "//"
  | mod => "%"
  | pow => "^"
  | concat => ".."
  | shl => "<<"
  | shr => ">>"
  | band => "&"
  | bxor => "~"
  | bor => "|"
  | lt => "<"
  | le => "<="
  | gt => ">"
  | ge => ">="
  | eq => "=="
  | ne => "~="
  | and => "and"
  | or => "or"

/-- Operators that may stand before `=` in a compound assignment. -/
def ofCompound? : TokenKind → Option BinaryOp
  | .star => some mul
  | .slash => some div
  | .percent => some mod
  | .plus => some add
  | .minus => some sub
  | .concat => some concat
  | .kwOr => some or
  | .kwAnd => some and
  | .caret => some pow
  | _ => none

end BinaryOp

end LuaChunk
