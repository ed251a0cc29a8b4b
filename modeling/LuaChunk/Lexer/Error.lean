import LuaChunk.Span

/-!
What can be wrong with a token or a comment. None of these stops the reading of tokens.
-/

set_option autoImplicit false

namespace LuaChunk

inductive LexicalFault where
  /-- A quoted string that a line or the text ends. -/
  | unterminatedString
  /-- A long string without its closing bracket. -/
  | unfinishedLongString
  /-- A long comment without its closing bracket. -/
  | unfinishedLongComment
  /-- A backslash and what followed it. -/
  | invalidEscape (sequence : String)
  /-- A decimal escape above 255. -/
  | escapeTooLarge
  /-- A byte that cannot start any token. -/
  | unexpectedCharacter (c : Char)
  deriving DecidableEq, Repr, Inhabited

def LexicalFault.message : LexicalFault → String
  | unterminatedString => "unfinished string"
  | unfinishedLongString => "unfinished long string"
  | unfinishedLongComment => "unfinished long comment"
  | invalidEscape sequence => "invalid escape sequence '\\" ++ sequence ++ "'"
  | escapeTooLarge => "decimal escape too large"
  | unexpectedCharacter c => "unexpected symbol near '" ++ c.toString ++ "'"

structure LexicalError where
  fault : LexicalFault
  span : Span
  deriving DecidableEq, Repr, Inhabited

def LexicalError.text (e : LexicalError) : String :=
  e.fault.message ++ " at line " ++ toString e.span.start.line
    ++ ", column " ++ toString e.span.start.column

end LuaChunk
