/-!
The two grammars. Mooc is a brace-delimited superset of Lua with classes, imports, `switch` and
`guard`; a chunk's name decides which grammar reads it.
-/

set_option autoImplicit false

namespace LuaChunk

inductive Dialect where
  | lua
  | mooc
  deriving DecidableEq, Repr, Inhabited

namespace Dialect

/-- A chunk whose name ends in this text is read as Mooc. -/
def moocSuffix : String := ".mooc"

def ofChunkName (name : String) : Dialect :=
  if moocSuffix.toList.isSuffixOf name.toList then .mooc else .lua

def text : Dialect → String
  | lua => "lua"
  | mooc => "mooc"

end Dialect

end LuaChunk
