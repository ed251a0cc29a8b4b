import LuaChunk.Dialect

/-!
What a reader of chunks may tune: the grammar, the number of diagnostics kept, the length to which
table constructors are cut, and the depth of nesting accepted.
-/

set_option autoImplicit false

namespace LuaChunk

structure Settings where
  dialect : Dialect := .lua
  /-- Diagnostics kept; one more ends the analysis. -/
  maxErrors : Nat := 30
  /-- Fields kept of a Lua table constructor. -/
  tableFieldLimit : Nat := 1000
  /-- Deepest nesting of blocks, statements and expressions. -/
  maxNesting : Nat := 200
  deriving DecidableEq, Repr, Inhabited

namespace Settings

/-- The usual limits, with the dialect that the chunk's name asks for. -/
def forChunk (name : String) : Settings := { dialect := .ofChunkName name }

/-- Lua tables are cut to the limit; Mooc tables are kept whole. -/
def fieldCap (s : Settings) : Option Nat :=
  match s.dialect with
  | .lua => some s.tableFieldLimit
  | .mooc => none

end Settings

end LuaChunk
