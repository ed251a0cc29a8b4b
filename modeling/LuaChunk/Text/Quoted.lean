/-!
Text between double quotes. The quote, the backslash, and the line and tab characters are written
as escapes; every other character stands for itself.
-/

set_option autoImplicit false

namespace LuaChunk.Quoted

def escape (c : Char) : List Char :=
  match c with
  | '\x22' => ['\\', '\x22']
  | '\\' => ['\\', '\\']
  | '\n' => ['\\', 'n']
  | '\r' => ['\\', 'r']
  | '\t' => ['\\', 't']
  | c => [c]

def encode (text : String) : String :=
  String.ofList ('\x22' :: text.toList.flatMap escape ++ ['\x22'])

theorem toList_encode (text : String) :
    (encode text).toList = '\x22' :: text.toList.flatMap escape ++ ['\x22'] :=
  String.toList_ofList

end LuaChunk.Quoted
