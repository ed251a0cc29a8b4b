import LuaChunk.CommandLine

/-!
The program: reads the files its arguments name, hands them to the command line, and writes what
it reports.
-/

set_option autoImplicit false

namespace LuaChunk.Main

/-- The system's own text and number for a failure to read. -/
def reason (e : IO.Error) : String :=
  let numbered (text : String) (code : UInt32) : String :=
    text ++ " (os error " ++ toString code ++ ")"
  match e with
  | .noFileOrDirectory _ code text => numbered text code
  | .inappropriateType _ code text => numbered text code
  | .permissionDenied _ code text => numbered text code
  | .invalidArgument _ code text => numbered text code
  | .resourceExhausted _ code text => numbered text code
  | .otherError code text => numbered text code
  | .hardwareFault code text => numbered text code
  | .unsupportedOperation code text => numbered text code
  | e => toString e

def read (path : String) : IO (Except String (List UInt8)) := do
  try
    return .ok (← IO.FS.readBinFile path).toList
  catch e => return .error (reason e)

end LuaChunk.Main

def main (args : List String) : IO UInt32 := do
  let isExpression := args.head? == some "expr"
  let paths := if isExpression then [] else args.drop 1
  let contents ← paths.mapM LuaChunk.Main.read
  let files path := ((paths.zip contents).lookup path).getD (.error "not read")
  let report := LuaChunk.CommandLine.run files args
  IO.print report.stdout
  IO.eprint report.stderr
  return report.exit
