import LuaChunk.Span

/-!
Comments found between tokens. Line comments on consecutive lines with no code before them form
one run; any other comment is a run of its own. Runs are kept by their last line, and a run
replaces one that ends on the same line.
-/

set_option autoImplicit false

namespace LuaChunk

structure CommentLine where
  text : String
  position : Position
  deriving DecidableEq, Repr, Inhabited

structure CommentRun where
  lines : List CommentLine
  span : Span
  /-- No code stands before the comment on its first line. -/
  head : Bool
  deriving DecidableEq, Repr, Inhabited

/-- Runs are looked up by this line. -/
def CommentRun.lastLine (r : CommentRun) : Nat := r.span.stop.line

/-- The runs found so far, the latest first. -/
structure CommentLog where
  runs : List CommentRun := []
  /-- The latest run holds line comments only, so that the next line may join it. -/
  extendable : Bool := false
  deriving DecidableEq, Repr, Inhabited

namespace CommentLog

/-- Comments are met in source order, so only the latest runs can end on the same line. -/
def put (runs : List CommentRun) (r : CommentRun) : List CommentRun :=
  r :: runs.dropWhile (·.lastLine == r.lastLine)

/-- Notes a comment. `whole` tells a line comment with no code before it. -/
def record (log : CommentLog) (line : CommentLine) (span : Span) (head whole : Bool) :
    CommentLog :=
  match log.runs with
  | last :: earlier =>
    if whole && log.extendable && last.lastLine + 1 == span.start.line then
      ⟨put earlier { last with lines := last.lines ++ [line], span := last.span.merge span }, true⟩
    else ⟨put log.runs ⟨[line], span, head⟩, whole⟩
  | [] => ⟨[⟨[line], span, head⟩], whole⟩

/-- In source order, which is also the order of their last lines. -/
def toList (log : CommentLog) : List CommentRun := log.runs.reverse

end CommentLog

end LuaChunk
