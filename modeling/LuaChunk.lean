import LuaChunk.Main
import LuaChunk.Proofs.Control.Transfer
import LuaChunk.Proofs.Control.Unwinding
import LuaChunk.Proofs.Diagnostics.Cap
import LuaChunk.Proofs.Diagnostics.ExpressionVerdict
import LuaChunk.Proofs.Diagnostics.Lexical
import LuaChunk.Proofs.Grammar.Acceptance
import LuaChunk.Proofs.Levels.Chunk
import LuaChunk.Proofs.Lexer.Comments
import LuaChunk.Proofs.Lexer.Kinds
import LuaChunk.Proofs.Lexer.LineEnds
import LuaChunk.Proofs.Lexer.LongText
import LuaChunk.Proofs.Lexer.Lookahead
import LuaChunk.Proofs.Lexer.Respelling
import LuaChunk.Proofs.Lexer.Waiting
import LuaChunk.Proofs.Mooc.BareNames
import LuaChunk.Proofs.Mooc.Braces
import LuaChunk.Proofs.Mooc.ContinueLabel
import LuaChunk.Proofs.Mooc.ContinueTarget
import LuaChunk.Proofs.Mooc.Detached
import LuaChunk.Proofs.Mooc.ImportKeys
import LuaChunk.Proofs.Mooc.Members
import LuaChunk.Proofs.Mooc.Switch
import LuaChunk.Proofs.Number.Reading
import LuaChunk.Proofs.Operators.Climbing
import LuaChunk.Proofs.Recursion.Termination
import LuaChunk.Proofs.Replay.Apart
import LuaChunk.Proofs.Reread.Single
import LuaChunk.Proofs.Shapes.Height
import LuaChunk.Proofs.Shorthand.Compound
import LuaChunk.Proofs.Shorthand.Guard
import LuaChunk.Proofs.Shorthand.NamedFunction
import LuaChunk.Proofs.Spelling.Containment
import LuaChunk.Proofs.Spelling.Leaves
import LuaChunk.Proofs.Views.FieldLimit
import LuaChunk.Proofs.Views.Layout
