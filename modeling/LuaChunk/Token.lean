import LuaChunk.Dialect
import LuaChunk.Span

/-!
Tokens. A kind has one spelling, which diagnostics quote; the spelling of a symbol or keyword is
also its source text. `minus` is both subtraction and negation and `tilde` both exclusive or and
bitwise negation: the grammar decides by place.
-/

set_option autoImplicit false

namespace LuaChunk

inductive TokenKind where
  /-- A byte that cannot start any token. -/
  | illegal
  | eof
  | vararg
  | semi
  | comma
  | dot
  | colon
  | doubleColon
  | lparen
  | rparen
  | lbracket
  | rbracket
  | lbrace
  | rbrace
  | assign
  | minus
  | tilde
  | plus
  | star
  | slash
  | doubleSlash
  | caret
  | percent
  | ampersand
  | pipe
  | shiftRight
  | shiftLeft
  | concat
  | less
  | lessEqual
  | greater
  | greaterEqual
  | equal
  | notEqual
  | hash
  | kwAnd
  | kwOr
  | kwNot
  | kwBreak
  | kwCase
  | kwClass
  | kwContinue
  | kwDefer
  | kwDefault
  | kwDo
  | kwElse
  | kwElseif
  | kwEnd
  | kwExport
  | kwExtension
  | kwFalse
  | kwFn
  | kwFor
  | kwFrom
  | kwFunction
  | kwGoto
  | kwGuard
  | kwIf
  | kwImport
  | kwIn
  | kwLocal
  | kwNil
  | kwPublic
  | kwRepeat
  | kwReturn
  | kwStatic
  | kwStruct
  | kwSwitch
  | kwThen
  | kwTrue
  | kwUntil
  | kwWhile
  | identifier
  /-- A numeral; the token keeps its raw text. -/
  | number
  /-- A string literal; the token holds its decoded contents. -/
  | string
  deriving DecidableEq, Repr, Inhabited

namespace TokenKind

def spelling : TokenKind → String
  | illegal => "ILLEGAL"
  | eof => "<eof>"
  | vararg => "..."
  | semi => ";"
  | comma => ","
  | dot => "."
  | colon => ":"
  | doubleColon => "::"
  | lparen => "("
  | rparen => ")"
  | lbracket => "["
  | rbracket => "]"
  | lbrace => "\x7b"
  | rbrace => "\x7d"
  | assign => "="
  | minus => "-"
  | tilde => "~"
  | plus => "+"
  | star => "*"
  | slash => "/"
  | doubleSlash => "//"
  | caret => "^"
  | percent => "%"
  | ampersand => "&"
  | pipe => "|"
  | shiftRight => ">>"
  | shiftLeft => "<<"
  | concat => ".."
  | less => "<"
  | lessEqual => "<="
  | greater => ">"
  | greaterEqual => ">="
  | equal => "=="
  | notEqual => "~="
  | hash => "#"
  | kwAnd => "and"
  | kwOr => "or"
  | kwNot => "not"
  | kwBreak => "break"
  | kwCase => "case"
  | kwClass => "class"
  | kwContinue => "continue"
  | kwDefer => "defer"
  | kwDefault => "default"
  | kwDo => "do"
  | kwElse => "else"
  | kwElseif => "elseif"
  | kwEnd => "end"
  | kwExport => "export"
  | kwExtension => "extension"
  | kwFalse => "false"
  | kwFn => "fn"
  | kwFor => "for"
  | kwFrom => "from"
  | kwFunction => "function"
  | kwGoto => "goto"
  | kwGuard => "guard"
  | kwIf => "if"
  | kwImport => "import"
  | kwIn => "in"
  | kwLocal => "local"
  | kwNil => "nil"
  | kwPublic => "public"
  | kwRepeat => "repeat"
  | kwReturn => "return"
  | kwStatic => "static"
  | kwStruct => "struct"
  | kwSwitch => "switch"
  | kwThen => "then"
  | kwTrue => "true"
  | kwUntil => "until"
  | kwWhile => "while"
  | identifier => "identifier"
  | number => "number literal"
  | string => "string literal"

/-- Symbols. A longer one stands before the shorter ones it starts with, so that the first one
found is the longest. -/
def symbols : List TokenKind :=
  [vararg, concat, dot, doubleColon, colon, semi, comma, lparen, rparen, lbracket, rbracket,
    lbrace, rbrace, equal, assign, notEqual, tilde, lessEqual, shiftLeft, less, greaterEqual,
    shiftRight, greater, doubleSlash, slash, minus, plus, star, caret, percent, ampersand, pipe,
    hash]

/-- Words that both dialects reserve. -/
def luaKeywords : List TokenKind :=
  [kwAnd, kwBreak, kwDo, kwElse, kwElseif, kwEnd, kwFalse, kwFor, kwFunction, kwGoto, kwIf, kwIn,
    kwLocal, kwNil, kwNot, kwOr, kwRepeat, kwReturn, kwThen, kwTrue, kwUntil, kwWhile]

/-- Words that Mooc reserves and Lua leaves to programs. -/
def moocKeywords : List TokenKind :=
  [kwCase, kwClass, kwContinue, kwDefault, kwDefer, kwExport, kwExtension, kwFn, kwFrom, kwGuard,
    kwImport, kwPublic, kwStatic, kwStruct, kwSwitch]

end TokenKind

/-- The words a dialect reserves. -/
def Dialect.keywords : Dialect → List TokenKind
  | .lua => TokenKind.luaKeywords
  | .mooc => TokenKind.luaKeywords ++ TokenKind.moocKeywords

/-- The kind of a reserved word. -/
def Dialect.keyword? (d : Dialect) (word : String) : Option TokenKind :=
  d.keywords.find? fun kind => kind.spelling == word

theorem Dialect.mem_keywords_of_keyword? {d : Dialect} {word : String} {kind : TokenKind}
    (h : d.keyword? word = some kind) : kind ∈ d.keywords ∧ kind.spelling = word :=
  ⟨List.mem_of_find?_eq_some h, by simpa using List.find?_some h⟩

structure Token where
  kind : TokenKind
  text : String
  span : Span
  deriving DecidableEq, Repr, Inhabited

/-- What a diagnostic shows after "near": a token without text is shown by its kind. -/
def Token.near (t : Token) : String :=
  if t.kind = .eof then TokenKind.eof.spelling
  else if t.text = "" then t.kind.spelling
  else t.text

end LuaChunk
