import LuaChunk.Proofs.Lexer.Fragments
import LuaChunk.Proofs.Operators.Grouping
import LuaChunk.Tree.Layout

/-!
# The words of written trees

The text of a tree is made of words and blanks.  They are listed the way the text is laid out.
-/

set_option autoImplicit false

namespace LuaChunk

/-- A sign bit that is set. -/
def Binary64.isNegative (x : Binary64) : Bool := Nat.pow 2 63 ≤ x.bits.toNat

/-- Written in digits, and not as a word. -/
def Binary64.isFinite (x : Binary64) : Bool :=
  match x.meaning with
  | .finite _ _ _ => true
  | .nan | .infinite _ => false

namespace Fragment

/-- A symbol or a reserved word. -/
def sym (kind : TokenKind) : Fragment := .word ⟨kind, kind.spelling⟩

def ident (name : String) : Fragment := .word ⟨.identifier, name⟩

def number (text : String) : Fragment := .word ⟨.number, text⟩

def space : Fragment := .gap [' ']

def newline : Fragment := .gap ['\n']

def indent (depth : Nat) : Fragment := .gap (List.replicate depth '\t')

end Fragment

open Fragment

/-- Lists of fragments with commas between them. -/
def separated (items : List (List Fragment)) : List Fragment := [sym .comma, space].intercalate items

def integerFragments (value : Int) : List Fragment :=
  if value < 0 then [sym .minus, number (toString value.natAbs)]
  else [number (toString value.natAbs)]

def markFragments : Attribute → List Fragment
  | .const => [space, sym .less, ident "const", sym .greater]
  | .close => [space, sym .less, ident "close", sym .greater]
  | .regular | .exported => []

def markedFragments : List Param → List Attribute → List (List Fragment)
  | [], _ => []
  | p :: params, [] => [ident p.name] :: markedFragments params []
  | p :: params, a :: attrs => (ident p.name :: markFragments a) :: markedFragments params attrs

def namesFragments (params : List Param) : List (List Fragment) := params.map ([ident ·.name])

def fieldFragments (key : Option (List Fragment)) (value : List Fragment) : List Fragment :=
  match key with
  | some key => sym .lbracket :: key ++ sym .rbracket :: space :: sym .assign :: space :: value
  | none => value

def methodFragments : Option Param → List Fragment
  | some m => [sym .colon, ident m.name]
  | none => []

def valuesFragments (values : List (List Fragment)) : List Fragment :=
  if values.isEmpty then [] else space :: sym .assign :: space :: separated values

def enclosedFragments (block : List Fragment) (depth : Nat) (closing : List Fragment) :
    List Fragment :=
  newline :: block ++ indent depth :: closing

def returnFragments (depth : Nat) (values : List (List Fragment)) : List Fragment :=
  indent depth :: sym .kwReturn ::
    ((if values.isEmpty then [] else space :: separated values) ++ [newline])

/-- The branches of a conditional, of which the first opens with `if`, up to its end. -/
def chainFragments (opening : TokenKind) :
    List (List Fragment × List Fragment) → Nat → List Fragment
  | [], _ => [sym .kwEnd]
  | (condition, body) :: rest, depth =>
    sym opening :: space :: condition ++ space :: sym .kwThen ::
      enclosedFragments body depth (chainFragments .kwElseif rest depth)

section Words

variable {fs : List Fragment}

@[simp]
theorem fragmentWords_sym (kind : TokenKind) :
    fragmentWords (sym kind :: fs) = ⟨kind, kind.spelling⟩ :: fragmentWords fs := rfl

@[simp]
theorem fragmentWords_ident (name : String) :
    fragmentWords (ident name :: fs) = ⟨.identifier, name⟩ :: fragmentWords fs := rfl

@[simp]
theorem fragmentWords_number (text : String) :
    fragmentWords (number text :: fs) = ⟨.number, text⟩ :: fragmentWords fs := rfl

@[simp]
theorem fragmentWords_space : fragmentWords (space :: fs) = fragmentWords fs := rfl

@[simp]
theorem fragmentWords_newline : fragmentWords (newline :: fs) = fragmentWords fs := rfl

@[simp]
theorem fragmentWords_indent (depth : Nat) : fragmentWords (indent depth :: fs) = fragmentWords fs :=
  rfl

/-- With a comma before every item but the first. -/
theorem fragmentWords_separated {α : Type} (f : α → List Fragment) (x : α) (xs : List α) :
    fragmentWords (separated ((x :: xs).map f)) = fragmentWords (f x) ++
      xs.flatMap fun y => ⟨.comma, TokenKind.comma.spelling⟩ :: fragmentWords (f y) := by
  induction xs generalizing x with
  | nil => simp [separated]
  | cons y ys inductionHypothesis =>
    have later := inductionHypothesis y
    simp_all [separated, List.intercalate_cons_cons]

/-- With a comma after every item but the last. -/
theorem fragmentWords_separated_concat {α : Type} (f : α → List Fragment) (xs : List α) (x : α) :
    fragmentWords (separated ((xs ++ [x]).map f)) =
      (xs.flatMap fun y => fragmentWords (f y) ++ [⟨.comma, TokenKind.comma.spelling⟩]) ++
        fragmentWords (f x) := by
  induction xs with
  | nil => simp [separated]
  | cons y ys inductionHypothesis =>
    cases ys <;> simp_all [separated, List.intercalate_cons_cons]

end Words

mutual

/-- The words of an expression; one that cannot be written in Lua may have none. -/
def Exp.fragments (depth : Nat) : Exp → List Fragment
  | .nil _ => [sym .kwNil]
  | .bool value _ => [sym (if value then .kwTrue else .kwFalse)]
  | .vararg _ => [sym .vararg]
  | .integer value _ => integerFragments value.toInt
  | .float value _ => [if value.isFinite then number value.text else ident value.text]
  | .string text _ => [.word ⟨.string, text⟩]
  | .name name _ => [ident name]
  | .unary op operand _ =>
    sym .lparen :: sym op.token :: (if op = .not then [space] else []) ++
      operand.fragments depth ++ [sym .rparen]
  | .binary op left right _ =>
    sym .lparen :: left.fragments depth ++ space :: sym op.token :: space ::
      right.fragments depth ++ [sym .rparen]
  | .table keys values _ =>
    sym .lbrace :: separated
      (List.zipWith fieldFragments (keysFragments depth keys) (expsFragments depth values)) ++
        [sym .rbrace]
  | .function body _ => sym .kwFunction :: body.fragments depth
  | .call call _ => call.fragments depth
  | .index object key _ =>
    object.fragments depth ++ sym .lbracket :: key.fragments depth ++ [sym .rbracket]
  | .paren inner _ => sym .lparen :: inner.fragments depth ++ [sym .rparen]
  | .bad _ => []

def expsFragments (depth : Nat) : List Exp → List (List Fragment)
  | [] => []
  | e :: rest => e.fragments depth :: expsFragments depth rest

def keysFragments (depth : Nat) : List (Option Exp) → List (Option (List Fragment))
  | [] => []
  | none :: rest => none :: keysFragments depth rest
  | some key :: rest => some (key.fragments depth) :: keysFragments depth rest

def FunctionBody.fragments (depth : Nat) : FunctionBody → List Fragment
  | ⟨params, isVararg, _, block, _, _⟩ =>
    sym .lparen :: separated
      (namesFragments params ++ if isVararg then [[sym .vararg]] else []) ++ sym .rparen ::
        enclosedFragments (block.fragments (depth + 1)) depth [sym .kwEnd]

def Call.fragments (depth : Nat) : Call → List Fragment
  | ⟨callee, method, args⟩ =>
    callee.fragments depth ++ methodFragments method ++ sym .lparen ::
      separated (expsFragments depth args) ++ [sym .rparen]

def Block.fragments (depth : Nat) : Block → List Fragment
  | ⟨stats, none, _⟩ => statsFragments depth stats
  | ⟨stats, some returns, _⟩ =>
    statsFragments depth stats ++ returnFragments depth (expsFragments depth returns)

def statsFragments (depth : Nat) : List Stat → List Fragment
  | [] => []
  | s :: rest => indent depth :: s.fragments depth ++ newline :: statsFragments depth rest

def branchesFragments (depth : Nat) : List Branch → List (List Fragment × List Fragment)
  | [] => []
  | ⟨condition, body⟩ :: rest =>
    (condition.fragments depth, body.fragments (depth + 1)) :: branchesFragments depth rest

def Conditional.fragments (depth : Nat) : Conditional → List Fragment
  | ⟨branches, _⟩ => chainFragments .kwIf (branchesFragments depth branches) depth

def Assignment.fragments (depth : Nat) : Assignment → List Fragment
  | ⟨targets, values, _, _⟩ =>
    separated (expsFragments depth targets) ++ space :: sym .assign :: space ::
      separated (expsFragments depth values)

def Declaration.fragments (depth : Nat) : Declaration → List Fragment
  | ⟨names, attrs, values, _⟩ =>
    sym .kwLocal :: space :: separated (markedFragments names attrs) ++
      valuesFragments (expsFragments depth values)

/-- The words of a statement; one that only Mooc has may have none. -/
def Stat.fragments (depth : Nat) : Stat → List Fragment
  | .breakLoop _ => [sym .kwBreak]
  | .label name _ => [sym .doubleColon, ident name, sym .doubleColon]
  | .goto name _ => [sym .kwGoto, space, ident name]
  | .doBlock _ body _ =>
    sym .kwDo :: enclosedFragments (body.fragments (depth + 1)) depth [sym .kwEnd]
  | .whileLoop condition body _ =>
    sym .kwWhile :: space :: condition.fragments depth ++ space :: sym .kwDo ::
      enclosedFragments (body.fragments (depth + 1)) depth [sym .kwEnd]
  | .repeatLoop body condition _ =>
    sym .kwRepeat :: enclosedFragments (body.fragments (depth + 1)) depth
      (sym .kwUntil :: space :: condition.fragments depth)
  | .conditional chain => chain.fragments depth
  | .numericFor var init limit step body _ =>
    sym .kwFor :: space :: ident var.name :: space :: sym .assign :: space ::
      init.fragments depth ++ sym .comma :: space :: limit.fragments depth ++ sym .comma ::
      space :: step.fragments depth ++ space :: sym .kwDo ::
      enclosedFragments (body.fragments (depth + 1)) depth [sym .kwEnd]
  | .genericFor vars iterables body _ =>
    sym .kwFor :: space :: separated (namesFragments vars) ++ space :: sym .kwIn :: space ::
      separated (expsFragments depth iterables) ++ space :: sym .kwDo ::
      enclosedFragments (body.fragments (depth + 1)) depth [sym .kwEnd]
  | .assign assignment => assignment.fragments depth
  | .declare declaration | .importNames declaration => declaration.fragments depth
  | .localFunction name body _ =>
    sym .kwLocal :: space :: sym .kwFunction :: space :: ident name.name :: body.fragments depth
  | .call call _ | .importCall call _ => call.fragments depth
  | .switch subject cases _ =>
    subject.fragments depth ++ newline :: indent depth :: cases.fragments depth
  | .empty | .classDecl _ | .exportAll _ => []

end

attribute [simp] Exp.fragments FunctionBody.fragments Call.fragments Conditional.fragments
  Assignment.fragments Declaration.fragments Stat.fragments

section Lists

variable (depth : Nat)

@[simp]
theorem expsFragments_eq (es : List Exp) : expsFragments depth es = es.map (·.fragments depth) := by
  induction es with
  | nil => rfl
  | cons e rest inductionHypothesis => simp [expsFragments, inductionHypothesis]

@[simp]
theorem keysFragments_eq (keys : List (Option Exp)) :
    keysFragments depth keys = keys.map (·.map (·.fragments depth)) := by
  induction keys with
  | nil => rfl
  | cons key rest inductionHypothesis => cases key <;> simp [keysFragments, inductionHypothesis]

theorem statsFragments_cons (s : Stat) (rest : List Stat) : statsFragments depth (s :: rest) =
    indent depth :: s.fragments depth ++ newline :: statsFragments depth rest := by
  rw [statsFragments]

@[simp]
theorem branchesFragments_eq (bs : List Branch) : branchesFragments depth bs =
    bs.map fun b => (b.condition.fragments depth, b.body.fragments (depth + 1)) := by
  induction bs with
  | nil => rfl
  | cons b rest inductionHypothesis =>
    cases b
    simp [branchesFragments, inductionHypothesis]

end Lists

end LuaChunk
