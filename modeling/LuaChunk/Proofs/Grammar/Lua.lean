import LuaChunk.Token

/-!
# The grammar of Lua

An extended context-free grammar over kinds of tokens, and the rules of Lua in it.  The rules are
those of the language with one addition: a compound assignment has an operator before its `=`.
-/

set_option autoImplicit false

namespace LuaChunk

namespace Grammar

/-- A part of a rule: a token, a nonterminal, what may be left out, and what may be repeated. -/
inductive Item (N : Type) where
  | token (kind : TokenKind)
  | rule (n : N)
  | opt (items : List (Item N))
  | many (items : List (Item N))

variable {N : Type}

/-- The kinds of tokens in a row are spelled by the items in a row. -/
inductive Derives (g : N → List (List (Item N))) : List (Item N) → List TokenKind → Prop
  | nil : Derives g [] []
  | token {kind rest w} : Derives g rest w → Derives g (.token kind :: rest) (kind :: w)
  | rule {n body rest u v} : body ∈ g n → Derives g body u → Derives g rest v →
      Derives g (.rule n :: rest) (u ++ v)
  | skip {items rest w} : Derives g rest w → Derives g (.opt items :: rest) w
  | take {items rest u v} : Derives g items u → Derives g rest v →
      Derives g (.opt items :: rest) (u ++ v)
  | stop {items rest w} : Derives g rest w → Derives g (.many items :: rest) w
  | more {items rest u v} : Derives g items u → Derives g (.many items :: rest) v →
      Derives g (.many items :: rest) (u ++ v)

namespace Derives

variable {g : N → List (List (Item N))} {a b items : List (Item N)} {u v : List TokenKind}

theorem append (h : Derives g a u) (k : Derives g b v) : Derives g (a ++ b) (u ++ v) := by
  induction h with
  | nil => exact k
  | token _ inductionHypothesis => exact .token inductionHypothesis
  | rule membership body _ _ inductionHypothesis =>
    rw [List.append_assoc]
    exact .rule membership body inductionHypothesis
  | skip _ inductionHypothesis => exact .skip inductionHypothesis
  | take items _ _ inductionHypothesis =>
    rw [List.append_assoc]
    exact .take items inductionHypothesis
  | stop _ inductionHypothesis => exact .stop inductionHypothesis
  | more items _ _ inductionHypothesis =>
    rw [List.append_assoc]
    exact .more items inductionHypothesis

theorem snoc (h : Derives g (a ++ [.many items]) u) (k : Derives g items v) :
    Derives g (a ++ [.many items]) (u ++ v) := by
  generalize equality : a ++ [.many items] = row at h
  have once : Derives g [.many items] v := by simpa using Derives.more k (.stop .nil)
  induction h generalizing a with
  | nil => simp at equality
  | token _ inductionHypothesis =>
    rcases List.append_eq_cons_iff.1 equality with ⟨_, ⟨⟩⟩ | ⟨a, rfl, rfl⟩
    exact .token (inductionHypothesis rfl)
  | rule membership body _ _ inductionHypothesis =>
    rcases List.append_eq_cons_iff.1 equality with ⟨_, ⟨⟩⟩ | ⟨a, rfl, rfl⟩
    rw [List.append_assoc]
    exact .rule membership body (inductionHypothesis rfl)
  | skip _ inductionHypothesis =>
    rcases List.append_eq_cons_iff.1 equality with ⟨_, ⟨⟩⟩ | ⟨a, rfl, rfl⟩
    exact .skip (inductionHypothesis rfl)
  | take part _ _ inductionHypothesis =>
    rcases List.append_eq_cons_iff.1 equality with ⟨_, ⟨⟩⟩ | ⟨a, rfl, rfl⟩
    rw [List.append_assoc]
    exact .take part (inductionHypothesis rfl)
  | stop rest inductionHypothesis =>
    rcases List.append_eq_cons_iff.1 equality with ⟨rfl, last⟩ | ⟨a, rfl, rfl⟩
    · cases last
      cases rest
      exact once
    · exact .stop (inductionHypothesis rfl)
  | more part _ _ inductionHypothesis =>
    rw [List.append_assoc]
    rcases List.append_eq_cons_iff.1 equality with ⟨rfl, last⟩ | ⟨a, rfl, rfl⟩
    · cases last
      exact .more part (inductionHypothesis (a := []) rfl)
    · exact .more part (inductionHypothesis (a := .many _ :: a) rfl)

end Derives

end Grammar

open Grammar

inductive Nonterminal where
  | block | stat | retstat | funcname | varlist | var | namelist | attnamelist | attrib | explist
  | exp | functiondef | prefixexp | functioncall | args | funcbody | parlist | tableconstructor
  | fieldlist | field | fieldsep | binop | unop | compoundop

def luaRules : Nonterminal → List (List (Item Nonterminal))
  | .block => [[.many [.rule .stat], .opt [.rule .retstat]]]
  | .stat =>
    [ [.token .semi],
      [.token .kwBreak],
      [.token .doubleColon, .token .identifier, .token .doubleColon],
      [.token .kwGoto, .token .identifier],
      [.token .kwDo, .rule .block, .token .kwEnd],
      [.token .kwWhile, .rule .exp, .token .kwDo, .rule .block, .token .kwEnd],
      [.token .kwRepeat, .rule .block, .token .kwUntil, .rule .exp],
      [.token .kwIf, .rule .exp, .token .kwThen, .rule .block,
        .many [.token .kwElseif, .rule .exp, .token .kwThen, .rule .block],
        .opt [.token .kwElse, .rule .block], .token .kwEnd],
      [.token .kwFor, .token .identifier, .token .assign, .rule .exp, .token .comma, .rule .exp,
        .opt [.token .comma, .rule .exp], .token .kwDo, .rule .block, .token .kwEnd],
      [.token .kwFor, .rule .namelist, .token .kwIn, .rule .explist, .token .kwDo, .rule .block,
        .token .kwEnd],
      [.token .kwFunction, .rule .funcname, .rule .funcbody],
      [.token .kwLocal, .token .kwFunction, .token .identifier, .rule .funcbody],
      [.token .kwLocal, .rule .attnamelist, .opt [.token .assign, .rule .explist]],
      [.rule .varlist, .token .assign, .rule .explist],
      [.rule .var, .rule .compoundop, .token .assign, .rule .exp],
      [.rule .functioncall] ]
  | .retstat => [[.token .kwReturn, .opt [.rule .explist], .opt [.token .semi]]]
  | .funcname =>
    [[.token .identifier, .many [.token .dot, .token .identifier],
      .opt [.token .colon, .token .identifier]]]
  | .varlist => [[.rule .var, .many [.token .comma, .rule .var]]]
  | .var =>
    [ [.token .identifier],
      [.rule .prefixexp, .token .lbracket, .rule .exp, .token .rbracket],
      [.rule .prefixexp, .token .dot, .token .identifier] ]
  | .namelist => [[.token .identifier, .many [.token .comma, .token .identifier]]]
  | .attnamelist =>
    [[.token .identifier, .rule .attrib, .many [.token .comma, .token .identifier, .rule .attrib]]]
  | .attrib => [[.opt [.token .less, .token .identifier, .token .greater]]]
  | .explist => [[.rule .exp, .many [.token .comma, .rule .exp]]]
  | .exp =>
    [ [.token .kwNil],
      [.token .kwFalse],
      [.token .kwTrue],
      [.token .number],
      [.token .string],
      [.token .vararg],
      [.rule .functiondef],
      [.rule .prefixexp],
      [.rule .tableconstructor],
      [.rule .exp, .rule .binop, .rule .exp],
      [.rule .unop, .rule .exp] ]
  | .functiondef => [[.token .kwFunction, .rule .funcbody]]
  | .prefixexp =>
    [ [.rule .var],
      [.rule .functioncall],
      [.token .lparen, .rule .exp, .token .rparen] ]
  | .functioncall =>
    [ [.rule .prefixexp, .rule .args],
      [.rule .prefixexp, .token .colon, .token .identifier, .rule .args] ]
  | .args =>
    [ [.token .lparen, .opt [.rule .explist], .token .rparen],
      [.rule .tableconstructor],
      [.token .string] ]
  | .funcbody =>
    [[.token .lparen, .opt [.rule .parlist], .token .rparen, .rule .block, .token .kwEnd]]
  | .parlist =>
    [ [.rule .namelist, .opt [.token .comma, .token .vararg]],
      [.token .vararg] ]
  | .tableconstructor => [[.token .lbrace, .opt [.rule .fieldlist], .token .rbrace]]
  | .fieldlist =>
    [[.rule .field, .many [.rule .fieldsep, .rule .field], .opt [.rule .fieldsep]]]
  | .field =>
    [ [.token .lbracket, .rule .exp, .token .rbracket, .token .assign, .rule .exp],
      [.token .identifier, .token .assign, .rule .exp],
      [.rule .exp] ]
  | .fieldsep => [[.token .comma], [.token .semi]]
  | .binop =>
    [ [.token .plus], [.token .minus], [.token .star], [.token .slash], [.token .doubleSlash],
      [.token .percent], [.token .caret], [.token .concat], [.token .shiftLeft],
      [.token .shiftRight], [.token .ampersand], [.token .tilde], [.token .pipe], [.token .less],
      [.token .lessEqual], [.token .greater], [.token .greaterEqual], [.token .equal],
      [.token .notEqual], [.token .kwAnd], [.token .kwOr] ]
  | .unop => [[.token .minus], [.token .kwNot], [.token .hash], [.token .tilde]]
  | .compoundop =>
    [ [.token .star], [.token .slash], [.token .percent], [.token .plus], [.token .minus],
      [.token .concat], [.token .kwOr], [.token .kwAnd], [.token .caret] ]

end LuaChunk
