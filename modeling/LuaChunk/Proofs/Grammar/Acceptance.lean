import LuaChunk.Proofs.Grammar.Table
import LuaChunk.Proofs.Operators.Grouping
import LuaChunk.Proofs.Spelling.Chunk

/-!
# Only sentences of the grammar are accepted

Every phrase that tokens of a Lua source spell is a phrase of the grammar, by induction on how it is
spelled.  A source that is analysed without diagnostics is therefore a sentence.
-/

set_option autoImplicit false

namespace LuaChunk

open Grammar

variable {c : Text} {i j k o : Place c}

/-- The tokens between two places are derived from items of the grammar. -/
def Covers (items : List (Item Nonterminal)) (i o : Place c) : Prop :=
  ∃ w, i.ahead.map (·.kind) = w ++ o.ahead.map (·.kind) ∧ Derives luaRules items w

namespace Covers

variable {a b items : List (Item Nonterminal)}

theorem nil : Covers [] i i := ⟨[], rfl, .nil⟩

theorem append (h : Covers a i j) (k : Covers b j o) : Covers (a ++ b) i o := by
  obtain ⟨u, first, derived⟩ := h
  obtain ⟨v, second, derived'⟩ := k
  exact ⟨u ++ v, by rw [first, second, List.append_assoc], derived.append derived'⟩

theorem rule {n : Nonterminal} (h : Covers a i o) (membership : a ∈ luaRules n) :
    Covers [.rule n] i o := by
  obtain ⟨w, tokens, derived⟩ := h
  exact ⟨w, tokens, by simpa using Derives.rule membership derived .nil⟩

theorem opt (h : Covers a i o) : Covers [.opt a] i o := by
  obtain ⟨w, tokens, derived⟩ := h
  exact ⟨w, tokens, by simpa using Derives.take derived .nil⟩

theorem noOpt : Covers [.opt a] i i := ⟨[], rfl, .skip .nil⟩

theorem noMany : Covers [.many a] i i := ⟨[], rfl, .stop .nil⟩

theorem snoc (h : Covers (a ++ [.many items]) i j) (k : Covers items j o) :
    Covers (a ++ [.many items]) i o := by
  obtain ⟨u, first, derived⟩ := h
  obtain ⟨v, second, derived'⟩ := k
  exact ⟨u ++ v, by rw [first, second, List.append_assoc], derived.snoc derived'⟩

end Covers

theorem Takes.covers {kind : TokenKind} {t : Token} (h : Takes kind i t o)
    (more : kind ≠ .eof := by decide) : Covers [.token kind] i o :=
  ⟨[kind], by simp [h.ahead more, h.kind_token], .token .nil⟩

/-- The nonterminal of an expression that other expressions may be built on. -/
def Exp.sort : Exp → Nonterminal
  | .name _ _ | .index _ _ _ => .var
  | .call _ _ => .functioncall
  | _ => .prefixexp

theorem Covers.prefixexp {e : Exp} (h : Covers [.rule e.sort] i o) :
    Covers [.rule .prefixexp] i o := by
  unfold Exp.sort at h
  split at h
  · exact h.rule (by simp [luaRules])
  · exact h.rule (by simp [luaRules])
  · exact h.rule (by simp [luaRules])
  · exact h

/-- So many fields with a separator after each. -/
def SeparatedFields (i o : Place c) : Nat → Prop
  | 0 => Covers [] i o
  | n + 1 => ∃ m, Covers (.rule .field :: separatedItems n) i m ∧ Covers [.rule .fieldsep] m o

theorem SeparatedFields.field {n : Nat} (h : SeparatedFields i j n)
    (f : Covers [.rule .field] j o) : Covers (.rule .field :: separatedItems n) i o := by
  cases n with
  | zero => exact Covers.append h f
  | succ n =>
    obtain ⟨m, fields, separator⟩ := h
    rw [separatedItems_succ]
    exact fields.append (separator.append f)

theorem Covers.fieldlist {n : Nat} (h : Covers (fieldItems n) i o) :
    Covers [.opt [.rule .fieldlist]] i o := by
  cases n with
  | zero => exact Covers.append h .noOpt
  | succ n =>
    obtain ⟨w, tokens, derived⟩ := h
    obtain ⟨u, v, rfl, first, more⟩ := Derives.split (a := [.rule Nonterminal.field]) derived
    have list : Covers [.rule .fieldlist] i o :=
      Covers.rule ⟨u ++ v, tokens, first.append more.many⟩ (by simp [luaRules])
    exact list.opt

/-- What the grammar says of the tokens that spell a phrase of Lua. -/
def Phrase.Derived (i o : Place c) : Phrase → Prop
  | .exp _ => Covers [.rule .exp] i o
  | .exps _ => Covers [.rule .exp, .many [.token .comma, .rule .exp]] i o
  | .prefixExp e => Covers [.rule e.sort] i o
  | .args _ => Covers [.rule .args] i o
  | .table _ => Covers [.rule .tableconstructor] i o
  | .field _ => Covers [.rule .field] i o
  | .openFields fs => SeparatedFields i o fs.length
  | .fields fs => Covers (fieldItems fs.length) i o
  | .names _ => Covers [.token .identifier, .many [.token .comma, .token .identifier]] i o
  | .params _ _ => Covers [.opt [.rule .parlist]] i o
  | .functionBody .ended _ => Covers [.rule .funcbody] i o
  | .attr _ => Covers [.rule .attrib] i o
  | .attrNames _ _ => Covers [.token .identifier, .rule .attrib,
      .many [.token .comma, .token .identifier, .rule .attrib]] i o
  | .initializer _ => Covers [.opt [.token .assign, .rule .explist]] i o
  | .targets _ => Covers [.many [.token .comma, .rule .var]] i o
  | .assignRest _ first _ =>
      ∀ m : Place c, Covers [.rule first.sort] m i → Covers [.rule .stat] m o
  | .assignOrCall _ => Covers [.rule .stat] i o
  | .loopBody _ => Covers [.token .kwDo, .rule .block, .token .kwEnd] i o
  | .step _ => Covers [.opt [.token .comma, .rule .exp]] i o
  | .branch _ => Covers [.rule .exp, .token .kwThen, .rule .block] i o
  | .branches _ => Covers [.rule .exp, .token .kwThen, .rule .block,
      .many [.token .kwElseif, .rule .exp, .token .kwThen, .rule .block]] i o
  | .otherwise _ => Covers [.opt [.token .kwElse, .rule .block]] i o
  | .dottedName _ => Covers [.token .identifier, .many [.token .dot, .token .identifier]] i o
  | .functionName _ _ => Covers [.rule .funcname] i o
  | .functionStat _ _ _ _ => Covers [.rule .stat] i o
  | .stat _ => Covers [.rule .stat] i o
  | .stats _ => Covers [.many [.rule .stat]] i o
  | .returns _ => Covers [.opt [.rule .retstat]] i o
  | .block _ => Covers [.rule .block] i o
  | _ => True

/-! ## Tokens that depend on the dialect -/

section Dialect

variable (lua : c.dialect = .lua)

include lua

theorem Takes.opening {word : TokenKind} {t : Token}
    (h : Takes (c.dialect.opening word) i t o) : Takes word i t o := by
  rwa [lua] at h

theorem Takes.closing {t : Token} (h : Takes c.dialect.closing i t o) : Takes .kwEnd i t o := by
  rwa [lua] at h

theorem Takes.functionWord {t : Token} (h : Takes c.dialect.functionWord i t o) :
    Takes .kwFunction i t o := by
  rwa [lua] at h

end Dialect

theorem TakesIf.pos {p : Prop} [Decidable p] {kind : TokenKind} (h : TakesIf p kind i o)
    (holds : p) : ∃ t, Takes kind i t o := by
  rwa [TakesIf, if_pos holds] at h

theorem TakesIf.neg {p : Prop} [Decidable p] {kind : TokenKind} (h : TakesIf p kind i o)
    (fails : ¬ p) : o = i := by
  rwa [TakesIf, if_neg fails] at h

/-- A word that only Mooc reserves is not taken. -/
theorem TakesIf.absent (lua : c.dialect = .lua) {p : Prop} [Decidable p] {kind : TokenKind}
    (h : TakesIf p kind i o) (word : kind ∈ TokenKind.moocKeywords) : o = i := by
  refine h.neg fun holds => ?_
  obtain ⟨t, taken⟩ := h.pos holds
  exact absurd (lua.symm.trans (taken.proper.reserved word)) nofun

/-! ## Separators and operators -/

theorem Takes.fieldsep {t : Token} (h : Takes t.kind i t o)
    (kind : t.kind = .comma ∨ t.kind = .semi) : Covers [.rule .fieldsep] i o := by
  rcases kind with kind | kind
  · rw [kind] at h
    exact h.covers.rule (by simp [luaRules])
  · rw [kind] at h
    exact h.covers.rule (by simp [luaRules])

theorem Takes.unop {t : Token} {op : UnaryOp} (h : Takes t.kind i t o)
    (found : UnaryOp.ofToken? t.kind = some op) : Covers [.rule .unop] i o := by
  refine (h.covers (UnaryOp.ne_eof found)).rule ?_
  rw [UnaryOp.ofToken?_eq_some.1 found]
  cases op <;> simp [luaRules, UnaryOp.token]

theorem Takes.binop {t : Token} {op : BinaryOp} (h : Takes t.kind i t o)
    (found : BinaryOp.ofToken? t.kind = some op) : Covers [.rule .binop] i o := by
  refine (h.covers (BinaryOp.ne_eof found)).rule ?_
  rw [BinaryOp.ofToken?_eq_some.1 found]
  cases op <;> simp [luaRules, BinaryOp.token]

theorem Takes.compoundop {t : Token} {op : BinaryOp} (h : Takes t.kind i t o)
    (found : BinaryOp.ofCompound? t.kind = some op) : Covers [.rule .compoundop] i o := by
  refine (h.covers (BinaryOp.ne_eof (BinaryOp.ofToken?_of_compound found))).rule ?_
  unfold BinaryOp.ofCompound? at found
  split at found <;> simp_all [luaRules]

theorem Exp.IsTarget.sort_eq {e : Exp} (h : e.IsTarget) : e.sort = .var := by
  cases h <;> rfl

/-! ## Phrases -/

theorem Spells.derived (lua : c.dialect = .lua) {p : Phrase} (h : Spells i p o) :
    p.Derived i o := by
  have noMooc : c.dialect ≠ .mooc := by simp [lua]
  induction h with
  -- Expressions
  | nil t => exact t.covers.rule (by simp [luaRules])
  | kwTrue t => exact t.covers.rule (by simp [luaRules])
  | kwFalse t => exact t.covers.rule (by simp [luaRules])
  | vararg t => exact t.covers.rule (by simp [luaRules])
  | string t => exact t.covers.rule (by simp [luaRules])
  | integer t => exact t.covers.rule (by simp [luaRules])
  | float t => exact t.covers.rule (by simp [luaRules])
  | prefixed _ e => exact e.prefixexp.rule (by simp [luaRules])
  | tableExp _ e => exact e.rule (by simp [luaRules])
  | function _ t _ body =>
    have definition : Covers [.rule .functiondef] _ _ :=
      (t.covers.append body).rule (by simp [luaRules])
    exact definition.rule (by simp [luaRules])
  | fn mooc => exact absurd mooc noMooc
  | anonymous mooc => exact absurd mooc noMooc
  | unary found t _ e => exact ((t.unop found).append e).rule (by simp [luaRules])
  | binary _ found t _ l r => exact (l.append ((t.binop found).append r)).rule (by simp [luaRules])
  | one _ e => exact e.append .noMany
  | more _ t _ es e => exact Covers.snoc (a := [.rule .exp]) es (t.covers.append e)
  -- Prefix expressions
  | name t => exact t.covers.rule (by simp [luaRules, Exp.sort])
  | paren t _ u e => exact (t.covers.append (e.append u.covers)).rule (by simp [luaRules, Exp.sort])
  | dot _ t n e =>
    exact (e.prefixexp.append (t.covers.append n.covers)).rule (by simp [luaRules, Exp.sort])
  | index _ t _ u e key =>
    exact (e.prefixexp.append (t.covers.append (key.append u.covers))).rule
      (by simp [luaRules, Exp.sort])
  | call _ _ e es => exact (e.prefixexp.append es).rule (by simp [luaRules, Exp.sort])
  | method _ t n _ e es =>
    exact (e.prefixexp.append (t.covers.append (n.covers.append es))).rule
      (by simp [luaRules, Exp.sort])
  | stringArg _ t => exact t.covers.rule (by simp [luaRules])
  | tableArg _ _ e => exact e.rule (by simp [luaRules])
  | noArgs t u =>
    exact (t.covers.append ((Covers.noOpt (a := [.rule .explist])).append u.covers)).rule
      (by simp [luaRules])
  | args t _ u es =>
    have list : Covers [.rule .explist] _ _ := es.rule (by simp [luaRules])
    exact (t.covers.append (list.opt.append u.covers)).rule (by simp [luaRules])
  -- Tables
  | bracketed t _ u v _ key value =>
    exact (t.covers.append (key.append (u.covers.append (v.covers.append value)))).rule
      (by simp [luaRules])
  | named t u _ value => exact (t.covers.append (u.covers.append value)).rule (by simp [luaRules])
  | positional _ value => exact value.rule (by simp [luaRules])
  | literalKey mooc => exact absurd mooc noMooc
  | shorthand mooc => exact absurd mooc noMooc
  | noFields => exact Covers.nil
  | separated _ _ kind t fs f =>
    rw [Phrase.Derived, List.length_append]
    exact ⟨_, fs.field f, t.fieldsep kind⟩
  | @closedFields _ fields _ _ fs =>
    cases fields with
    | nil => exact fs
    | cons =>
      obtain ⟨m, fields, last⟩ := fs
      exact fields.append last.opt
  | lastField _ _ fs f =>
    rw [Phrase.Derived, List.length_append]
    exact (fs.field f).append (.noOpt (a := [.rule .fieldsep]))
  | table t _ u fs =>
    exact (t.covers.append (fs.fieldlist.append u.covers)).rule (by simp [luaRules])
  -- Functions
  | oneName n => exact n.covers.append .noMany
  | moreNames _ t n ns =>
    exact Covers.snoc (a := [.token .identifier]) ns (t.covers.append n.covers)
  | noParams => exact .noOpt
  | varargs t =>
    have list : Covers [.rule .parlist] _ _ := t.covers.rule (by simp [luaRules])
    exact list.opt
  | params _ ns =>
    have names : Covers [.rule .namelist] _ _ := ns.rule (by simp [luaRules])
    have list : Covers [.rule .parlist] _ _ :=
      (names.append (.noOpt (a := [.token .comma, .token .vararg]))).rule (by simp [luaRules])
    exact list.opt
  | lastVarargs _ t u ns =>
    have names : Covers [.rule .namelist] _ _ := ns.rule (by simp [luaRules])
    have list : Covers [.rule .parlist] _ _ :=
      (names.append (t.covers.append u.covers).opt).rule (by simp [luaRules])
    exact list.opt
  | endedBody t _ u _ v params block =>
    exact (t.covers.append (params.append (u.covers.append (block.append v.covers)))).rule
      (by simp [luaRules])
  -- Local names and assignments
  | noAttr =>
    exact (Covers.noOpt (a := [.token .less, .token .identifier, .token .greater])).rule
      (by simp [luaRules])
  | attr t n u => exact (t.covers.append (n.covers.append u.covers)).opt.rule (by simp [luaRules])
  | oneAttrName n _ attr => exact n.covers.append (attr.append .noMany)
  | moreAttrNames _ t n _ _ names attr =>
    exact Covers.snoc (a := [.token .identifier, .rule .attrib]) names
      (t.covers.append (n.covers.append attr))
  | noValues => exact .noOpt
  | values t _ vs =>
    have list : Covers [.rule .explist] _ _ := vs.rule (by simp [luaRules])
    exact (t.covers.append list).opt
  | noTargets => exact .noMany
  | moreTargets _ t _ target ts e =>
    rw [Phrase.Derived, target.sort_eq] at e
    exact Covers.snoc (a := []) ts (t.covers.append e)
  | compound target found t u _ e =>
    intro m first
    rw [target.sort_eq] at first
    exact (first.append ((t.compoundop found).append (u.covers.append e))).rule (by simp [luaRules])
  | plain target _ t _ ts vs =>
    intro m first
    rw [target.sort_eq] at first
    have targets : Covers [.rule .varlist] _ _ := (first.append ts).rule (by simp [luaRules])
    have values : Covers [.rule .explist] _ _ := vs.rule (by simp [luaRules])
    exact (targets.append (t.covers.append values)).rule (by simp [luaRules])
  | bare mooc => exact absurd mooc noMooc
  | callStat _ call => exact call.rule (by simp [luaRules, Exp.sort])
  | assignment _ _ first rest => exact rest _ first
  -- Parts of statements
  | loopBody t _ u b => exact (t.opening lua).covers.append (b.append (u.closing lua).covers)
  | noStep => exact .noOpt
  | step t _ e => exact (t.covers.append e).opt
  | branch _ t _ brace e b =>
    rw [brace.neg noMooc]
    exact e.append ((t.opening lua).covers.append b)
  | oneBranch _ b => exact b.append .noMany
  | moreBranches _ t _ bs b =>
    exact Covers.snoc (a := [.rule .exp, .token .kwThen, .rule .block]) bs (t.covers.append b)
  | noOtherwise => exact .noOpt
  | otherwise t brace _ brace' b =>
    rw [brace'.neg noMooc]
    rw [brace.neg noMooc] at b
    exact (t.covers.append b).opt
  | firstName n => exact n.covers.append .noMany
  | dottedName _ t n f =>
    exact Covers.snoc (a := [.token .identifier]) f (t.covers.append n.covers)
  | plainName _ f =>
    exact (f.append (.noOpt (a := [.token .colon, .token .identifier]))).rule (by simp [luaRules])
  | methodName _ t n f =>
    exact (f.append (t.covers.append n.covers).opt).rule (by simp [luaRules])
  | memberName mooc => exact absurd mooc noMooc
  | functionStat static t _ _ f body =>
    rw [static.absent lua (by decide)] at t
    rw [lua] at body
    exact ((t.functionWord lua).covers.append (f.append body)).rule (by simp [luaRules])
  -- Statements
  | semi t => exact t.covers.rule (by simp [luaRules])
  | breakStat t => exact t.covers.rule (by simp [luaRules])
  | label t n u => exact (t.covers.append (n.covers.append u.covers)).rule (by simp [luaRules])
  | goto t n => exact (t.covers.append n.covers).rule (by simp [luaRules])
  | doStat t brace _ u b =>
    rw [brace.neg noMooc] at b
    exact (t.covers.append (b.append (u.closing lua).covers)).rule (by simp [luaRules])
  | whileStat t _ _ e b => exact (t.covers.append (e.append b)).rule (by simp [luaRules])
  | repeatStat t brace _ brace' u _ b e =>
    rw [brace.neg noMooc] at b
    rw [brace'.neg noMooc] at u
    exact (t.covers.append (b.append (u.covers.append e))).rule (by simp [luaRules])
  | ifStat t _ _ last bs otherwise =>
    obtain ⟨u, last⟩ := last.pos lua
    exact (t.covers.append (bs.append (otherwise.append last.covers))).rule (by simp [luaRules])
  | numericFor t n u _ v _ _ _ init limit step b =>
    exact (t.covers.append (n.covers.append (u.covers.append (init.append (v.covers.append
      (limit.append (step.append b))))))).rule (by simp [luaRules])
  | genericFor t _ u _ _ ns es b =>
    have names : Covers [.rule .namelist] _ _ := ns.rule (by simp [luaRules])
    have iterables : Covers [.rule .explist] _ _ := es.rule (by simp [luaRules])
    exact (t.covers.append (names.append (u.covers.append (iterables.append b)))).rule
      (by simp [luaRules])
  | functionAssign _ a => exact a
  | localFunction t u n _ body =>
    rw [lua] at body
    exact (t.covers.append ((u.functionWord lua).covers.append (n.covers.append body))).rule
      (by simp [luaRules])
  | localDecl t _ _ names values =>
    have names : Covers [.rule .attnamelist] _ _ := names.rule (by simp [luaRules])
    exact (t.covers.append (names.append values)).rule (by simp [luaRules])
  | simple _ s => exact s
  | mooc mooc => exact absurd mooc noMooc
  -- Blocks
  | noStats => exact .noMany
  | moreStats _ _ ss s => exact Covers.snoc (a := []) ss s
  | noReturn => exact .noOpt
  | bareReturn t =>
    have stat : Covers [.rule .retstat] _ _ := (t.covers.append
      ((Covers.noOpt (a := [.rule .explist])).append (.noOpt (a := [.token .semi])))).rule
        (by simp [luaRules])
    exact stat.opt
  | bareReturnSemi t u =>
    have stat : Covers [.rule .retstat] _ _ := (t.covers.append
      ((Covers.noOpt (a := [.rule .explist])).append u.covers.opt)).rule (by simp [luaRules])
    exact stat.opt
  | returns t _ es =>
    have list : Covers [.rule .explist] _ _ := es.rule (by simp [luaRules])
    have stat : Covers [.rule .retstat] _ _ :=
      (t.covers.append (list.opt.append (.noOpt (a := [.token .semi])))).rule (by simp [luaRules])
    exact stat.opt
  | returnsSemi t _ u es =>
    have list : Covers [.rule .explist] _ _ := es.rule (by simp [luaRules])
    have stat : Covers [.rule .retstat] _ _ :=
      (t.covers.append (list.opt.append u.covers.opt)).rule (by simp [luaRules])
    exact stat.opt
  | block _ _ ss rs => exact (ss.append rs).rule (by simp [luaRules])
  | labelledBlock _ mooc => exact absurd mooc noMooc
  -- No other rule spells a phrase of Lua.
  | _ => trivial

/-- **Acceptance is sound.**  The tokens of a Lua source that is analysed without diagnostics are a
sentence of the grammar. -/
theorem Session.analyze_sentence (source : List UInt8) (name : String) (settings : Settings)
    (lua : settings.dialect = .lua)
    (clean : (start source name settings).analyze.1.errors = []) :
    ∃ tokens, tokenize source .lua = .ok tokens ∧
      Derives luaRules [.rule .block] (tokens.map (·.kind)) := by
  obtain ⟨c, rfl, tokens, o, done, spelled⟩ := analyze_spells clean
  obtain ⟨w, covered, derived⟩ := spelled.derived lua
  refine ⟨c.tokens, lua ▸ tokens, ?_⟩
  rw [done, List.map_nil, List.append_nil] at covered
  exact covered ▸ derived

theorem Session.analyze_sentence_if_goto :
    ∃ tokens, tokenize "if a then goto b end ::b:: f{c = 1,}".toUTF8.toList .lua = .ok tokens ∧
      Derives luaRules [.rule .block] (tokens.map (·.kind)) :=
  analyze_sentence _ "" {} rfl (by decide +kernel)

end LuaChunk
