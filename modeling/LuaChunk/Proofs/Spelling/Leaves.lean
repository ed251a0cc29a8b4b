import LuaChunk.Proofs.Grammar.Acceptance
import LuaChunk.Proofs.Tree.Leaves

/-!
# Nothing is lost or moved

The leaves of a phrase of Lua are those of the tokens that spell it, in the same order, if no table
is cut.  Two places in a tree have to be told apart by their spans: the step of a loop that has none
is synthetic, and the value of a compound assignment starts where the assignment does.
-/

set_option autoImplicit false

namespace LuaChunk

open Grammar

variable {c : Text} {i j k o : Place c}

/-! ## Where expressions start -/

/-- An expression starts where the first of its tokens does. -/
def Phrase.Starts (i : Place c) : Phrase → Prop
  | .exp e | .prefixExp e | .table e => e.span.start = i.head.span.start
  | .exps es => ∃ e rest, es = e :: rest ∧ e.span.start = i.head.span.start
  | _ => True

theorem Spells.starts {p : Phrase} (h : Spells i p o) : p.Starts i := by
  induction h with
  | nil t => exact congrArg (·.span.start) t.token_eq
  | kwTrue t => exact congrArg (·.span.start) t.token_eq
  | kwFalse t => exact congrArg (·.span.start) t.token_eq
  | vararg t => exact congrArg (·.span.start) t.token_eq
  | string t => exact congrArg (·.span.start) t.token_eq
  | integer t => exact congrArg (·.span.start) t.token_eq
  | float t => exact congrArg (·.span.start) t.token_eq
  | prefixed _ e => exact e
  | tableExp _ e => exact e
  | function _ t => exact congrArg (·.span.start) t.token_eq
  | fn _ t => exact congrArg (·.span.start) t.token_eq
  | anonymous => rfl
  | unary _ t => exact congrArg (·.span.start) t.token_eq
  | binary => rfl
  | one _ e => exact ⟨_, [], rfl, e⟩
  | more _ _ _ es =>
    obtain ⟨e, rest, rfl, start⟩ := es
    exact ⟨e, _, rfl, start⟩
  | name t => exact congrArg (·.span.start) t.token_eq
  | paren t => exact congrArg (·.span.start) t.token_eq
  | dot _ _ _ e => exact e
  | index _ _ _ _ e => exact e
  | call _ _ e => exact e
  | method _ _ _ _ e => exact e
  | table t => exact congrArg (·.span.start) t.token_eq
  | _ => trivial

theorem Place.ahead_of_length (h : j.ahead.length < i.ahead.length) :
    i.ahead = i.head :: i.tail.ahead := by
  apply ahead_eq_cons
  intro eof
  cases tokens : i.ahead with
  | nil => simp [tokens] at h
  | cons t rest =>
    have first : t = i.head := by simp [head, token, tokens]
    exact c.not_eof t (i.mem (by simp [tokens])) (first ▸ eof)

theorem Place.head_mem (h : j.ahead.length < i.ahead.length) : i.head ∈ c.tokens := by
  apply i.mem
  rw [ahead_of_length h]
  exact List.mem_cons_self

theorem Place.start_lt (h : j.ahead.length < i.ahead.length) :
    i.head.span.start < j.head.span.start := by
  have ahead := ahead_of_length h
  have later : j.ahead <:+ i.tail.ahead := by
    apply List.suffix_of_suffix_length_le j.suffix i.tail.suffix
    rw [ahead, List.length_cons] at h
    exact Nat.le_of_lt_succ h
  have among : j.head ∈ i.tail.ahead ++ [c.final] := by
    rw [List.mem_append]
    cases tokens : j.ahead with
    | nil =>
      right
      simp [head, token, tokens]
    | cons t rest =>
      left
      apply later.mem
      simp [head, token, tokens]
  have ordered := c.ordered.sublist (i.suffix.sublist.append_right [c.final])
  rw [ahead, List.cons_append, List.pairwise_cons] at ordered
  have before := ordered.1 _ among
  have inside := c.start_lt _ (head_mem h)
  simp only [Position.lt_def, Position.le_def] at *
  omega

/-- What is spelled stands in the source. -/
theorem Spells.not_synthetic {e : Exp} (h : Spells i (.exp e) o) : e.span.isSynthetic = false := by
  have start : e.span.start = i.head.span.start := h.starts
  have after := c.start_le _ (Place.head_mem (Nat.lt_of_succ_le h.length))
  have line : e.span.start.line ≠ 0 := by
    rw [start]
    simp only [Position.le_def, Position.start] at after
    omega
  simp [Span.isSynthetic, line]

/-! ## Leaves of tokens -/

/-- The tokens between two places have these leaves. -/
def Carries (i o : Place c) (leaves : List Leaf) : Prop :=
  i.ahead.filterMap Token.leaf? = leaves ++ o.ahead.filterMap Token.leaf?

namespace Carries

variable {a b : List Leaf}

theorem nil : Carries i i [] := rfl

theorem append (h : Carries i j a) (k : Carries j o b) : Carries i o (a ++ b) := by
  rw [Carries, h, k, List.append_assoc]

end Carries

section Tokens

variable {kind : TokenKind} {t : Token}

theorem Takes.carries (h : Takes kind i t o) (more : kind ≠ .eof) :
    Carries i o t.leaf?.toList := by
  rw [Carries, h.ahead more, List.filterMap_cons]
  cases t.leaf? <;> rfl

theorem Takes.word (h : Takes kind i t o) (text : kind = .identifier ∨ kind = .string) :
    Carries i o [.text t.text] := by
  rcases text with rfl | rfl
  · simpa [Token.leaf?, h.kind_token] using h.carries
  · simpa [Token.leaf?, h.kind_token] using h.carries

theorem Takes.numeral (h : Takes .number i t o) :
    Carries i o [.number (Numeral.read? t.text)] := by
  simpa [Token.leaf?, h.kind_token] using h.carries

theorem Takes.skip (h : Takes kind i t o) (plain : kind ≠ .eof ∧ kind ≠ .identifier ∧
    kind ≠ .string ∧ kind ≠ .number := by decide) : Carries i o [] := by
  obtain ⟨more, identifier, string, number⟩ := plain
  have none : t.leaf? = none := by
    unfold Token.leaf?
    rw [h.kind_token]
    split <;> simp_all
  simpa [none] using h.carries more

end Tokens

theorem Takes.skip_unop {t : Token} {op : UnaryOp} (h : Takes t.kind i t o)
    (found : UnaryOp.ofToken? t.kind = some op) : Carries i o [] := by
  refine h.skip ?_
  rw [UnaryOp.ofToken?_eq_some.1 found]
  cases op <;> decide

theorem Takes.skip_binop {t : Token} {op : BinaryOp} (h : Takes t.kind i t o)
    (found : BinaryOp.ofToken? t.kind = some op) : Carries i o [] := by
  refine h.skip ?_
  rw [BinaryOp.ofToken?_eq_some.1 found]
  cases op <;> decide

theorem Takes.skip_fieldsep {t : Token} (h : Takes t.kind i t o)
    (kind : t.kind = .comma ∨ t.kind = .semi) : Carries i o [] := by
  refine h.skip ?_
  rcases kind with kind | kind <;> simp [kind]

theorem Attribute.leaves_of_word {a : Attribute} {word : String} (h : a.word? = some word) :
    a.leaves = [.text word] := by
  cases a <;> simp_all [word?]

/-! ## Leaves of phrases -/

/-- What is said of the leaves of a phrase of Lua. -/
def Phrase.Carried (i o : Place c) : Phrase → Prop
  | .exp e | .prefixExp e | .table e => Carries i o e.leaves
  | .exps es | .args es | .initializer es | .targets es => Carries i o (es.flatMap (·.leaves))
  | .field f => Carries i o (fieldLeaves f)
  | .openFields fs | .fields fs => Carries i o (fs.flatMap fieldLeaves)
  | .names ns | .params ns _ => Carries i o (ns.map Param.leaf)
  | .functionBody _ body => body.isMethod = false ∧ Carries i o body.leaves
  | .attr a => Carries i o a.leaves
  | .attrNames ns as => ns.length = as.length ∧
      Carries i o (List.zipWith (fun name attr => name.leaf :: attr.leaves) ns as).flatten
  | .assignRest start first s => ∀ m : Place c, m.head.span = start →
      i.ahead.length < m.ahead.length → Carries m i first.leaves → Carries m o s.leaves
  | .assignOrCall s | .stat s => Carries i o s.leaves
  | .loopBody b | .block b => Carries i o b.leaves
  | .step e => Carries i o (if e.span.isSynthetic then [] else e.leaves)
  | .branch b => Carries i o b.leaves
  | .branches bs | .otherwise bs => Carries i o (bs.flatMap (·.leaves))
  | .dottedName f | .functionName _ f => Carries i o f.target.leaves
  | .functionStat _ _ _ a => Carries i o a.leaves
  | .stats ss => Carries i o (ss.flatMap (·.leaves))
  | .returns rs => Carries i o ((rs.getD []).flatMap (·.leaves))
  | _ => True

/-- A table with few fields is not cut. -/
theorem Spells.capped_eq {fs : List (Option Exp × Exp)} {t u : Token} {α : Type}
    (lua : c.dialect = .lua)
    (small : TablesWithin c.settings.tableFieldLimit (c.tokens.map (·.kind)))
    (opening : Takes .lbrace i t j) (h : Spells j (.fields fs) k) (closing : Takes .rbrace k u o)
    (f : Option Exp × Exp → α) :
    Parser.capped c.settings.fieldCap (fs.map f) = fs.map f := by
  have table : Covers (tableItems fs.length) i o :=
    opening.covers.append (Covers.append (h.derived lua) closing.covers)
  obtain ⟨w, tokens, derived⟩ := table
  have among : w <:+: c.tokens.map (·.kind) := by
    obtain ⟨before, whole⟩ := i.suffix
    refine ⟨before.map (·.kind), o.ahead.map (·.kind), ?_⟩
    rw [← whole, List.map_append, tokens, List.append_assoc]
  have few := small _ w among derived
  have cap : c.settings.fieldCap = some c.settings.tableFieldLimit := by
    unfold Settings.fieldCap
    rw [show c.settings.dialect = .lua from lua]
  rw [cap, Parser.capped, List.take_of_length_le]
  simpa using few

/-- A function under a name has the leaves of the function: `self` is not written. -/
theorem Parser.FunctionName.leaves_named (f : FunctionName) {body : FunctionBody} (self : Span)
    (h : body.isMethod = false) : (f.named body self).leaves = body.leaves := by
  obtain ⟨params, isVararg, isMethod, block, owner, name⟩ := body
  subst h
  unfold named
  cases f.isMethod <;> simp

/-- The value of a plain assignment starts after the assignment. -/
theorem Spells.not_compound {first : Exp} {ts vs : List Exp} {attr : Attribute} {start now : Span}
    (h : Spells k (.exps vs) o) (later : start.start < k.head.span.start) :
    Assignment.isCompound ⟨first :: ts, vs, attr, start.merge now⟩ = false := by
  obtain ⟨e, rest, rfl, place⟩ := h.starts
  unfold Assignment.isCompound
  split
  · rename_i op left right span same
    obtain ⟨rfl, rfl⟩ : e = .binary op left right span ∧ rest = [] := by simpa using same
    have apart : span ≠ start.merge now := by
      rintro rfl
      rw [show start.start = k.head.span.start from place] at later
      simp [Position.lt_def] at later
    simpa using apart
  · rfl

theorem Spells.carried (lua : c.dialect = .lua)
    (small : TablesWithin c.settings.tableFieldLimit (c.tokens.map (·.kind))) {p : Phrase}
    (h : Spells i p o) : p.Carried i o := by
  have noMooc : c.dialect ≠ .mooc := by simp [lua]
  induction h with
  -- Expressions
  | nil t => exact t.skip
  | kwTrue t => exact t.skip
  | kwFalse t => exact t.skip
  | vararg t => exact t.skip
  | string t => simpa [Phrase.Carried] using t.word (.inr rfl)
  | integer t value => simpa [Phrase.Carried, value] using t.numeral
  | float t value => simpa [Phrase.Carried, value] using t.numeral
  | prefixed _ e => exact e
  | tableExp _ e => exact e
  | function _ t _ body => simpa [Phrase.Carried] using t.skip.append body.2
  | fn mooc => exact absurd mooc noMooc
  | anonymous mooc => exact absurd mooc noMooc
  | unary found t _ e => simpa [Phrase.Carried] using (t.skip_unop found).append e
  | binary _ found t _ l r =>
    simpa [Phrase.Carried] using l.append ((t.skip_binop found).append r)
  | one _ e => simpa [Phrase.Carried] using e
  | more _ t _ es e => simpa [Phrase.Carried] using Carries.append es (t.skip.append e)
  -- Prefix expressions
  | name t => simpa [Phrase.Carried] using t.word (.inl rfl)
  | paren t _ u e => simpa [Phrase.Carried] using t.skip.append (Carries.append e u.skip)
  | dot _ t n e =>
    simpa [Phrase.Carried] using Carries.append e (t.skip.append (n.word (.inl rfl)))
  | index _ t _ u e key =>
    simpa [Phrase.Carried] using Carries.append e (t.skip.append (Carries.append key u.skip))
  | call _ _ e es =>
    simpa [Phrase.Carried, List.flatMap_def] using Carries.append e es
  | method _ t n _ e es =>
    simpa [Phrase.Carried, List.flatMap_def, Param.leaf] using
      Carries.append e (t.skip.append ((n.word (.inl rfl)).append es))
  | stringArg _ t => simpa [Phrase.Carried] using t.word (.inr rfl)
  | tableArg _ _ e => simpa [Phrase.Carried] using e
  | noArgs t u => exact t.skip.append u.skip
  | args t _ u es => simpa [Phrase.Carried] using t.skip.append (Carries.append es u.skip)
  -- Tables
  | bracketed t _ u v _ key value =>
    simpa [Phrase.Carried, fieldLeaves] using
      t.skip.append (Carries.append key (u.skip.append (v.skip.append value)))
  | named t u _ value =>
    simpa [Phrase.Carried, fieldLeaves] using (t.word (.inl rfl)).append (u.skip.append value)
  | positional _ value => simpa [Phrase.Carried, fieldLeaves] using value
  | literalKey mooc => exact absurd mooc noMooc
  | shorthand mooc => exact absurd mooc noMooc
  | noFields => exact .nil
  | separated _ _ kind t fs f =>
    simpa [Phrase.Carried] using Carries.append fs (Carries.append f (t.skip_fieldsep kind))
  | closedFields _ fs => exact fs
  | lastField _ _ fs f => simpa [Phrase.Carried] using Carries.append fs f
  | table t fields u fs =>
    rw [Phrase.Carried, fields.capped_eq lua small t u, fields.capped_eq lua small t u,
      Exp.leaves_table]
    simpa using t.skip.append (Carries.append fs u.skip)
  -- Functions
  | oneName n => simpa [Phrase.Carried, Param.leaf] using n.word (.inl rfl)
  | moreNames _ t n ns =>
    simpa [Phrase.Carried, Param.leaf] using
      Carries.append ns (t.skip.append (n.word (.inl rfl)))
  | noParams => exact .nil
  | varargs t => exact t.skip
  | params _ ns => exact ns
  | lastVarargs _ t u ns => simpa [Phrase.Carried] using Carries.append ns (t.skip.append u.skip)
  | endedBody t _ u _ v params block =>
    refine ⟨rfl, ?_⟩
    simpa using t.skip.append
      (Carries.append params (u.skip.append (Carries.append block v.skip)))
  | bracedBody t _ u v _ w params block =>
    refine ⟨rfl, ?_⟩
    simpa using t.skip.append
      (Carries.append params (u.skip.append (v.skip.append (Carries.append block w.skip))))
  | anonymousBody t _ u _ v params block =>
    refine ⟨rfl, ?_⟩
    simpa using t.skip.append
      (Carries.append params (u.skip.append (Carries.append block v.skip)))
  -- Local names and assignments
  | noAttr => exact .nil
  | attr t n u word =>
    rw [Phrase.Carried, Attribute.leaves_of_word word]
    simpa using t.skip.append ((n.word (.inl rfl)).append u.skip)
  | oneAttrName n _ attr =>
    refine ⟨rfl, ?_⟩
    simpa [Param.leaf] using (n.word (.inl rfl)).append attr
  | moreAttrNames _ t n _ _ names attr =>
    obtain ⟨length, names⟩ := names
    refine ⟨by simp [length], ?_⟩
    simpa [List.zipWith_append length, Param.leaf] using
      names.append (t.skip.append ((n.word (.inl rfl)).append attr))
  | noValues => exact .nil
  | values t _ vs => simpa [Phrase.Carried] using t.skip.append vs
  | noTargets => exact .nil
  | moreTargets _ t _ _ ts e =>
    simpa [Phrase.Carried] using Carries.append ts (t.skip.append e)
  | compound _ found t u _ e =>
    intro m _ _ first
    rw [Stat.leaves, Assignment.leaves_compound]
    have sign := t.skip_binop (BinaryOp.ofToken?_of_compound found)
    simpa using first.append (sign.append (u.skip.append e))
  | plain _ targets t values ts vs =>
    intro m start later first
    have after := Nat.lt_of_le_of_lt (Nat.le_trans t.length_le targets.length_le) later
    rw [Stat.leaves, Assignment.leaves_eq (values.not_compound (start ▸ Place.start_lt after))]
    simpa using first.append (Carries.append ts (t.skip.append vs))
  | bare mooc => exact absurd mooc noMooc
  | callStat _ call => exact call
  | assignment first _ target rest =>
    exact rest _ rfl (Nat.lt_of_succ_le first.length) target
  -- Parts of statements
  | loopBody t _ u b =>
    simpa [Phrase.Carried] using
      (t.opening lua).skip.append (Carries.append b (u.closing lua).skip)
  | noStep => exact .nil
  | step t e value =>
    rw [Phrase.Carried, if_neg (by simp [e.not_synthetic])]
    simpa using t.skip.append value
  | branch _ t _ brace e b =>
    rw [brace.neg noMooc]
    simpa [Phrase.Carried] using Carries.append e ((t.opening lua).skip.append b)
  | oneBranch _ b => simpa [Phrase.Carried] using b
  | moreBranches _ t _ bs b => simpa [Phrase.Carried] using Carries.append bs (t.skip.append b)
  | noOtherwise => exact .nil
  | otherwise t brace _ brace' b =>
    rw [brace'.neg noMooc]
    rw [brace.neg noMooc] at b
    simpa [Phrase.Carried] using t.skip.append b
  | firstName n => simpa [Phrase.Carried] using n.word (.inl rfl)
  | dottedName _ t n f =>
    simpa [Phrase.Carried, Parser.FunctionName.member, Exp.field] using
      Carries.append f (t.skip.append (n.word (.inl rfl)))
  | plainName _ f => exact f
  | methodName _ t n f =>
    simpa [Phrase.Carried, Parser.FunctionName.member, Exp.field] using
      Carries.append f (t.skip.append (n.word (.inl rfl)))
  | memberName mooc => exact absurd mooc noMooc
  | functionStat static t _ _ f body =>
    rw [static.absent lua (by decide)] at t
    rw [Phrase.Carried, Assignment.leaves_eq rfl]
    simpa [-FunctionBody.leaves_eq, Parser.FunctionName.leaves_named _ _ body.1] using
      (t.functionWord lua).skip.append (Carries.append f body.2)
  -- Statements
  | semi t => exact t.skip
  | breakStat t => exact t.skip
  | label t n u =>
    simpa [Phrase.Carried] using t.skip.append ((n.word (.inl rfl)).append u.skip)
  | goto t n => simpa [Phrase.Carried] using t.skip.append (n.word (.inl rfl))
  | doStat t brace _ u b =>
    rw [brace.neg noMooc] at b
    simpa [Phrase.Carried] using t.skip.append (Carries.append b (u.closing lua).skip)
  | whileStat t _ _ e b => simpa [Phrase.Carried] using t.skip.append (Carries.append e b)
  | repeatStat t brace _ brace' u _ b e =>
    rw [brace.neg noMooc] at b
    rw [brace'.neg noMooc] at u
    simpa [Phrase.Carried] using t.skip.append (Carries.append b (u.skip.append e))
  | ifStat t _ _ last bs otherwise =>
    obtain ⟨u, last⟩ := last.pos lua
    simpa [Phrase.Carried] using
      t.skip.append (Carries.append bs (Carries.append otherwise last.skip))
  | numericFor t n u _ v _ _ _ init limit step b =>
    simpa [Phrase.Carried, Param.leaf] using
      t.skip.append ((n.word (.inl rfl)).append (u.skip.append (Carries.append init
        (v.skip.append (Carries.append limit (Carries.append step b))))))
  | genericFor t _ u _ _ ns es b =>
    simpa [Phrase.Carried, List.flatMap_def] using
      t.skip.append (Carries.append ns (u.skip.append (Carries.append es b)))
  | functionAssign _ a => exact a
  | localFunction t u n _ body =>
    simpa [Phrase.Carried, Param.leaf] using
      t.skip.append ((u.functionWord lua).skip.append ((n.word (.inl rfl)).append body.2))
  | localDecl t _ _ names values =>
    simpa [Phrase.Carried, List.flatMap_def] using t.skip.append (Carries.append names.2 values)
  | simple _ s => exact s
  | mooc mooc => exact absurd mooc noMooc
  -- Blocks
  | noStats => exact .nil
  | @moreStats _ _ _ s _ _ _ ss stat =>
    cases s <;> simpa [Phrase.Carried, Stat.isEmpty] using Carries.append ss stat
  | noReturn => exact .nil
  | bareReturn t => exact t.skip
  | bareReturnSemi t u => exact t.skip.append u.skip
  | returns t _ es => simpa [Phrase.Carried] using t.skip.append es
  | returnsSemi t _ u es => simpa [Phrase.Carried] using t.skip.append (Carries.append es u.skip)
  | block _ _ ss rs => simpa [Phrase.Carried, List.flatMap_def] using Carries.append ss rs
  | labelledBlock _ mooc => exact absurd mooc noMooc
  -- No other rule spells a phrase of Lua.
  | _ => trivial

/-- **Nothing is lost or moved.**  The names, strings and numbers of a Lua source that is analysed
without diagnostics, and in which no table constructor has more fields than the limit, are those of
its block, in the same order. -/
theorem Session.analyze_leaves (source : List UInt8) (name : String) (settings : Settings)
    (lua : settings.dialect = .lua)
    (clean : (start source name settings).analyze.1.errors = [])
    (small : ∀ tokens, tokenize source .lua = .ok tokens →
      TablesWithin settings.tableFieldLimit (tokens.map (·.kind))) :
    ∃ tokens, tokenize source .lua = .ok tokens ∧
      tokens.filterMap Token.leaf? = (start source name settings).analyze.1.block.leaves := by
  obtain ⟨c, rfl, tokens, o, done, spelled⟩ := analyze_spells clean
  rw [lua] at tokens
  refine ⟨c.tokens, tokens, ?_⟩
  have carried : Carries c.first o _ := spelled.carried lua (small _ tokens)
  rw [Carries, done, List.filterMap_nil, List.append_nil] at carried
  exact carried

theorem Session.analyze_leaves_local_function :
    let source :=
      "local t <const> = {a = 1, 2.5, [b] = c} t.x += \"s\" function t.y:z(d) end".toUTF8.toList
    ∃ tokens, tokenize source .lua = .ok tokens ∧
      tokens.filterMap Token.leaf? = (start source "" {}).analyze.1.block.leaves := by
  intro source
  apply analyze_leaves source "" {} rfl
  · decide +kernel
  · intro tokens read
    apply TablesWithin.of_length
    have few : (tokenize source .lua).toOption.all (·.length ≤ 1000) = true := by decide +kernel
    simpa [read, Except.toOption] using few

end LuaChunk
