import LuaChunk.Tree.Basic

/-!
# Induction over trees

Trees are built from expressions, statements and blocks, and from records that group them.  An
induction over trees proves something of the three kinds at once; the records are taken apart.
-/

set_option autoImplicit false

namespace LuaChunk

/-- The cases of an induction over trees.  Nothing is assumed of the parts of a class. -/
structure TreeCases (P : Exp → Prop) (S : Stat → Prop) (B : Block → Prop) : Prop where
  nil (span : Span) : P (.nil span)
  bool (value : Bool) (span : Span) : P (.bool value span)
  vararg (span : Span) : P (.vararg span)
  integer (value : Int64) (span : Span) : P (.integer value span)
  float (value : Binary64) (span : Span) : P (.float value span)
  string (text : String) (span : Span) : P (.string text span)
  name (name : String) (span : Span) : P (.name name span)
  unary (op : UnaryOp) (span : Span) {operand : Exp} : P operand → P (.unary op operand span)
  binary (op : BinaryOp) (span : Span) {left right : Exp} : P left → P right →
    P (.binary op left right span)
  table (span : Span) {keys : List (Option Exp)} {values : List Exp} :
    (∀ key, some key ∈ keys → P key) → (∀ value ∈ values, P value) → P (.table keys values span)
  function (params : List Param) (isVararg isMethod : Bool) (owner name : Option String)
    (span : Span) {block : Block} : B block →
    P (.function ⟨params, isVararg, isMethod, block, owner, name⟩ span)
  callExp (method : Option Param) (span : Span) {callee : Exp} {args : List Exp} : P callee →
    (∀ arg ∈ args, P arg) → P (.call ⟨callee, method, args⟩ span)
  index (span : Span) {object key : Exp} : P object → P key → P (.index object key span)
  paren (span : Span) {inner : Exp} : P inner → P (.paren inner span)
  bad (span : Span) : P (.bad span)
  empty : S .empty
  breakLoop (span : Span) : S (.breakLoop span)
  label (name : String) (span : Span) : S (.label name span)
  goto (name : String) (span : Span) : S (.goto name span)
  doBlock (kind : DoKind) (span : Span) {body : Block} : B body → S (.doBlock kind body span)
  whileLoop (span : Span) {condition : Exp} {body : Block} : P condition → B body →
    S (.whileLoop condition body span)
  repeatLoop (span : Span) {condition : Exp} {body : Block} : P condition → B body →
    S (.repeatLoop body condition span)
  conditional (span : Span) {branches : List Branch} :
    (∀ branch ∈ branches, P branch.condition ∧ B branch.body) → S (.conditional ⟨branches, span⟩)
  numericFor (var : Param) (span : Span) {init limit step : Exp} {body : Block} : P init →
    P limit → P step → B body → S (.numericFor var init limit step body span)
  genericFor (vars : List Param) (span : Span) {iterables : List Exp} {body : Block} :
    (∀ e ∈ iterables, P e) → B body → S (.genericFor vars iterables body span)
  assign (attr : Attribute) (span : Span) {targets values : List Exp} : (∀ e ∈ targets, P e) →
    (∀ e ∈ values, P e) → S (.assign ⟨targets, values, attr, span⟩)
  declare (names : List Param) (attrs : List Attribute) (span : Span) {values : List Exp} :
    (∀ e ∈ values, P e) → S (.declare ⟨names, attrs, values, span⟩)
  localFunction (name : Param) (params : List Param) (isVararg isMethod : Bool)
    (owner own : Option String) (span : Span) {block : Block} : B block →
    S (.localFunction name ⟨params, isVararg, isMethod, block, owner, own⟩ span)
  callStat (method : Option Param) (span : Span) {callee : Exp} {args : List Exp} : P callee →
    (∀ arg ∈ args, P arg) → S (.call ⟨callee, method, args⟩ span)
  classDecl (decl : ClassDecl) : S (.classDecl decl)
  importCall (method : Option Param) (span : Span) {callee : Exp} {args : List Exp} : P callee →
    (∀ arg ∈ args, P arg) → S (.importCall ⟨callee, method, args⟩ span)
  importNames (names : List Param) (attrs : List Attribute) (span : Span) {values : List Exp} :
    (∀ e ∈ values, P e) → S (.importNames ⟨names, attrs, values, span⟩)
  exportAll (span : Span) : S (.exportAll span)
  switch (names : List Param) (attrs : List Attribute) (place cases span : Span)
    {values : List Exp} {branches : List Branch} : (∀ e ∈ values, P e) →
    (∀ branch ∈ branches, P branch.condition ∧ B branch.body) →
    S (.switch ⟨names, attrs, values, place⟩ ⟨branches, cases⟩ span)
  block (returns : Option (List Exp)) (span : Span) {stats : List Stat} : (∀ s ∈ stats, S s) →
    (∀ e ∈ returns.getD [], P e) → B ⟨stats, returns, span⟩

namespace TreeCases

variable {P : Exp → Prop} {S : Stat → Prop} {B : Block → Prop}

mutual

theorem exp (h : TreeCases P S B) : ∀ e : Exp, P e
  | .nil span => h.nil span
  | .bool value span => h.bool value span
  | .vararg span => h.vararg span
  | .integer value span => h.integer value span
  | .float value span => h.float value span
  | .string text span => h.string text span
  | .name name span => h.name name span
  | .unary op operand span => h.unary op span (h.exp operand)
  | .binary op left right span => h.binary op span (h.exp left) (h.exp right)
  | .table keys values span => h.table span (h.keys keys) (h.exps values)
  | .function ⟨params, isVararg, isMethod, block, owner, name⟩ span =>
    h.function params isVararg isMethod owner name span (h.ofBlock block)
  | .call ⟨callee, method, args⟩ span => h.callExp method span (h.exp callee) (h.exps args)
  | .index object key span => h.index span (h.exp object) (h.exp key)
  | .paren inner span => h.paren span (h.exp inner)
  | .bad span => h.bad span

theorem exps (h : TreeCases P S B) : ∀ es : List Exp, ∀ e ∈ es, P e
  | [] => List.forall_mem_nil _
  | e :: rest => List.forall_mem_cons.2 ⟨h.exp e, h.exps rest⟩

theorem keys (h : TreeCases P S B) : ∀ keys : List (Option Exp), ∀ key, some key ∈ keys → P key
  | [], _, among => absurd among List.not_mem_nil
  | none :: rest, key, among => h.keys rest key (by simpa using among)
  | some first :: rest, key, among => by
    rcases List.mem_cons.1 among with same | later
    · cases same
      exact h.exp first
    · exact h.keys rest key later

theorem ofBlock (h : TreeCases P S B) : ∀ b : Block, B b
  | ⟨ss, none, span⟩ => h.block none span (h.stats ss) (List.forall_mem_nil _)
  | ⟨ss, some returns, span⟩ => h.block (some returns) span (h.stats ss) (h.exps returns)

theorem stats (h : TreeCases P S B) : ∀ ss : List Stat, ∀ s ∈ ss, S s
  | [] => List.forall_mem_nil _
  | s :: rest => List.forall_mem_cons.2 ⟨h.stat s, h.stats rest⟩

theorem branches (h : TreeCases P S B) :
    ∀ bs : List Branch, ∀ b ∈ bs, P b.condition ∧ B b.body
  | [] => List.forall_mem_nil _
  | ⟨condition, body⟩ :: rest =>
    List.forall_mem_cons.2 ⟨⟨h.exp condition, h.ofBlock body⟩, h.branches rest⟩

theorem stat (h : TreeCases P S B) : ∀ s : Stat, S s
  | .empty => h.empty
  | .breakLoop span => h.breakLoop span
  | .label name span => h.label name span
  | .goto name span => h.goto name span
  | .doBlock kind body span => h.doBlock kind span (h.ofBlock body)
  | .whileLoop condition body span => h.whileLoop span (h.exp condition) (h.ofBlock body)
  | .repeatLoop body condition span => h.repeatLoop span (h.exp condition) (h.ofBlock body)
  | .conditional ⟨branches, span⟩ => h.conditional span (h.branches branches)
  | .numericFor var init limit step body span =>
    h.numericFor var span (h.exp init) (h.exp limit) (h.exp step) (h.ofBlock body)
  | .genericFor vars iterables body span =>
    h.genericFor vars span (h.exps iterables) (h.ofBlock body)
  | .assign ⟨targets, values, attr, span⟩ =>
    h.assign attr span (h.exps targets) (h.exps values)
  | .declare ⟨names, attrs, values, span⟩ => h.declare names attrs span (h.exps values)
  | .localFunction name ⟨params, isVararg, isMethod, block, owner, own⟩ span =>
    h.localFunction name params isVararg isMethod owner own span (h.ofBlock block)
  | .call ⟨callee, method, args⟩ span => h.callStat method span (h.exp callee) (h.exps args)
  | .classDecl decl => h.classDecl decl
  | .importCall ⟨callee, method, args⟩ span =>
    h.importCall method span (h.exp callee) (h.exps args)
  | .importNames ⟨names, attrs, values, span⟩ => h.importNames names attrs span (h.exps values)
  | .exportAll span => h.exportAll span
  | .switch ⟨names, attrs, values, place⟩ ⟨bs, cases⟩ span =>
    h.switch names attrs place cases span (h.exps values) (h.branches bs)

end

end TreeCases

end LuaChunk
