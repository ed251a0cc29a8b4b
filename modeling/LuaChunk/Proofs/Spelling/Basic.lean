import LuaChunk.Proofs.Parser.Primitives

/-!
# How trees are spelled

`Spells i phrase o` says that the tokens from the place `i` up to the place `o` spell a phrase: a
tree, or a part of one that a parser returns.  Its rules say nothing of complaints, of levels of
nesting or of open constructs; what a parser returns without complaint is spelled by the tokens it
has taken.
-/

set_option autoImplicit false

namespace LuaChunk

/-! ## Tokens that depend on the dialect -/

/-- The token that opens a body: a word of Lua's, or a brace. -/
def Dialect.opening (d : Dialect) (word : TokenKind) : TokenKind :=
  if d = .mooc then .lbrace else word

/-- The token that closes a body. -/
def Dialect.closing (d : Dialect) : TokenKind := if d = .mooc then .rbrace else .kwEnd

/-- The keyword of a function statement. -/
def Dialect.functionWord (d : Dialect) : TokenKind := if d = .mooc then .kwFn else .kwFunction

/-- How a dialect writes the functions that have names. -/
def Dialect.functionStyle (d : Dialect) : FunctionStyle := if d = .mooc then .braced else .ended

/-- One token of a kind under a condition, and none otherwise. -/
def TakesIf {c : Text} (p : Prop) [Decidable p] (kind : TokenKind) (i o : Place c) : Prop :=
  if p then ∃ t, Takes kind i t o else o = i

/-- The word of an attribute in angle brackets. -/
def Attribute.word? : Attribute → Option String
  | .const => some "const"
  | .close => some "close"
  | _ => none

/-- Only names and indices can be assigned to. -/
inductive Exp.IsTarget : Exp → Prop
  | name (text : String) (span : Span) : IsTarget (.name text span)
  | index (object key : Exp) (span : Span) : IsTarget (.index object key span)

/-- A function under the name it is written with; `self` is placed at the end of the name. -/
def Parser.FunctionName.named (f : FunctionName) (body : FunctionBody) (self : Span) :
    FunctionBody :=
  { body with
    params := if f.isMethod then ⟨"self", self⟩ :: body.params else body.params
    isMethod := f.isMethod
    owner := f.owner
    name := some f.name }

/-! ## Imports -/

/-- A string names a library, and a name a table. -/
inductive ImportSource.OfToken (t : Token) : ImportSource → Prop
  | library : t.kind = .string → OfToken t (.library t.text)
  | table : t.kind = .identifier → OfToken t (.table t.text)

section Imports

variable {c : Text} (source : ImportSource) (names : List Param)

/-- The keys of an import up to a place where another may stand, and whether none stands before
that place. -/
inductive KeyList (i : Place c) : List Exp → Bool → Place c → Prop
  | start : KeyList i [] true i
  | key {values isFirst j t k s o} : KeyList i values isFirst j → Takes .identifier j t k →
      Takes .comma k s o → KeyList i (values ++ [source.member t.text t.span]) false o
  | none {values isFirst j s o} : KeyList i values isFirst j → Takes .comma j s o →
      KeyList i (values ++ if isFirst then names.map fun n => source.member n.name j.now else [])
        false o

/-- All keys of an import. -/
inductive Keys (i : Place c) : List Exp → Place c → Prop
  | key {values isFirst j t o} : KeyList source names i values isFirst j →
      Takes .identifier j t o → Keys i (values ++ [source.member t.text t.span]) o
  | none {values isFirst o} : KeyList source names i values isFirst o →
      Keys i (values ++ if isFirst then names.map fun n => source.member n.name o.now else []) o

end Imports

/-! ## Phrases -/

/-- What the parsers return. -/
inductive Phrase where
  | exp (e : Exp)
  | exps (es : List Exp)
  | prefixExp (e : Exp)
  | args (es : List Exp)
  | table (e : Exp)
  | field (f : Option Exp × Exp)
  /-- Fields with a separator after each. -/
  | openFields (fs : List (Option Exp × Exp))
  | fields (fs : List (Option Exp × Exp))
  | names (ns : List Param)
  | params (ns : List Param) (isVararg : Bool)
  | functionBody (style : FunctionStyle) (body : FunctionBody)
  | attr (a : Attribute)
  | attrNames (ns : List Param) (as : List Attribute)
  | initializer (vs : List Exp)
  /-- The targets after the first. -/
  | targets (ts : List Exp)
  /-- What follows the first target of an assignment that began at `start`. -/
  | assignRest (start : Span) (first : Exp) (s : Stat)
  | assignOrCall (s : Stat)
  | loopBody (b : Block)
  | step (e : Exp)
  | branch (b : Branch)
  | branches (bs : List Branch)
  | otherwise (bs : List Branch)
  /-- Names with dots between them. -/
  | dottedName (f : Parser.FunctionName)
  | functionName (isStatic : Bool) (f : Parser.FunctionName)
  | functionStat (start : Span) (attr : Attribute) (isStatic : Bool) (a : Assignment)
  | stat (s : Stat)
  | stats (ss : List Stat)
  | returns (rs : Option (List Exp))
  | block (b : Block)
  /-- A statement that only Mooc has. -/
  | moocStat (s : Stat)
  | caseBody (b : Block)
  | cases (bs : List Branch)
  | defaultCase (bs : List Branch)
  | parent (e : Exp)
  | members (owner : String) (ms : List Assignment)
  | classStat (start : Span) (isExported : Bool) (s : Stat)

/-- The span of a block between two places, which is empty if no token stands between them. -/
def Place.blockSpan {c : Text} (i o : Place c) : Span :=
  if o.now = i.now then i.head.span.upTo i.head.span else i.head.span.merge o.now

/-- The tokens from one place up to another spell a phrase. -/
inductive Spells {c : Text} : Place c → Phrase → Place c → Prop
  -- Expressions
  | nil {i t o} : Takes .kwNil i t o → Spells i (.exp (.nil t.span)) o
  | kwTrue {i t o} : Takes .kwTrue i t o → Spells i (.exp (.bool true t.span)) o
  | kwFalse {i t o} : Takes .kwFalse i t o → Spells i (.exp (.bool false t.span)) o
  | vararg {i t o} : Takes .vararg i t o → Spells i (.exp (.vararg t.span)) o
  | string {i t o} : Takes .string i t o → Spells i (.exp (.string t.text t.span)) o
  | integer {i t o value} : Takes .number i t o →
      Numeral.read? t.text = some (.integer value) → Spells i (.exp (.integer value t.span)) o
  | float {i t o value} : Takes .number i t o →
      Numeral.read? t.text = some (.float value) → Spells i (.exp (.float value t.span)) o
  | prefixed {i e o} : Spells i (.prefixExp e) o → Spells i (.exp e) o
  | tableExp {i e o} : Spells i (.table e) o → Spells i (.exp e) o
  | function {i t j body o} : c.dialect = .lua → Takes .kwFunction i t j →
      Spells j (.functionBody .ended body) o →
      Spells i (.exp (.function body (t.span.merge o.now))) o
  | fn {i t j body o} : c.dialect = .mooc → Takes .kwFn i t j →
      Spells j (.functionBody .braced body) o →
      Spells i (.exp (.function body (t.span.merge o.now))) o
  | anonymous {i body o} : c.dialect = .mooc → Spells i (.functionBody .anonymous body) o →
      Spells i (.exp (.function body (i.head.span.merge o.now))) o
  | unary {i t j e o op} : UnaryOp.ofToken? t.kind = some op → Takes t.kind i t j →
      Spells j (.exp e) o → Spells i (.exp (.unary op e (t.span.merge o.now))) o
  | binary {i l j t k r o op} : Spells i (.exp l) j → BinaryOp.ofToken? t.kind = some op →
      Takes t.kind j t k → Spells k (.exp r) o →
      Spells i (.exp (.binary op l r (i.head.span.merge o.now))) o
  | one {i e o} : Spells i (.exp e) o → Spells i (.exps [e]) o
  | more {i es j t k e o} : Spells i (.exps es) j → Takes .comma j t k → Spells k (.exp e) o →
      Spells i (.exps (es ++ [e])) o
  -- Prefix expressions
  | name {i t o} : Takes .identifier i t o → Spells i (.prefixExp (.name t.text t.span)) o
  | paren {i t j e k u o} : Takes .lparen i t j → Spells j (.exp e) k → Takes .rparen k u o →
      Spells i (.prefixExp (.paren e (t.span.merge o.now))) o
  | dot {i e j t k n o} : Spells i (.prefixExp e) j → Takes .dot j t k →
      Takes .identifier k n o →
      Spells i (.prefixExp (.index e (.string n.text n.span) (e.span.merge n.span))) o
  | index {i e j t k key l u o} : Spells i (.prefixExp e) j → Takes .lbracket j t k →
      Spells k (.exp key) l → Takes .rbracket l u o →
      Spells i (.prefixExp (.index e key (e.span.merge o.now))) o
  | call {i e j es o} : Spells i (.prefixExp e) j → Spells j (.args es) o →
      Spells i (.prefixExp (.call ⟨e, none, es⟩ (e.span.merge o.now))) o
  | method {i e j t k n l es o} : Spells i (.prefixExp e) j → Takes .colon j t k →
      Takes .identifier k n l → Spells l (.args es) o →
      Spells i (.prefixExp (.call ⟨e, some ⟨n.text, n.span⟩, es⟩ (e.span.merge o.now))) o
  | stringArg {i t o} : c.dialect = .lua → Takes .string i t o →
      Spells i (.args [.string t.text t.span]) o
  | tableArg {i e o} : c.dialect = .lua → Spells i (.table e) o → Spells i (.args [e]) o
  | noArgs {i t j u o} : Takes .lparen i t j → Takes .rparen j u o → Spells i (.args []) o
  | args {i t j es k u o} : Takes .lparen i t j → Spells j (.exps es) k → Takes .rparen k u o →
      Spells i (.args es) o
  -- Tables
  | bracketed {i t j key k u l v m value o} : Takes .lbracket i t j → Spells j (.exp key) k →
      Takes .rbracket k u l → Takes .assign l v m → Spells m (.exp value) o →
      Spells i (.field (some key, value)) o
  | named {i t j u k value o} : Takes .identifier i t j → Takes .assign j u k →
      Spells k (.exp value) o → Spells i (.field (some (.string t.text t.span), value)) o
  | positional {i value o} : Spells i (.exp value) o → Spells i (.field (none, value)) o
  | literalKey {i key j t k value o} : c.dialect = .mooc → Spells i (.exp key) j →
      Takes .assign j t k → Spells k (.exp value) o → Spells i (.field (some key, value)) o
  | shorthand {i t j n o} : c.dialect = .mooc → Takes .assign i t j → Takes .identifier j n o →
      Spells i (.field (some (.string n.text n.span), .name n.text n.span)) o
  | noFields {i} : Spells i (.openFields []) i
  | separated {i fs j f k t o} : Spells i (.openFields fs) j → Spells j (.field f) k →
      t.kind = .comma ∨ t.kind = .semi → Takes t.kind k t o → Spells i (.openFields (fs ++ [f])) o
  | closedFields {i fs o} : Spells i (.openFields fs) o → Spells i (.fields fs) o
  | lastField {i fs j f o} : Spells i (.openFields fs) j → Spells j (.field f) o →
      Spells i (.fields (fs ++ [f])) o
  | table {i t j fs k u o} : Takes .lbrace i t j → Spells j (.fields fs) k →
      Takes .rbrace k u o →
      Spells i (.table (.table (Parser.capped c.settings.fieldCap (fs.map (·.1)))
        (Parser.capped c.settings.fieldCap (fs.map (·.2))) (t.span.merge o.now))) o
  -- Functions
  | oneName {i t o} : Takes .identifier i t o → Spells i (.names [⟨t.text, t.span⟩]) o
  | moreNames {i ns j t k n o} : Spells i (.names ns) j → Takes .comma j t k →
      Takes .identifier k n o → Spells i (.names (ns ++ [⟨n.text, n.span⟩])) o
  | noParams {i} : Spells i (.params [] false) i
  | varargs {i t o} : Takes .vararg i t o → Spells i (.params [] true) o
  | params {i ns o} : Spells i (.names ns) o → Spells i (.params ns false) o
  | lastVarargs {i ns j t k u o} : Spells i (.names ns) j → Takes .comma j t k →
      Takes .vararg k u o → Spells i (.params ns true) o
  | endedBody {i t j params isVararg k u l block m v o} : Takes .lparen i t j →
      Spells j (.params params isVararg) k → Takes .rparen k u l → Spells l (.block block) m →
      Takes .kwEnd m v o →
      Spells i (.functionBody .ended ⟨params, isVararg, false, block, none, none⟩) o
  | bracedBody {i t j params isVararg k u l v m block n w o} : Takes .lparen i t j →
      Spells j (.params params isVararg) k → Takes .rparen k u l → Takes .lbrace l v m →
      Spells m (.block block) n → Takes .rbrace n w o →
      Spells i (.functionBody .braced ⟨params, isVararg, false, block, none, none⟩) o
  | anonymousBody {i t j params isVararg k u l block m v o} : Takes .lbrace i t j →
      Spells j (.params params isVararg) k → Takes .kwIn k u l → Spells l (.block block) m →
      Takes .rbrace m v o →
      Spells i (.functionBody .anonymous ⟨params, isVararg, false, block, none, none⟩) o
  -- Local names and assignments
  | noAttr {i} : Spells i (.attr .regular) i
  | attr {i t j n k u o a} : Takes .less i t j → Takes .identifier j n k → Takes .greater k u o →
      Attribute.word? a = some n.text → Spells i (.attr a) o
  | oneAttrName {i n j a o} : Takes .identifier i n j → Spells j (.attr a) o →
      Spells i (.attrNames [⟨n.text, n.span⟩] [a]) o
  | moreAttrNames {i ns as j t k n l a o} : Spells i (.attrNames ns as) j → Takes .comma j t k →
      Takes .identifier k n l → Spells l (.attr a) o → (a = .close → .close ∉ as) →
      Spells i (.attrNames (ns ++ [⟨n.text, n.span⟩]) (as ++ [a])) o
  | noValues {i} : Spells i (.initializer []) i
  | values {i t j vs o} : Takes .assign i t j → Spells j (.exps vs) o →
      Spells i (.initializer vs) o
  | noTargets {i} : Spells i (.targets []) i
  | moreTargets {i ts j t k e o} : Spells i (.targets ts) j → Takes .comma j t k →
      Spells k (.prefixExp e) o → e.IsTarget → Spells i (.targets (ts ++ [e])) o
  | compound {start first i t j u k v o op} : first.IsTarget →
      BinaryOp.ofCompound? t.kind = some op → Takes t.kind i t j → Takes .assign j u k →
      Spells k (.exp v) o →
      Spells i (.assignRest start first (.assign (.compound op first v (start.merge o.now)))) o
  | plain {start first i ts j t k vs o} : first.IsTarget → Spells i (.targets ts) j →
      Takes .assign j t k → Spells k (.exps vs) o →
      Spells i (.assignRest start first
        (.assign ⟨first :: ts, vs, .regular, start.merge o.now⟩)) o
  | bare {start first i ts o} : c.dialect = .mooc → first.IsTarget → Spells i (.targets ts) o →
      Spells i (.assignRest start first
        (.declare (Parser.implicitLocals (first :: ts) (start.merge o.now)))) o
  | callStat {i call span o} : Spells i (.prefixExp (.call call span)) o →
      Spells i (.assignOrCall (.call call (i.head.span.merge o.now))) o
  | assignment {i first j s o} : Spells i (.prefixExp first) j →
      Spells j (.assignRest i.head.span first s) o → Spells i (.assignOrCall s) o
  -- Parts of statements
  | loopBody {i t j b k u o} : Takes (c.dialect.opening .kwDo) i t j → Spells j (.block b) k →
      Takes c.dialect.closing k u o → Spells i (.loopBody b) o
  | noStep {i} : Spells i (.step (.integer 1 .synthetic)) i
  | step {i t j e o} : Takes .comma i t j → Spells j (.exp e) o → Spells i (.step e) o
  | branch {i e j t k b l o} : Spells i (.exp e) j → Takes (c.dialect.opening .kwThen) j t k →
      Spells k (.block b) l → TakesIf (c.dialect = .mooc) .rbrace l o → Spells i (.branch ⟨e, b⟩) o
  | oneBranch {i b o} : Spells i (.branch b) o → Spells i (.branches [b]) o
  | moreBranches {i bs j t k b o} : Spells i (.branches bs) j → Takes .kwElseif j t k →
      Spells k (.branch b) o → Spells i (.branches (bs ++ [b])) o
  | noOtherwise {i} : Spells i (.otherwise []) i
  | otherwise {i t j k b l o} : Takes .kwElse i t j → TakesIf (c.dialect = .mooc) .lbrace j k →
      Spells k (.block b) l → TakesIf (c.dialect = .mooc) .rbrace l o →
      Spells i (.otherwise [⟨.bool true t.span, b⟩]) o
  | firstName {i n o} : Takes .identifier i n o →
      Spells i (.dottedName ⟨.name n.text n.span, false, none, n.text⟩) o
  | dottedName {i f j t k n o} : Spells i (.dottedName f) j → Takes .dot j t k →
      Takes .identifier k n o → Spells i (.dottedName (f.member n false)) o
  | plainName {isStatic i f o} : Spells i (.dottedName f) o →
      Spells i (.functionName isStatic f) o
  | methodName {isStatic i f j t k n o} : Spells i (.dottedName f) j → Takes .colon j t k →
      Takes .identifier k n o → Spells i (.functionName isStatic (f.member n true)) o
  | memberName {isStatic i n o owner} : c.dialect = .mooc → Takes .identifier i n o →
      c.Names owner → Spells i (.functionName isStatic
        ⟨(Exp.name owner n.span).field n.text n.span, !isStatic, some owner, n.text⟩) o
  | functionStat {start attr isStatic i j t k f l body o} :
      TakesIf (isStatic = true) .kwStatic i j → Takes c.dialect.functionWord j t k →
      Spells k (.functionName isStatic f) l →
      Spells l (.functionBody c.dialect.functionStyle body) o →
      Spells i (.functionStat start attr isStatic
        ⟨[f.target], [.function (f.named body l.now) (t.span.merge o.now)], attr,
          start.merge o.now⟩) o
  -- Statements
  | semi {i t o} : Takes .semi i t o → Spells i (.stat .empty) o
  | breakStat {i t o} : Takes .kwBreak i t o → Spells i (.stat (.breakLoop t.span)) o
  | label {i t j n k u o} : Takes .doubleColon i t j → Takes .identifier j n k →
      Takes .doubleColon k u o → Spells i (.stat (.label n.text (t.span.merge o.now))) o
  | goto {i t j n o} : Takes .kwGoto i t j → Takes .identifier j n o →
      Spells i (.stat (.goto n.text (t.span.merge n.span))) o
  | doStat {i t j k b l u o} : Takes .kwDo i t j → TakesIf (c.dialect = .mooc) .lbrace j k →
      Spells k (.block b) l → Takes c.dialect.closing l u o →
      Spells i (.stat (.doBlock .plain b (t.span.merge o.now))) o
  | whileStat {i t j e k b o} : Takes .kwWhile i t j → Spells j (.exp e) k →
      Spells k (.loopBody b) o → Spells i (.stat (.whileLoop e b (t.span.merge o.now))) o
  | repeatStat {i t j k b l m u n e o} : Takes .kwRepeat i t j →
      TakesIf (c.dialect = .mooc) .lbrace j k → Spells k (.block b) l →
      TakesIf (c.dialect = .mooc) .rbrace l m → Takes .kwUntil m u n → Spells n (.exp e) o →
      Spells i (.stat (.repeatLoop b e (t.span.merge o.now))) o
  | ifStat {i t j bs k last l o} : Takes .kwIf i t j → Spells j (.branches bs) k →
      Spells k (.otherwise last) l → TakesIf (c.dialect = .lua) .kwEnd l o →
      Spells i (.stat (.conditional ⟨bs ++ last, t.span.merge o.now⟩)) o
  | numericFor {i t j n k u l init m v p limit q step r b o} : Takes .kwFor i t j →
      Takes .identifier j n k → Takes .assign k u l → Spells l (.exp init) m →
      Takes .comma m v p → Spells p (.exp limit) q → Spells q (.step step) r →
      Spells r (.loopBody b) o →
      Spells i (.stat (.numericFor ⟨n.text, n.span⟩ init limit step b (t.span.merge o.now))) o
  | genericFor {i t j ns k u l es m b o} : Takes .kwFor i t j → Spells j (.names ns) k →
      Takes .kwIn k u l → Spells l (.exps es) m → Spells m (.loopBody b) o →
      Spells i (.stat (.genericFor ns es b (t.span.merge o.now))) o
  | functionAssign {i isStatic a o} : Spells i (.functionStat i.head.span .regular isStatic a) o →
      Spells i (.stat (.assign a)) o
  | localFunction {i t j u k n l body o} : Takes .kwLocal i t j →
      Takes c.dialect.functionWord j u k → Takes .identifier k n l →
      Spells l (.functionBody c.dialect.functionStyle body) o →
      Spells i (.stat (.localFunction ⟨n.text, n.span⟩ { body with name := some n.text }
        (t.span.merge o.now))) o
  | localDecl {i t j ns as k vs o} : Takes .kwLocal i t j → Spells j (.attrNames ns as) k →
      Spells k (.initializer vs) o →
      Spells i (.stat (.declare ⟨ns, as, vs, t.span.merge o.now⟩)) o
  | simple {i s o} : Spells i (.assignOrCall s) o → Spells i (.stat s) o
  | mooc {i s o} : c.dialect = .mooc → Spells i (.moocStat s) o → Spells i (.stat s) o
  -- Blocks
  | noStats {i} : Spells i (.stats []) i
  | moreStats {i ss j s o} : Spells i (.stats ss) j → Spells j (.stat s) o →
      Spells i (.stats (ss ++ if s.isEmpty then [] else [s])) o
  | noReturn {i} : Spells i (.returns none) i
  | bareReturn {i t o} : Takes .kwReturn i t o → Spells i (.returns (some [])) o
  | bareReturnSemi {i t j u o} : Takes .kwReturn i t j → Takes .semi j u o →
      Spells i (.returns (some [])) o
  | returns {i t j es o} : Takes .kwReturn i t j → Spells j (.exps es) o →
      Spells i (.returns (some es)) o
  | returnsSemi {i t j es k u o} : Takes .kwReturn i t j → Spells j (.exps es) k →
      Takes .semi k u o → Spells i (.returns (some es)) o
  | block {i ss j rs o} : Spells i (.stats ss) j → Spells j (.returns rs) o →
      Spells i (.block ⟨ss, rs, i.blockSpan o⟩) o
  /-- The label of a `continue` stands where the last statement ends. -/
  | labelledBlock {i ss j rs o} (depth : Nat) : c.dialect = .mooc → Spells i (.stats ss) j →
      Spells j (.returns rs) o →
      Spells i (.block ⟨ss ++ [.label (continueLabel depth) j.now], rs, i.blockSpan o⟩) o
  -- Statements of Mooc
  | continueStat {i t o} (depth : Nat) : Takes .kwContinue i t o →
      Spells i (.moocStat (.goto (continueLabel depth) t.span)) o
  | deferStat {i t j u k b l v o} : Takes .kwDefer i t j → Takes .lbrace j u k →
      Spells k (.block b) l → Takes c.dialect.closing l v o →
      Spells i (.moocStat (.doBlock .deferred b (t.span.merge o.now))) o
  | guardStat {i t j e k u l v m b n w o} : Takes .kwGuard i t j → Spells j (.exp e) k →
      Takes .kwElse k u l → Takes .lbrace l v m → Spells m (.block b) n → Takes .rbrace n w o →
      Spells i (.moocStat (.conditional
        ⟨[⟨e.negate (t.span.merge k.now), b⟩], t.span.merge o.now⟩)) o
  | caseBody {i t j b o} : Takes .colon i t j → Spells j (.block b) o → Spells i (.caseBody b) o
  | noCases {i} : Spells i (.cases []) i
  | moreCases {i bs j t k vs l b o} : Spells i (.cases bs) j → Takes .kwCase j t k →
      Spells k (.exps vs) l → Spells l (.caseBody b) o →
      Spells i (.cases (bs ++ [⟨(Exp.switchCase? vs).getD (.bad t.span), b⟩])) o
  | noDefault {i} : Spells i (.defaultCase []) i
  | defaultCase {i t j b o} : Takes .kwDefault i t j → Spells j (.caseBody b) o →
      Spells i (.defaultCase [⟨.bool true t.span, b⟩]) o
  | switchStat {i t j e k u l bs m last n w o} : Takes .kwSwitch i t j → Spells j (.exp e) k →
      Takes .lbrace k u l → Spells l (.cases bs) m → Spells m (.defaultCase last) n →
      Takes .rbrace n w o →
      Spells i (.moocStat (.switch
        ⟨[⟨switchSubject, t.span⟩], [.regular], [e], t.span.merge k.now⟩
        ⟨bs ++ last, u.span.merge o.now⟩ (t.span.merge o.now))) o
  | noParent {i} : Spells i (.parent (.nil i.now)) i
  | parent {i t j n o} : Takes .colon i t j → Takes .identifier j n o →
      Spells i (.parent (.name n.text n.span)) o
  | noMembers {i owner} : Spells i (.members owner []) i
  /-- The name of a member is the one that is written. -/
  | functionMember {i owner ms j isStatic k t l n m a o} : Spells i (.members owner ms) j →
      TakesIf (isStatic = true) .kwStatic j k → Takes .kwFn k t l → Takes .identifier l n m →
      Spells j (.functionStat j.head.span .regular isStatic a) o →
      a.targets = [(Exp.name owner n.span).field n.text n.span] →
      Spells i (.members owner (ms ++ [a])) o
  | fieldMember {i owner ms j t k a o} : Spells i (.members owner ms) j →
      Takes .identifier j t k →
      Spells k (.assignRest t.span ((Exp.name owner t.span).field t.text t.span) (.assign a)) o →
      Spells i (.members owner (ms ++ [a])) o
  /-- A field without a value does not turn into an assignment, and is passed over. -/
  | lostMember {i owner ms j t k d o} : Spells i (.members owner ms) j →
      Takes .identifier j t k →
      Spells k (.assignRest t.span ((Exp.name owner t.span).field t.text t.span) (.declare d)) o →
      Spells i (.members owner ms) o
  | classStat {start isExported i t j n k e l u m ms p v o} :
      t.kind = .kwClass ∨ t.kind = .kwStruct ∨ t.kind = .kwExtension → Takes t.kind i t j →
      Takes .identifier j n k → Spells k (.parent e) l → Takes .lbrace l u m →
      Spells m (.members n.text ms) p → Takes .rbrace p v o →
      Spells i (.classStat start isExported (.classDecl
        { kind := Parser.ClassKind.ofToken t.kind
          table :=
            { targets := [.name n.text n.span], values := [.table [] [] n.span],
              attr := if isExported ∨ Parser.ClassKind.ofToken t.kind = .extension then .exported
                else .regular
              span := n.span.merge l.now }
          parent := e
          vars :=
            [Parser.classLocal "Self" (.name n.text n.span) n.span (n.span.merge l.now),
              Parser.classLocal "Super" e n.span (n.span.merge l.now),
              Parser.classLocal classParent e n.span (n.span.merge l.now)]
          members := ms
          span := start.merge o.now })) o
  | classOnly {i s o} : Spells i (.classStat i.head.span false s) o → Spells i (.moocStat s) o
  | localClass {i t j s o} : Takes .kwLocal i t j → Spells j (.classStat t.span false s) o →
      Spells i (.moocStat s) o
  | exportClass {i t j s o} : Takes .kwExport i t j → Spells j (.classStat t.span true s) o →
      Spells i (.moocStat s) o
  | exportAll {i t j u o} : Takes .kwExport i t j → Takes .star j u o →
      Spells i (.moocStat (.exportAll (t.span.merge o.now))) o
  | exportFunction {i t j a o} : Takes .kwExport i t j →
      Spells j (.functionStat t.span .exported false a) o → Spells i (.moocStat (.assign a)) o
  | exportStat {i t j s o} : Takes .kwExport i t j → Spells j (.assignOrCall s) o →
      Spells i (.moocStat (Parser.exported s)) o
  | importCall {i t j n o} : Takes .kwImport i t j → Takes .string j n o →
      Spells i (.moocStat (.importCall (.require n.text t.span n.span) (t.span.merge n.span))) o
  | importWhole {i t j ns as k u l n o source} : Takes .kwImport i t j →
      Spells j (.attrNames ns as) k → Takes .kwFrom k u l → Takes n.kind l n o →
      ImportSource.OfToken n source →
      Spells i (.moocStat (.importNames
        ⟨ns, as, [Parser.importWhole source u n], j.head.span.merge o.now⟩)) o
  | importKeys {i t j ns as k u l n m v p vs q w o source} : Takes .kwImport i t j →
      Spells j (.attrNames ns as) k → Takes .kwFrom k u l → Takes n.kind l n m →
      ImportSource.OfToken n source → Takes .lbrace m v p → Keys source ns p vs q →
      Takes .rbrace q w o → vs.length = ns.length →
      Spells i (.moocStat (.importNames ⟨ns, as, vs, j.head.span.merge o.now⟩)) o

end LuaChunk
