import LuaChunk.Proofs.Spelling.Chunk
import LuaChunk.Proofs.Spelling.Inner

/-!
# Members of classes

What stands in the body of a class is read as assignments to the class: a function under the single
name it has, and a field under its name.  Behind the name of a field an assignment goes on as it does
elsewhere.  Further targets are then no members of the class, and a field without a value is none.
-/

set_option autoImplicit false

namespace LuaChunk

/-- What is written in the body of a class. -/
inductive ClassItem where
  /-- A function with its name. -/
  | method (name : Token)
  /-- A name, the targets written after it, and whether a value is given. -/
  | field (name : Token) (others : List Exp) (isGiven : Bool)

namespace ClassItem

def name : ClassItem → Token
  | method name | field name _ _ => name

/-- A function, or a single name with a value. -/
def isSingle : ClassItem → Bool
  | method _ | field _ [] true => true
  | _ => false

/-- The place in the class that a name stands for. -/
def place (owner : String) (item : ClassItem) : Exp :=
  (Exp.name owner item.name.span).field item.name.text item.name.span

/-- The targets of the assignments that an item is read as, of which there is at most one. -/
def targets (owner : String) (item : ClassItem) : List (List Exp) :=
  match item with
  | method _ => [[item.place owner]]
  | field _ others true => [item.place owner :: others]
  | field _ _ false => []

theorem targets_of_isSingle {item : ClassItem} (owner : String) (single : item.isSingle = true) :
    item.targets owner = [[item.place owner]] := by
  unfold isSingle at single
  split at single
  · rfl
  · rfl
  · cases single

end ClassItem

section Items

variable {c : Text} {i o : Place c} {owner : String} {ms : List Assignment}

/-- The tokens from one place up to another are items of the body of a class. -/
inductive ClassItems (i : Place c) : List ClassItem → Place c → Prop
  | none : ClassItems i [] i
  | method {items j isStatic k t l n m a o} : ClassItems i items j →
      TakesIf (isStatic = true) .kwStatic j k → Takes .kwFn k t l → Takes .identifier l n m →
      Spells j (.functionStat j.head.span .regular isStatic a) o →
      ClassItems i (items ++ [.method n]) o
  /-- A value with an operator before its `=`. -/
  | compound {items j n k t l u m v o op} : ClassItems i items j → Takes .identifier j n k →
      BinaryOp.ofCompound? t.kind = some op → Takes t.kind k t l → Takes .assign l u m →
      Spells m (.exp v) o → ClassItems i (items ++ [.field n [] true]) o
  | given {items j n k ts l u m vs o} : ClassItems i items j → Takes .identifier j n k →
      Spells k (.targets ts) l → Takes .assign l u m → Spells m (.exps vs) o →
      ClassItems i (items ++ [.field n ts true]) o
  | bare {items j n k ts o} : ClassItems i items j → Takes .identifier j n k →
      Spells k (.targets ts) o → ClassItems i (items ++ [.field n ts false]) o

/-- Members are read item by item. -/
theorem Spells.classItems (h : Spells i (.members owner ms) o) :
    ∃ items, ClassItems i items o ∧
      ms.map (·.targets) = items.flatMap (·.targets owner) := by
  generalize phrase : Phrase.members owner ms = p at h
  induction h generalizing ms with
  | noMembers =>
    cases phrase
    exact ⟨[], .none, rfl⟩
  | functionMember _ opening word name spelled target inductionHypothesis _ =>
    cases phrase
    obtain ⟨items, before, same⟩ := inductionHypothesis rfl
    refine ⟨_, before.method opening word name spelled, ?_⟩
    simp [same, target, ClassItem.targets, ClassItem.place, ClassItem.name]
  | fieldMember _ name spelled inductionHypothesis _ =>
    cases phrase
    obtain ⟨items, before, same⟩ := inductionHypothesis rfl
    cases spelled with
    | compound _ op sign assign value =>
      refine ⟨_, before.compound name op sign assign value, ?_⟩
      simp [same, Assignment.compound, ClassItem.targets, ClassItem.place, ClassItem.name]
    | plain _ others assign values =>
      refine ⟨_, before.given name others assign values, ?_⟩
      simp [same, ClassItem.targets, ClassItem.place, ClassItem.name]
  | lostMember _ name spelled inductionHypothesis _ =>
    cases phrase
    obtain ⟨items, before, same⟩ := inductionHypothesis rfl
    cases spelled with
    | bare _ _ others =>
      refine ⟨_, before.bare name others, ?_⟩
      simp [same, ClassItem.targets]
  | _ => cases phrase

/-- The class is written in the text under this name and with these items. -/
inductive ClassDecl.Written (c : Text) (d : ClassDecl) (owner : Token) (items : List ClassItem) :
    Prop
  | intro {i j k l m p o : Place c} {t u v : Token} :
      t.kind = .kwClass ∨ t.kind = .kwStruct ∨ t.kind = .kwExtension → Takes t.kind i t j →
      Takes .identifier j owner k → Spells k (.parent d.parent) l → Takes .lbrace l u m →
      ClassItems m items p → Takes .rbrace p v o →
      d.kind = Parser.ClassKind.ofToken t.kind →
      d.table.targets = [.name owner.text owner.span] → d.Written c owner items

theorem Spells.classDecl {start : Span} {isExported : Bool} {d : ClassDecl}
    (h : Spells i (.classStat start isExported (.classDecl d)) o) : ∃ owner items,
      d.Written c owner items ∧ d.members.map (·.targets) = items.flatMap (·.targets owner.text) := by
  cases h with
  | classStat kind word name parent opening members closing =>
    obtain ⟨items, body, same⟩ := members.classItems
    exact ⟨_, items, .intro kind word name parent opening body closing rfl rfl, same⟩

/-- A statement that is a class is read as one. -/
theorem Spells.stat_classDecl {d : ClassDecl} (h : Spells i (.stat (.classDecl d)) o) :
    ∃ (j o : Place c) (start : Span) (isExported : Bool),
      Spells j (.classStat start isExported (.classDecl d)) o := by
  have other {i o : Place c} (h : Spells i (.assignOrCall (.classDecl d)) o) : False := by
    cases h with
    | assignment _ rest => cases rest
  cases h with
  | simple spelled => exact (other spelled).elim
  | mooc _ spelled =>
    generalize same : Stat.classDecl d = s at spelled
    cases spelled with
    | classOnly spelled | localClass _ spelled | exportClass _ spelled =>
      subst same
      exact ⟨_, _, _, _, spelled⟩
    | @exportStat _ _ _ s _ _ spelled =>
      cases s with
      | classDecl => exact (other (by cases same; exact spelled)).elim
      | _ => cases same
    | _ => cases same

end Items

/-! ## Classes of a chunk -/

def Stat.class? : Stat → Option ClassDecl
  | .classDecl d => some d
  | _ => none

theorem Stat.mem_class? {stats : List Stat} {d : ClassDecl} (h : d ∈ stats.filterMap class?) :
    .classDecl d ∈ stats := by
  obtain ⟨s, among, found⟩ := List.mem_filterMap.1 h
  cases s with
  | classDecl => cases found; exact among
  | _ => cases found

/-- The string by which an object of this name is indexed. -/
def Exp.keyOf? (owner : String) : Exp → Option String
  | .index (.name object _) (.string key _) _ => if object = owner then some key else none
  | _ => none

/-- What the members assign to is the class indexed by strings, which are these in turn. -/
def ClassDecl.Defines (d : ClassDecl) (owner : String) (names : List String) : Prop :=
  d.members.flatMap (·.targets.map (·.keyOf? owner)) = names.map some

instance (d : ClassDecl) (owner : String) (names : List String) :
    Decidable (d.Defines owner names) :=
  inferInstanceAs (Decidable (_ = _))

theorem ClassItem.keyOf?_place (owner : String) (item : ClassItem) :
    (item.place owner).keyOf? owner = some item.name.text := by
  simp [place, Exp.field, Exp.keyOf?]

/-- Where each item is a function or a single name with a value, the class defines all of them. -/
theorem ClassDecl.defines_of_isSingle {d : ClassDecl} {owner : String} {items : List ClassItem}
    (targets : d.members.map (·.targets) = items.flatMap (·.targets owner))
    (single : ∀ item ∈ items, item.isSingle = true) :
    d.Defines owner (items.map (·.name.text)) := by
  have each : items.flatMap (·.targets owner) = items.map fun item => [item.place owner] := by
    rw [List.map_eq_flatMap]
    exact List.flatMap_congr fun item among => ClassItem.targets_of_isSingle owner (single item among)
  have keys : d.members.flatMap (·.targets.map (·.keyOf? owner)) =
      (d.members.map (·.targets)).flatMap (·.map (·.keyOf? owner)) := by
    rw [List.flatMap_map]
  rw [Defines, keys, targets, each]
  simp [List.flatMap_map, ClassItem.keyOf?_place, ← List.map_eq_flatMap]

namespace Session

variable {source : List UInt8} {name : String} {settings : Settings}

/-- **Members of classes.**  Wherever a class stands in the tree of a source that is analysed without
diagnostics, its members assign to what the items of its body say, item by item.  So if each item is a
function or a single name with a value, every target is the class indexed by a string, and these
strings are the names that are written, in turn.  Other targets behind the name of a field stay what
they are elsewhere, and a field without a value is left out. -/
theorem analyze_members (clean : (start source name settings).analyze.1.errors = []) :
    ∃ c : Text, c.settings = settings ∧ tokenize source settings.dialect = .ok c.tokens ∧
      ∀ d, .classDecl d ∈ (start source name settings).analyze.1.block.statements →
        ∃ owner items, d.Written c owner items ∧
          d.members.map (·.targets) = items.flatMap (·.targets owner.text) ∧
          ((∀ item ∈ items, item.isSingle = true) →
            d.Defines owner.text (items.map (·.name.text))) := by
  obtain ⟨c, settings, tokens, o, -, spelled⟩ := analyze_spells clean
  refine ⟨c, settings, tokens, fun d among => ?_⟩
  rcases spelled.statsSpelled _ among with ⟨_, _, ⟨⟩⟩ | ⟨_, _, spelled⟩
  obtain ⟨_, _, _, _, spelled⟩ := spelled.stat_classDecl
  obtain ⟨owner, items, written, targets⟩ := spelled.classDecl
  exact ⟨owner, items, written, targets, ClassDecl.defines_of_isSingle targets⟩

/-- A class with all kinds of members, of which it defines each -/
theorem analyze_members_each :
    let source := "class C : B \x7b a = 1 b ..= 'x' fn m() { } static fn s() { } \x7d".toUTF8.toList
    let stats := (start source "" { dialect := .mooc }).analyze.1.block.statements
    ∃ c : Text, tokenize source .mooc = .ok c.tokens ∧ ∃ d, .classDecl d ∈ stats ∧
      d.Defines "C" ["a", "b", "m", "s"] ∧ ∃ owner items, d.Written c owner items ∧
        d.members.map (·.targets) = items.flatMap (·.targets owner.text) := by
  intro source stats
  have read : (stats.filterMap Stat.class?).map
      (fun d => decide (d.Defines "C" ["a", "b", "m", "s"])) = [true] := by decide +kernel
  obtain ⟨d, among, defines⟩ := List.mem_map.1 (read ▸ List.mem_singleton_self _)
  have among := Stat.mem_class? among
  obtain ⟨c, -, tokens, members⟩ := @analyze_members source "" { dialect := .mooc } (by decide +kernel)
  obtain ⟨owner, items, written, targets, -⟩ := members d among
  exact ⟨c, tokens, d, among, of_decide_eq_true defines, owner, items, written, targets⟩

/-- The second name of a list is assigned to as it is, and not as a member. -/
theorem analyze_members_list :
    let analysis := (start "class C { a, b = 1, 2 }".toUTF8.toList "" { dialect := .mooc }).analyze.1
    analysis.errors = [] ∧ ∃ d, .classDecl d ∈ analysis.block.statements ∧
      d.members.map (·.targets.map (·.keyOf? "C")) = [[some "a", none]] ∧
      ¬ d.Defines "C" ["a", "b"] := by
  intro analysis
  have read : (analysis.block.statements.filterMap Stat.class?).map
      (fun d => d.members.map (·.targets.map (·.keyOf? "C"))) = [[[some "a", none]]] := by
    decide +kernel
  obtain ⟨d, among, keys⟩ := List.mem_map.1 (read ▸ List.mem_singleton_self _)
  refine ⟨by decide +kernel, d, Stat.mem_class? among, keys, fun defines => ?_⟩
  have keys := congrArg List.flatten keys
  rw [← List.flatMap_def] at keys
  exact absurd (keys.symm.trans defines) (by decide)

end Session

end LuaChunk
