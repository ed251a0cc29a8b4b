import LuaChunk.Proofs.Layout.Printable
import LuaChunk.Proofs.Number.ReadBack

/-!
# The text of a tree is that of its words
-/

set_option autoImplicit false

namespace LuaChunk

open Fragment

theorem BinaryOp.spelling_token (op : BinaryOp) : op.token.spelling = op.text := by
  cases op <;> rfl

namespace Fragment

theorem chars_sym {kind : TokenKind} (h : kind ≠ .string) :
    (sym kind).chars = kind.spelling.toList := by
  simp [sym, Fragment.chars, Word.chars, h]

@[simp]
theorem chars_ident (name : String) : (ident name).chars = name.toList := rfl

@[simp]
theorem chars_number (text : String) : (number text).chars = text.toList := rfl

@[simp]
theorem chars_space : space.chars = " ".toList := rfl

@[simp]
theorem chars_newline : newline.chars = "\n".toList := rfl

@[simp]
theorem chars_indent (depth : Nat) : (indent depth).chars = (Layout.indent depth).toList := by
  simp [indent, Layout.indent, Fragment.chars]

@[simp]
theorem chars_string (text : String) :
    (Fragment.word ⟨.string, text⟩).chars = (Quoted.encode text).toList := rfl

end Fragment

theorem fragmentChars_separated (items : List (List Fragment)) :
    fragmentChars (separated items) = (", ".toList).intercalate (items.map fragmentChars) := by
  unfold separated
  induction items with
  | nil => rfl
  | cons first rest inductionHypothesis =>
    cases rest with
    | nil => simp
    | cons second rest =>
      rw [List.intercalate_cons_cons, fragmentChars_append, fragmentChars_append,
        inductionHypothesis]
      simp only [List.map_cons, List.intercalate_cons_cons]
      rfl

section Lists

variable (depth : Nat)

@[simp]
theorem layoutExps_eq (es : List Exp) : layoutExps depth es = es.map (·.layout depth) := by
  induction es with
  | nil => rfl
  | cons e rest inductionHypothesis => simp [layoutExps, inductionHypothesis]

@[simp]
theorem layoutKeys_eq (keys : List (Option Exp)) :
    layoutKeys depth keys = keys.map (·.map (·.layout depth)) := by
  induction keys with
  | nil => rfl
  | cons key rest inductionHypothesis => cases key <;> simp [layoutKeys, inductionHypothesis]

@[simp]
theorem layoutBranches_eq (bs : List Branch) : layoutBranches depth bs =
    bs.map fun b => (b.condition.layout depth, b.body.layout (depth + 1)) := by
  induction bs with
  | nil => rfl
  | cons b rest inductionHypothesis =>
    cases b
    simp [layoutBranches, inductionHypothesis]

end Lists

/-! ## Parts of texts -/

section Parts

variable {α : Type} {items : List α} {f : α → List Fragment} {g : α → String}

/-- Words with commas between them, if the items agree with their texts. -/
theorem chars_separated (h : ∀ a ∈ items, fragmentChars (f a) = (g a).toList) :
    fragmentChars (separated (items.map f)) = (Layout.comma (items.map g)).toList := by
  rw [fragmentChars_separated, Layout.comma, String.toList_intercalate, List.map_map, List.map_map]
  exact congrArg _ (List.map_congr_left h)

theorem chars_fields {keys : List (Option α)} {values : List α}
    (k : ∀ a, some a ∈ keys → fragmentChars (f a) = (g a).toList)
    (v : ∀ a ∈ values, fragmentChars (f a) = (g a).toList) :
    fragmentChars (separated (List.zipWith fieldFragments (keys.map (·.map f)) (values.map f))) =
      (Layout.comma (List.zipWith Layout.tableField (keys.map (·.map g)) (values.map g))).toList := by
  rw [fragmentChars_separated, Layout.comma, String.toList_intercalate]
  congr 1
  induction keys generalizing values with
  | nil => rfl
  | cons key keys inductionHypothesis =>
    cases values with
    | nil => rfl
    | cons value values =>
      have later := inductionHypothesis (fun a among => k a (.tail _ among))
        fun a among => v a (.tail _ among)
      have first := v value List.mem_cons_self
      simp only [List.map_cons, List.zipWith_cons_cons, later]
      congr 1
      cases key with
      | none => simpa [fieldFragments, Layout.tableField] using first
      | some key =>
        have own := k key List.mem_cons_self
        simp [fieldFragments, Layout.tableField, own, first, chars_sym, TokenKind.spelling]

end Parts

theorem chars_names (params : List Param) (isVararg : Bool) :
    fragmentChars (separated (namesFragments params ++ if isVararg then [[sym .vararg]] else [])) =
      (Layout.params params isVararg).toList := by
  rw [fragmentChars_separated, Layout.params, Layout.comma, String.toList_intercalate]
  congr 1
  cases isVararg <;> simp [namesFragments, chars_sym, TokenKind.spelling]

theorem chars_markedNames {params : List Param} {attrs : List Attribute}
    (plain : .exported ∉ attrs) : fragmentChars (separated (markedFragments params attrs)) =
      (Layout.comma (Layout.markedNames params attrs)).toList := by
  rw [fragmentChars_separated, Layout.comma, String.toList_intercalate]
  congr 1
  induction params generalizing attrs with
  | nil => rfl
  | cons p params inductionHypothesis =>
    cases attrs with
    | nil => simp [markedFragments, Layout.markedNames, inductionHypothesis]
    | cons a attrs =>
      rw [List.mem_cons, not_or] at plain
      have later := inductionHypothesis plain.2
      cases a <;> simp_all [markedFragments, markFragments, Layout.markedNames, Layout.mark,
        chars_sym, TokenKind.spelling]


/-! ## Trees -/

attribute [local simp] chars_sym TokenKind.spelling enclosedFragments Layout.enclosed

theorem chars_chain {opening : TokenKind} (word : opening ≠ .string) {branches : List Branch}
    {depth : Nat}
    (conditions : ∀ b ∈ branches,
      fragmentChars (b.condition.fragments depth) = (b.condition.layout depth).toList)
    (bodies : ∀ b ∈ branches,
      fragmentChars (b.body.fragments (depth + 1)) = (b.body.layout (depth + 1)).toList) :
    fragmentChars (chainFragments opening (branches.map fun b =>
        (b.condition.fragments depth, b.body.fragments (depth + 1))) depth) =
      (String.join (Layout.chain (opening.spelling ++ " ") (branches.map fun b =>
        (b.condition.layout depth, b.body.layout (depth + 1))) depth) ++ "end").toList := by
  induction branches generalizing opening with
  | nil => simp [chainFragments, Layout.chain]
  | cons b branches inductionHypothesis =>
    have later := @inductionHypothesis .kwElseif (by decide)
      (fun b among => conditions b (.tail _ among)) fun b among => bodies b (.tail _ among)
    have condition := conditions b List.mem_cons_self
    have body := bodies b List.mem_cons_self
    rw [String.toList_append, String.toList_join] at later
    simp [chainFragments, Layout.chain, condition, body, chars_sym word, later]

theorem chars_stats {depth : Nat} {stats : List Stat}
    (each : ∀ s ∈ stats, fragmentChars (s.fragments depth) = (s.layout depth).toList) :
    fragmentChars (statsFragments depth stats) = (String.join (layoutStats depth stats)).toList := by
  rw [String.toList_join]
  induction stats with
  | nil => rfl
  | cons s stats inductionHypothesis =>
    have first := each s List.mem_cons_self
    have later := inductionHypothesis fun s among => each s (.tail _ among)
    simp [statsFragments_cons, layoutStats, first, later]

theorem chars_operator (op : BinaryOp) : (sym op.token).chars = op.text.toList := by
  rw [chars_sym (by cases op <;> decide), BinaryOp.spelling_token]

/-- The text of a tree is that of its words. -/
theorem Block.Printable.chars {d : Demand} {around : List Body} {b : Block}
    (h : b.Printable d around) :
    ∀ depth, fragmentChars (b.fragments depth) = (b.layout depth).toList := by
  refine @Block.Printable.rec d
    (fun _ e _ => ∀ depth, fragmentChars (e.fragments depth) = (e.layout depth).toList)
    (fun _ s _ => ∀ depth, fragmentChars (s.fragments depth) = (s.layout depth).toList)
    (fun _ b _ => ∀ depth, fragmentChars (b.fragments depth) = (b.layout depth).toList)
    ?nil ?bool ?vararg ?integer ?float ?string ?name ?unary ?binary ?table ?function ?call ?index
    ?paren ?breakLoop ?label ?goto ?doBlock ?whileLoop ?repeatLoop ?conditional ?numericFor
    ?genericFor ?assign ?declare ?localFunction ?callStat ?importCall ?importNames ?switch ?block
    around b h
  case nil => simp [Exp.layout]
  case bool =>
    rintro _ (_ | _) _ depth <;> simp [Exp.layout]
  case vararg => simp [Exp.layout]
  case integer =>
    intro _ value _ _ depth
    rw [Exp.fragments, Exp.layout, Numeral.toList_toString_int]
    unfold integerFragments
    split <;> simp
  case float =>
    intro _ value _ _ _ depth
    rw [Exp.fragments, Exp.layout]
    split <;> simp
  case string => simp [Exp.layout]
  case name => simp [Exp.layout]
  case unary =>
    intro _ op operand _ _ _ inner depth
    cases op <;> simp [Exp.layout, inner, UnaryOp.token, UnaryOp.text]
  case binary =>
    intro _ left right op _ _ _ first second depth
    simp [Exp.layout, first, second, chars_operator]
  case table =>
    intro _ keys values _ _ _ _ _ first second depth
    have fields := chars_fields (fun key among => first key among depth)
      fun value among => second value among depth
    rw [Exp.fragments, Exp.layout, expsFragments_eq, keysFragments_eq, layoutExps_eq,
      layoutKeys_eq, fragmentChars_append, fragmentChars_cons, fields]
    simp
  case function =>
    intro _ params block isVararg _ _ _ _ _ _ body depth
    simp [Exp.layout, FunctionBody.layout, chars_names, body]
  case call =>
    intro _ callee method args _ _ _ _ _ first rest depth
    have list := chars_separated fun arg among => rest arg among depth
    cases method <;>
      simp [Exp.layout, Call.layout, Layout.call, methodFragments, first, list]
  case index =>
    intro _ object key _ _ _ _ first second depth
    simp [Exp.layout, first, second]
  case paren =>
    intro _ inner _ _ same depth
    simp [Exp.layout, same]
  case breakLoop => simp [Stat.layout]
  case label => simp [Stat.layout]
  case goto => simp [Stat.layout]
  case doBlock =>
    intro _ body _ _ same depth
    simp [Stat.layout, same]
  case whileLoop =>
    intro _ condition body _ _ _ first second depth
    simp [Stat.layout, first, second]
  case repeatLoop =>
    intro _ condition body _ _ _ first second depth
    simp [Stat.layout, first, second]
  case conditional =>
    intro _ branches _ _ _ _ conditions bodies depth
    have chain := @chars_chain .kwIf (by decide) branches depth
      (fun b among => conditions b among depth) fun b among => bodies b among (depth + 1)
    rw [Stat.fragments, Conditional.fragments, branchesFragments_eq, chain]
    simp [Stat.layout, Conditional.layout]
  case numericFor =>
    intro _ var init limit step body _ _ _ _ _ _ first second third fourth depth
    simp [Stat.layout, first, second, third, fourth]
  case genericFor =>
    intro _ vars iterables body _ _ _ _ _ _ first second depth
    have names := chars_names vars false
    have list := chars_separated fun e among => first e among depth
    simp only [Bool.false_eq_true, if_false, List.append_nil, Layout.params] at names
    simp [Stat.layout, Layout.names, names, list, second]
  case assign =>
    intro _ targets values _ _ _ _ _ _ first second depth
    have left := chars_separated fun e among => first e among depth
    have right := chars_separated fun e among => second e among depth
    simp [Stat.layout, Assignment.layout, Layout.assignment, left, right]
  case declare =>
    intro _ names attrs values _ _ _ _ plain _ _ first depth
    have left := @chars_markedNames names attrs plain
    have right := chars_separated fun e among => first e among depth
    cases values <;>
      simp_all [Stat.layout, Declaration.layout, Layout.declaration, valuesFragments]
  case localFunction =>
    intro _ name body _ _ _ function depth
    have function := function depth
    simp_all [Stat.layout, Exp.layout]
  case callStat =>
    intro _ call _ _ same depth
    have same := same depth
    rwa [Exp.fragments, Exp.layout] at same
  case importCall =>
    intro _ call _ _ same depth
    have same := same depth
    rwa [Exp.fragments, Exp.layout] at same
  case importNames =>
    intro _ declaration _ same depth
    have same := same depth
    rwa [Stat.fragments, Stat.layout] at same
  case switch =>
    intro _ subject cases _ _ _ first second depth
    have first := first depth
    have second := second depth
    simp only [Stat.fragments, Stat.layout] at first second
    simp only [Stat.fragments, Stat.layout, fragmentChars_append, fragmentChars_cons, first, second]
    simp
  case block =>
    intro _ stats returns _ _ _ _ each values depth
    have lines := chars_stats fun s among => each s among depth
    cases returns with
    | none => simpa [Block.layout, Block.fragments] using lines
    | some es =>
      have values := fun e among => values es rfl e among depth
      have list := chars_separated values
      cases es <;> simp_all [Block.layout, Block.fragments, returnFragments]

theorem Exp.Printable.chars {d : Demand} {around : List Body} {e : Exp}
    (h : e.Printable d around) (depth : Nat) :
    fragmentChars (e.fragments depth) = (e.layout depth).toList := by
  have line := h.returned.chars depth
  simpa [Block.fragments, statsFragments, returnFragments, separated, Block.layout, layoutStats,
    Layout.comma] using line

end LuaChunk
