import LuaChunk.Proofs.Reread.Analysis

/-!
# Single expressions are written and read again

The text of an expression that can be written as it is is read as the expression, with its operators
in parentheses.  So two such expressions that have one text are the same.
-/

set_option autoImplicit false

open LuaChunk.Parser

namespace LuaChunk

namespace Exp

/-- It is no function and no float, a number is not below zero, and names are names of Lua, those of
variables in ASCII.  Nothing is asked of its parts. -/
def IsPlain : Exp → Prop
  | integer value _ => 0 ≤ value
  | name text _ => Identifier .lua text ∧ ∀ c ∈ text.toList, c.toNat < 0x80
  | call c _ => ∀ p ∈ c.method, Identifier .lua p.name
  | float _ _ | function _ _ | bad _ => False
  | nil _ | bool _ _ | vararg _ | string _ _ | unary _ _ _ | binary _ _ _ _ | table _ _ _
  | index _ _ _ | paren _ _ => True

variable {e : Exp}

theorem IsPlain.fits (h : e.IsPlain) (limit : Nat) : e.Fits (some limit) ⟨limit, true⟩ := by
  cases e with
  | integer => exact fun _ => h
  | name => exact h.1
  | call => exact h
  | unary | table => simp [Fits]
  | float | function | bad => exact h.elim
  | _ => trivial

theorem IsPlain.isFunction (h : e.IsPlain) : e.isFunction = false := by
  cases e <;> first | rfl | exact h.elim

/-- The text begins with a character of ASCII, hence with no byte order mark. -/
theorem first_layout {depth : Nat} : ∀ {e : Exp}, (∀ x ∈ e.exps, x.IsPlain) →
    ∃ c ∈ (e.layout depth).toList.head?, c.toNat < 0x80
  | .integer value _, _ => by
    have some : Nat.toDigits 10 value.toInt.natAbs ≠ [] := Nat.toDigits_ne_nil
    rw [Exp.layout, Numeral.toList_toString_int]
    split
    · exact ⟨'-', rfl, by decide⟩
    · have digit := Numeral.digit_lt (Numeral.digits_toDigits _ _ (List.head_mem some))
      have zero : '0'.toNat = 48 := rfl
      exact ⟨_, List.head_mem_head? some, by omega⟩
  | .name text _, h => by
    have own : Identifier .lua text ∧ ∀ c ∈ text.toList, c.toNat < 0x80 := h _ List.mem_cons_self
    obtain ⟨c, first, -⟩ := own.1.first
    exact ⟨c, first, own.2 c (List.mem_of_mem_head? first)⟩
  | .call ⟨callee, method, args⟩ _, h => by
    obtain ⟨c, first, ascii⟩ := @first_layout depth callee fun x among => h x (by grind)
    refine ⟨c, ?_, ascii⟩
    simp_all [Exp.layout, Call.layout, Layout.call]
  | .index object key _, h => by
    obtain ⟨c, first, ascii⟩ := @first_layout depth object fun x among => h x (by grind)
    refine ⟨c, ?_, ascii⟩
    simp_all [Exp.layout]
  | .string text _, _ => ⟨'"', by simp [Exp.layout, Quoted.toList_encode], by decide⟩
  | .nil _, _ => ⟨'n', by simp [Exp.layout], by decide⟩
  | .bool true _, _ => ⟨'t', by simp [Exp.layout], by decide⟩
  | .bool false _, _ => ⟨'f', by simp [Exp.layout], by decide⟩
  | .vararg _, _ => ⟨'.', by simp [Exp.layout], by decide⟩
  | .unary _ _ _, _ | .binary _ _ _ _, _ | .paren _ _, _ =>
    ⟨'(', by simp [Exp.layout], by decide⟩
  | .table _ _ _, _ => ⟨'{', by simp [Exp.layout], by decide⟩
  | .float _ _, h | .function _ _, h | .bad _, h => (h _ List.mem_cons_self).elim

end Exp

namespace Session

/-- What comes of reading the text of an expression: the expression with its operators in
parentheses, no error and nothing left, or that the levels do not suffice. -/
structure RereadsExp (e : Exp) (fits : Prop) (r : Option Exp × Session) : Prop where
  tree : fits → ∃ a, r.1 = some a ∧ a.unplaced = e.unplaced.bracketed
  clean : fits → r.2.errors = []
  whole : fits → r.2.tokens.ahead = [] ∧ r.2.tokens.waiting = []
  deep : ¬ fits → r.1 = none ∧ r.2.errors.map (·.cause) = [.tooManyLevels]

section

variable {c : Bounds} {e : Exp} {settings : Settings} {source : List UInt8}

/-- An expression that can be written is read from its text, whatever bytes it is read from. -/
theorem rereads_exp (h : e.Printable c.toDemand []) (exact : c.exact = true)
    (functions : e.FunctionFree) (lua : settings.dialect = .lua)
    (fields : c.fields ≤ settings.tableFieldLimit) (errors : c.errors = settings.maxErrors)
    (rest : (Cursor.ofBytes source).rest = Glyph.ofText e.text.toList) (name : String) :
    ∃ levels, ∀ maxNesting, RereadsExp e (levels ≤ maxNesting)
      (start source name { settings with maxNesting }).exp := by
  obtain ⟨levels, takes⟩ := exp_takes (h.reread (ScopeStack.Inside.ofFile name) 0)
  have takes := takes [] ⟨fun _ => rfl, rfl⟩
  rw [List.append_nil] at takes
  refine ⟨levels, fun maxNesting => ?_⟩
  generalize same : start source name { settings with maxNesting } = fresh
  have faces : fresh.Faces c (.ofFile name) (fragmentWords (e.fragments 0)) := same ▸
    fresh_faces (h.spaced 0) (rest.trans (congrArg _ (h.chars 0).symm)) name lua fields errors
  have rules : fresh.rules = .level maxNesting := same ▸ rfl
  have runs := takes maxNesting fresh faces
  unfold Session.exp
  rw [rules]
  cases run : (Rules.level maxNesting).exp fresh with
  | ok a t =>
    rw [run] at runs
    have fits : levels ≤ maxNesting := by_contra runs.2
    obtain ⟨echo, settled⟩ := runs.1 fits
    exact {
      tree := fun _ => ⟨a, rfl, echo.bracketed exact functions⟩
      clean := fun _ => by simp [Session.errors, settled.log]
      whole := fun _ => ⟨List.map_eq_nil_iff.1 settled.ahead, settled.waiting⟩
      deep := fun short => (short fits).elim }
  | error abort t =>
    rw [run] at runs
    have short (fits : levels ≤ maxNesting) : False := runs.1 fits
    exact {
      tree := fun fits => (short fits).elim
      clean := fun fits => (short fits).elim
      whole := fun fits => (short fits).elim
      deep := fun _ => ⟨rfl, runs.2 short⟩ }

/-- **The text of an expression is read as the expression.**  Its operators come in parentheses then,
and the whole text is read without an error if the levels suffice. -/
theorem rereads_exp_plain (lua : settings.dialect = .lua)
    (wellFormed : e.WellFormed (some settings.tableFieldLimit)) (plain : ∀ x ∈ e.exps, x.IsPlain)
    (name : String) : ∃ levels, ∀ maxNesting, RereadsExp e (levels ≤ maxNesting)
      (start e.text.toUTF8.toList name { settings with maxNesting }).exp := by
  have functions : e.FunctionFree := fun x among => (plain x among).isFunction
  have printable : e.Printable ⟨settings.tableFieldLimit, true⟩ [] :=
    functions.printable wellFormed (fun x among => (plain x among).fits _) (by simp) []
  have mark : e.text.toList.head? ≠ some '\ufeff' := by
    obtain ⟨c, first, ascii⟩ := Exp.first_layout plain
    rintro marked
    cases Option.mem_unique marked first
    exact absurd ascii (by decide)
  have bare : '\r' ∉ e.text.toList := printable.chars 0 ▸ (printable.spaced 0).plain
  have rest : (Cursor.ofBytes e.text.toUTF8.toList).rest = Glyph.ofText e.text.toList := by
    rw [Utf8.toList_toUTF8, Cursor.ofBytes_encode bare mark]
  exact @rereads_exp ⟨⟨settings.tableFieldLimit, true⟩, settings.maxErrors⟩ e settings _ printable
    rfl functions lua le_rfl rfl rest name

theorem rereads_exp_plain_method :
    let f : Exp := .name "f" .synthetic
    let negated : Exp := .unary .neg (.call ⟨f, some ⟨"m", .synthetic⟩, [.string "\n" .synthetic]⟩
      .synthetic) .synthetic
    let fields : Exp := .table [none, some (.bool true .synthetic)]
      [.vararg .synthetic, .integer 7 .synthetic] .synthetic
    let e : Exp := .binary .concat negated (.index (.paren fields .synthetic) (.nil .synthetic)
      .synthetic) .synthetic
    ∃ levels, ∀ maxNesting, RereadsExp e (levels ≤ maxNesting)
      (start e.text.toUTF8.toList "" { maxNesting }).exp := by
  refine @rereads_exp_plain _ {} rfl ?_ ?_ ""
  · simp [Exp.WellFormed, Call.WellFormed, expsWellFormed, keysWellFormed, Exp.isPrefix]
  · have f : Identifier .lua "f" :=
      ⟨⟨'f', rfl, rfl⟩, by rw [← List.all_eq_true]; rfl, by decide⟩
    have m : Identifier .lua "m" :=
      ⟨⟨'m', rfl, rfl⟩, by rw [← List.all_eq_true]; rfl, by decide⟩
    simp [Exp.IsPlain, f, m]

end

end Session

/-! ## Expressions with one text -/

/-- Expressions that are written as they are and alike are the same: one source is read as both. -/
theorem Exp.Printable.unplaced_eq {fields : Nat} {e e' : Exp}
    (h : e.Printable ⟨fields, true⟩ []) (h' : e'.Printable ⟨fields, true⟩ [])
    (functions : e.FunctionFree) (functions' : e'.FunctionFree) (same : e.text = e'.text) :
    e.unplaced = e'.unplaced := by
  let settings : Settings := { tableFieldLimit := fields }
  let c : Bounds := ⟨⟨fields, true⟩, settings.maxErrors⟩
  -- behind a byte order mark whatever the text begins with is read as it is
  let source : List UInt8 := 0xEF :: 0xBB :: 0xBF :: Utf8.encode e.text.toList
  have bare : '\r' ∉ e.text.toList := h.chars 0 ▸ (h.spaced 0).plain
  have rest : (Cursor.ofBytes source).rest = Glyph.ofText e.text.toList :=
    Glyph.ofBytes_encode bare
  obtain ⟨levels, reads⟩ := @Session.rereads_exp c e settings source h rfl functions rfl le_rfl rfl
    rest ""
  obtain ⟨levels', reads'⟩ := @Session.rereads_exp c e' settings source h' rfl functions' rfl le_rfl
    rfl (same ▸ rest) ""
  obtain ⟨a, read, bracketed⟩ := (reads (max levels levels')).tree (le_max_left _ _)
  obtain ⟨a', read', bracketed'⟩ := (reads' (max levels levels')).tree (le_max_right _ _)
  obtain rfl : a = a' := Option.some.inj (read.symm.trans read')
  exact Exp.bracketed_injective (bracketed.symm.trans bracketed')

namespace Session

/-- The source is Lua and is read as an expression without errors. -/
structure IsExp (source : List UInt8) (name : String) (settings : Settings) (e : Exp) : Prop where
  lua : settings.dialect = .lua
  read : (start source name settings).exp.1 = some e
  clean : (start source name settings).exp.2.errors = []

section

variable {source source' : List UInt8} {name name' : String} {settings settings' : Settings}
  {e e' : Exp}

theorem IsExp.wellFormed (h : IsExp source name settings e) :
    e.WellFormed (some settings.tableFieldLimit) := by
  have wellFormed : e.WellFormed settings.fieldCap := wellFormed_exp h.read
  simpa [Settings.fieldCap, h.lua] using wellFormed

theorem IsExp.legible (h : IsExp source name settings e) : ∀ x ∈ e.exps, x.Legible := by
  obtain ⟨c, same, tokens, o, -, spelled⟩ := exp_spells (Prod.ext h.read rfl) h.clean
  refine List.forall_iff_forall_mem.1 (spelled.legible fun name named => ?_)
  obtain ⟨t, among, kind, rfl⟩ := named
  exact (Scanner.run_identifier _ _ t (tokens ▸ among) kind).lua

/-- What is read without errors can be written as it is if its numbers are written as numerals. -/
theorem IsExp.printable (h : IsExp source name settings e) (functions : e.FunctionFree)
    (numerals : ∀ x ∈ e.exps, x.isNumeral = true) {fields : Nat}
    (within : settings.tableFieldLimit ≤ fields) : e.Printable ⟨fields, true⟩ [] := by
  have cap : settings.fieldCap = some settings.tableFieldLimit := by simp [Settings.fieldCap, h.lua]
  have fits : ∀ x ∈ e.exps, x.Fits settings.fieldCap ⟨fields, true⟩ := fun x among =>
    (h.legible x among).fits (fun _ => numerals x among) (fun inexact => Bool.noConfusion inexact)
      (by simp [cap])
  exact functions.printable h.wellFormed (cap ▸ fits) (by simpa using within) []

/-- **The text shows the tree.**  Expressions without functions that are read without errors and have
one text are the same but for their places, if their numbers are written as numerals. -/
theorem exp_text_injective (h : IsExp source name settings e) (h' : IsExp source' name' settings' e')
    (functions : e.FunctionFree) (functions' : e'.FunctionFree)
    (numerals : ∀ x ∈ e.exps, x.isNumeral = true) (numerals' : ∀ x ∈ e'.exps, x.isNumeral = true)
    (same : e.text = e'.text) : e.unplaced = e'.unplaced :=
  (h.printable functions numerals (le_max_left _ _)).unplaced_eq
    (h'.printable functions' numerals' (le_max_right _ _)) functions functions' same

end

theorem isExp_get {source : List UInt8} (some : (analyzeExp source).isSome = true)
    (clean : (start source "" {}).exp.2.errors = []) :
    IsExp source "" {} ((analyzeExp source).get some) :=
  ⟨rfl, (Option.some_get some).symm, clean⟩

theorem exp_text_injective_hexadecimal : ∃ e e', IsExp "a + 0x10".toUTF8.toList "" {} e ∧
    IsExp "a+16".toUTF8.toList "" {} e' ∧ e.unplaced = e'.unplaced := by
  have h := @isExp_get "a + 0x10".toUTF8.toList (by decide +kernel) (by decide +kernel)
  have h' := @isExp_get "a+16".toUTF8.toList (by decide +kernel) (by decide +kernel)
  exact ⟨_, _, h, h', exp_text_injective h h' (by decide +kernel) (by decide +kernel)
    (by decide +kernel) (by decide +kernel) (by decide +kernel)⟩

/-- A hexadecimal number of 64 bits may be negative, and is written like the negation of another. -/
theorem exp_text_injective_wrapped : ∃ e e', IsExp "-1".toUTF8.toList "" {} e ∧
    IsExp "(0xffffffffffffffff)".toUTF8.toList "" {} e' ∧ e.FunctionFree ∧ e'.FunctionFree ∧
      e.text = e'.text ∧ e.unplaced ≠ e'.unplaced := by
  have h := @isExp_get "-1".toUTF8.toList (by decide +kernel) (by decide +kernel)
  have h' := @isExp_get "(0xffffffffffffffff)".toUTF8.toList (by decide +kernel) (by decide +kernel)
  refine ⟨_, _, h, h', by decide +kernel, by decide +kernel, by decide +kernel, fun same => ?_⟩
  exact absurd (congrArg Exp.isPrefix same) (by decide +kernel)

end Session

end LuaChunk
