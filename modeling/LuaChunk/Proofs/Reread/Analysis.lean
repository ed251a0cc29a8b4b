import LuaChunk.Proofs.Control.Transfer
import LuaChunk.Proofs.Layout.Fitting
import LuaChunk.Proofs.Reread.Chunk
import LuaChunk.Proofs.Shapes.Mooc
import LuaChunk.Proofs.Spelling.Names

/-!
# Analyses are written and read again

The tree of an analysis without errors is written as a text that is read without errors again, if
no statement takes up the one after it and nothing is written that Lua cannot say.  If the source is
Lua and its numbers are written as numerals, the tree that is read has the same core.
-/

set_option autoImplicit false

namespace LuaChunk

namespace Exp

/-- If it is a number, it is written as a numeral. -/
def isNumeral : Exp → Bool
  | integer value _ => 0 ≤ value
  | float value _ => value.isFinite
  | _ => true

/-- A sign does not stand before another, which would begin a comment. -/
def isSigned : Exp → Bool
  | unary .neg operand _ => !operand.isNegative
  | _ => true

/-- If it is a table, it has a limited number of fields. -/
def fieldsWithin (limit : Nat) : Exp → Bool
  | table keys _ _ => keys.length ≤ limit
  | _ => true

end Exp

namespace Stat

/-- It is no class, and nothing of it is deferred or exported. -/
def isLua : Stat → Bool
  | classDecl _ | exportAll _ => false
  | doBlock kind _ _ => kind = .plain
  | assign a => a.attr ≠ .exported
  | declare d | importNames d => .exported ∉ d.attrs
  | _ => true

/-- If it declares names or has cases, it has some. -/
def isWhole : Stat → Bool
  | declare d => d.names ≠ []
  | switch _ cases _ => cases.branches ≠ []
  | _ => true

end Stat

/-- Written in a row, the statements of every block stay apart. -/
def Block.Apart (b : Block) : Prop := ∀ p ∈ b.blocks .chunk, p.2.stats.IsChain Stat.Apart

instance (b : Block) : Decidable b.Apart := inferInstanceAs (Decidable (∀ p ∈ _, _))

/-! ## What is read can be written -/

section Fits

variable {d : Demand} {settings : Settings}

theorem Exp.Legible.fits {e : Exp} (h : e.Legible) (numeral : d.exact = true → e.isNumeral = true)
    (signed : d.exact = false → e.isSigned = true)
    (fields : settings.fieldCap = none → e.fieldsWithin d.fields = true) :
    e.Fits settings.fieldCap d := by
  cases e with
  | integer => exact fun exact => of_decide_eq_true (numeral exact)
  | float => exact ⟨h, numeral⟩
  | unary op =>
    rintro written rfl
    exact Bool.not_eq_true' _ ▸ signed written
  | table => exact fun free => of_decide_eq_true (fields free)
  | _ => exact h

theorem Declaration.Legible.fits {dialect : Dialect} {declaration : Declaration}
    (h : declaration.Legible dialect)
    (other : dialect = .mooc → declaration.names ≠ [] ∧ .exported ∉ declaration.attrs) :
    declaration.Fits := by
  have plain : declaration.names ≠ [] ∧ .exported ∉ declaration.attrs := by
    cases dialect with
    | lua => exact h.plain rfl
    | mooc => exact other rfl
  exact ⟨plain.1, h.names, plain.2, h.single⟩

theorem Stat.Legible.fits {dialect : Dialect} {s : Stat} (h : s.Legible dialect)
    (plain : dialect = .mooc → s.isLua = true) (whole : dialect = .mooc → s.isWhole = true) :
    s.Fits := by
  cases s with
  | empty => exact h
  | doBlock kind =>
    cases dialect with
    | lua => exact h rfl
    | mooc => exact (of_decide_eq_true (plain rfl) : kind = .plain)
  | assign => exact h.resolve_right fun other => of_decide_eq_true (plain other.1) other.2
  | declare =>
    exact Declaration.Legible.fits h fun mooc =>
      ⟨of_decide_eq_true (whole mooc), of_decide_eq_true (plain mooc)⟩
  | importCall => exact h.2
  | importNames => exact Declaration.Legible.fits h.2 nofun
  | switch => exact ⟨Declaration.Legible.fits h.2 nofun, of_decide_eq_true (whole h.1)⟩
  | classDecl | exportAll => exact absurd (plain h) nofun
  | _ => exact h

end Fits

/-- What is known of the tree of an analysis without errors. -/
structure Block.Clean (settings : Settings) (b : Block) : Prop where
  wellFormed : b.WellFormed settings.fieldCap
  exps : ∀ e ∈ b.exps, e.Legible
  statements : ∀ s ∈ b.statements, s.Legible settings.dialect
  breaks : ∀ p ∈ b.blocks .chunk, ∀ span, .breakLoop span ∈ p.2.stats → p.1.InLoop

theorem Block.Clean.printable {settings : Settings} {b : Block} {d : Demand}
    (h : b.Clean settings) (apart : b.Apart)
    (exps : ∀ e ∈ b.exps, e.Legible → e.Fits settings.fieldCap d)
    (plain : settings.dialect = .mooc → ∀ s ∈ b.statements, s.isLua = true)
    (whole : settings.dialect = .mooc → ∀ s ∈ b.statements, s.isWhole = true)
    (within : ∀ n, settings.fieldCap = some n → n ≤ d.fields) : b.Printable d [] := by
  have suits : b.Suits settings.fieldCap d .chunk :=
    { wellFormed := h.wellFormed
      exps := fun e among => exps e among (h.exps e among)
      statements := fun s among => (h.statements s among).fits (plain · s among) (whole · s among)
      blocks := fun w a among => ⟨apart (w, a) among, h.breaks (w, a) among⟩ }
  exact suits.printable within

namespace Session

variable {source : List UInt8} {name : String} {settings : Settings}

theorem analyze_clean (clean : (start source name settings).analyze.1.errors = []) :
    (start source name settings).analyze.1.block.Clean settings := by
  obtain ⟨c, rfl, tokens, o, -, spelled⟩ := analyze_spells clean
  have own (name : String) (h : c.Names name) : Identifier .lua name := by
    obtain ⟨t, among, kind, rfl⟩ := h
    exact (identifier_of_tokenize tokens t among kind).lua
  refine ⟨(start source name c.settings).wellFormed_analyze,
    List.forall_iff_forall_mem.1 (spelled.legible own),
    List.forall_iff_forall_mem.1 (spelled.statsLegible own), fun p among span membership => ?_⟩
  rcases analyze_settled source name c.settings with empty | ⟨s, -, errors, settled⟩
  · simp_all [Block.empty, Block.blocks_eq]
  · obtain ⟨t, judged, -⟩ := (settled p among).of_mem membership (by simp)
    by_contra outside
    obtain ⟨d, logged, -⟩ := judged.judges.2 outside
    rw [← errors, clean] at logged
    cases logged

/-- **Lua is written and read again.**  The text of a Lua source without errors is read without
errors if the levels suffice, and the tree that is read has the same core. -/
theorem analyze_rereads_lua (lua : settings.dialect = .lua)
    (clean : (start source name settings).analyze.1.errors = []) (again : Settings)
    (dialect : again.dialect = .lua) (fields : settings.tableFieldLimit ≤ again.tableFieldLimit)
    (chunk : String) :
    let block := (start source name settings).analyze.1.block
    block.Apart → (∀ e ∈ block.exps, e.isNumeral = true) →
      block.text.toList.head? ≠ some '\ufeff' →
      ∃ levels, ∀ maxNesting, Rereads block true (levels ≤ maxNesting)
        (start block.text.toUTF8.toList chunk { again with maxNesting }).analyze.1 := by
  intro block apart numerals mark
  have cap : settings.fieldCap = some settings.tableFieldLimit := by simp [Settings.fieldCap, lua]
  have printable := (analyze_clean clean).printable (d := ⟨settings.tableFieldLimit, true⟩) apart
    (fun e among legible => legible.fits (fun _ => numerals e among) nofun (by simp [cap]))
    (by simp [lua]) (by simp [lua]) (by simp [cap])
  exact rereads_text (c := ⟨⟨settings.tableFieldLimit, true⟩, again.maxErrors⟩) printable mark chunk
    dialect fields rfl

theorem analyze_rereads_lua_method :
    let source := "function t:m(a, ...) return -a, { x = 2.5, ... } end; while t do break end"
    let block := (start source.toUTF8.toList "" {}).analyze.1.block
    ∃ levels, ∀ maxNesting, Rereads block true (levels ≤ maxNesting)
      (start block.text.toUTF8.toList "" { maxNesting }).analyze.1 :=
  analyze_rereads_lua rfl (by decide +kernel) {} rfl le_rfl "" (by decide +kernel)
    (by decide +kernel) (by decide +kernel)

/-- A statement that begins with a parenthesis is read as the arguments of the one before it. -/
theorem analyze_rereads_lua_call :
    let first := (start "a = b; (c)()".toUTF8.toList "" {}).analyze.1
    let second := (start first.block.text.toUTF8.toList "" {}).analyze.1
    first.errors = [] ∧ second.errors = [] ∧ second.block.core ≠ first.block.core := by
  intro first second
  refine ⟨by decide +kernel, by decide +kernel, fun same => ?_⟩
  have length : second.block.core.stats.length = first.block.core.stats.length :=
    congrArg (·.stats.length) same
  exact absurd length (by decide +kernel)

/-- **Mooc is written as Lua.**  The text of a Mooc source without errors is read as Lua without
errors if the levels suffice, unless it holds what Lua cannot say. -/
theorem analyze_rereads_mooc (mooc : settings.dialect = .mooc)
    (clean : (start source name settings).analyze.1.errors = []) (again : Settings)
    (dialect : again.dialect = .lua) (chunk : String) :
    let block := (start source name settings).analyze.1.block
    (∀ s ∈ block.statements, s.isLua = true) →
      (∀ e ∈ block.exps, e.fieldsWithin again.tableFieldLimit = true) →
      (∀ s ∈ block.statements, s.isWhole = true) → block.Apart →
      (∀ e ∈ block.exps, e.isSigned = true) → block.text.toList.head? ≠ some '\ufeff' →
      ∃ levels, ∀ maxNesting, Rereads block false (levels ≤ maxNesting)
        (start block.text.toUTF8.toList chunk { again with maxNesting }).analyze.1 := by
  intro block plain fields whole apart signed mark
  have free : settings.fieldCap = none := by simp [Settings.fieldCap, mooc]
  have printable := (analyze_clean clean).printable (d := ⟨again.tableFieldLimit, false⟩) apart
    (fun e among legible => legible.fits nofun (fun _ => signed e among) fun _ => fields e among)
    (fun _ => plain) (fun _ => whole) (by simp [free])
  exact rereads_text (c := ⟨⟨again.tableFieldLimit, false⟩, again.maxErrors⟩) printable mark chunk
    dialect le_rfl rfl

theorem analyze_rereads_mooc_switch :
    let source := "switch a { case 1, 2: b = 3 default: } import c from \"d\" guard e else { return }"
    let block := (start source.toUTF8.toList "" { dialect := .mooc }).analyze.1.block
    ∃ levels, ∀ maxNesting, Rereads block false (levels ≤ maxNesting)
      (start block.text.toUTF8.toList "" { maxNesting }).analyze.1 :=
  analyze_rereads_mooc rfl (by decide +kernel) {} rfl "" (by decide +kernel) (by decide +kernel)
    (by decide +kernel) (by decide +kernel) (by decide +kernel) (by decide +kernel)

/-- A `switch` without cases is written as an `end` that closes nothing. -/
theorem analyze_rereads_mooc_empty :
    let first := (start "switch a { }".toUTF8.toList "" { dialect := .mooc }).analyze.1
    let second := (start first.block.text.toUTF8.toList "" {}).analyze.1
    first.errors = [] ∧ (∀ s ∈ first.block.statements, s.isLua = true) ∧
      (∀ e ∈ first.block.exps, e.fieldsWithin 0 = true) ∧
        second.errors.map (·.message) = ["'<eof>' expected near 'end'"] := by
  decide +kernel

end Session

end LuaChunk
