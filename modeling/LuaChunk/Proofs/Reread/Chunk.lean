import LuaChunk.Proofs.Layout.Spacing
import LuaChunk.Proofs.Layout.Text
import LuaChunk.Proofs.Reread.Tree
import LuaChunk.Analysis

/-!
# The text of a chunk is read again

A chunk that can be written is written as a text whose words are those of the chunk, and so it is
read again: without an error if the levels of nesting suffice, and otherwise with the one error that
tells that they do not.
-/

set_option autoImplicit false

open LuaChunk.Parser

namespace LuaChunk

/-! ## What a text begins with -/

/-- Only one word begins with `#`. -/
theorem Word.Legible.first {d : Dialect} {w : Word} (h : w.Legible d) :
    w.kind = .hash ∨ w.chars.head?.any (· ≠ '#') = true := by
  cases h with
  | symbol among =>
    have all : ∀ kind ∈ TokenKind.symbols, kind = .hash ∨
        (Word.chars ⟨kind, kind.spelling⟩).head?.any (· ≠ '#') = true := by decide +kernel
    exact all _ among
  | keyword among =>
    have all : ∀ d : Dialect, ∀ kind ∈ d.keywords, kind = .hash ∨
        (Word.chars ⟨kind, kind.spelling⟩).head?.any (· ≠ '#') = true
      | .lua => by decide +kernel
      | .mooc => by decide +kernel
    exact all d _ among
  | @name text identifier =>
    obtain ⟨x, first, -⟩ := identifier.first
    have other : x ≠ '#' := by
      rintro rfl
      exact absurd (identifier.all _ (List.mem_of_mem_head? first)) (by decide)
    exact .inr (by simp [chars, Option.mem_def.1 first, other])
  | @number text numeral =>
    obtain ⟨x, first, begins⟩ := numeral.head
    have other : x ≠ '#' := by
      rintro rfl
      exact absurd begins (by decide)
    exact .inr (by simp [chars, Option.mem_def.1 first, other])
  | string text => exact .inr (by simp [chars, Quoted.toList_encode])

/-- A text does not begin with a `#` line unless its first word does. -/
theorem Spaced.first {d : Dialect} {fs : List Fragment} (h : Spaced d fs none)
    (other : nextKind (fragmentWords fs) ≠ .hash) : (fragmentChars fs).head? ≠ some '#' := by
  induction fs with
  | nil => nofun
  | cons f fs inductionHypothesis =>
    rw [fragmentChars_cons, List.head?_append, ne_eq, Option.or_eq_some_iff]
    cases f with
    | gap blanks =>
      rintro (own | ⟨-, later⟩)
      · exact absurd (h.1 _ (List.mem_of_mem_head? own)) (by decide)
      · exact inductionHypothesis h.2 other later
    | word w =>
      have own := h.1.first.resolve_left other
      rintro (same | ⟨none, -⟩)
      · simp_all [Fragment.chars]
      · simp_all [Fragment.chars]

/-- A chunk begins with a statement or with what ends a block. -/
theorem Block.Printable.nextKind_ne_hash {d : Demand} {around : List Body} {b : Block}
    (h : b.Printable d around) (depth : Nat) :
    nextKind (fragmentWords (b.fragments depth)) ≠ .hash := by
  cases h with
  | @block _ stats returns span printable =>
    have words : fragmentWords (Block.fragments depth ⟨stats, returns, span⟩) =
        fragmentWords (statsFragments depth stats) ++ returnWords depth returns := by
      cases returns <;> simp [Block.fragments, returnWords]
    rw [words]
    cases stats with
    | nil => cases returns <;> rintro ⟨⟩
    | cons s stats =>
      have starter := ((printable s List.mem_cons_self).starter depth
        (fragmentWords (statsFragments depth stats) ++ returnWords depth returns)).1
      rw [statsFragments_cons]
      simp only [List.cons_append, fragmentWords_indent, fragmentWords_append, List.append_assoc,
        fragmentWords_newline]
      exact ne_of_mem_of_not_mem starter (by decide)

namespace Session

variable {c : Bounds} {b : Block} {settings : Settings} {fs : List Fragment}

/-- A fresh session faces the words of its text. -/
theorem fresh_faces {source : List UInt8} (spaced : Spaced .lua fs none)
    (rest : (Cursor.ofBytes source).rest = Glyph.ofText (fragmentChars fs)) (name : String)
    (lua : settings.dialect = .lua) (fields : c.fields ≤ settings.tableFieldLimit)
    (errors : c.errors = settings.maxErrors) :
    Session.Faces c (.ofFile name) (fragmentWords fs) (start source name settings) := by
  have words := TokenStream.ofBytes_fragments spaced rest
  rw [← lua] at words
  exact {
    lua, fields
    scopes := .refl _
    quiet := ⟨nofun, nofun⟩
    ahead := words.1
    final := words.2.1
    waiting := words.2.2
    log := congrArg (ErrorLog.mk · #[]) errors.symm }

/-- If the text does not begin with a `#` line, nothing of it is skipped. -/
theorem skipShebang_start {source : List UInt8} (spaced : Spaced .lua fs none)
    (rest : (Cursor.ofBytes source).rest = Glyph.ofText (fragmentChars fs))
    (line : nextKind (fragmentWords fs) ≠ .hash) (name : String) :
    (start source name settings).tokens.skipShebang = (start source name settings).tokens := by
  let s := start source name settings
  have rest : s.tokens.taken.cursor.rest = Glyph.ofText (fragmentChars fs) := rest
  refine if_neg fun skips => spaced.first line ?_
  have first := skips.2
  rw [Cursor.code?_eq, rest, List.getElem?_map, Option.map_eq_some_iff] at first
  obtain ⟨g, head, code⟩ := first
  rw [← List.head?_eq_getElem?] at head
  obtain ⟨x, same, among⟩ := Glyph.head?_ofText head
  rw [code] at among
  rcases Utf8.mem_encodeChar among with ⟨-, number⟩ | ⟨-, beyond⟩
  · exact same.trans (congrArg some (Char.ext (UInt32.toNat_inj.1 number.symm)))
  · exact absurd beyond (by decide)

theorem chunk_takes {σ : ScopeStack} (h : b.Reread c σ 0) : ∃ levels,
    Parser.Takes c σ (fragmentWords (b.fragments 0)) chunk levels [] (b.Echo c.exact) := by
  obtain ⟨levels, reads⟩ := h
  refine ⟨levels + 1, fun n => ?_⟩
  have inner := (reads [] (by decide)).block n
  rw [List.append_nil] at inner
  refine (inner.bind fun a echo => ?_).congr (and_iff_left trivial)
  exact Goes.expect_eof.andThen fun _ _ => .pure echo

/-- What comes of reading a text again: the same tree if that is asked and no error, or that the
levels do not suffice. -/
structure Rereads (b : Block) (exact : Bool) (fits : Prop) (a : Analysis) : Prop where
  clean : fits → a.errors = []
  core : fits → exact = true → a.block.core = b.core
  deep : ¬ fits → a.errors.map (·.cause) = [.tooManyLevels]

/-- **The text of a chunk that can be written.**  It is read without an error if the levels suffice,
and otherwise that they do not is the only error. -/
theorem rereads_text (h : b.Printable c.toDemand []) (mark : b.text.toList.head? ≠ some '\ufeff')
    (name : String) (lua : settings.dialect = .lua) (fields : c.fields ≤ settings.tableFieldLimit)
    (errors : c.errors = settings.maxErrors) : ∃ levels, ∀ maxNesting, Rereads b c.exact
      (levels ≤ maxNesting)
      (start b.text.toUTF8.toList name { settings with maxNesting }).analyze.1 := by
  have chars : fragmentChars (b.fragments 0) = b.text.toList := h.chars 0
  obtain ⟨levels, takes⟩ := chunk_takes (h.reads _ 0 (ScopeStack.Inside.ofFile name)).reread
  refine ⟨levels, fun maxNesting => ?_⟩
  have spaced := h.spaced 0 none
  have rest : (Cursor.ofBytes b.text.toUTF8.toList).rest =
      Glyph.ofText (fragmentChars (b.fragments 0)) := by
    rw [Utf8.toList_toUTF8, ← chars]
    exact congrArg Cursor.rest (Cursor.ofBytes_encode spaced.plain (chars ▸ mark))
  have faces := @fresh_faces c { settings with maxNesting } _ _ spaced rest name lua fields errors
  have unskipped := @skipShebang_start { settings with maxNesting } _ _ spaced rest
    (h.nextKind_ne_hash 0) name
  let fresh := start b.text.toUTF8.toList name { settings with maxNesting }
  let ready : Session := { fresh with tokens := fresh.tokens.skipShebang }
  have same : ready = fresh := congrArg (fun tokens => { fresh with tokens }) unskipped
  have runs : (levels ≤ maxNesting → Arrived c (.ofFile name) [] (b.Echo c.exact)
      (chunk ready.rules ready)) ∧ (¬ levels ≤ maxNesting → OutOfLevels (chunk ready.rules ready)) :=
    takes maxNesting ready (same ▸ faces)
  unfold Session.analyze
  cases run : chunk ready.rules ready with
  | ok a t =>
    rw [run] at runs
    simp only [ready, fresh] at run
    simp only [run]
    refine ⟨fun fits => ?_, fun fits => (runs.1 fits).1, fun deep => (runs.2 deep).elim⟩
    simp [Session.errors, (runs.1 fits).2.log]
  | error abort t =>
    rw [run] at runs
    simp only [ready, fresh] at run
    simp only [run]
    exact ⟨fun fits => (runs.1 fits).elim, fun fits => (runs.1 fits).elim, runs.2⟩

end Session

end LuaChunk
