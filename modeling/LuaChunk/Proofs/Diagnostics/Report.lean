import LuaChunk.Proofs.Lexer.Faults
import LuaChunk.Proofs.Parser.Moves
import LuaChunk.Proofs.Tree.Parts
import Mathlib.Data.List.Induction

/-!
# Reports

The diagnostics of an analysis, or of a part of one: each points into the text, and lexical errors
are listed before the syntax errors that they do not start after.  There is one exception, in which
a lexical error is listed too late.
-/

set_option autoImplicit false

namespace LuaChunk

namespace Diagnostic

def isLexical (d : Diagnostic) : Bool :=
  match d.cause with
  | .lexical _ => true
  | _ => false

/-- Something is wrong with an escape inside a span. -/
def isEscapeIn (place : Span) (d : Diagnostic) : Bool :=
  match d.cause with
  | .lexical fault => fault.isEscape && place.contains d.span
  | _ => false

/-- It tells of a fault in the text, and stands in the text. -/
structure Points (stop : Position) (d : Diagnostic) : Prop where
  readable : d.isUnreadable = false
  between : d.span.Between .start stop

/-- The lexical error `e`, before which all of `listed` is listed, comes too late: it is about a whole
string at which Lua wanted an assignment, `d`, and has at least two bad escapes to wait for. -/
structure Belated (dialect : Dialect) (listed : List Diagnostic) (d e : Diagnostic) : Prop where
  lua : dialect = .lua
  missing : ∃ near, d.cause = .expected .assign near
  cut : e.cause = .lexical .unterminatedString
  place : e.span = d.span
  escapes : 2 ≤ listed.countP (·.isEscapeIn e.span)

theorem Belated.mono {dialect : Dialect} {listed more : List Diagnostic} {d e : Diagnostic}
    (h : Belated dialect listed d e) (sub : listed.Sublist more) : Belated dialect more d e :=
  { h with escapes := Nat.le_trans h.escapes sub.countP_le }

/-- A lexical error is listed before each syntax error that it does not start after, unless it is
belated. -/
def Orderly (dialect : Dialect) (ds : List Diagnostic) : Prop :=
  ∀ listed e, listed ++ [e] <+: ds → e.isLexical = true → ∀ d ∈ listed, d.isLexical = false →
    e.span.start ≤ d.span.start → Belated dialect listed d e

section Orderly

variable {dialect : Dialect} {l w : List Diagnostic} {d e : Diagnostic}

theorem Orderly.append_left (h : Orderly dialect (l ++ w)) : Orderly dialect l :=
  fun listed e first => h listed e (first.trans (List.prefix_append l w))

theorem orderly_concat : Orderly dialect (l ++ [e]) ↔ Orderly dialect l ∧ (e.isLexical = true →
    ∀ d ∈ l, d.isLexical = false → e.span.start ≤ d.span.start → Belated dialect l d e) := by
  constructor
  · exact fun h => ⟨h.append_left, h l e List.prefix_rfl⟩
  · rintro ⟨h, last⟩ listed x first
    rcases List.prefix_concat_iff.1 first with same | first
    · obtain ⟨rfl, tail⟩ := List.append_inj' same rfl
      cases tail
      exact last
    · exact h listed x first

/-- A syntax error may be listed before lexical errors that start after it. -/
theorem Orderly.insert (h : Orderly dialect (l ++ w)) (syntactic : d.isLexical = false)
    (lexical : ∀ e ∈ w, e.isLexical = true)
    (after : ∀ first e rest, w = first ++ e :: rest → e.span.start ≤ d.span.start →
      Belated dialect (l ++ d :: first) d e) : Orderly dialect (l ++ d :: w) := by
  induction w using List.reverseRecOn with
  | nil =>
    rw [List.append_nil] at h
    exact orderly_concat.2 ⟨h, fun lexical => by simp [syntactic] at lexical⟩
  | append_singleton w e inductionHypothesis =>
    rw [← List.append_assoc, orderly_concat] at h
    rw [← List.cons_append, ← List.append_assoc, orderly_concat]
    constructor
    · refine inductionHypothesis h.1 (fun e among => lexical e (List.mem_append_left _ among)) ?_
      rintro first x rest rfl
      exact after first x (rest ++ [e]) (by simp)
    · intro isLexical x among isSyntax start
      rcases List.mem_append.1 among with before | here
      · exact (h.2 isLexical x (List.mem_append_left _ before) isSyntax start).mono
          (List.Sublist.append_left (List.sublist_cons_self d w) l)
      rcases List.mem_cons.1 here with rfl | later
      · exact after w e [] rfl start
      · simp [lexical x (List.mem_append_left _ later)] at isSyntax

end Orderly

end Diagnostic

open Diagnostic

/-- What is known of the diagnostics of a text that ends at `stop`. -/
structure Report (dialect : Dialect) (stop : Position) (ds : List Diagnostic) : Prop where
  points : ∀ d ∈ ds, d.Points stop
  orderly : Orderly dialect ds

namespace Report

variable {dialect : Dialect} {stop : Position} {l m : List Diagnostic} {d : Diagnostic}

theorem append_left (h : Report dialect stop (l ++ m)) : Report dialect stop l :=
  ⟨fun d among => h.points d (List.mem_append_left m among), h.orderly.append_left⟩

theorem insert {w : List LexicalError} (h : Report dialect stop (l ++ w.map (·.diagnostic)))
    (points : d.Points stop) (syntactic : d.isLexical = false)
    (after : ∀ first e rest, w = first ++ e :: rest → e.span.start ≤ d.span.start →
      Belated dialect (l ++ d :: first.map (·.diagnostic)) d e.diagnostic) :
    Report dialect stop (l ++ d :: w.map (·.diagnostic)) := by
  constructor
  · refine List.forall_mem_append.2 ⟨h.append_left.points, List.forall_mem_cons.2 ⟨points, ?_⟩⟩
    exact fun e among => h.points e (List.mem_append_right l among)
  · refine h.orderly.insert syntactic (List.forall_mem_map.2 fun e _ => rfl) ?_
    intro first e rest split start
    obtain ⟨first, _, rfl, rfl, tail⟩ := List.map_eq_append_iff.1 split
    obtain ⟨e, rest, rfl, rfl, rfl⟩ := List.map_eq_cons_iff.1 tail
    exact after first e rest rfl start

/-- The last diagnostic may be a syntax error. -/
theorem concat (h : Report dialect stop l) (points : d.Points stop)
    (syntactic : d.isLexical = false) : Report dialect stop (l ++ [d]) :=
  insert (w := []) (by simpa using h) points syntactic (by simp)

/-- The log marks the diagnostic that it has no room for. -/
theorem overflow (h : Report dialect stop (l ++ [d])) :
    Report dialect stop (l ++ [{ d with overflow := true }]) := by
  constructor
  · refine List.forall_mem_append.2 ⟨h.append_left.points, List.forall_mem_singleton.2 ?_⟩
    have last := h.points d (List.mem_append_right l (List.mem_singleton_self d))
    exact ⟨last.readable, last.between⟩
  · obtain ⟨first, last⟩ := orderly_concat.1 h.orderly
    refine orderly_concat.2 ⟨first, fun lexical x among isSyntax start => ?_⟩
    have belated := last lexical x among isSyntax start
    exact ⟨belated.lua, belated.missing, belated.cut, belated.place, belated.escapes⟩

end Report

end LuaChunk
