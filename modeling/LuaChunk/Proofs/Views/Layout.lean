import LuaChunk.Proofs.Lexer.Partition
import LuaChunk.Proofs.Views.Mooc

/-!
# Layout

Lua sources of the same tokens are read alike, wherever the tokens stand.  The view that takes all
spans for one and forgets the comments sees one session where both readings begin, and so sees one
session where they end.
-/

set_option autoImplicit false

namespace LuaChunk

/-- Lua without places and comments. -/
def View.bare : View where
  dialect := .lua
  place _ := .synthetic
  scanner _ := .ofBytes []
  settings := id
  cap := none
  dialect_settings _ := rfl
  maxNesting_settings _ := rfl
  capped_settings _ _ _ _ := rfl
  place_synthetic := rfl
  place_merge _ _ := rfl
  place_upTo _ _ := rfl
  place_block _ _ _ := rfl
  exact_or_lua := .inr rfl

/-- What a token is and how it is written, but not where. -/
def Token.bare (t : Token) : TokenKind × String := (t.kind, t.text)

/-- A token without errors, as it is seen. -/
def Scanned.ofBare (word : TokenKind × String) : Scanned :=
  ⟨⟨word.1, word.2, .synthetic⟩, [], .ofBytes []⟩

theorem View.scanned_bare {r : Scanned} (clean : r.errors = []) :
    View.bare.scanned r = .ofBare r.token.bare := by
  unfold View.scanned
  rw [clean]
  rfl

/-! ## Tokens of a source -/

namespace Scanner

variable {d : Dialect} {s : Scanner} {tokens : List Scanned} {final : Scanned}

/-- Only the end of input has the kind of it. -/
theorem bare_of_kind_eq_eof (last : (s.scan d).token.kind = .eof) :
    (s.scan d).token.bare = (.eof, "") := by
  revert last
  unfold scan
  generalize skipTrivia s.cursor.rest s [] = trivia
  obtain ⟨there, errors⟩ := trivia
  dsimp only
  cases first : there.cursor.code? 0 with
  | none => exact fun _ => rfl
  | some b =>
    obtain ⟨_, _, kind, _⟩ := Lexeme.shows_read d first
    exact fun last => absurd last kind

theorem Finds.bare_final (h : Finds d s tokens final) : final.token.bare = (.eof, "") := by
  have kind := h.final_kind
  obtain ⟨s, rfl⟩ := h.scanned final (by simp)
  exact bare_of_kind_eq_eof kind

end Scanner

namespace Session

variable {source : List UInt8} {name : String} {settings : Settings} {tokens : List Token}

/-- A source is tokenized if no token has errors. -/
theorem tokenize_eq_ok_iff {d : Dialect} : tokenize source d = .ok tokens ↔
    (((opening source).run d).1.flatMap (·.errors) = [] ∧ ((opening source).run d).2.errors = []) ∧
      ((opening source).run d).1.map (·.token) = tokens := by
  unfold tokenize
  dsimp only
  rw [← List.append_eq_nil_iff, show (Scanner.ofBytes source).skipShebang = opening source from rfl]
  split
  next none => simp [none]
  next some => simp [some]

theorem opened_fits (lua : settings.dialect = .lua) (lexed : tokenize source .lua = .ok tokens) :
    View.bare.Fits (opened source name settings) := by
  obtain ⟨⟨each, last⟩, _⟩ := tokenize_eq_ok_iff.1 lexed
  rw [← lua] at each last
  exact ⟨lua, .inr ⟨rfl, List.flatMap_eq_nil_iff.1 each, last⟩⟩

/-- Nothing is seen of a source but its bare tokens. -/
theorem session_opened (lua : settings.dialect = .lua) (lexed : tokenize source .lua = .ok tokens) :
    View.bare.session (opened source name settings) =
      { settings
        tokens :=
          { dialect := .lua
            taken := .ofBytes []
            ahead := (tokens.map Token.bare).map .ofBare
            final := .ofBare (.eof, "") }
        scopes := .ofFile name
        log := { cap := settings.maxErrors } } := by
  obtain ⟨⟨each, last⟩, rfl⟩ := tokenize_eq_ok_iff.1 lexed
  have final : View.bare.scanned ((opening source).run .lua).2 = .ofBare (.eof, "") := by
    rw [View.scanned_bare last, ((opening source).run_finds .lua).bare_final]
  have ahead : ((opening source).run .lua).1.map View.bare.scanned =
      ((((opening source).run .lua).1.map (·.token)).map Token.bare).map .ofBare := by
    simp only [List.map_map]
    exact List.map_congr_left fun r among =>
      View.scanned_bare (List.flatMap_eq_nil_iff.1 each r among)
  have log : View.bare.log { cap := settings.maxErrors } = { cap := settings.maxErrors } := by
    simp [View.log]
  rw [← ahead, ← final, ← lua, ← log]
  rfl

/-- **Layout.**  Two Lua sources of the same tokens, whatever stands between them, have the same
block up to the spans, and the same messages in the same order. -/
theorem analyze_layout {source source' : List UInt8} {tokens tokens' : List Token} (name : String)
    {settings : Settings} (lua : settings.dialect = .lua)
    (lexed : tokenize source .lua = .ok tokens) (lexed' : tokenize source' .lua = .ok tokens')
    (same : tokens.map Token.bare = tokens'.map Token.bare) :
    let a := (start source name settings).analyze.1
    let a' := (start source' name settings).analyze.1
    a.block.recast (fun _ => .synthetic) none = a'.block.recast (fun _ => .synthetic) none ∧
      a.errors.map (·.message) = a'.errors.map (·.message) := by
  have looks : View.bare.session (opened source name settings) =
      View.bare.session (opened source' name settings) := by
    rw [session_opened lua lexed, session_opened lua lexed', same]
  have shows {source : List UInt8} {tokens : List Token}
      (lexed : tokenize source .lua = .ok tokens) :
      View.bare.Shows View.bare.block (run source name settings)
        (chunk (.level settings.maxNesting) (View.bare.session (opened source name settings))) :=
    chunk_commutes settings.maxNesting _ (opened_fits lua lexed)
  have seen := shows lexed
  rw [looks] at seen
  have block := seen.block.symm.trans (shows lexed').block
  have session := seen.session.symm.trans (shows lexed').session
  have messages := congrArg (fun s : Session => s.errors.map (·.message)) session
  simp only [View.errors_session, List.map_map, Function.comp_def, View.message_diagnostic]
    at messages
  intro a a'
  rw [show a = _ from analyze_run .., show a' = _ from analyze_run ..]
  exact ⟨block, messages⟩

/-- A comment, line breaks and blanks. -/
theorem analyze_layout_comment :
    let source := "f(x) -- call\nlocal y = {1}".toUTF8.toList
    let source' := "f ( x )local\ny={ 1 }".toUTF8.toList
    let a := (start source "" {}).analyze.1
    let a' := (start source' "" {}).analyze.1
    a.errors = [] ∧ a.block.span ≠ a'.block.span ∧
      a.block.recast (fun _ => .synthetic) none = a'.block.recast (fun _ => .synthetic) none ∧
      a.errors.map (·.message) = a'.errors.map (·.message) := by
  intro source source' a a'
  have lexed : tokenize source .lua = .ok (((opening source).run .lua).1.map (·.token)) :=
    tokenize_eq_ok_iff.2 ⟨by decide +kernel, rfl⟩
  have lexed' : tokenize source' .lua = .ok (((opening source').run .lua).1.map (·.token)) :=
    tokenize_eq_ok_iff.2 ⟨by decide +kernel, rfl⟩
  exact ⟨by decide +kernel, by decide +kernel,
    analyze_layout "" rfl lexed lexed' (by decide +kernel)⟩

end Session

end LuaChunk
