import LuaChunk.Proofs.Lexer.Lexed
import LuaChunk.Proofs.Lexer.Waiting
import LuaChunk.Proofs.Lexer.Words

/-!
# Words with blanks between them

A text made of words and blanks, where no word is joined by the character after it, is read as
these words, with no error among them.
-/

set_option autoImplicit false

namespace LuaChunk

/-- A character that only sets words apart. -/
def isGapChar (c : Char) : Bool := c = ' ' || c = '\n' || c = '\t'

/-- A stretch of a text: blanks, or a word. -/
inductive Fragment where
  | gap (blanks : List Char)
  | word (w : Word)
  deriving DecidableEq

namespace Fragment

def chars : Fragment → List Char
  | gap blanks => blanks
  | word w => w.chars

def word? : Fragment → Option Word
  | gap _ => none
  | word w => some w

end Fragment

/-- The text of fragments. -/
def fragmentChars (fs : List Fragment) : List Char := fs.flatMap Fragment.chars

/-- The words among fragments. -/
def fragmentWords (fs : List Fragment) : List Word := fs.filterMap Fragment.word?

/-- The first character of fragments, or of what follows them. -/
def firstChar (fs : List Fragment) (next : Option Char) : Option Char :=
  (fragmentChars fs).head?.or next

/-- Gaps are blanks, and words are legible and set apart from what follows them. -/
def Spaced (d : Dialect) : List Fragment → Option Char → Prop
  | [], _ => True
  | .gap blanks :: rest, next => (∀ c ∈ blanks, isGapChar c = true) ∧ Spaced d rest next
  | .word w :: rest, next =>
    w.Legible d ∧ (∀ x ∈ firstChar rest next, w.kind.joins x = false) ∧ Spaced d rest next

section Lists

variable {d : Dialect} (f : Fragment) (fs gs : List Fragment) (next : Option Char)

@[simp]
theorem fragmentChars_nil : fragmentChars [] = [] := rfl

@[simp]
theorem fragmentChars_cons : fragmentChars (f :: fs) = f.chars ++ fragmentChars fs :=
  List.flatMap_cons

@[simp]
theorem fragmentChars_append : fragmentChars (fs ++ gs) = fragmentChars fs ++ fragmentChars gs :=
  List.flatMap_append

@[simp]
theorem fragmentWords_nil : fragmentWords [] = [] := rfl

@[simp]
theorem fragmentWords_gap (blanks : List Char) :
    fragmentWords (.gap blanks :: fs) = fragmentWords fs := rfl

@[simp]
theorem fragmentWords_word (w : Word) : fragmentWords (.word w :: fs) = w :: fragmentWords fs := rfl

@[simp]
theorem fragmentWords_append : fragmentWords (fs ++ gs) = fragmentWords fs ++ fragmentWords gs :=
  List.filterMap_append

@[simp]
theorem firstChar_nil : firstChar [] next = next := rfl

theorem firstChar_append : firstChar (fs ++ gs) next = firstChar fs (firstChar gs next) := by
  simp [firstChar, Option.or_assoc]

theorem spaced_append :
    Spaced d (fs ++ gs) next ↔ Spaced d fs (firstChar gs next) ∧ Spaced d gs next := by
  induction fs with
  | nil => simp [Spaced]
  | cons f fs inductionHypothesis =>
    cases f with
    | gap blanks => simp [Spaced, inductionHypothesis, and_assoc]
    | word w => simp [Spaced, inductionHypothesis, firstChar_append, and_assoc]

end Lists

theorem Word.Legible.ne_eof {d : Dialect} {w : Word} (h : w.Legible d) : w.kind ≠ .eof := by
  cases h with
  | symbol among =>
    have all : ∀ kind ∈ TokenKind.symbols, kind ≠ .eof := by decide
    exact all _ among
  | keyword among =>
    have all : ∀ d : Dialect, ∀ kind ∈ d.keywords, kind ≠ .eof
      | .lua => by decide
      | .mooc => by decide
    exact all d _ among
  | _ => exact nofun

namespace Scanner

variable {d : Dialect} {s : Scanner}

theorem scan_gap {c : Char} (blank : isGapChar c = true) {rest : List Glyph}
    (h : s.cursor.rest = Glyph.ofChar c ++ rest) :
    s.scan d = Scanner.scan d { s with cursor := s.cursor.forward 1 } ∧
      (s.cursor.forward 1).rest = rest := by
  obtain ⟨g, one, code⟩ : ∃ g, Glyph.ofChar c = [g] ∧ Byte.isBlank g.code = true := by
    simp only [isGapChar, Bool.or_eq_true, decide_eq_true_eq] at blank
    rcases blank with (rfl | rfl) | rfl <;> exact ⟨_, rfl, rfl⟩
  have ahead : s.cursor.rest = g :: rest := by rw [h, one, List.singleton_append]
  have first : s.cursor.code? 0 = some g.code := by simp [Cursor.code?, ahead]
  have past : (s.cursor.forward 1).rest = rest := by simp [ahead]
  refine ⟨?_, past⟩
  have skips : skipTrivia s.cursor.rest s [] =
      skipTrivia (s.cursor.forward 1).rest { s with cursor := s.cursor.forward 1 } [] := by
    rw [past, ahead, skipTrivia, first]
    dsimp only
    rw [if_pos code]
  unfold scan
  rw [skips]

theorem scan_word {w : Word} (legible : w.Legible d) {after : List Char}
    (apart : ∀ x ∈ after.head?, w.kind.joins x = false)
    (h : s.cursor.rest = Glyph.ofText w.chars ++ Glyph.ofText after) :
    (s.scan d).token.word = w ∧ (s.scan d).errors = [] ∧
      (s.scan d).after.cursor.rest = Glyph.ofText after := by
  obtain ⟨b, first, blank, comment, past, read, rest⟩ := legible.read apart h
  rw [scan_of_solid first blank comment, read]
  exact ⟨rfl, rfl, rest⟩

/-- Scanning finds the words one after the other, then the end. -/
theorem finds_fragments (fs : List Fragment) {s : Scanner} (spaced : Spaced d fs none)
    (h : s.cursor.rest = Glyph.ofText (fragmentChars fs)) :
    ∃ tokens final, Finds d s tokens final ∧ tokens.map (·.token.word) = fragmentWords fs ∧
      (∀ t ∈ tokens, t.errors = []) ∧ final.errors = [] := by
  induction fs generalizing s with
  | nil =>
    refine ⟨[], s.scan d, .eof (scan_kind_of_rest_eq_nil d h), rfl, by simp, ?_⟩
    rw [fragmentChars_nil, Glyph.ofText_nil] at h
    simp [scan, h, skipTrivia, Cursor.code?]
  | cons f fs inductionHypothesis =>
    cases f with
    | gap blanks =>
      obtain ⟨blank, spaced⟩ := spaced
      rw [fragmentChars_cons, Fragment.chars, Glyph.ofText_append] at h
      induction blanks generalizing s with
      | nil => exact inductionHypothesis spaced h
      | cons c blanks inner =>
        rw [Glyph.ofText_cons, List.append_assoc] at h
        obtain ⟨same, past⟩ := scan_gap (d := d) (blank c List.mem_cons_self) h
        obtain ⟨tokens, final, found, rest⟩ := inner
          (s := { s with cursor := s.cursor.forward 1 }) past fun x among => blank x (.tail _ among)
        refine ⟨tokens, final, ?_, rest⟩
        cases found with
        | eof last => exact same ▸ .eof (same ▸ last)
        | token more found => exact same ▸ .token (same ▸ more) (same ▸ found)
    | word w =>
      obtain ⟨legible, apart, spaced⟩ := spaced
      rw [fragmentChars_cons, Fragment.chars, Glyph.ofText_append] at h
      obtain ⟨word, errors, rest⟩ := scan_word legible
        (fun x head => apart x (by simpa [firstChar] using head)) h
      obtain ⟨tokens, final, found, words, clean, last⟩ := inductionHypothesis spaced rest
      have more : (s.scan d).token.kind ≠ .eof := by
        rw [show (s.scan d).token.kind = w.kind from congrArg Word.kind word]
        exact legible.ne_eof
      refine ⟨s.scan d :: tokens, final, .token more found, ?_, ?_, last⟩
      · rw [List.map_cons, word, words, fragmentWords_word]
      · exact List.forall_mem_cons.2 ⟨errors, clean⟩

end Scanner

/-! ## Whole texts -/

/-- Without a byte order mark at its start, a text is read from its first character. -/
theorem Cursor.ofBytes_encode {cs : List Char} (plain : '\r' ∉ cs)
    (mark : cs.head? ≠ some '\ufeff') :
    Cursor.ofBytes (Utf8.encode cs) = ⟨Glyph.ofText cs, .start⟩ := by
  rw [← Glyph.ofBytes_encode plain]
  unfold ofBytes
  split
  next rest same =>
    exfalso
    cases cs with
    | nil => cases same
    | cons c cs =>
      rw [Utf8.encode_cons] at same
      refine mark (congrArg some (Char.ext (UInt32.toNat_inj.1 ?_)))
      change c.toNat = 0xFEFF
      have byte {n m : Nat} (small : n < 256) (small' : m < 256)
          (equal : UInt8.ofNat n = UInt8.ofNat m) : n = m := by
        rw [← Utf8.toNat_ofNat small, equal, Utf8.toNat_ofNat small']
      rcases Utf8.encodeChar_cases c with ⟨one, own⟩ | ⟨low, high, own⟩ | ⟨low, high, own⟩ |
        ⟨low, high, own⟩
      all_goals
        rw [own] at same
        simp only [List.cons_append, List.cons.injEq] at same
        have first := byte (m := 0xEF) (by omega) (by omega) same.1
      · omega
      · omega
      · have second := byte (m := 0xBB) (by omega) (by omega) same.2.1
        have third := byte (m := 0xBF) (by omega) (by omega) same.2.2.1
        omega
      · omega
  · rfl

theorem Word.Legible.plain {d : Dialect} {w : Word} (h : w.Legible d) : '\r' ∉ w.chars := by
  cases h with
  | symbol among =>
    have all : ∀ kind ∈ TokenKind.symbols, '\r' ∉ Word.chars ⟨kind, kind.spelling⟩ := by
      decide +kernel
    exact all _ among
  | keyword among =>
    have all : ∀ d : Dialect, ∀ kind ∈ d.keywords, '\r' ∉ Word.chars ⟨kind, kind.spelling⟩
      | .lua => by decide +kernel
      | .mooc => by decide +kernel
    exact all d _ among
  | name identifier =>
    intro among
    have name := identifier.all _ among
    exact absurd name (by decide)
  | number numeral => exact numeral.plain
  | string text =>
    have escapes (c : Char) : '\r' ∉ Quoted.escape c := by
      unfold Quoted.escape
      split
      all_goals simp
      next other _ => exact fun same => other same.symm
    rw [Word.chars, if_pos rfl, Quoted.toList_encode]
    simp [escapes]

theorem Spaced.plain {d : Dialect} {fs : List Fragment} {next : Option Char}
    (h : Spaced d fs next) : '\r' ∉ fragmentChars fs := by
  induction fs with
  | nil => simp
  | cons f fs inductionHypothesis =>
    rw [fragmentChars_cons, List.mem_append, not_or]
    cases f with
    | gap blanks => exact ⟨fun among => absurd (h.1 _ among) (by decide), inductionHypothesis h.2⟩
    | word w => exact ⟨h.1.plain, inductionHypothesis h.2.2⟩

/-- **Re-lexing.**  A text of words set apart has these words as its tokens and no lexical error. -/
theorem TokenStream.ofBytes_fragments {d : Dialect} {fs : List Fragment} {source : List UInt8}
    (spaced : Spaced d fs none)
    (rest : (Cursor.ofBytes source).rest = Glyph.ofText (fragmentChars fs)) :
    let s := TokenStream.ofBytes d source
    s.ahead.map (·.token.word) = fragmentWords fs ∧ s.final.token.kind = .eof ∧ s.waiting = [] := by
  intro s
  have rest : (Scanner.ofBytes source).cursor.rest = Glyph.ofText (fragmentChars fs) := rest
  obtain ⟨tokens, final, found, words, clean, last⟩ := Scanner.finds_fragments fs spaced rest
  have run := (Scanner.finds_iff_run ..).1 found
  have ahead : s.ahead = tokens := congrArg Prod.fst run
  have final_eq : s.final = final := congrArg Prod.snd run
  refine ⟨by rw [ahead, words], by rw [final_eq]; exact found.final_kind, ?_⟩
  have none : ∀ errors ∈ errorLists s.final s.ahead, errors = [] := by
    intro errors among
    rw [errorLists, ahead, final_eq] at among
    rcases List.mem_append.1 among with first | closing
    · obtain ⟨t, member, rfl⟩ := List.mem_map.1 first
      exact clean t member
    · rw [List.mem_singleton.1 closing, last]
  exact List.flatten_eq_nil_iff.2 none

end LuaChunk
