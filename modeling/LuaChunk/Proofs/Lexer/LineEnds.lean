import LuaChunk.Proofs.Lexer.Extents
import LuaChunk.Proofs.Lexer.Identifiers
import LuaChunk.Proofs.Text.LineEnds

/-!
# Sources with other line ends

A source whose lines end in LF is read next to the same source with CR LF.  The readers meet the
same glyphs but for the line breaks, and none of them looks at which line break it is: tokens have
their kinds and places, and errors and comments are the same.  Only the text of a long bracket,
which is taken as it stands, has the line ends of its source.
-/

set_option autoImplicit false

namespace LuaChunk

/-- A class that no line end is of holds of other bytes. -/
theorem Byte.plain_of_class {p : UInt8 → Bool} (lf : p 0x0A = false) (cr : p 0x0D = false)
    {b : UInt8} (h : p b = true) : isLineEnd b = false := by
  rw [Bool.eq_false_iff]
  intro ends
  rw [isLineEnd, Bool.or_eq_true, beq_iff_eq, beq_iff_eq] at ends
  rcases ends with rfl | rfl
  · exact absurd (lf.symm.trans h) Bool.false_ne_true
  · exact absurd (cr.symm.trans h) Bool.false_ne_true

/-! ## Glyphs -/

namespace Glyph

/-- The glyph with CR LF for LF. -/
def crlf : Glyph → Glyph
  | lineBreak .lf => lineBreak .crlf
  | g => g

/-- The line ends of the glyph are replaced as those of its bytes are. -/
def Unix (g : Glyph) : Prop := g.crlf.bytes = LuaChunk.crlf g.bytes

variable {b : UInt8} {p : UInt8 → Bool} {gs : List Glyph}

@[simp]
theorem isLineBreak_crlf (g : Glyph) : g.crlf.isLineBreak = g.isLineBreak := by
  match g with
  | .byte _ | .lineBreak .lf | .lineBreak .cr | .lineBreak .crlf => rfl

/-- A class of bytes that holds both line ends or neither takes the same glyphs. -/
theorem code_crlf (alike : p 0x0D = p 0x0A) (g : Glyph) : p g.crlf.code = p g.code := by
  match g with
  | .lineBreak .lf => exact alike
  | .byte _ | .lineBreak .cr | .lineBreak .crlf => rfl

theorem crlf_of_plain {g : Glyph} (plain : Byte.isLineEnd g.code = false) : g.crlf = g := by
  match g with
  | .lineBreak .lf => cases plain
  | .byte _ | .lineBreak .cr | .lineBreak .crlf => rfl

theorem code_crlf_eq_iff (plain : Byte.isLineEnd b = false) (g : Glyph) :
    g.crlf.code = b ↔ g.code = b := by
  have alike : ((0x0D : UInt8) == b) = ((0x0A : UInt8) == b) := by
    rw [beq_eq_false_iff_ne.2, beq_eq_false_iff_ne.2] <;> (rintro rfl; cases plain)
  have same := code_crlf (p := (· == b)) alike g
  rwa [Bool.eq_iff_iff, beq_iff_eq, beq_iff_eq] at same

theorem map_crlf_of_plain (plain : ∀ g ∈ gs, Byte.isLineEnd g.code = false) :
    gs.map crlf = gs :=
  (List.map_congr_left (g := id) fun g among => crlf_of_plain (plain g among)).trans
    (List.map_id gs)

theorem takeWhile_crlf (alike : p 0x0D = p 0x0A) (gs : List Glyph) :
    (gs.map crlf).takeWhile (p ·.code) = (gs.takeWhile (p ·.code)).map crlf := by
  rw [List.takeWhile_map]
  congr 2
  funext g
  exact code_crlf alike g

theorem isPrefixOf_crlf {word : List UInt8} (plain : ∀ b ∈ word, Byte.isLineEnd b = false)
    (gs : List Glyph) :
    word.isPrefixOf ((gs.map crlf).map code) = word.isPrefixOf (gs.map code) := by
  induction word generalizing gs with
  | nil => rfl
  | cons b word inductionHypothesis =>
    obtain ⟨first, plain⟩ := List.forall_mem_cons.1 plain
    cases gs with
    | nil => rfl
    | cons g gs =>
      have same : (b == g.crlf.code) = (b == g.code) := by
        rw [Bool.eq_iff_iff, beq_iff_eq, beq_iff_eq, eq_comm, code_crlf_eq_iff first, eq_comm]
      simp only [List.map_cons, List.isPrefixOf_cons_cons, same, inductionHypothesis plain]

/-- Where no CR stands, a source is read with one line end as with the other. -/
theorem ofBytes_crlf {bytes : List UInt8} (unix : 0x0D ∉ bytes) :
    ofBytes (LuaChunk.crlf bytes) = (ofBytes bytes).map crlf ∧ ∀ g ∈ ofBytes bytes, g.Unix := by
  induction bytes with
  | nil => exact ⟨rfl, nofun⟩
  | cons b bytes inductionHypothesis =>
    rw [List.mem_cons, not_or] at unix
    obtain ⟨same, all⟩ := inductionHypothesis unix.2
    by_cases lf : b = 0x0A
    · subst lf
      rw [crlf_lf]
      change cons 0x0D (cons 0x0A (ofBytes (LuaChunk.crlf bytes))) =
        (cons 0x0A (ofBytes bytes)).map crlf ∧ ∀ g ∈ cons 0x0A (ofBytes bytes), g.Unix
      rw [same]
      exact ⟨rfl, List.forall_mem_cons.2 ⟨rfl, all⟩⟩
    · rw [crlf_cons lf]
      change cons b (ofBytes (LuaChunk.crlf bytes)) = (cons b (ofBytes bytes)).map crlf ∧
        ∀ g ∈ cons b (ofBytes bytes), g.Unix
      rw [same, cons_plain ⟨lf, Ne.symm unix.1⟩, cons_plain ⟨lf, Ne.symm unix.1⟩]
      exact ⟨rfl, List.forall_mem_cons.2 ⟨(crlf_cons lf []).symm, all⟩⟩

end Glyph

/-! ## Cursors -/

namespace Cursor

/-- The cursor in the source with other line ends. -/
def crlf (c : Cursor) : Cursor := { c with rest := c.rest.map Glyph.crlf }

/-- All lines ahead end in LF. -/
def Unix (c : Cursor) : Prop := ∀ g ∈ c.rest, g.Unix

variable {b : UInt8} {p : UInt8 → Bool} {c : Cursor}

theorem Unix.reaches {after : Cursor} (h : c.Unix) (reaches : c.Reaches after) : after.Unix := by
  obtain ⟨count, rfl⟩ := reaches
  exact fun g among => h g (List.mem_of_mem_drop among)

theorem Unix.forward (h : c.Unix) (count : Nat) : (c.forward count).Unix :=
  h.reaches (reaches_forward c count)

@[simp]
theorem forward_crlf (c : Cursor) (count : Nat) :
    c.crlf.forward count = (c.forward count).crlf := by
  unfold forward crlf
  rw [List.map_drop, ← List.map_take, List.foldl_map]
  congr 2
  funext p g
  rw [Position.after, Position.after, Glyph.isLineBreak_crlf]

@[simp]
theorem atLineBreak_crlf (c : Cursor) : c.crlf.atLineBreak = c.atLineBreak := by
  obtain ⟨glyphs, position⟩ := c
  cases glyphs with
  | nil => rfl
  | cons g glyphs => exact g.isLineBreak_crlf

theorem count_crlf (alike : p 0x0D = p 0x0A) (c : Cursor) : c.crlf.count p = c.count p := by
  rw [count, crlf, Glyph.takeWhile_crlf alike, List.length_map, count]

theorem countUpTo_crlf (alike : p 0x0D = p 0x0A) (limit : Nat) (c : Cursor) :
    c.crlf.countUpTo limit p = c.countUpTo limit p := by
  rw [countUpTo, crlf, ← List.map_take, Glyph.takeWhile_crlf alike, List.length_map, countUpTo]

theorem code?_crlf_eq_iff (plain : Byte.isLineEnd b = false) (c : Cursor) (ahead : Nat) :
    c.crlf.code? ahead = some b ↔ c.code? ahead = some b := by
  simp [code?, crlf, Glyph.code_crlf_eq_iff plain]

theorem beq_code?_crlf (plain : Byte.isLineEnd b = false) (c : Cursor) (ahead : Nat) :
    (c.crlf.code? ahead == some b) = (c.code? ahead == some b) := by
  rw [Bool.eq_iff_iff, beq_iff_eq, beq_iff_eq, code?_crlf_eq_iff plain]

/-- The next byte is the same, or both are line ends. -/
theorem code?_crlf_cases (c : Cursor) (ahead : Nat) : c.crlf.code? ahead = c.code? ahead ∨
    (c.code? ahead = some 0x0A ∧ c.crlf.code? ahead = some 0x0D) := by
  unfold code? crlf
  rw [List.getElem?_map]
  match c.rest[ahead]? with
  | none => exact .inl rfl
  | some (.lineBreak .lf) => exact .inr ⟨rfl, rfl⟩
  | some (.byte _) | some (.lineBreak .cr) | some (.lineBreak .crlf) => exact .inl rfl

theorem any_code?_crlf (alike : p 0x0D = p 0x0A) (c : Cursor) (ahead : Nat) :
    (c.crlf.code? ahead).any p = (c.code? ahead).any p := by
  simp [code?, crlf, Option.any_map, Function.comp_def, Glyph.code_crlf alike]

theorem bytes_crlf (unix : c.Unix) (count : Nat) :
    c.crlf.bytes count = LuaChunk.crlf (c.bytes count) := by
  unfold bytes crlf LuaChunk.crlf
  rw [← List.map_take, List.flatMap_map, List.flatMap_assoc]
  exact List.flatMap_congr fun g among => unix g (List.mem_of_mem_take among)

/-- Glyphs of a class that no line end is of are the same. -/
theorem bytes_crlf_of_plain {count : Nat}
    (plain : ∀ g ∈ c.rest.take count, Byte.isLineEnd g.code = false) :
    c.crlf.bytes count = c.bytes count := by
  rw [bytes, crlf, ← List.map_take, Glyph.map_crlf_of_plain plain, bytes]

theorem bytes_countUpTo_crlf (lf : p 0x0A = false) (cr : p 0x0D = false) (limit : Nat)
    (c : Cursor) : c.crlf.bytes (c.countUpTo limit p) = c.bytes (c.countUpTo limit p) := by
  apply bytes_crlf_of_plain
  intro g among
  have ahead := (List.takeWhile_prefix (l := c.rest.take limit) fun g : Glyph => p g.code).trans
    (List.take_prefix limit c.rest)
  rw [countUpTo, ← List.prefix_iff_eq_take.1 ahead] at among
  have inside := List.mem_takeWhile_imp among
  exact Byte.plain_of_class lf cr inside

theorem bytes_count_crlf (lf : p 0x0A = false) (cr : p 0x0D = false) (c : Cursor) :
    c.crlf.bytes (c.count p) = c.bytes (c.count p) := by
  have whole : c.countUpTo c.rest.length p = c.count p := by
    rw [countUpTo, List.take_length, count]
  rw [← whole]
  exact bytes_countUpTo_crlf lf cr _ c

theorem startsWith_crlf {word : List UInt8} (plain : ∀ b ∈ word, Byte.isLineEnd b = false)
    (c : Cursor) : c.crlf.startsWith word = c.startsWith word := by
  rw [startsWith, crlf, ← List.map_take, Glyph.isPrefixOf_crlf plain, startsWith]

end Cursor

/-! ## Readers -/

open Cursor

namespace LongBracket

@[simp]
theorem level?_crlf (c : Cursor) : level? c.crlf = level? c := by
  simp only [level?, forward_crlf, count_crlf (p := (· == Byte.of '=')) (by decide),
    code?_crlf_eq_iff (b := Byte.of '[') (by decide)]

theorem contentLength_crlf (level count : Nat) (gs : List Glyph) :
    contentLength level count (gs.map Glyph.crlf) = contentLength level count gs := by
  induction gs generalizing count with
  | nil => rfl
  | cons g gs inductionHypothesis =>
    have bracket := Glyph.code_crlf (p := (· == Byte.of ']')) (by decide) g
    have closes : closesAt level ((g :: gs).map Glyph.crlf) = closesAt level (g :: gs) := by
      rw [closesAt, ← List.map_take, Glyph.isPrefixOf_crlf (closing_plain level), closesAt]
    rw [List.map_cons] at closes ⊢
    unfold contentLength
    rw [bracket, closes, inductionHypothesis]

theorem broken_crlf (opened : Cursor) : broken opened.crlf = broken opened := by
  rw [broken, atLineBreak_crlf, broken]

theorem read_crlf {c : Cursor} (unix : c.Unix) (level : Nat) : read level c.crlf =
    ⟨crlfText (read level c).text, (read level c).closed, (read level c).after.crlf⟩ := by
  have body (opened : Cursor) := (body_eq opened).1
  unfold read
  dsimp only
  rw [forward_crlf, body, body, broken_crlf, forward_crlf]
  have unix := (unix.forward (level + 2)).forward (broken (c.forward (level + 2)))
  generalize (c.forward (level + 2)).forward (broken (c.forward (level + 2))) = content at unix ⊢
  have length : contentLength level 0 content.crlf.rest = contentLength level 0 content.rest :=
    contentLength_crlf level 0 content.rest
  rw [length, bytes_crlf unix, Utf8.decode_crlf, forward_crlf]

end LongBracket

namespace QuotedLiteral

/-- The escape in the source with other line ends. -/
def Escape.crlf (e : Escape) : Escape := { e with after := e.after.crlf }

def Progress.crlf (p : Progress) : Progress := { p with cursor := p.cursor.crlf }

theorem hexEscape_crlf (c : Cursor) : hexEscape c.crlf = (hexEscape c).crlf := by
  unfold hexEscape
  dsimp only
  rw [countUpTo_crlf (by decide), bytes_countUpTo_crlf (by decide) (by decide), forward_crlf]
  split <;> rfl

theorem decimalEscape_crlf (c : Cursor) : decimalEscape c.crlf = (decimalEscape c).crlf := by
  unfold decimalEscape
  dsimp only
  rw [countUpTo_crlf (by decide), bytes_countUpTo_crlf (by decide) (by decide), forward_crlf]
  split <;> rfl

theorem unicodeEscape_crlf (c : Cursor) : unicodeEscape c.crlf = (unicodeEscape c).crlf := by
  unfold unicodeEscape
  dsimp only
  rw [countUpTo_crlf (by decide), bytes_countUpTo_crlf (by decide) (by decide), forward_crlf,
    forward_crlf]
  simp only [code?_crlf_eq_iff (b := 0x7D) (by decide)]
  split <;> rfl

theorem escape_crlf (c : Cursor) : escape c.crlf = (escape c).crlf := by
  unfold escape
  rw [forward_crlf]
  generalize c.forward 1 = mark
  dsimp only
  rcases mark.code?_crlf_cases 0 with same | ⟨lf, crlf⟩
  · rw [same]
    cases mark.code? 0 with
    | none => rfl
    | some b =>
      dsimp only
      simp only [forward_crlf, count_crlf (p := Byte.isSpace) rfl, hexEscape_crlf,
        decimalEscape_crlf, unicodeEscape_crlf, code?_crlf_eq_iff (b := 0x7B) rfl]
      repeat' split
      all_goals rfl
  · rw [lf, crlf]
    exact congrArg (Escape.mk [0x0A] none) (mark.forward_crlf 1)

theorem takeEscape_crlf (p : Progress) : p.crlf.takeEscape = p.takeEscape.crlf := by
  unfold Progress.takeEscape
  rw [show p.crlf.cursor = p.cursor.crlf from rfl, escape_crlf]
  rfl

theorem finish_crlf (quote : UInt8) (start : Position) (clock : List Glyph) (p : Progress) :
    finish quote start (clock.map Glyph.crlf) p.crlf = (finish quote start clock p).crlf := by
  induction clock generalizing p with
  | nil => rfl
  | cons _ clock inductionHypothesis =>
    cases ahead : p.cursor.rest with
    | nil =>
      have last : p.crlf.cursor.rest = [] := congrArg (List.map Glyph.crlf) ahead
      rw [finish_of_rest_eq_nil _ _ _ ahead, finish_of_rest_eq_nil _ _ _ last]
      rfl
    | cons g glyphs =>
      have ahead' : p.crlf.cursor.rest = g.crlf :: glyphs.map Glyph.crlf :=
        congrArg (List.map Glyph.crlf) ahead
      rw [List.map_cons, finish, finish, ahead, ahead']
      dsimp only
      rw [g.isLineBreak_crlf]
      cases g with
      | lineBreak _ => rfl
      | byte b =>
        have inside : ¬ (Glyph.byte b).isLineBreak = true := Bool.false_ne_true
        rw [if_neg inside, if_neg inside, show (Glyph.byte b).crlf = .byte b from rfl]
        have taken (bytes : List UInt8) : Progress.crlf { p with
            bytes := bytes, cursor := p.cursor.forward 1 } =
            { p.crlf with bytes := bytes, cursor := p.crlf.cursor.forward 1 } :=
          congrArg (Progress.mk bytes p.errors) (p.cursor.forward_crlf 1).symm
        split
        · rw [takeEscape_crlf, inductionHypothesis]
        split
        · exact (taken p.bytes).symm
        · rw [← inductionHypothesis, taken]
          rfl

theorem read_crlf (quote : UInt8) (c : Cursor) : read quote c.crlf =
    ⟨(read quote c).text, (read quote c).errors, (read quote c).after.crlf⟩ := by
  unfold read
  dsimp only
  rw [forward_crlf]
  have finished : finish quote c.crlf.position (c.forward 1).crlf.rest
      ⟨[], [], (c.forward 1).crlf⟩ =
      (finish quote c.position (c.forward 1).rest ⟨[], [], c.forward 1⟩).crlf :=
    finish_crlf quote c.position (c.forward 1).rest ⟨[], [], c.forward 1⟩
  rw [finished]
  rfl

end QuotedLiteral

namespace Lexeme

/-- The lexeme in the source with other line ends.  A long bracket, of which `b` is the first byte,
has them in its text. -/
def crlf (b : UInt8) (l : Lexeme) : Lexeme :=
  { l with
    text := if l.kind = .string ∧ b = Byte.of '[' then crlfText l.text else l.text
    after := l.after.crlf }

variable {b : UInt8} {c : Cursor}

theorem crlf_of_ne_string {l : Lexeme} (other : l.kind ≠ .string) (b : UInt8) :
    l.crlf b = { l with after := l.after.crlf } := by
  rw [crlf, if_neg fun both => other both.1]

theorem verbatim_crlf {count : Nat} (plain : ∀ g ∈ c.rest.take count, Byte.isLineEnd g.code = false)
    (kind : TokenKind) : verbatim kind c.crlf count =
      { verbatim kind c count with after := (c.forward count).crlf } := by
  rw [verbatim, bytes_crlf_of_plain plain, forward_crlf, verbatim]

theorem numeralBody_crlf (hex sign : Bool) (gs : List Glyph) :
    numeralBody hex sign (gs.map Glyph.crlf) = numeralBody hex sign gs := by
  induction gs generalizing sign with
  | nil => rfl
  | cons g gs inductionHypothesis =>
    have exponent := Glyph.code_crlf (p := isExponentMark hex) (by cases hex <;> rfl) g
    have digit := Glyph.code_crlf (p := fun b => Byte.isHexDigit b || b == Byte.of '.'
      || (sign && (b == Byte.of '+' || b == Byte.of '-'))) (by cases sign <;> rfl) g
    rw [List.map_cons, numeralBody, numeralBody, exponent, digit, inductionHypothesis,
      inductionHypothesis]

theorem numeral_crlf (c : Cursor) :
    numeral c.crlf = { numeral c with after := (numeral c).after.crlf } := by
  have marked : hexMarked c.crlf = hexMarked c := by
    rw [hexMarked, beq_code?_crlf (by decide), beq_code?_crlf (by decide),
      beq_code?_crlf (by decide), hexMarked]
  have length : numeralLength c.crlf = numeralLength c := by
    rw [numeralLength_eq, numeralLength_eq, marked, Cursor.crlf]
    dsimp only
    rw [← List.map_drop, numeralBody_crlf, ← List.map_drop, Glyph.takeWhile_crlf (by rfl),
      List.length_map]
  rw [numeral_eq, numeral_eq, length, verbatim_crlf fun g among => ?_]
  · rfl
  · obtain ⟨-, lf, cr⟩ := isNumeralPart_ascii (all_numeral c g among)
    simp [Byte.isLineEnd, lf, cr]

theorem name_crlf (d : Dialect) (c : Cursor) :
    name d c.crlf = { name d c with after := (name d c).after.crlf } := by
  have count : c.crlf.count Byte.isNamePart = c.count Byte.isNamePart := count_crlf (by decide) c
  have bytes := bytes_count_crlf (p := Byte.isNamePart) (by decide) (by decide) c
  unfold name verbatim
  dsimp only
  rw [count, bytes, forward_crlf]

theorem symbol_crlf (b : UInt8) (c : Cursor) :
    symbol b c.crlf = { symbol b c with after := (symbol b c).after.crlf } := by
  have starts : ∀ kind ∈ TokenKind.symbols, c.crlf.startsWith (symbolBytes kind) =
      c.startsWith (symbolBytes kind) :=
    fun kind among => startsWith_crlf (symbolBytes_plain among) c
  unfold symbol
  rw [List.find?_congr starts]
  clear starts
  split
  next kind found =>
    have plain := symbolBytes_plain (List.mem_of_find?_eq_some found)
    have codes := List.prefix_iff_eq_take.1 (symbolBytes_isPrefix found)
    rw [← List.map_take, length_symbolBytes] at codes
    rw [verbatim_crlf fun g among => plain g.code (codes ▸ List.mem_map_of_mem among)]
    rfl
  · rw [unexpected, forward_crlf]
    rfl

theorem read_crlf (d : Dialect) (b : UInt8) (unix : c.Unix) :
    read d b c.crlf = (read d b c).crlf b := by
  have symbol : Lexeme.symbol b c.crlf = (Lexeme.symbol b c).crlf b := by
    rw [symbol_crlf, crlf_of_ne_string (symbol_kind_ne (by decide) b c)]
  unfold read
  rw [any_code?_crlf (by decide), LongBracket.level?_crlf]
  split
  next quote =>
    have other : b ≠ Byte.of '[' := by
      rintro rfl
      exact absurd quote (by decide)
    rw [crlf, if_neg fun both => other both.2, quoted, QuotedLiteral.read_crlf]
    rfl
  split
  next bracket =>
    split
    next level _ =>
      rw [crlf, if_pos ⟨rfl, by simpa using bracket⟩, longString, LongBracket.read_crlf unix]
      rfl
    · exact symbol
  split
  · have other : (numeral c).kind ≠ .string := show TokenKind.number ≠ .string by decide
    rw [numeral_crlf, crlf_of_ne_string other]
  split
  · have other : TokenKind.string ∉ TokenKind.identifier :: d.keywords := by
      cases d <;> decide
    rw [name_crlf, crlf_of_ne_string (name_kind_ne other c)]
  · exact symbol

end Lexeme

/-- The token in the source with other line ends.  If its first byte opens a long bracket, it has
them in its text. -/
def Token.crlf (first : Option UInt8) (t : Token) : Token :=
  if t.kind = .string ∧ first = some (Byte.of '[') then { t with text := crlfText t.text } else t

namespace Token

theorem crlf_of_ne_string {t : Token} (other : t.kind ≠ .string) (first : Option UInt8) :
    t.crlf first = t := if_neg fun both => other both.1

theorem kind_crlf (t : Token) (first : Option UInt8) : (t.crlf first).kind = t.kind := by
  unfold crlf
  split <;> rfl

end Token

/-! ## Comments -/

/-- The run at the same place, with other line ends in what its comments say. -/
def CommentRun.crlf (r : CommentRun) : CommentRun :=
  { r with lines := r.lines.map fun line => { line with text := crlfText line.text } }

theorem CommentRun.lastLine_crlf (r : CommentRun) : r.crlf.lastLine = r.lastLine := rfl

namespace CommentLog

def crlf (log : CommentLog) : CommentLog := { log with runs := log.runs.map CommentRun.crlf }

theorem toList_crlf (log : CommentLog) : log.crlf.toList = log.toList.map CommentRun.crlf :=
  List.map_reverse.symm

theorem put_crlf (runs : List CommentRun) (r : CommentRun) :
    put (runs.map CommentRun.crlf) r.crlf = (put runs r).map CommentRun.crlf := by
  rw [put, List.dropWhile_map]
  rfl

theorem record_crlf (log : CommentLog) (line : CommentLine) (span : Span) (head whole : Bool) :
    log.crlf.record { line with text := crlfText line.text } span head whole =
      (log.record line span head whole).crlf := by
  obtain ⟨runs, extendable⟩ := log
  cases runs with
  | nil => rfl
  | cons last earlier =>
    have joined : CommentRun.crlf
        { last with lines := last.lines ++ [line], span := last.span.merge span } =
        { last.crlf with
          lines := last.crlf.lines ++ [{ line with text := crlfText line.text }]
          span := last.crlf.span.merge span } := by
      simp [CommentRun.crlf]
    change (if (whole && extendable && last.lastLine + 1 == span.start.line) = true then _ else _) =
      crlf (if (whole && extendable && last.lastLine + 1 == span.start.line) = true then _ else _)
    split
    · rw [← joined, put_crlf]
      rfl
    · exact congrArg (CommentLog.mk · whole) (put_crlf (last :: earlier) ⟨[line], span, head⟩)

end CommentLog

namespace Scanner

/-- The scanner in the source with other line ends. -/
def crlf (s : Scanner) : Scanner :=
  { s with cursor := s.cursor.crlf, comments := s.comments.crlf }

theorem note_crlf (s : Scanner) (start : Position) (text : String) (after : Cursor)
    (single : Bool) :
    s.crlf.note start (crlfText text) after.crlf single = (s.note start text after single).crlf :=
  congrArg (Scanner.mk after.crlf · s.codeLine) (s.comments.record_crlf ⟨text, start⟩ _ _ _)

theorem comment_crlf {s : Scanner} (unix : s.cursor.Unix) :
    s.crlf.comment = (s.comment.1.crlf, s.comment.2) := by
  have body : s.crlf.cursor.forward 2 = (s.cursor.forward 2).crlf := s.cursor.forward_crlf 2
  have unix := unix.forward 2
  unfold comment
  dsimp only
  rw [body, LongBracket.level?_crlf]
  simp only [code?_crlf_eq_iff (b := Byte.of '[') (by decide)]
  split
  next level _ =>
    rw [LongBracket.read_crlf unix]
    exact Prod.ext (s.note_crlf _ _ _ _) rfl
  · have line := (s.cursor.forward 2).count_crlf (p := (!Byte.isLineEnd ·)) (by decide)
    rw [line, bytes_crlf unix, Utf8.decode_crlf, forward_crlf]
    exact Prod.ext (s.note_crlf _ _ _ _) rfl

/-- Both sources have as many glyphs, so both loops have as many rounds. -/
theorem skipTrivia_crlf (clock : List Glyph) {s : Scanner} (unix : s.cursor.Unix)
    (errors : List LexicalError) : skipTrivia (clock.map Glyph.crlf) s.crlf errors =
      ((skipTrivia clock s errors).1.crlf, (skipTrivia clock s errors).2) := by
  induction clock generalizing s errors with
  | nil => rfl
  | cons _ clock inductionHypothesis =>
    rw [List.map_cons]
    have onward : Scanner.crlf { s with cursor := s.cursor.forward 1 } =
        { s.crlf with cursor := s.crlf.cursor.forward 1 } :=
      congrArg (Scanner.mk · s.comments.crlf s.codeLine) (s.cursor.forward_crlf 1).symm
    have blank := inductionHypothesis (s := { s with cursor := s.cursor.forward 1 })
      (unix.forward 1) errors
    rw [onward] at blank
    unfold skipTrivia
    rcases s.cursor.code?_crlf_cases 0 with first | ⟨lf, cr⟩
    · rw [show s.crlf.cursor.code? 0 = s.cursor.code? 0 from first]
      cases s.cursor.code? 0 with
      | none => rfl
      | some b =>
        have second : (s.crlf.cursor.code? 1 == some (Byte.of '-')) =
            (s.cursor.code? 1 == some (Byte.of '-')) := beq_code?_crlf (by decide) s.cursor 1
        dsimp only
        rw [second, comment_crlf unix]
        split
        · exact blank
        split
        · exact inductionHypothesis (unix.reaches s.reaches_comment) _
        · rfl
    · rw [show s.crlf.cursor.code? 0 = some 0x0D from cr, lf]
      exact blank

theorem skipShebang_crlf (s : Scanner) : s.crlf.skipShebang = s.skipShebang.crlf := by
  unfold skipShebang
  rw [show s.crlf.cursor = s.cursor.crlf from rfl]
  simp only [code?_crlf_eq_iff (b := Byte.of '#') (by decide)]
  rw [count_crlf (by decide), forward_crlf]
  split <;> rfl

theorem scan_crlf (d : Dialect) {s : Scanner} (unix : s.cursor.Unix) : s.crlf.scan d =
    ⟨(s.scan d).token.crlf ((skipTrivia s.cursor.rest s []).1.cursor.code? 0), (s.scan d).errors,
      (s.scan d).after.crlf⟩ := by
  obtain ⟨count, reached, -, solid⟩ :=
    (skipTrivia_skipping s.cursor.rest s [] (Nat.le_refl _)).gap
  rw [← reached] at solid
  have skipped := skipTrivia_crlf s.cursor.rest unix []
  have unix : (skipTrivia s.cursor.rest s []).1.cursor.Unix := by
    rw [reached]
    exact unix.forward count
  unfold scan
  rw [show s.crlf.cursor.rest = s.cursor.rest.map Glyph.crlf from rfl, skipped]
  generalize skipTrivia s.cursor.rest s [] = trivia at solid unix
  obtain ⟨there, errors⟩ := trivia
  dsimp only at solid unix ⊢
  -- No line end begins a token, so the first byte is the same.
  have first : there.crlf.cursor.code? 0 = there.cursor.code? 0 := by
    rcases there.cursor.code?_crlf_cases 0 with same | ⟨lf, -⟩
    · exact same
    · exact absurd (.inl ⟨0x0A, there.cursor.head?_unread.trans lf, rfl⟩) solid
  rw [first]
  cases there.cursor.code? 0 with
  | none => rfl
  | some b =>
    dsimp only
    rw [show there.crlf.cursor = there.cursor.crlf from rfl, Lexeme.read_crlf d b unix]
    unfold Lexeme.crlf Token.crlf
    simp only [Option.some.injEq]
    split <;> rfl

end Scanner

/-! ## Whole texts -/

theorem Cursor.Follows.unix {text : List UInt8} {before : List Glyph} {c : Cursor}
    (h : c.Follows text before) (unix : 0x0D ∉ text) : c.Unix :=
  fun g among => (Glyph.ofBytes_crlf unix).2 g (h.glyphs ▸ List.mem_append_right before among)

/-- The token of the piece in the source with other line ends. -/
def Piece.crlf (text : List UInt8) (p : Piece) : Token := p.token.crlf text[p.start]?

namespace Scanner

variable {d : Dialect} {text : List UInt8} {before : List Glyph} {s : Scanner}

/-- Token after token is scanned alike.  The cursors part where a line end takes two bytes, so the
pieces are those of the source with LF. -/
theorem Finds.crlf {tokens : List Scanned} {final : Scanned} (h : Finds d s tokens final)
    (follows : s.cursor.Follows text before) (unix : 0x0D ∉ text) : ∃ pieces tokens',
    Partition text (Cursor.offset before) pieces ∧
      tokens.map (·.token) = pieces.map (·.token) ∧
      tokens'.map (·.token) = pieces.map (·.crlf text) ∧
      tokens'.map (·.errors) = tokens.map (·.errors) ∧
      Finds d s.crlf tokens' ⟨final.token, final.errors, final.after.crlf⟩ := by
  induction h generalizing before with
  | @eof s kind =>
    obtain ⟨⟨pieces, same, partition⟩, -⟩ := (Finds.eof kind).partition follows
    have scanned := scan_crlf d (follows.unix unix)
    rw [Token.crlf_of_ne_string (by rw [kind]; exact nofun)] at scanned
    refine ⟨pieces, [], partition, same.symm, ?_, rfl, ?_⟩
    · rw [List.map_eq_nil_iff.1 same]
      rfl
    · rw [← scanned]
      exact .eof (by rw [scanned]; exact kind)
  | @token s rest final kind _ inductionHypothesis =>
    obtain ⟨skipped, reached, gap, order, ⟨-, token⟩ | ⟨taken, onward, fits⟩⟩ :=
      scan_follows (d := d) follows
    · exact absurd (token ▸ rfl) kind
    · obtain ⟨pieces, tokens', partition, same, other, errors, found⟩ := inductionHypothesis onward
      have scanned := scan_crlf d (follows.unix unix)
      have first : (skipTrivia s.cursor.rest s []).1.cursor.code? 0 =
          text[Cursor.offset skipped]? := by
        rw [← Cursor.head?_unread, ← reached.drop_offset, List.head?_drop]
      rw [first] at scanned
      refine ⟨_, s.crlf.scan d :: tokens', .piece order gap fits partition, ?_, ?_, ?_, ?_⟩
      · rw [List.map_cons, List.map_cons, same]
      · rw [List.map_cons, List.map_cons, other, scanned]
        rfl
      · rw [List.map_cons, List.map_cons, errors, scanned]
      · refine .token ?_ (by rw [scanned]; exact found)
        rw [scanned, Token.kind_crlf]
        exact kind

/-- A scanner finds in a source with other line ends what another finds in `text`: the same tokens
and errors, and comments in the same places.  Only a long bracket has other line ends too. -/
structure FindsAlike (d : Dialect) (text : List UInt8) (s s' : Scanner) : Prop where
  tokens : ∃ low pieces, Partition text low pieces ∧
    (s.lexed d).tokens = pieces.map (·.token) ∧ (s'.lexed d).tokens = pieces.map (·.crlf text)
  last : (s'.run d).2.token = (s.run d).2.token
  errors : (s'.lexed d).errors = (s.lexed d).errors
  comments : (s'.lexed d).comments = (s.lexed d).comments.map CommentRun.crlf
  keys : (s'.lexed d).comments.map (·.lastLine) = (s.lexed d).comments.map (·.lastLine)

theorem findsAlike_crlf (d : Dialect) (follows : s.cursor.Follows text before)
    (unix : 0x0D ∉ text) : s.FindsAlike d text s.crlf := by
  have found := s.run_finds d
  obtain ⟨pieces, tokens', partition, same, other, errors, found'⟩ := found.crlf follows unix
  have comments : (s.crlf.lexed d).comments = (s.lexed d).comments.map CommentRun.crlf := by
    rw [found'.lexed, found.lexed]
    exact CommentLog.toList_crlf _
  refine ⟨⟨_, pieces, partition, ?_, ?_⟩, ?_, ?_, comments, ?_⟩
  · rw [found.lexed, same]
  · rw [found'.lexed, other]
  · rw [(finds_iff_run ..).1 found']
  · rw [found'.lexed, found.lexed, List.flatMap_def, List.flatMap_def, errors]
  · rw [comments, List.map_map]
    exact List.map_congr_left fun r _ => r.lastLine_crlf

end Scanner

/-- A byte order mark holds no line end. -/
theorem withoutMark_crlf (source : List UInt8) :
    withoutMark (crlf source) = crlf (withoutMark source) := by
  by_cases marked : ∃ rest, source = 0xEF :: 0xBB :: 0xBF :: rest
  · obtain ⟨rest, rfl⟩ := marked
    rfl
  · have bare : withoutMark source = source := by
      unfold withoutMark
      split
      next rest => exact absurd ⟨rest, rfl⟩ marked
      · rfl
    rw [bare]
    unfold withoutMark
    split
    next rest same =>
      obtain ⟨_, rfl, second⟩ := crlf_eq_cons (by decide) same
      obtain ⟨_, rfl, third⟩ := crlf_eq_cons (by decide) second.symm
      obtain ⟨_, rfl, -⟩ := crlf_eq_cons (by decide) third.symm
      exact absurd ⟨_, rfl⟩ marked
    · rfl

theorem Scanner.ofBytes_crlf {source : List UInt8} (unix : 0x0D ∉ withoutMark source) :
    ofBytes (LuaChunk.crlf source) = (ofBytes source).crlf := by
  unfold ofBytes
  rw [Cursor.ofBytes_eq, Cursor.ofBytes_eq, withoutMark_crlf, (Glyph.ofBytes_crlf unix).1]
  rfl

/-- **Line ends.**  With CR LF for every LF, a source without CR has the same tokens in the same
places, the same errors, and comments in the same places; only long brackets take the line ends as
they stand.  So it is whether or not a first line that begins with `#` is skipped. -/
theorem lexed_crlf (d : Dialect) {source : List UInt8} (unix : 0x0D ∉ source) :
    (Scanner.ofBytes source).FindsAlike d (withoutMark source) (.ofBytes (crlf source)) ∧
      (Scanner.ofBytes source).skipShebang.FindsAlike d (withoutMark source)
        (Scanner.ofBytes (crlf source)).skipShebang := by
  have unix : 0x0D ∉ withoutMark source := by
    unfold withoutMark
    split
    · exact fun among => unix (.tail _ (.tail _ (.tail _ among)))
    · exact unix
  have start := Cursor.follows_ofBytes source
  rw [Scanner.ofBytes_crlf unix, Scanner.skipShebang_crlf]
  refine ⟨Scanner.findsAlike_crlf d start unix, ?_⟩
  obtain ⟨count, reached⟩ : ∃ count,
      (Scanner.ofBytes source).skipShebang.cursor = (Cursor.ofBytes source).forward count := by
    unfold Scanner.skipShebang
    split
    · exact ⟨_, rfl⟩
    · exact ⟨0, (Cursor.forward_zero _).symm⟩
  have follows := start.forward count
  rw [← reached] at follows
  exact Scanner.findsAlike_crlf d follows unix

/-- A script whose comment, string and long bracket go on over several lines. -/
theorem lexed_crlf_script :
    let source := "#!lua\n--[[a\nb]] x = 'c\\\nd' .. [[\ne\nf]]".toUTF8.toList
    0x0D ∉ source ∧
      (Scanner.ofBytes source).skipShebang.FindsAlike .lua (withoutMark source)
        (Scanner.ofBytes (crlf source)).skipShebang := by
  intro source
  have unix : 0x0D ∉ source := by decide +kernel
  exact ⟨unix, (lexed_crlf .lua unix).2⟩

/-- The text of a long bracket over two lines tells the line ends of its source. -/
theorem lexed_crlf_bracket :
    let source := "[[a\nb]]".toUTF8.toList
    0x0D ∉ source ∧
      ((Scanner.ofBytes (crlf source)).lexed .lua).tokens ≠
        ((Scanner.ofBytes source).lexed .lua).tokens := by
  decide +kernel

end LuaChunk
