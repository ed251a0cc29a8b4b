import LuaChunk.Proofs.Lexer.Escapes
import LuaChunk.Proofs.Lexer.Remarks

/-!
# Long brackets take their text as it stands

A long bracket ends at the first closing bracket of its level, and at the end of the text when there
is none.  Whatever stands before that, brackets of other levels and backslashes among it, is the
text of the string or the comment; only a line break right after the opening bracket is left out.
-/

set_option autoImplicit false

namespace LuaChunk

open Utf8

namespace LongBracket

variable {level : Nat} {a b after after' : List UInt8}

instance decidableUnclosed : (text : List UInt8) → Decidable (Unclosed level after text)
  | [] => inferInstanceAs (Decidable True)
  | b :: text =>
    have := decidableUnclosed text
    inferInstanceAs (Decidable (¬ closing level <+: b :: text ++ after ∧ Unclosed level after text))

/-- A text that goes on with a closing bracket is not open to its end. -/
theorem not_unclosed_append (a after after' : List UInt8) :
    ¬ Unclosed level after (a ++ (closing level ++ after')) := by
  induction a with
  | nil => exact fun h => h.1 ((List.prefix_append _ after').trans (List.prefix_append _ after))
  | cons x a inductionHypothesis => exact fun h => inductionHypothesis h.2

/-- The first closing bracket stands in one place only. -/
theorem Unclosed.unique (ha : Unclosed level (closing level ++ after) a)
    (hb : Unclosed level (closing level ++ after') b)
    (same : a ++ (closing level ++ after) = b ++ (closing level ++ after')) : a = b := by
  induction a generalizing b with
  | nil =>
    cases b with
    | nil => rfl
    | cons y b => exact absurd ⟨after, same⟩ hb.1
  | cons x a inductionHypothesis =>
    cases b with
    | nil => exact absurd ⟨after', same.symm⟩ ha.1
    | cons y b =>
      obtain ⟨rfl, rest⟩ := List.cons.inj same
      rw [inductionHypothesis ha.2 hb.2 rest]

/-- Without the closing bracket after it, a text is still open. -/
theorem Unclosed.alone (h : Unclosed level after a) : Unclosed level [] a := by
  induction a with
  | nil => trivial
  | cons x a inductionHypothesis =>
    refine ⟨fun closes => h.1 (closes.trans ?_), inductionHypothesis h.2⟩
    rw [List.append_nil]
    exact List.prefix_append _ _

/-! ## The line break after the opening bracket -/

/-- The bytes of a line break, if there is one. -/
def lineBreak : Option LineBreak → List UInt8
  | none => []
  | some ending => (Glyph.lineBreak ending).bytes

theorem Unclosed.lineBreak (ending : Option LineBreak) (h : Unclosed level after a) :
    Unclosed level after (lineBreak ending ++ a) :=
  match ending with
  | none => h
  | some ending => unclosed_of_lineBreak (g := .lineBreak ending) rfl h

/-- A line break is left out whole, and just one. -/
theorem withoutBreak_lineBreak (ending : Option LineBreak)
    (starts : ∀ b ∈ a.head?, Byte.isLineEnd b = false) :
    withoutBreak (lineBreak ending ++ a) = a := by
  match ending with
  | none =>
    cases a with
    | nil => rfl
    | cons b a => exact withoutBreak_of_plain (starts b rfl)
  | some .lf | some .crlf => rfl
  | some .cr =>
    refine withoutBreak_of_cr fun lineFeed => ?_
    exact absurd (starts _ lineFeed) (by decide)

/-! ## Reading a bracket -/

section Read

variable {c : Cursor} {content : List UInt8}

/-- What a bracket with these contents is read as. -/
structure Takes (level : Nat) (c : Cursor) (content : List UInt8) (closed : Bool)
    (after : List UInt8) : Prop where
  text : (read level c).text = Utf8.decode (withoutBreak content)
  closed : (read level c).closed = closed
  after : (read level c).after.unread = after

theorem takes_closed (canonical : Glyph.Canonical c.rest)
    (unclosed : Unclosed level (closing level ++ after) content)
    (h : c.unread = opening level ++ content ++ closing level ++ after) :
    Takes level c content true after := by
  have opens : c.Faces (opening level) := by
    rw [Cursor.Faces, h, List.append_assoc, List.append_assoc]
    exact List.prefix_append _ _
  obtain ⟨count, found, place, text, ⟨closed, bytes, first⟩ | ⟨-, bytes, finished, first⟩⟩ :=
    read_says canonical opens
  · have whole := c.bytes_append_unread count
    rw [bytes, h] at whole
    simp only [List.append_assoc, List.append_cancel_left_eq] at whole
    obtain rfl := first.unique unclosed whole
    simp only [List.append_cancel_left_eq] at whole
    exact ⟨text, closed, by rw [place, whole]⟩
  · have whole := c.bytes_append_unread count
    rw [bytes, h, finished, List.append_nil] at whole
    simp only [List.append_assoc, List.append_cancel_left_eq] at whole
    exact absurd (whole ▸ first) (not_unclosed_append _ _ _)

theorem takes_unfinished (canonical : Glyph.Canonical c.rest)
    (unclosed : Unclosed level [] content) (h : c.unread = opening level ++ content) :
    Takes level c content false [] := by
  have opens : c.Faces (opening level) := by
    rw [Cursor.Faces, h]
    exact List.prefix_append _ _
  obtain ⟨count, found, place, text, ⟨-, bytes, -⟩ | ⟨closed, bytes, finished, -⟩⟩ :=
    read_says canonical opens
  · have whole := c.bytes_append_unread count
    rw [bytes, h] at whole
    simp only [List.append_assoc, List.append_cancel_left_eq] at whole
    exact absurd (whole ▸ unclosed) (not_unclosed_append _ _ _)
  · have whole := c.bytes_append_unread count
    rw [bytes, h, finished, List.append_nil, List.append_cancel_left_eq] at whole
    exact ⟨whole ▸ text, closed, place ▸ finished⟩

end Read

/-! ## Whole brackets -/

variable {source content : List UInt8} {closed : Bool}

theorem lexed_string (d : Dialect) (faces : opening level <+: source)
    (takes : Takes level (.ofBytes source) content closed []) :
    (Scanner.ofBytes source).lexed d =
      ⟨[⟨.string, Utf8.decode (withoutBreak content), .whole source⟩],
        if closed then [] else [⟨.unfinishedLongString, .whole source⟩], []⟩ := by
  obtain ⟨rest, same⟩ := faces
  have first : source.head? = some (Byte.of '[') := by rw [← same]; rfl
  have plain : source.head? ≠ some 0xEF := by rw [first]; decide
  have unread := Cursor.unread_ofBytes plain
  have ahead : (Cursor.ofBytes source).code? 0 = some (Byte.of '[') := by
    rw [← Cursor.head?_unread, unread, first]
  have level? : LongBracket.level? (.ofBytes source) = some level := by
    rw [level?_eq_some_iff ahead, Cursor.Faces, unread, ← same]
    exact List.prefix_append _ _
  have lexeme : Lexeme.read d (Byte.of '[') (.ofBytes source) =
      Lexeme.longString level (.ofBytes source) := by
    rw [Lexeme.read, if_neg (by decide), if_pos (by decide), level?]
  have whole : (Lexeme.read d (Byte.of '[') (.ofBytes source)).after.rest = [] := by
    rw [lexeme]
    exact Cursor.rest_eq_nil_of_unread takes.after
  have reached := Lexeme.passes_read d ahead
  have last := Cursor.position_of_rest_eq_nil plain
    ((Cursor.reaches_forward _ 1).trans reached.2) whole
  have kind : (Lexeme.read d (Byte.of '[') (.ofBytes source)).kind ≠ .eof := by
    rw [lexeme]
    exact show TokenKind.string ≠ .eof by decide
  rw [Scanner.lexed_ofBytes first (by decide) (by decide) (by decide) kind whole]
  rw [lexeme] at last ⊢
  have start : (Cursor.ofBytes source).position = .start := (Cursor.follows_ofBytes source).position
  unfold Lexeme.longString at last ⊢
  dsimp only at last ⊢
  rw [takes.text, takes.closed, Cursor.spanFrom, last, start]
  rfl

theorem head?_dashes (body : List UInt8) : (dashes ++ body).head? ≠ some 0xEF :=
  fun mark => absurd (Option.some.inj mark) (by decide)

theorem faces_dashes (body : List UInt8) : (Cursor.ofBytes (dashes ++ body)).Faces dashes := by
  rw [Cursor.Faces, Cursor.unread_ofBytes (head?_dashes body)]
  exact List.prefix_append _ _

theorem bytes_dashes (body : List UInt8) : (Cursor.ofBytes (dashes ++ body)).bytes 2 = dashes :=
  Cursor.bytes_of_faces dashes_plain (faces_dashes body)

theorem unread_dashes (body : List UInt8) :
    ((Cursor.ofBytes (dashes ++ body)).forward 2).unread = body := by
  have whole := (Cursor.ofBytes (dashes ++ body)).bytes_append_unread 2
  rwa [bytes_dashes, Cursor.unread_ofBytes (head?_dashes body), List.append_cancel_left_eq] at whole

theorem lexed_comment (d : Dialect) {body : List UInt8} (faces : opening level <+: body)
    (takes : Takes level ((Cursor.ofBytes (dashes ++ body)).forward 2) content closed []) :
    let source := dashes ++ body
    (Scanner.ofBytes source).lexed d =
      ⟨[], if closed then [] else
          [⟨.unfinishedLongComment, .ofOffset source 2, .ofOffset source source.length⟩],
        [⟨[⟨Utf8.decode (withoutBreak content), .start⟩], .whole source, true⟩]⟩ := by
  intro source
  have plain : source.head? ≠ some 0xEF := head?_dashes body
  have opens : ((Scanner.ofBytes source).cursor.forward 2).Faces (opening level) := by
    rw [Cursor.Faces, Scanner.ofBytes, unread_dashes]
    exact faces
  have comment := Scanner.comment_of_opening opens
  dsimp only at comment
  have whole : (Scanner.ofBytes source).comment.1.cursor.rest = [] := by
    rw [comment]
    exact Cursor.rest_eq_nil_of_unread takes.after
  have last : (read level ((Cursor.ofBytes source).forward 2)).after.position =
      .ofOffset source source.length := by
    refine Cursor.position_of_rest_eq_nil plain ?_ (Cursor.rest_eq_nil_of_unread takes.after)
    have reached := (Scanner.ofBytes source).reaches_comment
    rwa [comment] at reached
  have second : ((Cursor.ofBytes source).forward 2).position = .ofOffset source 2 := by
    have follows := (Cursor.follows_ofBytes source).forward 2
    rw [withoutMark_eq plain] at follows
    rw [follows.position_eq, Cursor.Follows.offset_forward, bytes_dashes]
    rfl
  have start : (Cursor.ofBytes source).position = .start := (Cursor.follows_ofBytes source).position
  rw [Scanner.lexed_of_comment (faces_dashes body) whole, comment]
  unfold Scanner.note Scanner.ofBytes
  dsimp only
  rw [takes.text, takes.closed, Cursor.spanFrom, Cursor.spanFrom, last, second, start]
  rfl

end LongBracket

/-- One comment that goes from the first byte of a source to the last. -/
def Lexed.ofComment (source : List UInt8) (text : String) : Lexed :=
  ⟨[], [], [⟨[⟨text, .start⟩], .whole source, true⟩]⟩

open LongBracket in
/-- **Long brackets are verbatim.**  A text between brackets of a level that it does not close is
the text of one string token, or of one comment after dashes; a line break right after the opening
bracket is no part of it.  If there is no closing bracket the text is the same, and there is one
error. -/
theorem lexed_bracketed (d : Dialect) (level : Nat) (ending : Option LineBreak) {text : String}
    (starts : ∀ b ∈ text.toUTF8.toList.head?, Byte.isLineEnd b = false) :
    let opened := opening level ++ (lineBreak ending ++ text.toUTF8.toList)
    let literal := opened ++ closing level
    (Unclosed level (closing level) text.toUTF8.toList →
      (Scanner.ofBytes literal).lexed d = .ofString literal text ∧
        (Scanner.ofBytes (dashes ++ literal)).lexed d = .ofComment (dashes ++ literal) text) ∧
    (Unclosed level [] text.toUTF8.toList →
      (Scanner.ofBytes opened).lexed d =
        { Lexed.ofString opened text with errors := [⟨.unfinishedLongString, .whole opened⟩] } ∧
        (Scanner.ofBytes (dashes ++ opened)).lexed d =
          { Lexed.ofComment (dashes ++ opened) text with
            errors := [⟨.unfinishedLongComment, .ofOffset (dashes ++ opened) 2,
              .ofOffset (dashes ++ opened) (dashes ++ opened).length⟩] }) := by
  intro opened literal
  have said : Utf8.decode (withoutBreak (lineBreak ending ++ text.toUTF8.toList)) = text := by
    rw [withoutBreak_lineBreak ending starts, toList_toUTF8, decode_encode, String.ofList_toList]
  have opens : opening level <+: opened := List.prefix_append _ _
  have first : opened.head? ≠ some 0xEF := fun mark => absurd (Option.some.inj mark) (by decide)
  have apart : literal.head? ≠ some 0xEF := fun mark => absurd (Option.some.inj mark) (by decide)
  constructor
  · intro unclosed
    have closes : literal = opening level ++ (lineBreak ending ++ text.toUTF8.toList) ++
        closing level ++ [] := (List.append_nil _).symm
    have whole : Unclosed level (closing level ++ []) (lineBreak ending ++ text.toUTF8.toList) := by
      rw [List.append_nil]
      exact unclosed.lineBreak ending
    have faces : opening level <+: literal := opens.trans (List.prefix_append _ _)
    have string := takes_closed (Cursor.follows_ofBytes literal).canonical whole
      ((Cursor.unread_ofBytes apart).trans closes)
    have comment := takes_closed ((Cursor.follows_ofBytes (dashes ++ literal)).forward 2).canonical
      whole ((unread_dashes literal).trans closes)
    rw [lexed_string d faces string, lexed_comment d faces comment, said]
    exact ⟨rfl, rfl⟩
  · intro unclosed
    have whole := unclosed.lineBreak ending
    have string := takes_unfinished (Cursor.follows_ofBytes opened).canonical whole
      (Cursor.unread_ofBytes first)
    have comment := takes_unfinished
      ((Cursor.follows_ofBytes (dashes ++ opened)).forward 2).canonical whole (unread_dashes opened)
    rw [lexed_string d opens string, lexed_comment d opens comment, said]
    exact ⟨rfl, rfl⟩

/-- Brackets of other levels and a bracket that breaks off are text. -/
theorem lexed_bracketed_near :
    let text := "]]é]=\n[=["
    let opened := LongBracket.opening 1 ++ ([0x0D, 0x0A] ++ text.toUTF8.toList)
    let literal := opened ++ LongBracket.closing 1
    (∀ b ∈ text.toUTF8.toList.head?, Byte.isLineEnd b = false) ∧
      LongBracket.Unclosed 1 (LongBracket.closing 1) text.toUTF8.toList ∧
      (Scanner.ofBytes literal).lexed .lua = .ofString literal text ∧
      ((Scanner.ofBytes opened).lexed .lua).errors = [⟨.unfinishedLongString, .whole opened⟩] := by
  intro text opened literal
  have starts : ∀ b ∈ text.toUTF8.toList.head?, Byte.isLineEnd b = false := by decide +kernel
  have unclosed : LongBracket.Unclosed 1 (LongBracket.closing 1) text.toUTF8.toList := by
    decide +kernel
  have lexed := lexed_bracketed .lua 1 (some .crlf) starts
  exact ⟨starts, unclosed, (lexed.1 unclosed).1, congrArg Lexed.errors (lexed.2 unclosed.alone).1⟩

end LuaChunk
