import LuaChunk.Analysis
import LuaChunk.Proofs.Lexer.Partition
import LuaChunk.Proofs.Lexer.Rounds

/-!
# Whole texts

What a scanner finds from its place to the end of the text: the tokens, the errors in source order,
and all comments noted by then.  It is told by one scan and what is found after it.
-/

set_option autoImplicit false

namespace LuaChunk

/-- What is found in a text. -/
structure Lexed where
  tokens : List Token
  errors : List LexicalError
  comments : List CommentRun
  deriving DecidableEq, Repr

/-- What is found from the scanner to the end. -/
def Scanner.lexed (d : Dialect) (s : Scanner) : Lexed :=
  let (tokens, final) := s.run d
  { tokens := tokens.map (·.token)
    errors := tokens.flatMap (·.errors) ++ final.errors
    comments := final.after.comments.toList }

namespace Scanner

variable {d : Dialect} {s : Scanner}

theorem Finds.lexed {tokens : List Scanned} {final : Scanned} (h : Finds d s tokens final) :
    s.lexed d = ⟨tokens.map (·.token), tokens.flatMap (·.errors) ++ final.errors,
      final.after.comments.toList⟩ := by
  rw [Scanner.lexed, (finds_iff_run ..).1 h]

theorem lexed_of_eof (last : (s.scan d).token.kind = .eof) :
    s.lexed d = ⟨[], (s.scan d).errors, (s.scan d).after.comments.toList⟩ :=
  (Finds.eof last).lexed

theorem lexed_of_token (more : (s.scan d).token.kind ≠ .eof) :
    s.lexed d = { (s.scan d).after.lexed d with
      tokens := (s.scan d).token :: ((s.scan d).after.lexed d).tokens
      errors := (s.scan d).errors ++ ((s.scan d).after.lexed d).errors } := by
  have found := (s.scan d).after.run_finds d
  rw [(Finds.token more found).lexed, found.lexed]
  simp

/-- Where neither a blank nor a comment stands, a scan reads the token there. -/
theorem scan_of_solid {b : UInt8} (first : s.cursor.code? 0 = some b)
    (blank : Byte.isBlank b = false)
    (comment : ¬ (b = Byte.of '-' ∧ s.cursor.code? 1 = some (Byte.of '-'))) :
    let l := Lexeme.read d b s.cursor
    s.scan d = ⟨⟨l.kind, l.text, l.after.spanFrom s.cursor.position⟩, l.errors,
      { s with cursor := l.after, codeLine := l.after.position.line }⟩ := by
  have stays : skipTrivia s.cursor.rest s [] = (s, []) := by
    refine (skipTrivia_skipping s.cursor.rest s [] (Nat.le_refl _)).unique (.stop fun starts => ?_)
    rcases Cursor.startsGap_iff.1 starts with ⟨b', head, other⟩ | ⟨one, two⟩
    · rw [first] at head
      cases head
      rw [blank] at other
      cases other
    · rw [first] at one
      exact comment ⟨Option.some.inj one, two⟩
  unfold scan
  rw [stays]
  dsimp only
  rw [first]
  rfl

/-- At the end of the text nothing is found, and what has been noted stays. -/
theorem lexed_of_rest_eq_nil (last : s.cursor.rest = []) :
    s.lexed d = ⟨[], [], s.comments.toList⟩ := by
  have scan : s.scan d = ⟨⟨.eof, "", s.cursor.spanFrom s.cursor.position⟩, [], s⟩ := by
    simp [Scanner.scan, skipTrivia, Cursor.code?, last]
  rw [lexed_of_eof (scan_kind_of_rest_eq_nil d last), scan]

/-- One token that takes the whole text is all there is. -/
theorem lexed_of_lexeme {b : UInt8} (first : s.cursor.code? 0 = some b)
    (blank : Byte.isBlank b = false)
    (comment : ¬ (b = Byte.of '-' ∧ s.cursor.code? 1 = some (Byte.of '-')))
    (kind : (Lexeme.read d b s.cursor).kind ≠ .eof)
    (whole : (Lexeme.read d b s.cursor).after.rest = []) :
    let l := Lexeme.read d b s.cursor
    s.lexed d = ⟨[⟨l.kind, l.text, l.after.spanFrom s.cursor.position⟩], l.errors,
      s.comments.toList⟩ := by
  intro l
  have scan := scan_of_solid (d := d) first blank comment
  have more : (s.scan d).token.kind ≠ .eof := by
    rw [scan]
    exact kind
  have last : (s.scan d).after.cursor.rest = [] := by
    rw [scan]
    exact whole
  rw [lexed_of_token more, lexed_of_rest_eq_nil last, scan]
  simp [l]

end Scanner

/-- A source is tokenized if nothing is wrong with it. -/
theorem tokenize_eq_ok {source : List UInt8} {d : Dialect} {tokens : List Token} :
    tokenize source d = .ok tokens ↔
      ((Scanner.ofBytes source).skipShebang.lexed d).errors = [] ∧
        ((Scanner.ofBytes source).skipShebang.lexed d).tokens = tokens := by
  unfold tokenize Scanner.lexed
  dsimp only
  split
  next none => simp [none]
  next some => simp [some]

/-! ## Whole sources -/

/-- From the first byte of a source past the last. -/
def Span.whole (source : List UInt8) : Span := ⟨.start, .ofOffset source source.length⟩

/-- Any byte but the first one of a byte order mark is part of the text. -/
theorem withoutMark_eq {source : List UInt8} (plain : source.head? ≠ some 0xEF) :
    withoutMark source = source := by
  unfold withoutMark
  split
  next => exact absurd rfl plain
  · rfl

namespace Cursor

variable {source : List UInt8} {c : Cursor}

theorem unread_ofBytes (plain : source.head? ≠ some 0xEF) : (ofBytes source).unread = source := by
  rw [ofBytes_eq, withoutMark_eq plain, unread, Glyph.flatMap_bytes_ofBytes]

theorem rest_eq_nil_of_unread (last : c.unread = []) : c.rest = [] := by
  rw [unread, List.flatMap_eq_nil_iff] at last
  exact List.eq_nil_iff_forall_not_mem.2 fun g among => g.bytes_ne_nil (last g among)

/-- Where a source ends for a cursor that has come from its start. -/
theorem position_of_rest_eq_nil (plain : source.head? ≠ some 0xEF)
    (reached : (ofBytes source).Reaches c) (last : c.rest = []) :
    c.position = .ofOffset source source.length := by
  obtain ⟨count, rfl⟩ := reached
  have follows := (follows_ofBytes source).forward count
  rw [withoutMark_eq plain] at follows
  rw [follows.position_eq, follows.offset_of_rest_eq_nil last]

end Cursor

namespace Scanner

variable {d : Dialect} {source : List UInt8}

/-- A source that is one token from its first byte to its last. -/
theorem lexed_ofBytes {b : UInt8} (first : source.head? = some b) (mark : b ≠ 0xEF)
    (blank : Byte.isBlank b = false) (dash : b ≠ Byte.of '-')
    (kind : (Lexeme.read d b (.ofBytes source)).kind ≠ .eof)
    (whole : (Lexeme.read d b (.ofBytes source)).after.rest = []) :
    let l := Lexeme.read d b (.ofBytes source)
    (ofBytes source).lexed d = ⟨[⟨l.kind, l.text, .whole source⟩], l.errors, []⟩ := by
  intro l
  have plain : source.head? ≠ some 0xEF := by simp [first, mark]
  have ahead : (Cursor.ofBytes source).code? 0 = some b := by
    rw [← Cursor.head?_unread, Cursor.unread_ofBytes plain, first]
  have passes := Lexeme.passes_read d ahead
  have last : l.after.position = .ofOffset source source.length :=
    Cursor.position_of_rest_eq_nil plain ((Cursor.reaches_forward _ 1).trans passes.2) whole
  have lexed := lexed_of_lexeme (s := ofBytes source) ahead blank (fun both => dash both.1) kind
    whole
  rw [lexed, Span.whole, ← last]
  have start : (ofBytes source).cursor.position = .start := (Cursor.follows_ofBytes source).position
  rw [start]
  rfl

/-- A comment that takes all of the text is all there is. -/
theorem lexed_of_comment {s : Scanner} (dashed : s.cursor.Faces dashes)
    (whole : s.comment.1.cursor.rest = []) :
    s.lexed d = ⟨[], s.comment.2, s.comment.1.comments.toList⟩ := by
  have skips : skipTrivia s.cursor.rest s [] = s.comment :=
    (skipTrivia_skipping s.cursor.rest s [] (Nat.le_refl _)).unique
      (.comment dashed (.of_rest_eq_nil _ whole))
  have scan : s.scan d = ⟨⟨.eof, "", s.comment.1.cursor.spanFrom s.comment.1.cursor.position⟩,
      s.comment.2, s.comment.1⟩ := by
    unfold Scanner.scan
    rw [skips]
    simp [Cursor.code?, whole]
  rw [lexed_of_eof (by rw [scan]), scan]

end Scanner

end LuaChunk
