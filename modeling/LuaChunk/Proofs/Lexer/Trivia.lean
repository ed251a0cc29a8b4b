import LuaChunk.Proofs.Lexer.Positions

/-!
# Blanks and comments

What lies between tokens is told from the bytes alone: blanks, and comments that run to the end of
their line or to the closing bracket.  The reader of tokens skips such a gap and never stops inside
one.
-/

set_option autoImplicit false

namespace LuaChunk

/-! ## Words without line ends -/

namespace Glyph

/-- A word without line ends is found in the bytes exactly where it is found in the first bytes of
the glyphs. -/
theorem isPrefix_bytes_iff {word : List UInt8} (plain : ∀ b ∈ word, Byte.isLineEnd b = false)
    (glyphs : List Glyph) : word <+: glyphs.flatMap bytes ↔ word <+: glyphs.map code := by
  induction word generalizing glyphs with
  | nil => simp
  | cons b word inductionHypothesis =>
    have first := plain b List.mem_cons_self
    have rest := inductionHypothesis fun c membership => plain c (.tail _ membership)
    cases glyphs with
    | nil => rfl
    | cons g glyphs =>
      rw [List.flatMap_cons, List.map_cons, List.cons_prefix_cons]
      match g with
      | .byte _ | .lineBreak .lf | .lineBreak .cr =>
        rw [bytes, List.singleton_append, List.cons_prefix_cons, rest]
        rfl
      | .lineBreak .crlf =>
        have other : ¬ b = 0x0D := by
          rintro rfl
          cases first
        rw [bytes, List.cons_append, List.cons_prefix_cons]
        exact iff_of_false (fun both => other both.1) fun both => other both.1

theorem bytes_take_of_isPrefix {word : List UInt8}
    (plain : ∀ b ∈ word, Byte.isLineEnd b = false) {glyphs : List Glyph}
    (h : word <+: glyphs.map code) : (glyphs.take word.length).flatMap bytes = word := by
  induction word generalizing glyphs with
  | nil => rfl
  | cons b word inductionHypothesis =>
    have first := plain b List.mem_cons_self
    cases glyphs with
    | nil => simp at h
    | cons g glyphs =>
      obtain ⟨same, tail⟩ := List.cons_prefix_cons.1 h
      have rest := inductionHypothesis (fun c membership => plain c (.tail _ membership)) tail
      rw [List.length_cons, List.take_succ_cons, List.flatMap_cons, rest]
      match g with
      | .byte _ | .lineBreak .lf | .lineBreak .cr => rw [same]; rfl
      | .lineBreak .crlf =>
        rw [same] at first
        cases first

end Glyph

namespace Cursor

variable {c : Cursor}

/-- The text ahead of the cursor begins with these bytes. -/
def Faces (c : Cursor) (word : List UInt8) : Prop := word <+: c.unread

theorem bytes_add (c : Cursor) (m n : Nat) :
    c.bytes (m + n) = c.bytes m ++ (c.forward m).bytes n := by
  simp [bytes, List.take_add]

theorem bytes_append_unread (c : Cursor) (count : Nat) :
    c.bytes count ++ (c.forward count).unread = c.unread := by
  rw [bytes, unread, unread, rest_forward, ← List.flatMap_append, List.take_append_drop]

theorem bytes_of_faces {word : List UInt8} (plain : ∀ b ∈ word, Byte.isLineEnd b = false)
    (h : c.Faces word) : c.bytes word.length = word :=
  Glyph.bytes_take_of_isPrefix plain ((Glyph.isPrefix_bytes_iff plain c.rest).1 h)

theorem code?_eq (c : Cursor) (ahead : Nat) : c.code? ahead = (c.rest.map Glyph.code)[ahead]? := by
  rw [code?, List.getElem?_map]

theorem head?_unread (c : Cursor) : c.unread.head? = c.code? 0 := by
  obtain ⟨glyphs, position⟩ := c
  cases glyphs with
  | nil => rfl
  | cons g glyphs =>
    match g with
    | .byte _ | .lineBreak .lf | .lineBreak .cr | .lineBreak .crlf => rfl

end Cursor

/-! ## Long brackets -/

namespace LongBracket

/-- The opening bracket of a level. -/
def opening (level : Nat) : List UInt8 :=
  Byte.of '[' :: (List.replicate level (Byte.of '=') ++ [Byte.of '['])

/-- No closing bracket of the level begins in a text that these bytes follow. -/
def Unclosed (level : Nat) (after : List UInt8) : List UInt8 → Prop
  | [] => True
  | b :: text => ¬ closing level <+: b :: text ++ after ∧ Unclosed level after text

theorem length_opening (level : Nat) : (opening level).length = level + 2 := by
  simp [opening]

theorem length_closing (level : Nat) : (closing level).length = level + 2 := by
  simp [closing]

theorem opening_plain (level : Nat) : ∀ b ∈ opening level, Byte.isLineEnd b = false := by
  intro b membership
  simp only [opening, List.mem_cons, List.mem_append, List.mem_replicate,
    List.not_mem_nil, or_false] at membership
  rcases membership with rfl | ⟨_, rfl⟩ | rfl <;> decide

theorem closing_plain (level : Nat) : ∀ b ∈ closing level, Byte.isLineEnd b = false := by
  intro b membership
  simp only [closing, List.mem_cons, List.mem_append, List.mem_replicate,
    List.not_mem_nil, or_false] at membership
  rcases membership with rfl | ⟨_, rfl⟩ | rfl <;> decide

/-- A run of one byte and another byte after it, read off a list. -/
theorem replicate_append_isPrefix_iff {a b : UInt8} (apart : b ≠ a) (n : Nat) (l : List UInt8) :
    List.replicate n a ++ [b] <+: l ↔ (l.takeWhile (· == a)).length = n ∧ l[n]? = some b := by
  induction n generalizing l with
  | zero =>
    cases l with
    | nil => simp
    | cons x l =>
      rw [List.replicate_zero, List.nil_append, List.cons_prefix_cons]
      constructor
      · rintro ⟨rfl, _⟩
        simp [apart]
      · rintro ⟨_, same⟩
        simp_all
  | succ n inductionHypothesis =>
    cases l with
    | nil => simp
    | cons x l =>
      rw [List.replicate_succ, List.cons_append, List.cons_prefix_cons, inductionHypothesis]
      by_cases same : x = a
      · simp [same]
      · simp [same, Ne.symm same]

/-- The level that is read is that of the bracket which opens at the cursor. -/
theorem level?_eq_some_iff {c : Cursor} (first : c.code? 0 = some (Byte.of '[')) (level : Nat) :
    level? c = some level ↔ c.Faces (opening level) := by
  obtain ⟨glyphs, position⟩ := c
  cases glyphs with
  | nil => simp [Cursor.code?] at first
  | cons g glyphs =>
    have same : g.code = Byte.of '[' := by simpa [Cursor.code?] using first
    have equals : (glyphs.takeWhile (·.code == Byte.of '=')).length =
        ((glyphs.map Glyph.code).takeWhile (· == Byte.of '=')).length := by
      rw [List.takeWhile_map, List.length_map]
      rfl
    unfold Cursor.Faces Cursor.unread
    rw [Glyph.isPrefix_bytes_iff (opening_plain level), List.map_cons, opening, same,
      List.cons_prefix_cons, replicate_append_isPrefix_iff (by decide), ← equals]
    unfold level? Cursor.count
    simp only [Cursor.rest_forward, List.drop_succ_cons, List.drop_zero, Cursor.code?_eq,
      List.map_cons, List.getElem?_cons_succ, true_and]
    split
    next closes =>
      rw [Option.some.injEq]
      constructor
      · rintro rfl
        exact ⟨rfl, closes⟩
      · exact And.left
    next other =>
      constructor
      · intro none
        cases none
      · rintro ⟨rfl, closes⟩
        exact absurd closes other

theorem code?_of_opening {c : Cursor} {level : Nat} (opens : c.Faces (opening level)) :
    c.code? 0 = some (Byte.of '[') := by
  obtain ⟨tail, same⟩ := opens
  rw [← Cursor.head?_unread, ← same]
  rfl

theorem closesAt_iff (level : Nat) (glyphs : List Glyph) :
    closesAt level glyphs = true ↔ closing level <+: glyphs.flatMap Glyph.bytes := by
  rw [Glyph.isPrefix_bytes_iff (closing_plain level), closesAt, List.isPrefixOf_iff_prefix,
    List.map_take, ← length_closing level, List.prefix_take_iff]
  exact and_iff_left (Nat.le_refl _)

theorem unclosed_bytes {level : Nat} {after : List UInt8} {g : Glyph} {text : List UInt8}
    (open' : ¬ closing level <+: g.bytes ++ text ++ after) (h : Unclosed level after text) :
    Unclosed level after (g.bytes ++ text) := by
  match g with
  | .byte _ | .lineBreak .lf | .lineBreak .cr => exact ⟨open', h⟩
  | .lineBreak .crlf =>
    refine ⟨open', ?_, h⟩
    rw [closing, List.cons_append, List.cons_prefix_cons]
    exact fun both => absurd both.1 (by decide)

/-- The contents of a bracket go up to the first place where it is closed, or to the end. -/
theorem contentLength_eq (level count : Nat) (glyphs : List Glyph) : ∃ length closed,
    contentLength level count glyphs = (count + length, closed) ∧
      Unclosed level ((glyphs.drop length).flatMap Glyph.bytes)
        ((glyphs.take length).flatMap Glyph.bytes) ∧
      (closed = true → closing level <+: (glyphs.drop length).flatMap Glyph.bytes) ∧
      (closed = false → glyphs.drop length = []) := by
  induction glyphs generalizing count with
  | nil => exact ⟨0, false, rfl, trivial, nofun, fun _ => rfl⟩
  | cons g glyphs inductionHypothesis =>
    have bracket : (g.code == Byte.of ']' && closesAt level (g :: glyphs)) = true ↔
        closing level <+: (g :: glyphs).flatMap Glyph.bytes := by
      rw [← closesAt_iff, Bool.and_eq_true, beq_iff_eq]
      constructor
      · exact And.right
      · intro closes
        refine ⟨?_, closes⟩
        rw [closesAt_iff, Glyph.isPrefix_bytes_iff (closing_plain level), closing, List.map_cons,
          List.cons_prefix_cons] at closes
        exact closes.1.symm
    unfold contentLength
    by_cases closes : closing level <+: (g :: glyphs).flatMap Glyph.bytes
    · rw [if_pos (bracket.2 closes)]
      exact ⟨0, true, rfl, trivial, fun _ => closes, nofun⟩
    · rw [if_neg (mt bracket.1 closes)]
      obtain ⟨length, closed, equality, unclosed, found, missing⟩ := inductionHypothesis (count + 1)
      refine ⟨length + 1, closed, ?_, ?_, found, missing⟩
      · rw [equality, Nat.add_assoc, Nat.add_comm 1]
      · apply unclosed_bytes _ unclosed
        rw [List.append_assoc, ← List.flatMap_append, List.take_append_drop]
        exact closes

/-- The bytes of a long bracket before other bytes: it runs to the first bracket that closes it, or
to the end of the text. -/
inductive Bracketed (level : Nat) : List UInt8 → List UInt8 → Prop
  | closed {content after : List UInt8} : Unclosed level (closing level ++ after) content →
      Bracketed level (opening level ++ content ++ closing level) after
  | unfinished {content : List UInt8} : Unclosed level [] content →
      Bracketed level (opening level ++ content) []

/-- The line break that is no part of the contents does not close the bracket either. -/
theorem unclosed_of_lineBreak {level : Nat} {after text : List UInt8} {g : Glyph}
    (ending : g.isLineBreak = true) (h : Unclosed level after text) :
    Unclosed level after (g.bytes ++ text) := by
  apply unclosed_bytes _ h
  match g with
  | .lineBreak .lf | .lineBreak .cr | .lineBreak .crlf =>
    intro closes
    rw [closing, Glyph.bytes, List.cons_append, List.cons_append, List.cons_prefix_cons] at closes
    exact absurd closes.1 (by decide)

/-- What is read from the cursor of a bracket's contents on. -/
theorem content_bracketed (level : Nat) (body : Cursor) : ∃ count,
    body.forward (if (contentLength level 0 body.rest).2
      then (contentLength level 0 body.rest).1 + (level + 2)
      else (contentLength level 0 body.rest).1) = body.forward count ∧
    (((contentLength level 0 body.rest).2 = true ∧
        body.bytes count = body.bytes (contentLength level 0 body.rest).1 ++ closing level ∧
        Unclosed level (closing level ++ (body.forward count).unread)
          (body.bytes (contentLength level 0 body.rest).1)) ∨
      ((contentLength level 0 body.rest).2 = false ∧
        body.bytes count = body.bytes (contentLength level 0 body.rest).1 ∧
        (body.forward count).unread = [] ∧
        Unclosed level [] (body.bytes (contentLength level 0 body.rest).1))) := by
  obtain ⟨length, closed, equality, unclosed, found, missing⟩ :=
    contentLength_eq level 0 body.rest
  rw [Nat.zero_add] at equality
  rw [equality]
  cases closed with
  | true =>
    have faces : (body.forward length).Faces (closing level) := found rfl
    have word : (body.forward length).bytes (level + 2) = closing level := by
      rw [← length_closing level]
      exact Cursor.bytes_of_faces (closing_plain level) faces
    refine ⟨length + (level + 2), rfl, .inl ⟨rfl, ?_, ?_⟩⟩
    · rw [Cursor.bytes_add, word]
    · rw [← Cursor.forward_forward, ← word, Cursor.bytes_append_unread]
      exact unclosed
  | false =>
    have finished : (body.forward length).unread = [] := by
      rw [Cursor.unread, Cursor.rest_forward, missing rfl]
      rfl
    refine ⟨length, rfl, .inr ⟨rfl, rfl, finished, ?_⟩⟩
    rw [← finished]
    exact unclosed

/-- How many glyphs of a bracket's contents are no part of its text. -/
def broken (opened : Cursor) : Nat := if opened.atLineBreak then 1 else 0

/-- A line break right after the opening bracket adds to no text, and closes nothing. -/
theorem body_eq (opened : Cursor) :
    (if opened.atLineBreak then opened.forward 1 else opened) = opened.forward (broken opened) ∧
    ∀ {level : Nat} {after text : List UInt8}, Unclosed level after text →
      Unclosed level after (opened.bytes (broken opened) ++ text) := by
  obtain ⟨glyphs, position⟩ := opened
  cases glyphs with
  | nil => exact ⟨by simp [Cursor.atLineBreak, broken], fun unclosed => unclosed⟩
  | cons g rest =>
    by_cases ending : g.isLineBreak = true
    · have one : broken ⟨g :: rest, position⟩ = 1 := if_pos ending
      rw [one]
      refine ⟨if_pos ending, fun unclosed => ?_⟩
      rw [Cursor.bytes, List.take_succ_cons, List.take_zero, List.flatMap_singleton]
      exact unclosed_of_lineBreak ending unclosed
    · have none : broken ⟨g :: rest, position⟩ = 0 := if_neg ending
      rw [none, Cursor.forward_zero]
      exact ⟨if_neg ending, fun unclosed => unclosed⟩

/-- The bytes between the brackets are a line break, if one comes first, and the text. -/
theorem read_contents {level : Nat} {c : Cursor} (opens : c.Faces (opening level)) :
    let opened := c.forward (level + 2)
    ∃ count length, (read level c).after = c.forward count ∧
      (read level c).text = Utf8.decode ((opened.forward (broken opened)).bytes length) ∧
      (((read level c).closed = true ∧
          c.bytes count = opening level ++ opened.bytes (broken opened + length) ++ closing level ∧
          Unclosed level (closing level ++ (c.forward count).unread)
            (opened.bytes (broken opened + length))) ∨
        ((read level c).closed = false ∧
          c.bytes count = opening level ++ opened.bytes (broken opened + length) ∧
          (c.forward count).unread = [] ∧
          Unclosed level [] (opened.bytes (broken opened + length)))) := by
  intro opened
  have word : c.bytes (level + 2) = opening level := by
    rw [← length_opening level]
    exact Cursor.bytes_of_faces (opening_plain level) opens
  obtain ⟨body, skipped⟩ := body_eq opened
  obtain ⟨count, after, reading⟩ := content_bracketed level (opened.forward (broken opened))
  have there : (opened.forward (broken opened)).forward count =
      c.forward (level + 2 + broken opened + count) := by
    simp only [opened, Cursor.forward_forward]
  rw [there] at reading
  refine ⟨level + 2 + broken opened + count,
    (contentLength level 0 (opened.forward (broken opened)).rest).1, ?_, ?_, ?_⟩
  · unfold read
    dsimp only
    rw [body, after, there]
  · unfold read
    dsimp only
    rw [body]
  · have bytes : c.bytes (level + 2 + broken opened + count) = opening level ++
        opened.bytes (broken opened) ++ (opened.forward (broken opened)).bytes count := by
      rw [Cursor.bytes_add, Cursor.bytes_add c (level + 2), word,
        ← Cursor.forward_forward c (level + 2)]
    have flag : (read level c).closed =
        (contentLength level 0 (opened.forward (broken opened)).rest).2 := by
      unfold read
      dsimp only
      rw [body]
    rw [bytes, Cursor.bytes_add opened, flag]
    rcases reading with ⟨closed, closes, unclosed⟩ | ⟨closed, whole, finished, unclosed⟩
    · refine .inl ⟨closed, ?_, skipped unclosed⟩
      rw [closes]
      simp only [List.append_assoc]
    · refine .inr ⟨closed, ?_, finished, skipped unclosed⟩
      rw [whole, List.append_assoc]

theorem read_bracketed {level : Nat} {c : Cursor} (opens : c.Faces (opening level)) : ∃ count,
    (read level c).after = c.forward count ∧
      Bracketed level (c.bytes count) (c.forward count).unread := by
  obtain ⟨count, length, after, -, ⟨-, bytes, unclosed⟩ | ⟨-, bytes, finished, unclosed⟩⟩ :=
    read_contents opens
  · exact ⟨count, after, bytes ▸ .closed unclosed⟩
  · exact ⟨count, after, bytes ▸ finished ▸ .unfinished unclosed⟩

end LongBracket

/-! ## Comments and gaps -/

/-- The two bytes that begin a comment. -/
def dashes : List UInt8 := [Byte.of '-', Byte.of '-']

/-- The bytes of a comment before other bytes: a long bracket after the dashes, or the rest of the
line when no bracket opens there. -/
inductive Comment : List UInt8 → List UInt8 → Prop
  | long {level : Nat} {body after : List UInt8} : LongBracket.Bracketed level body after →
      Comment (dashes ++ body) after
  | line {body after : List UInt8} : (∀ b ∈ body, Byte.isLineEnd b = false) →
      (∀ b ∈ after.head?, Byte.isLineEnd b = true) →
      (∀ level, ¬ LongBracket.opening level <+: body ++ after) → Comment (dashes ++ body) after

/-- Bytes between tokens, before other bytes: blanks and comments one after the other. -/
inductive Gap : List UInt8 → List UInt8 → Prop
  | nil {after : List UInt8} : Gap [] after
  | blank {b : UInt8} {skipped after : List UInt8} : Byte.isBlank b = true → Gap skipped after →
      Gap (b :: skipped) after
  | comment {body skipped after : List UInt8} : Comment body (skipped ++ after) →
      Gap skipped after → Gap (body ++ skipped) after

/-- A gap goes on where a blank or two dashes stand. -/
def StartsGap (ahead : List UInt8) : Prop :=
  (∃ b ∈ ahead.head?, Byte.isBlank b = true) ∨ dashes <+: ahead

theorem dashes_plain : ∀ b ∈ dashes, Byte.isLineEnd b = false :=
  List.forall_mem_cons.2 ⟨by decide, List.forall_mem_singleton.2 (by decide)⟩

theorem Gap.blanks {blanks skipped after : List UInt8} (all : ∀ b ∈ blanks, Byte.isBlank b = true)
    (h : Gap skipped after) : Gap (blanks ++ skipped) after := by
  induction blanks with
  | nil => exact h
  | cons b blanks inductionHypothesis =>
    apply Gap.blank (all b List.mem_cons_self)
    exact inductionHypothesis fun c membership => all c (.tail _ membership)

namespace Cursor

variable {c : Cursor}

theorem faces_dashes_iff :
    c.Faces dashes ↔ c.code? 0 = some (Byte.of '-') ∧ c.code? 1 = some (Byte.of '-') := by
  rw [Faces, unread, Glyph.isPrefix_bytes_iff dashes_plain, code?_eq, code?_eq, dashes]
  generalize c.rest.map Glyph.code = codes
  cases codes with
  | nil => simp
  | cons x codes =>
    cases codes with
    | nil => simp [eq_comm]
    | cons y codes => simp [eq_comm, List.cons_prefix_cons]

theorem startsGap_iff : StartsGap c.unread ↔ (∃ b, c.code? 0 = some b ∧ Byte.isBlank b = true) ∨
    c.code? 0 = some (Byte.of '-') ∧ c.code? 1 = some (Byte.of '-') := by
  rw [StartsGap, head?_unread, ← faces_dashes_iff]
  rfl

theorem not_startsGap_of_code? (last : c.code? 0 = none) : ¬ StartsGap c.unread := by
  simp [startsGap_iff, last]

theorem bytes_of_dashed (dashed : c.Faces dashes) (count : Nat) :
    c.bytes (2 + count) = dashes ++ (c.forward 2).bytes count := by
  have word : c.bytes 2 = dashes := bytes_of_faces dashes_plain dashed
  rw [bytes_add, word]

/-- A line break is blank in all of its bytes. -/
theorem blank_bytes {b : UInt8} (first : c.code? 0 = some b) (blank : Byte.isBlank b = true) :
    ∀ b ∈ c.bytes 1, Byte.isBlank b = true := by
  obtain ⟨glyphs, position⟩ := c
  cases glyphs with
  | nil => cases first
  | cons g glyphs =>
    have same : g.code = b := by simpa [code?] using first
    rw [← same] at blank
    rw [bytes, List.take_succ_cons, List.take_zero, List.flatMap_singleton]
    cases g with
    | byte b => exact List.forall_mem_singleton.2 blank
    | lineBreak e =>
      cases e with
      | lf => exact List.forall_mem_singleton.2 (by decide)
      | cr => exact List.forall_mem_singleton.2 (by decide)
      | crlf => exact List.forall_mem_cons.2 ⟨by decide, List.forall_mem_singleton.2 (by decide)⟩

/-- What is counted up to a line end has none in its bytes, and a line end or the end of the text
follows. -/
theorem count_line (c : Cursor) :
    (∀ b ∈ c.bytes (c.count (!Byte.isLineEnd ·)), Byte.isLineEnd b = false) ∧
    (∀ b ∈ (c.forward (c.count (!Byte.isLineEnd ·))).unread.head?, Byte.isLineEnd b = true) := by
  rw [head?_unread]
  obtain ⟨glyphs, position⟩ := c
  unfold bytes count code? forward
  dsimp only
  induction glyphs with
  | nil => simp
  | cons g glyphs inductionHypothesis =>
    by_cases ending : Byte.isLineEnd g.code = true
    · simp [ending]
    · obtain ⟨plain, last⟩ := inductionHypothesis
      rw [List.takeWhile_cons_of_pos (by simpa using ending)]
      refine ⟨?_, last⟩
      rw [List.length_cons, List.take_succ_cons, List.flatMap_cons]
      apply List.forall_mem_append.2 ⟨?_, plain⟩
      match g with
      | .byte b => simpa [Glyph.bytes, Glyph.code] using ending
      | .lineBreak .lf | .lineBreak .cr | .lineBreak .crlf => exact absurd rfl ending

end Cursor

namespace Scanner

/-- A comment notes the bracket that opens right after its dashes. -/
theorem comment_of_opening {s : Scanner} {level : Nat}
    (faces : (s.cursor.forward 2).Faces (LongBracket.opening level)) :
    let body := s.cursor.forward 2
    let r := LongBracket.read level body
    s.comment = (s.note s.cursor.position r.text r.after false,
      if r.closed then [] else [⟨.unfinishedLongComment, r.after.spanFrom body.position⟩]) := by
  intro body r
  have ahead : body.code? 0 = some (Byte.of '[') := LongBracket.code?_of_opening faces
  unfold comment
  dsimp only
  rw [if_pos ahead, (LongBracket.level?_eq_some_iff ahead level).2 faces]

/-- With no bracket there, it notes the rest of the line. -/
theorem comment_of_line {s : Scanner}
    (none : ∀ level, ¬ (s.cursor.forward 2).Faces (LongBracket.opening level)) :
    let body := s.cursor.forward 2
    let count := body.count (!Byte.isLineEnd ·)
    s.comment =
      (s.note s.cursor.position (Utf8.decode (body.bytes count)) (body.forward count) true, []) := by
  intro body count
  unfold comment
  dsimp only
  split
  next level opens =>
    split at opens
    next first => exact absurd ((LongBracket.level?_eq_some_iff first level).1 opens) (none level)
    next => cases opens
  · rfl

/-- The reader of a comment takes all of it. -/
theorem comment_spec {s : Scanner} (dashed : s.cursor.Faces dashes) : ∃ count, 0 < count ∧
    s.comment.1.cursor = s.cursor.forward count ∧
    Comment (s.cursor.bytes count) (s.cursor.forward count).unread := by
  by_cases opens : ∃ level, (s.cursor.forward 2).Faces (LongBracket.opening level)
  · obtain ⟨level, faces⟩ := opens
    obtain ⟨count, after, bracket⟩ := LongBracket.read_bracketed faces
    rw [Cursor.forward_forward] at after bracket
    refine ⟨2 + count, Nat.lt_add_right count Nat.zero_lt_two, ?_, ?_⟩
    · rw [comment_of_opening faces]
      exact after
    · rw [Cursor.bytes_of_dashed dashed]
      exact .long bracket
  · have plain := not_exists.1 opens
    obtain ⟨text, last⟩ := (s.cursor.forward 2).count_line
    refine ⟨2 + (s.cursor.forward 2).count (!Byte.isLineEnd ·),
      Nat.lt_add_right _ Nat.zero_lt_two, ?_, ?_⟩
    · rw [comment_of_line plain, ← Cursor.forward_forward]
      rfl
    · rw [Cursor.bytes_of_dashed dashed, ← Cursor.forward_forward]
      refine .line text last fun level opens => plain level ?_
      rwa [Cursor.bytes_append_unread] at opens

/-- What skipping does round after round: it goes over a blank, or over a comment with its errors,
and stops where no gap goes on. -/
inductive Skipping : Scanner → List LexicalError → Scanner × List LexicalError → Prop
  | stop {s : Scanner} {errors : List LexicalError} : ¬ StartsGap s.cursor.unread →
      Skipping s errors (s, errors)
  | blank {s : Scanner} {errors : List LexicalError} {b : UInt8}
      {there : Scanner × List LexicalError} :
      s.cursor.code? 0 = some b → Byte.isBlank b = true →
      Skipping { s with cursor := s.cursor.forward 1 } errors there → Skipping s errors there
  | comment {s : Scanner} {errors : List LexicalError} {there : Scanner × List LexicalError} :
      s.cursor.Faces dashes → Skipping s.comment.1 (errors ++ s.comment.2) there →
      Skipping s errors there

/-- With nothing left, skipping stays where it is. -/
theorem Skipping.of_rest_eq_nil {s : Scanner} (errors : List LexicalError)
    (last : s.cursor.rest = []) : Skipping s errors (s, errors) :=
  .stop (Cursor.not_startsGap_of_code? (by rw [Cursor.code?, last]; rfl))

/-- Every round takes a glyph, so the unread glyphs are enough of a bound. -/
theorem skipTrivia_skipping (clock : List Glyph) (s : Scanner) (errors : List LexicalError)
    (enough : s.cursor.rest.length ≤ clock.length) :
    Skipping s errors (skipTrivia clock s errors) := by
  induction clock generalizing s errors with
  | nil =>
    have empty : s.cursor.rest = [] := List.length_eq_zero_iff.1 (Nat.le_zero.1 enough)
    exact .of_rest_eq_nil errors empty
  | cons _ clock inductionHypothesis =>
    have shorter {count : Nat} (pos : 0 < count) (some : s.cursor.rest ≠ []) :
        (s.cursor.forward count).rest.length ≤ clock.length := by
      have length := List.length_pos_iff.2 some
      rw [Cursor.rest_forward, List.length_drop]
      rw [List.length_cons] at enough
      omega
    unfold skipTrivia
    split
    next last => exact .stop (Cursor.not_startsGap_of_code? last)
    next b first =>
      have some := Cursor.rest_ne_nil_of_code? first
      split
      next blank => exact .blank first blank (inductionHypothesis _ _ (shorter Nat.one_pos some))
      split
      next pair =>
        have dashed : s.cursor.Faces dashes := by
          rw [Cursor.faces_dashes_iff]
          simp_all
        obtain ⟨count, pos, cursor, -⟩ := comment_spec dashed
        refine .comment dashed (inductionHypothesis _ _ ?_)
        rw [cursor]
        exact shorter pos some
      next solid single =>
        refine .stop fun starts => ?_
        rcases Cursor.startsGap_iff.1 starts with ⟨b', head, blank⟩ | ⟨one, two⟩
        · rw [first] at head
          cases head
          exact solid blank
        · rw [first] at one
          cases one
          exact single (by simp [two])

/-- Blanks and comments are skipped up to a place where no gap goes on. -/
theorem Skipping.gap {s : Scanner} {errors : List LexicalError}
    {there : Scanner × List LexicalError} (h : Skipping s errors there) : ∃ count,
    there.1.cursor = s.cursor.forward count ∧
      Gap (s.cursor.bytes count) (s.cursor.forward count).unread ∧
      ¬ StartsGap (s.cursor.forward count).unread := by
  induction h with
  | stop solid => exact ⟨0, (Cursor.forward_zero _).symm, .nil, solid⟩
  | blank first blank _ inductionHypothesis =>
    obtain ⟨more, after, gap, solid⟩ := inductionHypothesis
    rw [Cursor.forward_forward] at after gap solid
    refine ⟨1 + more, after, ?_, solid⟩
    rw [Cursor.bytes_add]
    exact gap.blanks (Cursor.blank_bytes first blank)
  | @comment s errors there dashed _ inductionHypothesis =>
    obtain ⟨count, -, cursor, comment⟩ := comment_spec dashed
    obtain ⟨more, after, gap, solid⟩ := inductionHypothesis
    rw [cursor] at after gap solid
    have whole := Cursor.bytes_append_unread (s.cursor.forward count) more
    rw [Cursor.forward_forward] at after gap solid whole
    refine ⟨count + more, after, ?_, solid⟩
    rw [Cursor.bytes_add]
    exact .comment (whole ▸ comment) gap

/-- One place, and the errors on the way to it, are what skipping comes to. -/
theorem Skipping.unique {s : Scanner} {errors : List LexicalError}
    {there there' : Scanner × List LexicalError} (h : Skipping s errors there)
    (k : Skipping s errors there') : there = there' := by
  have apart {s : Scanner} {b : UInt8} (first : s.cursor.code? 0 = some b)
      (blank : Byte.isBlank b = true) : ¬ s.cursor.Faces dashes := by
    rw [Cursor.faces_dashes_iff, first]
    rintro ⟨same, -⟩
    cases same
    cases blank
  induction h with
  | stop solid =>
    cases k with
    | stop _ => rfl
    | blank first blank _ => exact absurd (Cursor.startsGap_iff.2 (.inl ⟨_, first, blank⟩)) solid
    | comment dashed _ => exact absurd (.inr dashed) solid
  | blank first blank _ inductionHypothesis =>
    cases k with
    | stop solid => exact absurd (Cursor.startsGap_iff.2 (.inl ⟨_, first, blank⟩)) solid
    | blank _ _ skipping => exact inductionHypothesis skipping
    | comment dashed _ => exact absurd dashed (apart first blank)
  | comment dashed _ inductionHypothesis =>
    cases k with
    | stop solid => exact absurd (.inr dashed) solid
    | blank first blank _ => exact absurd dashed (apart first blank)
    | comment _ skipping => exact inductionHypothesis skipping

end Scanner

end LuaChunk
