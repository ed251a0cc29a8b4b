import LuaChunk.Proofs.Lexer.Glyphs
import LuaChunk.Proofs.Lexer.Lexed
import LuaChunk.Proofs.Number.ReadBack
import LuaChunk.Text.Quoted

/-!
# Ways of writing a string

A character of a quoted literal is written as it stands, as an escape of one mark, byte by byte in
decimal or hexadecimal escapes, or by its number; blanks are skipped after `\z`.  However the
characters of a text are written, the literal is read as that text.
-/

set_option autoImplicit false

namespace LuaChunk

open Utf8

namespace QuotedLiteral

/-- Marks after a backslash, and the characters they stand for. -/
def marks : List (Char × Char) :=
  [('n', '\n'), ('t', '\t'), ('r', '\r'), ('a', '\x07'), ('b', '\x08'), ('f', '\x0c'),
    ('v', '\x0b'), ('\\', '\\'), ('\x22', '\x22'), ('\x27', '\x27')]

/-- The characters between two quotes, and the bytes that they write.  A character or a byte is
written in any of its ways. -/
inductive Writes (quote : Char) : List Char → List UInt8 → Prop
  | nil : Writes quote [] []
  | plain {c : Char} {cs : List Char} {bytes : List UInt8} :
      c ∉ [quote, '\\', '\n', '\r'] → Writes quote cs bytes →
      Writes quote (c :: cs) (String.utf8EncodeChar c ++ bytes)
  | mark {mark c : Char} {cs : List Char} {bytes : List UInt8} :
      (mark, c) ∈ marks → Writes quote cs bytes →
      Writes quote ('\\' :: mark :: cs) (String.utf8EncodeChar c ++ bytes)
  | decimal {b : UInt8} {digits cs : List Char} {bytes : List UInt8} :
      digits.length = 3 → Numeral.decimal? digits = some b.toNat → Writes quote cs bytes →
      Writes quote ('\\' :: digits ++ cs) (b :: bytes)
  | hexadecimal {b : UInt8} {digits cs : List Char} {bytes : List UInt8} :
      digits.length = 2 → Numeral.hexadecimal? digits = some b.toNat → Writes quote cs bytes →
      Writes quote ('\\' :: 'x' :: digits ++ cs) (b :: bytes)
  | number {c : Char} {digits cs : List Char} {bytes : List UInt8} :
      digits.length ≤ 8 → Numeral.hexadecimal? digits = some c.toNat → Writes quote cs bytes →
      Writes quote ('\\' :: 'u' :: '\x7b' :: digits ++ '\x7d' :: cs)
        (String.utf8EncodeChar c ++ bytes)
  | skip {blanks cs : List Char} {bytes : List UInt8} :
      (∀ c ∈ blanks, c ∈ [' ', '\t', '\n', '\r']) →
      (∀ c ∈ cs.head?, c ∉ [' ', '\t', '\n', '\r', '\x0c']) → Writes quote cs bytes →
      Writes quote ('\\' :: 'z' :: blanks ++ cs) bytes

/-! ## Digits -/

theorem filterMap_of_mapM {α β : Type} {f : α → Option β} {as : List α} {bs : List β}
    (h : as.mapM f = some bs) : as.filterMap f = bs := by
  induction as generalizing bs with
  | nil => simpa using h
  | cons a as inductionHypothesis =>
    simp only [List.mapM_cons, Option.bind_eq_bind, Option.bind_eq_some_iff, Option.pure_def,
      Option.some.injEq] at h
    obtain ⟨b, first, rest, later, rfl⟩ := h
    rw [List.filterMap_cons_some first, inductionHypothesis later]

/-- What a number in some base is written with. -/
structure Digits (base n : Nat) (digits : List Char) : Prop where
  some : digits ≠ []
  all : ∀ x ∈ digits, ∃ k < base, Numeral.hexDigit? x = .some k
  value : Numeral.ofDigits base (digits.filterMap Numeral.hexDigit?) = n

theorem digits_of_digits? {base n : Nat} {digits : List Char}
    (h : Numeral.digits? base digits = some n) : Digits base n digits := by
  unfold Numeral.digits? at h
  split at h
  · cases h
  next some =>
    obtain ⟨ks, read, h⟩ := Option.bind_eq_some_iff.1 h
    split at h
    next small =>
      refine ⟨by simpa using some, fun x among => ?_, ?_⟩
      · obtain ⟨k, inside, same⟩ := Numeral.exists_of_mapM read among
        exact ⟨k, by simpa using List.all_eq_true.1 small k inside, same⟩
      · rw [filterMap_of_mapM read]
        exact Option.some.inj h
    · cases h

theorem byte_of_hexDigit? {x : Char} {k : Nat} (h : Numeral.hexDigit? x = some k) :
    x.toNat < 0x80 ∧ Byte.isHexDigit (Byte.of x) = true ∧
      (k < 10 → Byte.isDigit (Byte.of x) = true) := by
  have bounds : (48 ≤ x.toNat ∧ x.toNat ≤ 57) ∨
      ((97 ≤ x.toNat ∧ x.toNat ≤ 102 ∨ 65 ≤ x.toNat ∧ x.toNat ≤ 70) ∧ 10 ≤ k) := by
    unfold Numeral.hexDigit? at h
    split at h
    next digit =>
      simp only [Char.isDigit, UInt32.le_iff_toNat_le, ge_iff_le, Bool.and_eq_true,
        decide_eq_true_eq] at digit
      exact .inl digit
    split at h
    next letter =>
      obtain rfl := Option.some.inj h
      exact .inr ⟨.inl letter, by omega⟩
    split at h
    next letter =>
      obtain rfl := Option.some.inj h
      exact .inr ⟨.inr letter, by omega⟩
    · cases h
  have small : x.toNat < 0x80 := by omega
  refine ⟨small, ?_⟩
  simp only [Byte.isHexDigit, Byte.isDigit, Bool.or_eq_true, Bool.and_eq_true, decide_eq_true_eq,
    UInt8.le_iff_toNat_le, Byte.of, toNat_ofNat (n := x.toNat) (by omega), UInt8.reduceToNat]
  omega

namespace Digits

variable {base n : Nat} {digits : List Char}

theorem ascii (h : Digits base n digits) : ∀ x ∈ digits, x.toNat < 0x80 := by
  intro x among
  obtain ⟨k, -, read⟩ := h.all x among
  exact (byte_of_hexDigit? read).1

theorem hex (h : Digits base n digits) :
    ∀ b ∈ digits.map Byte.of, Byte.isHexDigit b = true := by
  refine List.forall_mem_map.2 fun x among => ?_
  obtain ⟨k, -, read⟩ := h.all x among
  exact (byte_of_hexDigit? read).2.1

theorem decimal (h : Digits 10 n digits) : ∀ b ∈ digits.map Byte.of, Byte.isDigit b = true := by
  refine List.forall_mem_map.2 fun x among => ?_
  obtain ⟨k, small, read⟩ := h.all x among
  exact (byte_of_hexDigit? read).2.2 small

theorem value_map (h : Digits base n digits) :
    QuotedLiteral.value base (digits.map Byte.of) = n := by
  have same : (digits.map Byte.of).map Byte.toChar = digits := by
    rw [List.map_map]
    conv => rhs; rw [← List.map_id digits]
    exact List.map_congr_left fun x among => Byte.toChar_of (h.ascii x among)
  rw [QuotedLiteral.value, same, h.value]

theorem glyphs (h : Digits base n digits) (cs : List Char) :
    Glyph.ofBytes (encode (digits ++ cs)) =
      (digits.map Byte.of).map .byte ++ Glyph.ofBytes (encode cs) := by
  rw [encode_append, encode_ascii h.ascii]
  refine Glyph.ofBytes_append (fun b among => ?_) _
  have digit := h.hex b among
  constructor <;> (rintro rfl; exact absurd digit (by decide))

end Digits

/-! ## Reading one escape -/

section Escapes

variable {c : Cursor} {tail : List Glyph} {digits : List UInt8}

theorem escape_mark {m b : UInt8} (named : named? m = some b)
    (h : c.rest = .byte 0x5C :: .byte m :: tail) : escape c = ⟨[b], none, c.forward 2⟩ := by
  have mark : (c.forward 1).code? 0 = some m :=
    Cursor.code?_zero (by rw [Cursor.rest_forward, h]; rfl)
  simp [escape, mark, named, Cursor.forward_forward]

/-- A digit is none of the marks that stand before digits. -/
theorem digit_apart {b : UInt8} (digit : Byte.isDigit b = true) :
    named? b = none ∧ Byte.isLineEnd b = false ∧ b ≠ Byte.of 'z' ∧ b ≠ Byte.of 'x' := by
  have all : ∀ x ∈ [0x30, 0x31, 0x32, 0x33, 0x34, 0x35, 0x36, 0x37, 0x38, 0x39],
      named? x = none ∧ Byte.isLineEnd x = false ∧ x ≠ Byte.of 'z' ∧ x ≠ Byte.of 'x' := by
    decide +kernel
  apply all
  simp only [List.mem_cons, List.not_mem_nil, or_false]
  unfold Byte.isDigit at digit
  grind

theorem escape_decimal (three : digits.length = 3) (all : ∀ b ∈ digits, Byte.isDigit b = true)
    (small : value 10 digits < 256) (h : c.rest = .byte 0x5C :: (digits.map .byte ++ tail)) :
    escape c = ⟨[UInt8.ofNat (value 10 digits)], none, c.forward 4⟩ := by
  have ahead : (c.forward 1).rest = digits.map .byte ++ tail := by
    rw [Cursor.rest_forward, h]
    rfl
  have count : (c.forward 1).countUpTo 3 Byte.isDigit = digits.length :=
    Cursor.countUpTo_eq ahead all three.le (by simp [three])
  have written := Cursor.bytes_of_rest ahead
  have decimal : decimalEscape (c.forward 1) =
      ⟨[UInt8.ofNat (value 10 digits)], none, c.forward 4⟩ := by
    rw [decimalEscape, count, written, if_pos small, three, Cursor.forward_forward]
  obtain ⟨b, more, rfl⟩ := List.exists_cons_of_length_eq_add_one three
  have digit : Byte.isDigit b = true := all b List.mem_cons_self
  have mark : (c.forward 1).code? 0 = some b := Cursor.code?_zero ahead
  obtain ⟨named, lineEnd, z, x⟩ := digit_apart digit
  simp [escape, mark, named, lineEnd, z, x, digit, decimal]

theorem escape_hex (two : digits.length = 2) (all : ∀ b ∈ digits, Byte.isHexDigit b = true)
    (h : c.rest = .byte 0x5C :: .byte (Byte.of 'x') :: (digits.map .byte ++ tail)) :
    escape c = ⟨[UInt8.ofNat (value 16 digits)], none, c.forward 4⟩ := by
  have ahead : (c.forward 2).rest = digits.map .byte ++ tail := by
    rw [Cursor.rest_forward, h]
    rfl
  have count : (c.forward 2).countUpTo 2 Byte.isHexDigit = digits.length :=
    Cursor.countUpTo_eq ahead all two.le (by simp [two])
  have written := Cursor.bytes_of_rest ahead
  have hex : hexEscape (c.forward 2) =
      ⟨[UInt8.ofNat (value 16 digits)], none, c.forward 4⟩ := by
    rw [hexEscape, count, written, if_pos two, two, Cursor.forward_forward]
  have mark : (c.forward 1).code? 0 = some (Byte.of 'x') :=
    Cursor.code?_zero (by rw [Cursor.rest_forward, h]; rfl)
  have named : named? (Byte.of 'x') = none := by decide
  unfold escape
  simp only [mark, named, Cursor.forward_forward, hex]
  rfl

theorem escape_number (some : digits ≠ []) (within : digits.length ≤ 8)
    (all : ∀ b ∈ digits, Byte.isHexDigit b = true) (isValid : (value 16 digits).isValidChar)
    (h : c.rest = .byte 0x5C :: .byte (Byte.of 'u') :: .byte 0x7B ::
      (digits.map .byte ++ .byte 0x7D :: tail)) :
    escape c = ⟨String.utf8EncodeChar (Char.ofNat (value 16 digits)), none,
      c.forward (digits.length + 4)⟩ := by
  have ahead : (c.forward 3).rest = digits.map .byte ++ .byte 0x7D :: tail := by
    rw [Cursor.rest_forward, h]
    rfl
  have count : (c.forward 3).countUpTo 8 Byte.isHexDigit = digits.length := by
    refine Cursor.countUpTo_eq ahead all within fun g first => ?_
    cases left : 8 - digits.length with
    | zero => simp [left] at first
    | succ _ =>
      obtain rfl : Glyph.byte 0x7D = g := by simpa [left] using first
      decide
  have written := Cursor.bytes_of_rest ahead
  have brace : (c.forward 3).code? digits.length = .some 0x7D := by
    rw [Cursor.code?, ahead, List.getElem?_append_right (by simp)]
    simp [Glyph.code]
  have number : unicodeEscape (c.forward 3) = ⟨String.utf8EncodeChar
      (Char.ofNat (value 16 digits)), none, c.forward (digits.length + 4)⟩ := by
    rw [unicodeEscape, count, written, if_pos ⟨List.length_pos_iff.2 some, isValid, brace⟩,
      Cursor.forward_forward, show 3 + (digits.length + 1) = digits.length + 4 by omega]
  have rest : (c.forward 1).rest = .byte (Byte.of 'u') :: .byte 0x7B ::
      (digits.map .byte ++ .byte 0x7D :: tail) := by
    rw [Cursor.rest_forward, h]
    rfl
  have mark : (c.forward 1).code? 0 = .some (Byte.of 'u') := Cursor.code?_zero rest
  have opens : (c.forward 1).code? 1 = .some 0x7B := Cursor.code?_one rest
  have named : named? (Byte.of 'u') = none := by decide
  unfold escape
  simp only [mark, named, opens, Cursor.forward_forward, number]
  rfl

theorem escape_skip (h : c.rest = .byte 0x5C :: .byte (Byte.of 'z') :: tail) : ∃ past,
    escape c = ⟨[], none, past⟩ ∧ past.rest = tail.dropWhile (Byte.isSpace ·.code) := by
  have mark : (c.forward 1).code? 0 = some (Byte.of 'z') :=
    Cursor.code?_zero (by rw [Cursor.rest_forward, h]; rfl)
  have named : named? (Byte.of 'z') = none := by decide
  refine ⟨(c.forward 2).forward ((c.forward 2).count Byte.isSpace), ?_, ?_⟩
  · unfold escape
    simp only [mark, named, Cursor.forward_forward]
    rfl
  · rw [Cursor.rest_forward_count, Cursor.rest_forward, h]
    rfl

end Escapes

/-! ## Reading up to the quote -/

section Finish

variable {quote : UInt8} {start : Position} {c past : Cursor} {done bytes : List UInt8}
  {errors : List LexicalError} {tail after : List Glyph}

/-- Bytes that are neither a backslash nor the quote stand for themselves. -/
theorem finish_plain (plain : ∀ b ∈ bytes, b ≠ 0x5C ∧ b ≠ quote)
    (h : c.rest = bytes.map .byte ++ tail) : finish quote start c.rest ⟨done, errors, c⟩ =
      finish quote start (c.forward bytes.length).rest
        ⟨bytes.reverse ++ done, errors, c.forward bytes.length⟩ := by
  induction bytes generalizing c done with
  | nil => simp
  | cons b bytes inductionHypothesis =>
    obtain ⟨backslash, other⟩ := plain b List.mem_cons_self
    have onward : finish quote start (c.forward 1).rest ⟨b :: done, errors, c.forward 1⟩ = _ :=
      inductionHypothesis (fun x among => plain x (.tail _ among)) (by simp [h])
    rw [Cursor.forward_forward, Nat.add_comm] at onward
    have round : finish quote start c.rest ⟨done, errors, c⟩ =
        finish quote start (c.forward 1).rest ⟨b :: done, errors, c.forward 1⟩ := by
      rw [Cursor.rest_forward, h, List.map_cons, List.cons_append, finish]
      simp [h, Glyph.isLineBreak, Glyph.code, backslash, other]
    rw [round, onward, List.length_cons, List.reverse_cons, List.append_assoc]
    rfl

theorem finish_escape (h : c.rest = .byte 0x5C :: tail) (read : escape c = ⟨bytes, none, past⟩) :
    finish quote start c.rest ⟨done, errors, c⟩ =
      finish quote start past.rest ⟨bytes.reverse ++ done, errors, past⟩ := by
  have takes : Progress.takeEscape ⟨done, errors, c⟩ = ⟨bytes.reverse ++ done, errors, past⟩ := by
    rw [Progress.takeEscape, read]
  have shorter := (passes_escape (c := c) (by rw [h]; exact nofun)).length_lt
  rw [read, h, List.length_cons] at shorter
  rw [h, finish]
  simp only [h, Glyph.isLineBreak, Glyph.code, beq_self_eq_true, if_true, Bool.false_eq_true,
    if_false, takes]
  exact finish_clock _ _ _ (Nat.le_of_lt_succ shorter) (Nat.le_refl _)

theorem finish_quote (other : quote ≠ 0x5C) (h : c.rest = .byte quote :: tail) :
    finish quote start c.rest ⟨done, errors, c⟩ = ⟨done, errors, c.forward 1⟩ := by
  rw [h, finish]
  simp [h, Glyph.isLineBreak, Glyph.code, other]

end Finish

/-! ## Reading what is written -/

/-- A quoted literal begins and ends with one of these. -/
def quotes : List Char := ['\x22', '\x27']

/-- A quote is one byte, and begins nothing but a quoted literal. -/
structure QuoteByte (b : UInt8) : Prop where
  either : b = 0x22 ∨ b = 0x27
  backslash : b ≠ 0x5C
  mark : b ≠ 0xEF
  plain : b ≠ 0x0A ∧ b ≠ 0x0D
  dash : b ≠ Byte.of '-'
  space : Byte.isSpace b = false
  blank : Byte.isBlank b = false

theorem quote_byte {quote : Char} (h : quote ∈ quotes) : quote.toNat < 0x80 ∧
    String.utf8EncodeChar quote = [Byte.of quote] ∧ QuoteByte (Byte.of quote) := by
  simp only [quotes, List.mem_cons, List.not_mem_nil, or_false] at h
  rcases h with rfl | rfl
  all_goals
    exact ⟨by decide, rfl, by decide, by decide, by decide, by decide, by decide, by decide,
      by decide⟩

theorem mark_apart : ∀ pair ∈ marks, String.utf8EncodeChar pair.1 = [Byte.of pair.1] ∧
    (Byte.of pair.1 ≠ 0x0A ∧ Byte.of pair.1 ≠ 0x0D) ∧
    named? (Byte.of pair.1) = some (Byte.of pair.2) ∧
    String.utf8EncodeChar pair.2 = [Byte.of pair.2] := by
  decide +kernel

/-- No white space comes right after the blanks that are skipped. -/
theorem head_not_isSpace {cs : List Char}
    (solid : ∀ c ∈ cs.head?, c ∉ [' ', '\t', '\n', '\r', '\x0c']) :
    ∀ b ∈ (encode cs).head?, Byte.isSpace b = false := by
  intro b first
  cases cs with
  | nil => cases first
  | cons c cs =>
    have among : b ∈ String.utf8EncodeChar c := by
      rw [encode_cons, List.head?_append_of_ne_nil _ String.utf8EncodeChar_ne_nil] at first
      exact List.mem_of_mem_head? first
    have apart {x : Char} (ascii : x.toNat < 0x80)
        (white : x ∈ [' ', '\t', '\n', '\r', '\x0c']) : b ≠ Byte.of x := by
      refine ne_of_mem_encodeChar ascii ?_ b among
      rintro rfl
      exact solid c rfl white
    have space : b ≠ 0x20 := apart (x := ' ') (by decide) (by decide)
    have tab : b ≠ 0x09 := apart (x := '\t') (by decide) (by decide)
    have lf : b ≠ 0x0A := apart (x := '\n') (by decide) (by decide)
    have cr : b ≠ 0x0D := apart (x := '\r') (by decide) (by decide)
    have ff : b ≠ 0x0C := apart (x := '\x0c') (by decide) (by decide)
    simp [Byte.isSpace, Byte.isLineEnd, space, tab, lf, cr, ff]

theorem blanks_isSpace {blanks : List Char} (h : ∀ c ∈ blanks, c ∈ [' ', '\t', '\n', '\r']) :
    ∀ b ∈ encode blanks, Byte.isSpace b = true := by
  intro b among
  obtain ⟨c, blank, inside⟩ := List.mem_flatMap.1 among
  have blank := h c blank
  simp only [List.mem_cons, List.not_mem_nil, or_false] at blank
  rcases blank with rfl | rfl | rfl | rfl
  all_goals
    rw [List.mem_singleton.1 inside]
    decide

/-- Blanks are skipped up to what is written after them. -/
theorem dropWhile_blanks {blanks cs : List Char} (h : ∀ c ∈ blanks, c ∈ [' ', '\t', '\n', '\r'])
    (solid : ∀ c ∈ cs.head?, c ∉ [' ', '\t', '\n', '\r', '\x0c']) {b : UInt8}
    (stops : Byte.isSpace b = false) (after : List Glyph) :
    (Glyph.ofBytes (encode blanks ++ encode cs) ++ .byte b :: after).dropWhile
      (Byte.isSpace ·.code) = Glyph.ofBytes (encode cs) ++ .byte b :: after := by
  have next : ∀ g ∈ (Glyph.byte b :: after).head?, Byte.isSpace g.code = false := by
    rintro _ ⟨⟩
    exact stops
  rw [dropWhile_append_of_head? next, Glyph.dropWhile_ofBytes rfl rfl,
    List.dropWhile_append_of_pos (blanks_isSpace h)]
  cases written : encode cs with
  | nil => rfl
  | cons b more =>
    have other := head_not_isSpace solid b (by simp [written])
    rw [List.dropWhile_cons_of_neg (by simp [other])]

variable {quote : Char} {cs : List Char} {bytes : List UInt8} {start : Position}

/-- **Escapes.**  Reading what is written between quotes gives its bytes, and no error. -/
theorem finish_writes (isQuote : quote ∈ quotes) (writes : Writes quote cs bytes) {c : Cursor}
    {done : List UInt8} {errors : List LexicalError} {after : List Glyph}
    (h : c.rest = Glyph.ofBytes (encode cs) ++ .byte (Byte.of quote) :: after) :
    ∃ last, finish (Byte.of quote) start c.rest ⟨done, errors, c⟩ =
      ⟨bytes.reverse ++ done, errors, last⟩ ∧ last.rest = after := by
  obtain ⟨ascii, -, byte⟩ := quote_byte isQuote
  -- What is written after an escape is read where the escape ends.
  have onward {first bytes : List UInt8} {past : Cursor} {tail : List Glyph} {done : List UInt8}
      {c : Cursor} (ahead : c.rest = .byte 0x5C :: tail) (read : escape c = ⟨first, none, past⟩)
      (later : ∃ last, finish (Byte.of quote) start past.rest ⟨first.reverse ++ done, errors, past⟩ =
        ⟨bytes.reverse ++ (first.reverse ++ done), errors, last⟩ ∧ last.rest = after) :
      ∃ last, finish (Byte.of quote) start c.rest ⟨done, errors, c⟩ =
        ⟨(first ++ bytes).reverse ++ done, errors, last⟩ ∧ last.rest = after := by
    rw [finish_escape ahead read, List.reverse_append, List.append_assoc]
    exact later
  induction writes generalizing c done with
  | nil => exact ⟨c.forward 1, finish_quote byte.backslash h, by rw [Cursor.rest_forward, h]; rfl⟩
  | @plain x cs bytes other writes inductionHypothesis =>
    simp only [List.mem_cons, List.not_mem_nil, or_false, not_or] at other
    obtain ⟨notQuote, notBackslash, lf, cr⟩ := other
    rw [encode_cons, Glyph.ofBytes_append (Glyph.plain_encodeChar lf cr), List.append_assoc] at h
    have plain : ∀ b ∈ String.utf8EncodeChar x, b ≠ 0x5C ∧ b ≠ Byte.of quote := fun b among =>
      ⟨ne_of_mem_encodeChar (d := '\\') (by decide) notBackslash b among,
        ne_of_mem_encodeChar ascii notQuote b among⟩
    rw [finish_plain plain h, List.reverse_append, List.append_assoc]
    exact inductionHypothesis (by simp [h])
  | @mark mark x cs bytes among writes inductionHypothesis =>
    obtain ⟨written, plain, named, own⟩ := mark_apart _ among
    have ahead : c.rest = .byte 0x5C :: .byte (Byte.of mark) ::
        (Glyph.ofBytes (encode cs) ++ .byte (Byte.of quote) :: after) := by
      rw [h, encode_cons, encode_cons, written]
      exact congrArg (Glyph.cons 0x5C · ++ _) (Glyph.cons_plain plain _)
    rw [own]
    exact onward ahead (escape_mark named ahead) (inductionHypothesis (by simp [ahead]))
  | @decimal b digits cs bytes three read writes inductionHypothesis =>
    have decimal := digits_of_digits? read
    have ahead : c.rest = .byte 0x5C :: ((digits.map Byte.of).map .byte ++
        (Glyph.ofBytes (encode cs) ++ .byte (Byte.of quote) :: after)) := by
      rw [h, ← List.append_assoc, ← decimal.glyphs]
      rfl
    have escape := escape_decimal (by rwa [List.length_map]) decimal.decimal
      (by rw [decimal.value_map]; exact b.toNat_lt) ahead
    rw [decimal.value_map, UInt8.ofNat_toNat] at escape
    refine onward ahead escape (inductionHypothesis ?_)
    rw [Cursor.rest_forward, ahead, List.drop_succ_cons]
    exact List.drop_left' (by simpa using three)
  | @hexadecimal b digits cs bytes two read writes inductionHypothesis =>
    have hex := digits_of_digits? read
    have ahead : c.rest = .byte 0x5C :: .byte (Byte.of 'x') :: ((digits.map Byte.of).map .byte ++
        (Glyph.ofBytes (encode cs) ++ .byte (Byte.of quote) :: after)) := by
      rw [h, ← List.append_assoc, ← hex.glyphs]
      rfl
    have escape := escape_hex (by rwa [List.length_map]) hex.hex ahead
    rw [hex.value_map, UInt8.ofNat_toNat] at escape
    refine onward ahead escape (inductionHypothesis ?_)
    rw [Cursor.rest_forward, ahead, List.drop_succ_cons, List.drop_succ_cons]
    exact List.drop_left' (by simpa using two)
  | @number x digits cs bytes within read writes inductionHypothesis =>
    have hex := digits_of_digits? read
    have ahead : c.rest = .byte 0x5C :: .byte (Byte.of 'u') :: .byte 0x7B ::
        ((digits.map Byte.of).map .byte ++ .byte 0x7D ::
          (Glyph.ofBytes (encode cs) ++ .byte (Byte.of quote) :: after)) := by
      rw [h, show ∀ gs : List Glyph, .byte 0x7D :: (Glyph.ofBytes (encode cs) ++ gs) =
        Glyph.ofBytes (encode ('\x7d' :: cs)) ++ gs from fun _ => rfl, ← List.append_assoc,
        ← hex.glyphs]
      rfl
    have escape := escape_number (by simpa using hex.some) (by rwa [List.length_map]) hex.hex
      (by rw [hex.value_map]; exact x.valid) ahead
    rw [hex.value_map, Char.ofNat_toNat] at escape
    refine onward ahead escape (inductionHypothesis ?_)
    simp [ahead, List.drop_append]
  | @skip blanks cs bytes blank apart writes inductionHypothesis =>
    have ahead : c.rest = .byte 0x5C :: .byte (Byte.of 'z') ::
        (Glyph.ofBytes (encode blanks ++ encode cs) ++ .byte (Byte.of quote) :: after) := by
      rw [h, ← encode_append]
      rfl
    obtain ⟨past, escape, rest⟩ := escape_skip ahead
    refine onward ahead escape (inductionHypothesis ?_)
    exact rest.trans (dropWhile_blanks blank apart byte.space after)

theorem read_writes (d : Dialect) (isQuote : quote ∈ quotes) (writes : Writes quote cs bytes)
    {c : Cursor} {after : List Glyph}
    (h : c.rest = .byte (Byte.of quote) ::
      (Glyph.ofBytes (encode cs) ++ .byte (Byte.of quote) :: after)) :
    ∃ past, Lexeme.read d (Byte.of quote) c = ⟨.string, Utf8.decode bytes, [], past⟩ ∧
      past.rest = after := by
  obtain ⟨past, same, rest⟩ : ∃ past, finish (Byte.of quote) c.position (c.forward 1).rest
      ⟨[], [], c.forward 1⟩ = ⟨bytes.reverse ++ [], [], past⟩ ∧ past.rest = after :=
    finish_writes isQuote writes (by simp [h])
  have quoted : Lexeme.read d (Byte.of quote) c = Lexeme.quoted (Byte.of quote) c := by
    refine if_pos ?_
    rcases (quote_byte isQuote).2.2.either with same | same <;> (rw [same]; rfl)
  refine ⟨past, ?_, rest⟩
  rw [quoted, Lexeme.quoted, read]
  dsimp only
  rw [same]
  simp

/-- Text is printed between double quotes in one of the ways. -/
theorem writes_quoted (text : List Char) :
    Writes '\x22' (text.flatMap Quoted.escape) (encode text) := by
  induction text with
  | nil => exact .nil
  | cons c text inductionHypothesis =>
    rw [List.flatMap_cons, encode_cons]
    unfold Quoted.escape
    split
    · exact .mark (by decide) inductionHypothesis
    · exact .mark (by decide) inductionHypothesis
    · exact .mark (by decide) inductionHypothesis
    · exact .mark (by decide) inductionHypothesis
    · exact .mark (by decide) inductionHypothesis
    next quote backslash lf cr _ =>
      refine .plain ?_ inductionHypothesis
      simp only [List.mem_cons, List.not_mem_nil, or_false, not_or]
      exact ⟨quote, backslash, lf, cr⟩

end QuotedLiteral

/-! ## Whole literals -/

/-- One string token that goes from the first byte of a source to the last. -/
def Lexed.ofString (source : List UInt8) (text : String) : Lexed :=
  ⟨[⟨.string, text, .whole source⟩], [], []⟩

open QuotedLiteral in
/-- **String literals.**  Whichever way the characters of a text are written between quotes, the
literal is one string token with that text, and nothing is wrong with it; so is the text as it is
printed. -/
theorem lexed_writes (d : Dialect) {quote : Char} {cs : List Char} {text : String}
    (isQuote : quote ∈ quotes) (writes : Writes quote cs (encode text.toList)) :
    let literal := (String.ofList (quote :: cs ++ [quote])).toUTF8.toList
    let printed := (Quoted.encode text).toUTF8.toList
    (Scanner.ofBytes literal).lexed d = .ofString literal text ∧
      (Scanner.ofBytes printed).lexed d = .ofString printed text := by
  have lexed {quote : Char} {cs : List Char} (isQuote : quote ∈ quotes)
      (writes : Writes quote cs (encode text.toList)) :
      (Scanner.ofBytes (String.ofList (quote :: cs ++ [quote])).toUTF8.toList).lexed d =
        .ofString (String.ofList (quote :: cs ++ [quote])).toUTF8.toList text := by
    obtain ⟨-, one, byte⟩ := quote_byte isQuote
    have source : (String.ofList (quote :: cs ++ [quote])).toUTF8.toList =
        Byte.of quote :: (encode cs ++ [Byte.of quote]) := by
      rw [toList_toUTF8, String.toList_ofList, List.cons_append, encode_cons, encode_append,
        encode_cons, one]
      rfl
    rw [source]
    generalize same : Byte.of quote :: (encode cs ++ [Byte.of quote]) = source
    have first : source.head? = some (Byte.of quote) := by rw [← same]; rfl
    have rest : (Cursor.ofBytes source).rest = .byte (Byte.of quote) ::
        (Glyph.ofBytes (encode cs) ++ [.byte (Byte.of quote)]) := by
      rw [Cursor.ofBytes_eq, withoutMark_eq (by simp [first, byte.mark]), ← same]
      exact (Glyph.cons_plain byte.plain _).trans
        (congrArg _ (Glyph.ofBytes_before byte.plain _ []))
    obtain ⟨past, read, last⟩ := read_writes d isQuote writes rest
    have lexed := Scanner.lexed_ofBytes (d := d) first byte.mark byte.blank byte.dash
      (by rw [read]; exact nofun) (by rw [read]; exact last)
    rw [lexed, read, decode_encode, String.ofList_toList]
    rfl
  exact ⟨lexed isQuote writes, lexed (by decide) (writes_quoted text.toList)⟩

open QuotedLiteral in
/-- The two bytes of a letter with skipped blanks between them, a mark, the other quote and a
number. -/
theorem lexed_writes_mixed :
    let cs := ['\\', 'x', 'C', '3', '\\', 'z', ' ', '\n', '\\', '1', '6', '9', '\\', 'n', '\x22',
      '\\', 'u', '\x7b', '0', '0', '7', 'a', '\x7d']
    let literal := (String.ofList ('\x27' :: cs ++ ['\x27'])).toUTF8.toList
    Writes '\x27' cs (encode "é\n\"z".toList) ∧
      (Scanner.ofBytes literal).lexed .lua = .ofString literal "é\n\"z" := by
  intro cs literal
  have number : Writes '\x27' ['\\', 'u', '\x7b', '0', '0', '7', 'a', '\x7d'] (encode ['z']) :=
    @Writes.number _ 'z' ['0', '0', '7', 'a'] _ _ (by decide) (by decide) .nil
  have writes : Writes '\x27' cs (encode "é\n\"z".toList) :=
    @Writes.hexadecimal _ 0xC3 ['C', '3'] _ _ rfl (by decide) <|
      @Writes.skip _ [' ', '\n'] _ _ (by simp) (by simp) <|
        @Writes.decimal _ 0xA9 ['1', '6', '9'] _ _ rfl (by decide) <|
          .mark (c := '\n') (by decide) <| .plain (c := '\x22') (by simp) number
  exact ⟨writes, (lexed_writes .lua (by decide) writes).1⟩

end LuaChunk
