import LuaChunk.Proofs.Lexer.Rounds
import LuaChunk.Proofs.Text.Encoding

/-!
# Glyphs of a text

The glyphs of a text are those of its characters: a line break for a line feed, and for any other
character its bytes.
-/

set_option autoImplicit false

namespace LuaChunk

open Utf8

namespace Byte

theorem toNat_toChar (b : UInt8) : (toChar b).toNat = b.toNat := by
  have small := b.toNat_lt
  rw [toChar, Char.ofNat, dif_pos (.inl (by omega))]
  rfl

@[simp]
theorem of_toChar (b : UInt8) : of (toChar b) = b := by rw [of, toNat_toChar, UInt8.ofNat_toNat]

theorem isDigit_toChar (b : UInt8) : (toChar b).isDigit = isDigit b := by
  rw [Bool.eq_iff_iff]
  simp only [isDigit, Char.isDigit, Bool.and_eq_true, decide_eq_true_eq, UInt8.le_iff_toNat_le,
    UInt32.le_iff_toNat_le, ge_iff_le]
  change (48 ≤ (toChar b).toNat ∧ (toChar b).toNat ≤ 57) ↔ (48 ≤ b.toNat ∧ b.toNat ≤ 57)
  rw [toNat_toChar]

end Byte

/-- The glyphs of a character that is no carriage return. -/
def Glyph.ofChar (c : Char) : List Glyph :=
  if c = '\n' then [.lineBreak .lf] else (String.utf8EncodeChar c).map .byte

def Glyph.ofText (cs : List Char) : List Glyph := cs.flatMap ofChar

namespace Glyph

@[simp]
theorem ofText_nil : ofText [] = [] := rfl

@[simp]
theorem ofText_cons (c : Char) (cs : List Char) : ofText (c :: cs) = ofChar c ++ ofText cs :=
  List.flatMap_cons

@[simp]
theorem ofText_append (cs ds : List Char) : ofText (cs ++ ds) = ofText cs ++ ofText ds :=
  List.flatMap_append

/-- A character other than a line end has no line end among its bytes. -/
theorem plain_encodeChar {c : Char} (lf : c ≠ '\n') (cr : c ≠ '\r') :
    ∀ b ∈ String.utf8EncodeChar c, b ≠ 0x0A ∧ b ≠ 0x0D := by
  have number (d : Char) (same : c.toNat = d.toNat) : c = d :=
    Char.ext (UInt32.toNat_inj.1 same)
  intro b among
  rcases mem_encodeChar among with ⟨-, same⟩ | ⟨-, beyond⟩
  · constructor
    · rintro rfl
      exact lf (number '\n' same.symm)
    · rintro rfl
      exact cr (number '\r' same.symm)
  · constructor <;> (rintro rfl; exact absurd beyond (by decide))

theorem cons_plain {b : UInt8} (plain : b ≠ 0x0A ∧ b ≠ 0x0D) (rest : List Glyph) :
    cons b rest = .byte b :: rest := by
  simp [cons, plain]

theorem ofBytes_append {bytes : List UInt8} (plain : ∀ b ∈ bytes, b ≠ 0x0A ∧ b ≠ 0x0D)
    (rest : List UInt8) : ofBytes (bytes ++ rest) = bytes.map .byte ++ ofBytes rest := by
  induction bytes with
  | nil => rfl
  | cons b bytes inductionHypothesis =>
    change cons b (ofBytes (bytes ++ rest)) = _
    rw [inductionHypothesis fun b among => plain b (.tail _ among),
      cons_plain (plain b List.mem_cons_self), List.map_cons, List.cons_append]

/-- Only an LF is taken into a line break before it. -/
theorem cons_append (b : UInt8) (gs tail : List Glyph) {g : Glyph}
    (apart : g ≠ .lineBreak .lf) : cons b (gs ++ g :: tail) = cons b gs ++ g :: tail := by
  unfold cons
  split
  · rfl
  split
  · cases gs with
    | nil =>
      rw [List.nil_append]
      split
      next rest first => exact absurd (List.cons.inj first).1 apart
      · rfl
    | cons g' gs =>
      rw [List.cons_append]
      match g' with
      | .byte _ | .lineBreak .lf | .lineBreak .cr | .lineBreak .crlf => rfl
  · rfl

theorem ofBytes_before {b : UInt8} (plain : b ≠ 0x0A ∧ b ≠ 0x0D) (bytes rest : List UInt8) :
    ofBytes (bytes ++ b :: rest) = ofBytes bytes ++ .byte b :: ofBytes rest := by
  induction bytes with
  | nil => exact cons_plain plain _
  | cons x bytes inductionHypothesis =>
    change cons x (ofBytes (bytes ++ b :: rest)) = cons x (ofBytes bytes) ++ _
    rw [inductionHypothesis]
    exact cons_append x _ _ nofun

theorem ofBytes_encode {cs : List Char} (plain : '\r' ∉ cs) : ofBytes (encode cs) = ofText cs := by
  induction cs with
  | nil => rfl
  | cons c cs inductionHypothesis =>
    rw [List.mem_cons, not_or] at plain
    rw [encode_cons, ofText_cons, ← inductionHypothesis plain.2, ofChar]
    split
    next lf =>
      rw [lf]
      rfl
    next other => exact ofBytes_append (plain_encodeChar other (Ne.symm plain.1)) _

theorem bytes_ofChar (c : Char) : (ofChar c).flatMap bytes = String.utf8EncodeChar c := by
  unfold ofChar
  split
  next lf =>
    rw [lf]
    rfl
  next =>
    rw [List.flatMap_map]
    exact List.flatMap_singleton' _

theorem bytes_ofText (cs : List Char) : (ofText cs).flatMap bytes = encode cs := by
  induction cs with
  | nil => rfl
  | cons c cs inductionHypothesis =>
    rw [ofText_cons, List.flatMap_append, bytes_ofChar, inductionHypothesis, encode_cons]

theorem code_ofChar (c : Char) : (ofChar c).map code = String.utf8EncodeChar c := by
  unfold ofChar
  split
  next lf =>
    rw [lf]
    rfl
  next => rw [List.map_map]; exact List.map_id _

theorem code_ofText (cs : List Char) : (ofText cs).map code = encode cs := by
  induction cs with
  | nil => rfl
  | cons c cs inductionHypothesis =>
    rw [ofText_cons, List.map_append, code_ofChar, inductionHypothesis, encode_cons]

theorem ofChar_ascii {c : Char} (ascii : c.toNat < 0x80) (lf : c ≠ '\n') :
    ofChar c = [.byte (Byte.of c)] := by
  rcases encodeChar_cases c with ⟨-, same⟩ | ⟨low, -⟩ | ⟨low, -⟩ | ⟨low, -⟩
  · rw [ofChar, if_neg lf, same]
    rfl
  all_goals omega

/-- The first byte of a text is that of its first character. -/
theorem head?_ofText {cs : List Char} {g : Glyph} (h : g ∈ (ofText cs).head?) :
    ∃ c, cs.head? = some c ∧ g.code ∈ String.utf8EncodeChar c := by
  cases cs with
  | nil => cases h
  | cons c cs =>
    refine ⟨c, rfl, ?_⟩
    rw [← code_ofChar]
    have some : ofChar c ≠ [] := by
      intro none
      have := congrArg (List.map code) none
      rw [code_ofChar] at this
      exact String.utf8EncodeChar_ne_nil this
    rw [ofText_cons, List.head?_append_of_ne_nil _ some] at h
    exact List.mem_map_of_mem (List.mem_of_mem_head? h)

end Glyph

/-! ## Bytes of characters -/

theorem Byte.toChar_of {c : Char} (ascii : c.toNat < 0x80) : toChar (of c) = c := by
  rw [toChar, of, toNat_ofNat (by omega), Char.ofNat_toNat]

theorem Utf8.encode_ascii {cs : List Char} (ascii : ∀ c ∈ cs, c.toNat < 0x80) :
    encode cs = cs.map Byte.of := by
  induction cs with
  | nil => rfl
  | cons c cs inductionHypothesis =>
    obtain ⟨small, ascii⟩ := List.forall_mem_cons.1 ascii
    rw [encode_cons, List.map_cons, inductionHypothesis ascii]
    rcases encodeChar_cases c with ⟨-, same⟩ | ⟨low, -⟩ | ⟨low, -⟩ | ⟨low, -⟩
    · rw [same]
      rfl
    all_goals omega

/-- The byte of an ASCII character is in no other character. -/
theorem ne_of_mem_encodeChar {c d : Char} (ascii : d.toNat < 0x80) (other : c ≠ d) :
    ∀ b ∈ String.utf8EncodeChar c, b ≠ Byte.of d := by
  rintro b among rfl
  rcases mem_encodeChar among with ⟨-, same⟩ | ⟨-, beyond⟩
  · rw [Byte.of, toNat_ofNat (by omega)] at same
    exact other (Char.ext (UInt32.toNat_inj.1 same.symm))
  · rw [Byte.of, toNat_ofNat (by omega)] at beyond
    omega

theorem isDigit_of_mem {c : Char} : ∀ b ∈ String.utf8EncodeChar c, Byte.isDigit b = c.isDigit := by
  intro b among
  rw [Bool.eq_iff_iff]
  simp only [Byte.isDigit, Char.isDigit, Bool.and_eq_true, decide_eq_true_eq, UInt8.le_iff_toNat_le,
    UInt32.le_iff_toNat_le, ge_iff_le]
  change (48 ≤ b.toNat ∧ b.toNat ≤ 57) ↔ (48 ≤ c.toNat ∧ c.toNat ≤ 57)
  rcases mem_encodeChar among with ⟨-, same⟩ | ⟨other, beyond⟩ <;> omega

theorem code?_append {c : Cursor} {a : Char} {cs : List Char} {rest : List Glyph}
    (h : c.rest = Glyph.ofText (a :: cs) ++ rest) :
    ∃ b ∈ String.utf8EncodeChar a, c.code? 0 = some b := by
  have codes : (c.rest.map Glyph.code).head? = some ((String.utf8EncodeChar a).head
      (String.utf8EncodeChar_ne_nil)) := by
    rw [h, List.map_append, Glyph.code_ofText, encode_cons, List.append_assoc,
      List.head?_append_of_ne_nil _ String.utf8EncodeChar_ne_nil, List.head?_eq_some_head]
  refine ⟨_, List.head_mem String.utf8EncodeChar_ne_nil, ?_⟩
  rw [← codes, Cursor.code?_eq, List.head?_eq_getElem?]

/-! ## Reading glyphs -/

theorem takeWhile_append_of_head? {α : Type} {p : α → Bool} {l r : List α}
    (h : ∀ a ∈ r.head?, p a = false) : (l ++ r).takeWhile p = l.takeWhile p := by
  induction l with
  | nil =>
    cases r with
    | nil => rfl
    | cons a r => simp [h a rfl]
  | cons b l inductionHypothesis =>
    rw [List.cons_append, List.takeWhile_cons, List.takeWhile_cons, inductionHypothesis]

theorem dropWhile_append_of_head? {α : Type} {p : α → Bool} {l r : List α}
    (h : ∀ a ∈ r.head?, p a = false) : (l ++ r).dropWhile p = l.dropWhile p ++ r := by
  induction l with
  | nil =>
    cases r with
    | nil => rfl
    | cons a r => simp [h a rfl]
  | cons b l inductionHypothesis =>
    rw [List.cons_append, List.dropWhile_cons, List.dropWhile_cons, inductionHypothesis]
    split <;> rfl

/-- Glyphs of a kind that line breaks are of are dropped like their bytes. -/
theorem Glyph.dropWhile_ofBytes {p : UInt8 → Bool} (lf : p 0x0A = true) (cr : p 0x0D = true)
    (bs : List UInt8) : (ofBytes bs).dropWhile (p ·.code) = ofBytes (bs.dropWhile p) := by
  induction bs with
  | nil => rfl
  | cons b bs inductionHypothesis =>
    change (cons b (ofBytes bs)).dropWhile (p ·.code) = _
    by_cases kind : p b = true
    · rw [List.dropWhile_cons_of_pos kind, ← inductionHypothesis]
      unfold cons
      split
      · exact List.dropWhile_cons_of_pos lf
      split
      · split
        next rest first =>
          rw [List.dropWhile_cons_of_pos (by exact cr), first,
            List.dropWhile_cons_of_pos (by exact lf)]
        · exact List.dropWhile_cons_of_pos cr
      · exact List.dropWhile_cons_of_pos kind
    · have plain : b ≠ 0x0A ∧ b ≠ 0x0D := by
        constructor <;> (rintro rfl; contradiction)
      rw [List.dropWhile_cons_of_neg kind, cons_plain plain,
        List.dropWhile_cons_of_neg (by exact kind)]
      exact (cons_plain plain _).symm

namespace Cursor

variable {c : Cursor} {p : UInt8 → Bool} {tail : List Glyph}

theorem code?_zero {b : UInt8} (h : c.rest = .byte b :: tail) : c.code? 0 = some b := by
  simp [code?, h, Glyph.code]

theorem code?_one {g : Glyph} {b : UInt8} (h : c.rest = g :: .byte b :: tail) :
    c.code? 1 = some b := by
  simp [code?, h, Glyph.code]

/-- Bytes that are ahead, as many as there are. -/
theorem bytes_of_rest {bytes : List UInt8} (h : c.rest = bytes.map .byte ++ tail) :
    c.bytes bytes.length = bytes := by
  rw [Cursor.bytes, h, List.take_left' (List.length_map _), List.flatMap_map]
  exact List.flatMap_singleton' _

/-- A run of bytes of a kind, which goes no further or is as long as may be. -/
theorem countUpTo_eq {bytes : List UInt8} {limit : Nat} (h : c.rest = bytes.map .byte ++ tail)
    (all : ∀ b ∈ bytes, p b = true) (within : bytes.length ≤ limit)
    (stops : ∀ g ∈ (tail.take (limit - bytes.length)).head?, p g.code = false) :
    c.countUpTo limit p = bytes.length := by
  have inside : (bytes.map Glyph.byte).takeWhile (p ·.code) = bytes.map .byte :=
    List.takeWhile_eq_self_iff.2 fun g among => by
      obtain ⟨b, member, rfl⟩ := List.mem_map.1 among
      exact all b member
  rw [countUpTo, h, List.take_append, List.take_of_length_le (by simpa using within),
    List.length_map, takeWhile_append_of_head? stops, inside, List.length_map]

/-- Past all glyphs of a kind. -/
theorem rest_forward_count : (c.forward (c.count p)).rest = c.rest.dropWhile (p ·.code) := by
  rw [rest_forward, count]
  conv => lhs; arg 2; rw [← List.takeWhile_append_dropWhile (p := (p ·.code)) (l := c.rest)]
  exact List.drop_left

end Cursor

end LuaChunk
