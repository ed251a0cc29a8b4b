import LuaChunk.Text.Utf8
import Mathlib

/-!
# Text from its own bytes

Decoding undoes encoding: the bytes of a text are read as that text, character by character.
-/

set_option autoImplicit false

namespace LuaChunk.Utf8

/-- The bytes of a text. -/
def encode (cs : List Char) : List UInt8 := cs.flatMap String.utf8EncodeChar

@[simp]
theorem encode_nil : encode [] = [] := rfl

@[simp]
theorem encode_cons (c : Char) (cs : List Char) :
    encode (c :: cs) = String.utf8EncodeChar c ++ encode cs := List.flatMap_cons

@[simp]
theorem encode_append (cs ds : List Char) : encode (cs ++ ds) = encode cs ++ encode ds :=
  List.flatMap_append

theorem toList_byteArray (bytes : ByteArray) : bytes.toList = bytes.data.toList := by
  have loop (n i : Nat) (r : List UInt8) (left : bytes.size - i = n) :
      ByteArray.toList.loop bytes i r = r.reverse ++ bytes.data.toList.drop i := by
    induction n generalizing i r with
    | zero =>
      have beyond : bytes.data.toList.length ≤ i := by
        rw [Array.length_toList]
        exact Nat.le_of_sub_eq_zero left
      rw [ByteArray.toList.loop, if_neg (by omega), List.drop_eq_nil_of_le beyond, List.append_nil]
    | succ n inductionHypothesis =>
      have within : i < bytes.data.toList.length := by
        rw [Array.length_toList]
        exact Nat.lt_of_sub_eq_succ left
      rw [ByteArray.toList.loop, if_pos (by omega), inductionHypothesis _ _ (by omega),
        List.drop_eq_getElem_cons within]
      have read : bytes.get! i = bytes.data.toList[i] := by
        rw [Array.length_toList] at within
        exact getElem!_pos bytes.data i within
      simp [read]
  exact loop _ 0 [] rfl

theorem toList_toUTF8 (text : String) : text.toUTF8.toList = encode text.toList := by
  rw [toList_byteArray]
  conv_lhs => rw [← String.ofList_toList (s := text)]
  exact (congrArg (·.data.toList) String.toByteArray_ofList).trans List.toList_data_toByteArray

/-- The parts of a character's number that its bytes hold. -/
theorem encodeChar_cases (c : Char) :
    (c.toNat < 0x80 ∧ String.utf8EncodeChar c = [UInt8.ofNat c.toNat]) ∨
    (0x80 ≤ c.toNat ∧ c.toNat < 0x800 ∧ String.utf8EncodeChar c =
      [UInt8.ofNat (c.toNat / 64 + 0xC0), UInt8.ofNat (c.toNat % 64 + 0x80)]) ∨
    (0x800 ≤ c.toNat ∧ c.toNat < 0x10000 ∧ String.utf8EncodeChar c =
      [UInt8.ofNat (c.toNat / 4096 + 0xE0), UInt8.ofNat (c.toNat / 64 % 64 + 0x80),
        UInt8.ofNat (c.toNat % 64 + 0x80)]) ∨
    (0x10000 ≤ c.toNat ∧ c.toNat < 0x110000 ∧ String.utf8EncodeChar c =
      [UInt8.ofNat (c.toNat / 262144 + 0xF0), UInt8.ofNat (c.toNat / 4096 % 64 + 0x80),
        UInt8.ofNat (c.toNat / 64 % 64 + 0x80), UInt8.ofNat (c.toNat % 64 + 0x80)]) := by
  have bound : c.toNat < 0x110000 := by
    rcases c.valid with low | high
    · exact Nat.lt_trans low (by decide)
    · exact high.2
  unfold String.utf8EncodeChar
  rw [show c.val.toNat = c.toNat from rfl]
  generalize c.toNat = n at *
  rcases Nat.lt_or_ge n 0x80 with one | more
  · exact .inl ⟨one, if_pos (by omega)⟩
  rcases Nat.lt_or_ge n 0x800 with two | more
  · refine .inr (.inl ⟨by omega, two, ?_⟩)
    dsimp only
    rw [if_neg (by omega), if_pos (by omega), Nat.mod_eq_of_lt (a := n / 64) (by omega)]
  rcases Nat.lt_or_ge n 0x10000 with three | more
  · refine .inr (.inr (.inl ⟨by omega, three, ?_⟩))
    dsimp only
    rw [if_neg (by omega), if_neg (by omega), if_pos (by omega),
      Nat.mod_eq_of_lt (a := n / 4096) (by omega)]
  · refine .inr (.inr (.inr ⟨by omega, bound, ?_⟩))
    dsimp only
    rw [if_neg (by omega), if_neg (by omega), if_neg (by omega),
      Nat.mod_eq_of_lt (a := n / 262144) (by omega)]

theorem toNat_ofNat {n : Nat} (byte : n < 256) : (UInt8.ofNat n).toNat = n :=
  UInt8.toNat_ofNat_of_lt' byte

/-- An ASCII character is its own byte, and the bytes of any other are beyond ASCII. -/
theorem mem_encodeChar {c : Char} {b : UInt8} (h : b ∈ String.utf8EncodeChar c) :
    (c.toNat < 0x80 ∧ b.toNat = c.toNat) ∨ (0x80 ≤ c.toNat ∧ 0x80 ≤ b.toNat) := by
  have beyond {n : Nat} (low : 0x80 ≤ n) (high : n < 256) : 0x80 ≤ (UInt8.ofNat n).toNat := by
    rwa [toNat_ofNat high]
  rcases encodeChar_cases c with ⟨one, same⟩ | ⟨low, high, same⟩ | ⟨low, high, same⟩ |
    ⟨low, high, same⟩
  · rw [same, List.mem_singleton] at h
    exact .inl ⟨one, by rw [h, toNat_ofNat (by omega)]⟩
  all_goals
    simp only [same, List.mem_cons, List.not_mem_nil, or_false] at h
  · rcases h with rfl | rfl <;> exact .inr ⟨by omega, beyond (by omega) (by omega)⟩
  · rcases h with rfl | rfl | rfl <;> exact .inr ⟨by omega, beyond (by omega) (by omega)⟩
  · rcases h with rfl | rfl | rfl | rfl <;> exact .inr ⟨by omega, beyond (by omega) (by omega)⟩

/-- What a byte means where a character may begin, told of its number. -/
theorem lead_ofNat {n : Nat} (byte : n < 256) : lead (UInt8.ofNat n) =
    if n < 0x80 then .character (Char.ofNat n)
    else if n < 0xC2 then .invalid
    else if n < 0xE0 then .begins ⟨1, 0x80, 0xBF, n % 0x20⟩
    else if n < 0xF0 then
      .begins ⟨2, if n = 0xE0 then 0xA0 else 0x80, if n = 0xED then 0x9F else 0xBF, n % 0x10⟩
    else if n < 0xF5 then
      .begins ⟨3, if n = 0xF0 then 0x90 else 0x80, if n = 0xF4 then 0x8F else 0xBF, n % 0x08⟩
    else .invalid := by
  unfold lead
  simp only [UInt8.lt_iff_toNat_lt, ← UInt8.toNat_inj, toNat_ofNat byte]
  rfl

/-- A byte after the first of a character that has begun. -/
theorem step_unfinished (text : String) (missing : Nat) {low high : UInt8} (bits : Nat) {n : Nat}
    (from_low : low.toNat ≤ n) (to_high : n ≤ high.toNat) (byte : n < 256) :
    Decoder.step ⟨text, some ⟨missing, low, high, bits⟩⟩ (UInt8.ofNat n) =
      if missing ≤ 1 then ⟨text.push (Char.ofNat (bits * 0x40 + n % 0x40)), none⟩
      else ⟨text, some ⟨missing - 1, 0x80, 0xBF, bits * 0x40 + n % 0x40⟩⟩ := by
  unfold Decoder.step
  dsimp only
  rw [if_pos (by simpa only [UInt8.le_iff_toNat_le, toNat_ofNat byte] using ⟨from_low, to_high⟩),
    toNat_ofNat byte]

/-- A later byte holds six bits, whatever they are. -/
theorem step_after (text : String) (missing bits n : Nat) :
    Decoder.step ⟨text, some ⟨missing, 0x80, 0xBF, bits⟩⟩ (UInt8.ofNat (n % 64 + 0x80)) =
      if missing ≤ 1 then ⟨text.push (Char.ofNat (bits * 0x40 + (n % 64 + 0x80) % 0x40)), none⟩
      else ⟨text, some ⟨missing - 1, 0x80, 0xBF, bits * 0x40 + (n % 64 + 0x80) % 0x40⟩⟩ := by
  have low_byte : (0x80 : UInt8).toNat = 0x80 := rfl
  have high_byte : (0xBF : UInt8).toNat = 0xBF := rfl
  exact step_unfinished text missing bits (by omega) (by omega) (by omega)

section First

variable (text : String) {n : Nat}

/-- The first byte of a character of two bytes. -/
theorem begin_two (low : 2 ≤ n) (high : n < 0x20) :
    Decoder.begin text (UInt8.ofNat (n + 0xC0)) = ⟨text, some ⟨1, 0x80, 0xBF, n⟩⟩ := by
  rw [Decoder.begin, lead_ofNat (by omega), if_neg (by omega), if_neg (by omega),
    if_pos (by omega), show (n + 0xC0) % 0x20 = n by omega]

/-- Of three, where a shorter form and the surrogates are left out. -/
theorem begin_three (high : n < 0x10) : Decoder.begin text (UInt8.ofNat (n + 0xE0)) =
    ⟨text, some ⟨2, if n = 0 then 0xA0 else 0x80, if n = 0xD then 0x9F else 0xBF, n⟩⟩ := by
  rw [Decoder.begin, lead_ofNat (by omega), if_neg (by omega), if_neg (by omega),
    if_neg (by omega), if_pos (by omega), show (n + 0xE0) % 0x10 = n by omega]
  simp

/-- Of four, where a shorter form and what is beyond the last character are left out. -/
theorem begin_four (high : n < 5) : Decoder.begin text (UInt8.ofNat (n + 0xF0)) =
    ⟨text, some ⟨3, if n = 0 then 0x90 else 0x80, if n = 4 then 0x8F else 0xBF, n⟩⟩ := by
  rw [Decoder.begin, lead_ofNat (by omega), if_neg (by omega), if_neg (by omega),
    if_neg (by omega), if_neg (by omega), if_pos (by omega), show (n + 0xF0) % 0x08 = n by omega]
  simp

end First

/-- Reading the bytes of a character adds the character. -/
theorem foldl_step_encodeChar (text : String) (c : Char) :
    (String.utf8EncodeChar c).foldl Decoder.step ⟨text, none⟩ = ⟨text.push c, none⟩ := by
  have whole : Char.ofNat c.toNat = c := c.ofNat_toNat
  have valid : c.toNat < 0xD800 ∨ 0xDFFF < c.toNat := c.valid.imp id And.left
  have first (n : Nat) : Decoder.step ⟨text, none⟩ (UInt8.ofNat n) =
      Decoder.begin text (UInt8.ofNat n) := rfl
  rcases encodeChar_cases c with ⟨one, same⟩ | ⟨low, high, same⟩ | ⟨low, high, same⟩ |
    ⟨low, high, same⟩
  · rw [same, List.foldl_cons, List.foldl_nil, first, Decoder.begin, lead_ofNat (by omega),
      if_pos one, whole]
  · rw [same, List.foldl_cons, List.foldl_cons, List.foldl_nil, first,
      begin_two text (by omega) (by omega), step_after, if_pos (by omega),
      show c.toNat / 64 * 0x40 + (c.toNat % 64 + 0x80) % 0x40 = c.toNat by omega, whole]
  · have from_low : (if c.toNat / 4096 = 0 then 0xA0 else 0x80 : UInt8).toNat ≤
        c.toNat / 64 % 64 + 0x80 := by
      split
      · simp
        omega
      · simp
    have to_high : c.toNat / 64 % 64 + 0x80 ≤
        (if c.toNat / 4096 = 0xD then 0x9F else 0xBF : UInt8).toNat := by
      split <;> simp <;> omega
    rw [same, List.foldl_cons, List.foldl_cons, List.foldl_cons, List.foldl_nil, first,
      begin_three text (by omega), step_unfinished _ _ _ from_low to_high (by omega),
      if_neg (by omega), step_after, if_pos (by omega),
      show (c.toNat / 4096 * 0x40 + (c.toNat / 64 % 64 + 0x80) % 0x40) * 0x40 +
        (c.toNat % 64 + 0x80) % 0x40 = c.toNat by omega, whole]
  · have from_low : (if c.toNat / 262144 = 0 then 0x90 else 0x80 : UInt8).toNat ≤
        c.toNat / 4096 % 64 + 0x80 := by
      split
      · simp
        omega
      · simp
    have to_high : c.toNat / 4096 % 64 + 0x80 ≤
        (if c.toNat / 262144 = 4 then 0x8F else 0xBF : UInt8).toNat := by
      split <;> simp <;> omega
    rw [same, List.foldl_cons, List.foldl_cons, List.foldl_cons, List.foldl_cons, List.foldl_nil,
      first, begin_four text (by omega), step_unfinished _ _ _ from_low to_high (by omega),
      if_neg (by omega), step_after, if_neg (by omega), step_after, if_pos (by omega),
      show ((c.toNat / 262144 * 0x40 + (c.toNat / 4096 % 64 + 0x80) % 0x40) * 0x40 +
        (c.toNat / 64 % 64 + 0x80) % 0x40) * 0x40 + (c.toNat % 64 + 0x80) % 0x40 = c.toNat by omega,
      whole]

/-- **Decoding undoes encoding.** -/
theorem decode_encode (cs : List Char) : decode (encode cs) = String.ofList cs := by
  have along (text : String) : (encode cs).foldl Decoder.step ⟨text, none⟩ =
      ⟨text ++ String.ofList cs, none⟩ := by
    induction cs generalizing text with
    | nil => simp
    | cons c cs inductionHypothesis =>
      rw [encode_cons, List.foldl_append, foldl_step_encodeChar, inductionHypothesis]
      congr 1
      rw [← String.toList_inj]
      simp
  rw [decode, along, Decoder.finish]
  simp

end LuaChunk.Utf8
