import LuaChunk.Proofs.Text.Encoding

/-!
# Characters of decoded bytes

Whatever bytes are decoded, an ASCII character comes of its own byte, and every other byte is part of
a character that is not ASCII.
-/

set_option autoImplicit false

namespace LuaChunk.Utf8

/-- The character comes of one of the bytes, or it is not ASCII. -/
def ComesOf (bytes : List UInt8) (c : Char) : Prop :=
  0x80 ≤ c.toNat ∨ ∃ b ∈ bytes, b.toNat < 0x80 ∧ c.toNat = b.toNat

/-- With so many bytes to come after the next, all numbers between two are those of characters that
are not ASCII: none of them goes on to a surrogate or beyond the last character. -/
def WideBetween : Nat → Nat → Nat → Prop
  | 1, least, most => 0x80 ≤ least ∧ (most < 0xD800 ∨ 0xE000 ≤ least) ∧ most < 0x110000
  | 2, least, most => 0x2 ≤ least ∧ (most < 0x360 ∨ 0x380 ≤ least) ∧ most < 0x4400
  | 3, least, most => 0xE ≤ least ∧ most < 0x110
  | _, _, _ => False

/-- However the character goes on, it is a character and not ASCII. -/
structure Unfinished.Wide (u : Unfinished) : Prop where
  low : 0x80 ≤ u.low.toNat
  high : u.high.toNat ≤ 0xBF
  between : WideBetween u.missing (u.bits * 64 + u.low.toNat % 64) (u.bits * 64 + u.high.toNat % 64)

/-- What the first byte of a character says of it. -/
def Lead.Wide (n : Nat) : Lead → Prop
  | .character c => c.toNat = n ∧ n < 0x80
  | .begins u => u.Wide
  | .invalid => True

theorem lead_wide {n : Nat} (byte : n < 256) : (lead (UInt8.ofNat n)).Wide n := by
  rw [lead_ofNat byte]
  split
  next ascii => exact ⟨by rw [Char.ofNat, dif_pos (.inl (by omega))]; rfl, ascii⟩
  split
  · trivial
  split
  · constructor <;> simp only [UInt8.reduceToNat, WideBetween] <;> omega
  split
  · constructor <;> simp only [apply_ite UInt8.toNat, UInt8.reduceToNat, WideBetween] <;>
      repeat' split
    all_goals omega
  split
  · constructor <;> simp only [apply_ite UInt8.toNat, UInt8.reduceToNat, WideBetween] <;>
      repeat' split
    all_goals omega
  · trivial

/-- Reading a byte of a character that has begun goes on with it, or completes it. -/
theorem Unfinished.Wide.step {u : Unfinished} (h : u.Wide) {b : UInt8} (low : u.low ≤ b)
    (high : b ≤ u.high) :
    let bits := u.bits * 0x40 + b.toNat % 0x40
    (u.missing ≤ 1 → 0x80 ≤ (Char.ofNat bits).toNat) ∧
      (¬ u.missing ≤ 1 → Unfinished.Wide ⟨u.missing - 1, 0x80, 0xBF, bits⟩) := by
  obtain ⟨missing, lower, upper, bits⟩ := u
  obtain ⟨above, below, between⟩ := h
  rw [UInt8.le_iff_toNat_le] at low high
  dsimp only at *
  have order : lower.toNat % 64 ≤ b.toNat % 64 ∧ b.toNat % 64 ≤ upper.toNat % 64 := by
    clear between
    omega
  have small : b.toNat % 64 < 64 := Nat.mod_lt _ (by decide)
  match missing, between with
  | 1, between =>
    refine ⟨fun _ => ?_, fun more => absurd (Nat.le_refl 1) more⟩
    simp only [WideBetween] at between
    have isValid : (bits * 64 + b.toNat % 64).isValidChar := by
      rcases between.2.1 with before | after
      · exact .inl (by omega)
      · exact .inr ⟨by omega, by omega⟩
    rw [Char.ofNat, dif_pos isValid]
    change 0x80 ≤ bits * 64 + b.toNat % 64
    omega
  | 2, between | 3, between =>
    refine ⟨fun last => absurd last (by decide), fun _ => ⟨by simp, by simp, ?_⟩⟩
    simp only [WideBetween, UInt8.reduceToNat] at between ⊢
    omega

namespace Decoder

/-- All characters read so far come of the bytes read, and so will the one that has begun. -/
structure Sound (bytes : List UInt8) (d : Decoder) : Prop where
  text : ∀ c ∈ d.text.toList, ComesOf bytes c
  unfinished : ∀ u ∈ d.unfinished, u.Wide

variable {bytes : List UInt8} {d : Decoder} {text : String} {b : UInt8}

theorem comesOf_replacement : ComesOf bytes replacement := .inl (by decide)

theorem sound_begin (h : ∀ c ∈ text.toList, ComesOf bytes c) (among : b ∈ bytes) :
    (begin text b).Sound bytes := by
  have wide := lead_wide b.toNat_lt
  rw [UInt8.ofNat_toNat] at wide
  unfold begin
  cases first : lead b with
  | character c =>
    rw [first] at wide
    refine ⟨?_, nofun⟩
    simpa [or_imp, forall_and] using ⟨h, .inr ⟨b, among, wide.2, wide.1⟩⟩
  | begins u =>
    rw [first] at wide
    refine ⟨h, ?_⟩
    rintro _ ⟨⟩
    exact wide
  | invalid =>
    refine ⟨?_, nofun⟩
    simpa [or_imp, forall_and] using ⟨h, comesOf_replacement⟩

theorem Sound.step (h : d.Sound bytes) (among : b ∈ bytes) : (d.step b).Sound bytes := by
  obtain ⟨text, unfinished⟩ := d
  cases unfinished with
  | none => exact sound_begin h.text among
  | some u =>
    have wide := h.unfinished u rfl
    unfold Decoder.step
    dsimp only
    split
    next bounds =>
      obtain ⟨completes, goesOn⟩ := wide.step bounds.1 bounds.2
      split
      next last =>
        refine ⟨?_, nofun⟩
        simpa [or_imp, forall_and] using ⟨h.text, .inl (completes last)⟩
      next more => exact ⟨h.text, by simpa using goesOn more⟩
    · refine sound_begin ?_ among
      simpa [or_imp, forall_and] using ⟨h.text, comesOf_replacement⟩

end Decoder

/-- **Decoded characters.**  Each comes of one of the bytes, or it is not ASCII. -/
theorem comesOf_decode (bytes : List UInt8) : ∀ c ∈ (decode bytes).toList, ComesOf bytes c := by
  have along (rest : List UInt8) (all : ∀ b ∈ rest, b ∈ bytes) (d : Decoder)
      (h : d.Sound bytes) : (rest.foldl Decoder.step d).Sound bytes := by
    induction rest generalizing d with
    | nil => exact h
    | cons b rest inductionHypothesis =>
      exact inductionHypothesis (fun x among => all x (.tail _ among)) _ (h.step (all b (.head _)))
  have sound := along bytes (fun _ => id) ⟨"", none⟩ ⟨by simp, nofun⟩
  unfold decode Decoder.finish
  split
  · exact sound.text
  · simpa [or_imp, forall_and] using ⟨sound.text, Decoder.comesOf_replacement⟩

end LuaChunk.Utf8
