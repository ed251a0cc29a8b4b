import LuaChunk.Proofs.Text.Decoding

/-!
# Line feeds written as two characters

A text whose lines end in LF may be stored with CR LF instead.  Bytes are decoded the same way: no
character goes on across either line end.
-/

set_option autoImplicit false

namespace LuaChunk

/-- Bytes with CR LF for every LF. -/
def crlf (bytes : List UInt8) : List UInt8 :=
  bytes.flatMap fun b => if b = 0x0A then [0x0D, 0x0A] else [b]

/-- A text with CR LF for every LF. -/
def crlfText (text : String) : String :=
  .ofList (text.toList.flatMap fun c => if c = '\n' then ['\r', '\n'] else [c])

section

variable {b : UInt8} {bytes tail : List UInt8}

theorem crlf_lf (bytes : List UInt8) : crlf (0x0A :: bytes) = 0x0D :: 0x0A :: crlf bytes := rfl

theorem crlf_cons (other : b ≠ 0x0A) (bytes : List UInt8) :
    crlf (b :: bytes) = b :: crlf bytes := by
  rw [crlf, List.flatMap_cons, if_neg other]
  rfl

/-- Every byte but a CR that comes first has come first before. -/
theorem crlf_eq_cons (other : b ≠ 0x0D) (h : crlf bytes = b :: tail) :
    ∃ rest, bytes = b :: rest ∧ tail = crlf rest := by
  cases bytes with
  | nil => cases h
  | cons x bytes =>
    by_cases lf : x = 0x0A
    · subst lf
      exact absurd (List.cons.inj h).1.symm other
    · rw [crlf_cons lf] at h
      obtain ⟨rfl, rest⟩ := List.cons.inj h
      exact ⟨bytes, rfl, rest.symm⟩

end

section

variable {c : Char}

theorem crlfText_lf (text : String) :
    crlfText (text.push '\n') = ((crlfText text).push '\r').push '\n' := by
  apply String.toList_inj.1
  simp [crlfText]

theorem crlfText_push (other : c ≠ '\n') (text : String) :
    crlfText (text.push c) = (crlfText text).push c := by
  apply String.toList_inj.1
  simp [crlfText, other]

end

namespace Utf8

/-- A decoder that has read the same text with other line ends. -/
def Decoder.crlf (d : Decoder) : Decoder := { d with text := crlfText d.text }

namespace Decoder

variable {d : Decoder} {b : UInt8}

theorem begin_crlf (text : String) (other : b ≠ 0x0A) :
    begin (crlfText text) b = (begin text b).crlf := by
  have wide := lead_wide b.toNat_lt
  rw [UInt8.ofNat_toNat] at wide
  unfold begin
  cases first : lead b with
  | character c =>
    rw [first] at wide
    have apart : c ≠ '\n' := by
      rintro rfl
      exact other (UInt8.toNat_inj.1 wide.1.symm)
    exact congrArg (Decoder.mk · none) (crlfText_push apart text).symm
  | begins u => rfl
  | invalid => exact congrArg (Decoder.mk · none) (crlfText_push (by decide) text).symm

theorem step_crlf (wide : ∀ u ∈ d.unfinished, u.Wide) (other : b ≠ 0x0A) :
    d.crlf.step b = (d.step b).crlf := by
  obtain ⟨text, unfinished⟩ := d
  cases unfinished with
  | none => exact begin_crlf text other
  | some u =>
    unfold step crlf
    dsimp only
    split
    next bounds =>
      split
      next last =>
        have beyond := ((wide u rfl).step bounds.1 bounds.2).1 last
        have apart : Char.ofNat (u.bits * 0x40 + b.toNat % 0x40) ≠ '\n' := by
          intro same
          rw [same] at beyond
          exact absurd beyond (by decide)
        rw [crlfText_push apart]
      · rfl
    · rw [← crlfText_push (by decide)]
      exact begin_crlf _ other

/-- A line end is no part of a character that has begun, whichever of the two it is. -/
theorem step_lf_crlf (wide : ∀ u ∈ d.unfinished, u.Wide) :
    (d.crlf.step 0x0D).step 0x0A = (d.step 0x0A).crlf := by
  obtain ⟨text, unfinished⟩ := d
  have lead (text : String) : (begin (crlfText text) 0x0D).step 0x0A = (begin text 0x0A).crlf :=
    congrArg (Decoder.mk · none) (crlfText_lf text).symm
  cases unfinished with
  | none => exact lead text
  | some u =>
    have low := (wide u rfl).low
    have ends (b : UInt8) (small : b.toNat < 0x80) : ¬ (u.low ≤ b ∧ b ≤ u.high) := by
      rw [UInt8.le_iff_toNat_le]
      omega
    unfold step crlf
    dsimp only
    rw [if_neg (ends 0x0D (by decide)), if_neg (ends 0x0A (by decide)),
      ← crlfText_push (by decide)]
    exact lead _

end Decoder

theorem foldl_step_crlf {bytes rest : List UInt8} (among : ∀ b ∈ rest, b ∈ bytes) {d : Decoder}
    (sound : d.Sound bytes) :
    (crlf rest).foldl Decoder.step d.crlf = (rest.foldl Decoder.step d).crlf := by
  induction rest generalizing d with
  | nil => rfl
  | cons b rest inductionHypothesis =>
    obtain ⟨here, more⟩ := List.forall_mem_cons.1 among
    by_cases lf : b = 0x0A
    · subst lf
      rw [crlf_lf, List.foldl_cons, List.foldl_cons, Decoder.step_lf_crlf sound.unfinished,
        inductionHypothesis more (sound.step here), List.foldl_cons]
    · rw [crlf_cons lf, List.foldl_cons, Decoder.step_crlf sound.unfinished lf,
        inductionHypothesis more (sound.step here), List.foldl_cons]

/-- Line ends are decoded apart from all else. -/
theorem decode_crlf (bytes : List UInt8) : decode (crlf bytes) = crlfText (decode bytes) := by
  have folded := foldl_step_crlf (d := ⟨"", none⟩) (fun b (among : b ∈ bytes) => among)
    ⟨by simp, nofun⟩
  rw [show Decoder.crlf ⟨"", none⟩ = ⟨"", none⟩ from rfl] at folded
  rw [decode, decode, folded, Decoder.finish, Decoder.finish, Decoder.crlf]
  dsimp only
  split
  · rfl
  · exact (crlfText_push (by decide) _).symm

end Utf8

end LuaChunk
