import LuaChunk.Proofs.Spelling.Basic

/-!
# Spelled phrases use up tokens

A phrase is spelled by tokens from the front of those ahead, and only a few kinds of phrases are
ever spelled by none.
-/

set_option autoImplicit false

namespace LuaChunk

variable {c : Text} {i j k o : Place c}

theorem Dialect.opening_ne_eof (d : Dialect) {word : TokenKind} (h : word ≠ .eof) :
    d.opening word ≠ .eof := by
  unfold opening
  split
  · decide
  · exact h

theorem Dialect.closing_ne_eof (d : Dialect) : d.closing ≠ .eof := by cases d <;> decide

theorem Dialect.functionWord_ne_eof (d : Dialect) : d.functionWord ≠ .eof := by
  cases d <;> decide

theorem Takes.length {kind : TokenKind} {t : Token} (h : Takes kind i t o) (more : kind ≠ .eof) :
    o.ahead.length + 1 = i.ahead.length := by
  rw [h.ahead more]
  rfl

theorem Takes.length_le {kind : TokenKind} {t : Token} (h : Takes kind i t o) :
    o.ahead.length ≤ i.ahead.length := by
  rw [h.rest_eq]
  simp

theorem TakesIf.length {p : Prop} [Decidable p] {kind : TokenKind} (h : TakesIf p kind i o)
    (more : kind ≠ .eof) : o.ahead.length ≤ i.ahead.length := by
  unfold TakesIf at h
  split at h
  · obtain ⟨t, takes⟩ := h
    have := takes.length more
    omega
  · exact h ▸ Nat.le_refl _

theorem KeyList.length {source : ImportSource} {names : List Param} {values : List Exp}
    {isFirst : Bool} (h : KeyList source names i values isFirst o) :
    o.ahead.length ≤ i.ahead.length := by
  induction h with
  | start => exact Nat.le_refl _
  | key _ key comma inductionHypothesis =>
    have := key.length (by decide)
    have := comma.length (by decide)
    omega
  | none _ comma inductionHypothesis =>
    have := comma.length (by decide)
    omega

theorem Keys.length {source : ImportSource} {names : List Param} {values : List Exp}
    (h : Keys source names i values o) : o.ahead.length ≤ i.ahead.length := by
  cases h with
  | key list key =>
    have := list.length
    have := key.length (by decide)
    omega
  | none list => exact list.length

/-- The number of tokens that a phrase takes at least. -/
def Phrase.least : Phrase → Nat
  | .openFields _ | .fields _ | .params _ _ | .attr _ | .initializer _ | .targets _
  | .assignRest _ _ _ | .step _ | .otherwise _ | .stats _ | .returns _ | .block _ | .cases _
  | .defaultCase _ | .parent _ | .members _ _ => 0
  | _ => 1

theorem UnaryOp.ne_eof {kind : TokenKind} {op : UnaryOp} (h : ofToken? kind = some op) :
    kind ≠ .eof := by
  rintro rfl
  cases h

theorem BinaryOp.ne_eof {kind : TokenKind} {op : BinaryOp} (h : ofToken? kind = some op) :
    kind ≠ .eof := by
  rintro rfl
  cases h

/-- The symbol of a compound assignment is that of its operator. -/
theorem BinaryOp.ofToken?_of_compound {kind : TokenKind} {op : BinaryOp}
    (h : ofCompound? kind = some op) : ofToken? kind = some op := by
  unfold ofCompound? at h
  split at h <;> cases h <;> rfl

theorem ImportSource.OfToken.ne_eof {t : Token} {source : ImportSource}
    (h : OfToken t source) : t.kind ≠ .eof := by
  cases h with
  | library kind => simp [kind]
  | table kind => simp [kind]

theorem Spells.length {p : Phrase} (h : Spells i p o) :
    o.ahead.length + p.least ≤ i.ahead.length := by
  induction h with
  | _ =>
    simp only [Phrase.least] at *
    grind [→ Takes.length, → TakesIf.length, → Keys.length, → UnaryOp.ne_eof, → BinaryOp.ne_eof,
      → BinaryOp.ofToken?_of_compound, → ImportSource.OfToken.ne_eof, Dialect.opening_ne_eof,
      Dialect.closing_ne_eof, Dialect.functionWord_ne_eof]

theorem Spells.length_le {p : Phrase} (h : Spells i p o) : o.ahead.length ≤ i.ahead.length :=
  Nat.le_of_add_right_le h.length

end LuaChunk
