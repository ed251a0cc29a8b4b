import LuaChunk.Proofs.Lexer.Order

/-!
# Kinds of tokens

A dialect gives out only the words it reserves: the words that Mooc adds are names in Lua.  A byte
that no token starts with is never passed over in silence.
-/

set_option autoImplicit false

namespace LuaChunk

/-- A kind that a text of the dialect may hold: not a stray byte, and no word of the other
dialect. -/
structure TokenKind.Proper (d : Dialect) (kind : TokenKind) : Prop where
  legal : kind ≠ .illegal
  reserved : kind ∈ TokenKind.moocKeywords → d = .mooc

theorem TokenKind.Proper.common {kind : TokenKind} (d : Dialect)
    (h : kind ≠ .illegal ∧ kind ∉ TokenKind.moocKeywords) : kind.Proper d :=
  ⟨h.1, fun word => absurd word h.2⟩

namespace Lexeme

theorem proper_symbol {kind : TokenKind} (h : kind ∈ TokenKind.symbols) (d : Dialect) :
    kind.Proper d := by
  have all : ∀ kind ∈ TokenKind.symbols, kind ≠ .illegal ∧ kind ∉ TokenKind.moocKeywords := by
    decide
  exact .common d (all kind h)

theorem proper_keyword {d : Dialect} {kind : TokenKind} (h : kind ∈ d.keywords) :
    kind.Proper d := by
  cases d with
  | lua =>
    have all : ∀ kind ∈ Dialect.lua.keywords,
        kind ≠ .illegal ∧ kind ∉ TokenKind.moocKeywords := by decide
    exact .common _ (all kind h)
  | mooc =>
    have all : ∀ kind ∈ Dialect.mooc.keywords, kind ≠ .illegal := by decide
    exact ⟨all kind h, fun _ => rfl⟩

theorem symbol_proper (d : Dialect) (b : UInt8) (c : Cursor) :
    (symbol b c).kind.Proper d ∨ (symbol b c).kind = .illegal ∧ (symbol b c).errors ≠ [] := by
  unfold symbol
  split
  next kind found => exact .inl (proper_symbol (List.mem_of_find?_eq_some found) d)
  · exact .inr ⟨rfl, by simp [unexpected]⟩

theorem name_proper (d : Dialect) (c : Cursor) : (name d c).kind.Proper d := by
  unfold name
  dsimp only
  cases found : d.keyword? (verbatim .identifier c (c.count Byte.isNamePart)).text with
  | none => exact .common d (by decide)
  | some kind => exact proper_keyword (Dialect.mem_keywords_of_keyword? found).1

/-- A token is of a kind of its dialect, or it is a stray byte and an error tells so. -/
theorem read_proper (d : Dialect) (b : UInt8) (c : Cursor) :
    (read d b c).kind.Proper d ∨ (read d b c).kind = .illegal ∧ (read d b c).errors ≠ [] := by
  have string : TokenKind.string.Proper d := .common d (by decide)
  have number : TokenKind.number.Proper d := .common d (by decide)
  unfold read
  split
  · exact .inl string
  split
  · split
    · exact .inl string
    · exact symbol_proper d b c
  split
  · exact .inl number
  split
  · exact .inl (name_proper d c)
  · exact symbol_proper d b c

end Lexeme

theorem Scanner.scan_proper_or (d : Dialect) (s : Scanner) : (s.scan d).token.kind.Proper d ∨
    (s.scan d).token.kind = .illegal ∧ (s.scan d).errors ≠ [] := by
  have eof : TokenKind.eof.Proper d := .common d (by decide)
  unfold scan
  split
  dsimp only
  split
  · exact .inl eof
  next b _ =>
    refine (Lexeme.read_proper d b _).imp_right fun stray => ⟨stray.1, fun clean => ?_⟩
    exact stray.2 (List.append_eq_nil_iff.1 clean).2

theorem Scanner.scan_proper (d : Dialect) (s : Scanner) (clean : (s.scan d).errors = []) :
    (s.scan d).token.kind.Proper d :=
  (s.scan_proper_or d).resolve_right fun stray => stray.2 clean

/-- Words of Mooc are found in Mooc only. -/
theorem Scanner.scan_reserved (d : Dialect) (s : Scanner)
    (word : (s.scan d).token.kind ∈ TokenKind.moocKeywords) : d = .mooc := by
  rcases s.scan_proper_or d with proper | ⟨stray, _⟩
  · exact proper.reserved word
  · rw [stray] at word
    exact absurd word (by decide)

end LuaChunk
