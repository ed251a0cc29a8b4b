import LuaChunk.Proofs.Lexer.Extents
import LuaChunk.Proofs.Lexer.Lexed
import LuaChunk.Proofs.Number.Integers
import LuaChunk.Proofs.Operators.Climbing
import LuaChunk.Proofs.Reread.Operand

/-!
# Integers as expressions

A source of digits, with a suffix or a hexadecimal mark or both, is one token from its first byte to
its last, and what is read of it is its value.
-/

set_option autoImplicit false

open LuaChunk.Parser

namespace LuaChunk

/-! ## Letters and digits are one token -/

/-- Letters and digits all belong to a numeral. -/
theorem Lexeme.numeralLength_of_nameParts {c : Cursor}
    (all : ∀ g ∈ c.rest, Byte.isAsciiNamePart g.code = true) : numeralLength c = c.rest.length := by
  have within := numeralLength_le c
  rw [numeralLength_eq] at within ⊢
  dsimp only at within ⊢
  generalize (if hexMarked c then 2 else 0) + numeralBody (hexMarked c) false
    (c.rest.drop (if hexMarked c then 2 else 0)) = digits at within ⊢
  have whole : (c.rest.drop digits).takeWhile (Byte.isAsciiNamePart ·.code) = c.rest.drop digits :=
    List.takeWhile_eq_self_iff.2 fun g among => all g (List.mem_of_mem_drop among)
  rw [whole, List.length_drop] at within ⊢
  omega

/-- A letter or a digit. -/
theorem isAsciiNamePart_of_isAlphanum {c : Char} (h : c.isAlphanum = true) :
    ∀ b ∈ String.utf8EncodeChar c, Byte.isAsciiNamePart b = true := by
  intro b among
  have range : 65 ≤ c.toNat ∧ c.toNat ≤ 90 ∨ 97 ≤ c.toNat ∧ c.toNat ≤ 122 ∨
      48 ≤ c.toNat ∧ c.toNat ≤ 57 := by
    simpa [Char.isAlphanum, Char.isAlpha, Char.isUpper, Char.isLower, Char.isDigit,
      UInt32.le_iff_toNat_le, or_assoc] using h
  have same : b.toNat = c.toNat := by
    rcases Utf8.mem_encodeChar among with ⟨-, same⟩ | ⟨other, -⟩
    · exact same
    · omega
  have all : ∀ n < 128, 65 ≤ n ∧ n ≤ 90 ∨ 97 ≤ n ∧ n ≤ 122 ∨ 48 ≤ n ∧ n ≤ 57 →
      Byte.isAsciiNamePart (UInt8.ofNat n) = true := by decide +kernel
  have part := all c.toNat (by omega) range
  rwa [← same, UInt8.ofNat_toNat] at part

/-- Letters and digits that begin with a digit are one numeral. -/
theorem NumeralText.ofAlphanum {cs : List Char} (first : ∃ c ∈ cs.head?, c.isDigit = true)
    (all : ∀ c ∈ cs, c.isAlphanum = true) : NumeralText (String.ofList cs) where
  first := by
    obtain ⟨c, head, digit⟩ := first
    obtain ⟨rest, rfl⟩ := List.head?_eq_some_iff.1 head
    simp [startsNumeral, String.toList_ofList, digit]
  whole := by
    refine Lexeme.numeralLength_of_nameParts fun g among => ?_
    rw [String.toList_ofList] at among
    have code : g.code ∈ Utf8.encode cs := Glyph.code_ofText _ ▸ List.mem_map_of_mem among
    obtain ⟨c, inside, byte⟩ := List.mem_flatMap.1 code
    exact isAsciiNamePart_of_isAlphanum (all c inside) _ byte
  plain := by
    rw [String.toList_ofList]
    exact fun among => absurd (all _ among) (by decide)

section Alone

variable {text : String} (h : NumeralText text)

include h

theorem NumeralText.rest_ofBytes :
    (Cursor.ofBytes text.toUTF8.toList).rest = Glyph.ofText text.toList := by
  have mark : text.toList.head? ≠ some '\ufeff' := by
    obtain ⟨c, head, begins⟩ := h.head
    rintro marked
    cases Option.mem_unique marked head
    exact absurd begins (by decide)
  rw [Utf8.toList_toUTF8, Cursor.ofBytes_encode h.plain mark]

/-- A numeral alone is read to the end. -/
theorem NumeralText.read_alone (d : Dialect) :
    let c := Cursor.ofBytes text.toUTF8.toList
    ∃ b, c.code? 0 = some b ∧ (Byte.isDigit b = true ∨ b = Byte.of '.') ∧
      ∃ past, Lexeme.read d b c = ⟨.number, text, [], past⟩ ∧ past.rest = [] := by
  intro c
  have ahead : c.rest = Glyph.ofText text.toList ++ Glyph.ofText [] :=
    h.rest_ofBytes.trans (List.append_nil _).symm
  have apart : ∀ x ∈ ([] : List Char).head?, TokenKind.joins .number x = false := nofun
  obtain ⟨b, first, begins, read⟩ := Word.read_number (d := d) h apart ahead
  exact ⟨b, first, begins, _, read, Cursor.rest_past ahead⟩

/-- A numeral alone is all there is in a source. -/
theorem NumeralText.lexed (d : Dialect) : (Scanner.ofBytes text.toUTF8.toList).lexed d =
    ⟨[⟨.number, text, .whole text.toUTF8.toList⟩], [], []⟩ := by
  obtain ⟨b, first, begins, past, read, last⟩ := h.read_alone d
  have mark : b ≠ 0xEF := by
    rintro rfl
    exact absurd begins (by decide)
  have dash : b ≠ Byte.of '-' := by
    rintro rfl
    exact absurd begins (by decide)
  have blank : Byte.isBlank b = false := by
    rcases begins with digit | rfl
    · exact Word.not_isBlank (.inr digit)
    · decide
  have head : text.toUTF8.toList.head? = some b := by
    rw [Utf8.toList_toUTF8, ← Glyph.code_ofText, ← h.rest_ofBytes, List.head?_map,
      List.head?_eq_getElem?]
    exact first
  have kind : (Lexeme.read d b (.ofBytes text.toUTF8.toList)).kind = .number := by rw [read]
  have whole : (Lexeme.read d b (.ofBytes text.toUTF8.toList)).after.rest = [] := by rw [read, last]
  rw [Scanner.lexed_ofBytes head mark blank dash (kind ▸ nofun) whole, read]

/-- A numeral alone is one token. -/
theorem NumeralText.tokenize (d : Dialect) :
    LuaChunk.tokenize text.toUTF8.toList d = .ok [⟨.number, text, .whole text.toUTF8.toList⟩] := by
  obtain ⟨b, first, begins, -⟩ := h.read_alone d
  have noLine : (Scanner.ofBytes text.toUTF8.toList).skipShebang =
      .ofBytes text.toUTF8.toList := by
    refine if_neg fun hash => ?_
    cases hash.symm.trans first
    exact absurd begins (by decide)
  rw [tokenize_eq_ok, noLine, h.lexed d]
  exact ⟨rfl, rfl⟩

end Alone

/-! ## The ways to write an integer -/

namespace Numeral

variable {ds suffix : List Char} {values : List Nat} {mark : Char}

theorem isAlphanum_of_isDigit {c : Char} (digit : c.isDigit = true) : c.isAlphanum = true := by
  simp [Char.isAlphanum, digit]

theorem IsSuffix.isAlphanum (h : suffix = [] ∨ IsSuffix suffix) :
    ∀ c ∈ suffix, c.isAlphanum = true := by
  intro c among
  rcases h with rfl | h
  · cases among
  have letter := h.letter c among
  simp only [IsSuffixLetter, List.mem_cons, List.not_mem_nil, or_false] at letter
  rcases letter with rfl | rfl | rfl | rfl <;> decide

theorem numeralText_digits (some : ds ≠ []) (digits : ∀ c ∈ ds, c.isDigit = true)
    (h : suffix = [] ∨ IsSuffix suffix) : NumeralText (String.ofList (ds ++ suffix)) := by
  refine .ofAlphanum ?_ (List.forall_mem_append.2
    ⟨fun c among => isAlphanum_of_isDigit (digits c among), IsSuffix.isAlphanum h⟩)
  obtain ⟨c, rest, rfl⟩ := List.exists_cons_of_ne_nil some
  exact ⟨c, rfl, digits c (.head _)⟩

theorem numeralText_hexadecimal (marked : mark = 'x' ∨ mark = 'X')
    (digits : List.Forall₂ IsHexDigit ds values) (h : suffix = [] ∨ IsSuffix suffix) :
    NumeralText (String.ofList ('0' :: mark :: ds ++ suffix)) := by
  refine .ofAlphanum ⟨'0', rfl, by decide⟩ (List.forall_mem_append.2 ⟨?_, IsSuffix.isAlphanum h⟩)
  refine List.forall_mem_cons.2 ⟨by decide, List.forall_mem_cons.2 ⟨?_, fun c among => ?_⟩⟩
  · rcases marked with rfl | rfl <;> decide
  · obtain ⟨value, digit⟩ := exists_isHexDigit digits among
    exact digit.hexDigit?.2

end Numeral

/-! ## Numbers alone -/

namespace Parser

variable {α β : Type} {log : ErrorLog} {tokens rest : List Token} {t : Token} {r : Rules}

/-- A run has recorded one fault, and nothing keeps it from going on but that this was one too
many. -/
def Faulted (log : ErrorLog) (rest : List Token) (cause : Cause) :
    EStateM.Result Abort Session α → Prop
  | .ok _ s => ∃ d : Diagnostic, d.cause = cause ∧ s.Before (log.push d) rest
  | .error _ s => ∃ d : Diagnostic, d.cause = cause ∧ s.log = log.push d

theorem complain_from (cause : Cause) (span : Span) :
    From log tokens (complain cause span) (Faulted log tokens cause) := by
  refine (syncBefore_from _).bind fun _ _ s before => ?_
  unfold record
  by_cases room : s.log.HasRoom
  · rw [ErrorLog.report_of_hasRoom room]
    exact ⟨_, rfl, before.ahead, before.final, before.waiting, by rw [before.log_eq]⟩
  · rw [ErrorLog.report_of_not_hasRoom room]
    exact ⟨_, rfl, by rw [before.log_eq]⟩

/-- What records nothing may come after the fault. -/
theorem From.faulted_bind {p : Parser α} {f : α → Parser β} {rest' : List Token} {cause : Cause}
    {P : α → β → Prop} (h : From log tokens p (Faulted log rest cause))
    (k : ∀ a log', From log' rest (f a) (Returned log' rest' (P a))) :
    From log tokens (p >>= f) (Faulted log rest' cause) := by
  refine h.bind_of (fun a s ⟨d, same, after⟩ => ?_) fun _ _ => id
  have returned := k a _ s after
  cases further : f a s with
  | ok b t =>
    rw [further] at returned
    exact ⟨d, same, returned.2⟩
  | error =>
    rw [further] at returned
    exact returned.elim

theorem From.nested_faulted {p : Parser α} {cause : Cause}
    (h : From log tokens p (Faulted log rest cause)) :
    From log tokens (Parser.nested p) (Faulted log rest cause) :=
  h.nested_of (fun _ _ ⟨d, same, after⟩ =>
    ⟨d, same, after.ahead, after.final, after.waiting, after.log_eq⟩) fun _ _ => id

/-- A number is an operand by itself. -/
theorem operand_number_from {K : EStateM.Result Abort Session Exp → Prop}
    (number : t.kind = .number) (h : From log (t :: rest) numeral K) :
    From log (t :: rest) (operand r) K := by
  refine peek_from.bind ?_
  rintro _ rfl
  rw [firstKind, number]
  refine peek_from.bind ?_
  rintro _ rfl
  rw [firstKind, number]
  exact h

theorem numeral_from {value : Numeral} (number : t.kind = .number)
    (read : Numeral.read? t.text = some value) :
    From log (t :: rest) numeral (Returned log rest (· = ofNumeral t.span value)) := by
  refine (next_from (by simp [number])).bind ?_
  rintro _ rfl
  rw [read]
  cases value <;> exact .pure rfl

theorem numeral_faulted (number : t.kind = .number) (none : Numeral.read? t.text = none) :
    From log (t :: rest) numeral (Faulted log rest (.notANumber t.text)) := by
  refine (next_from (by simp [number])).bind ?_
  rintro _ rfl
  rw [none]
  exact (complain_from _ _).faulted_bind (P := fun _ _ => True) fun _ _ => .pure trivial

/-- At the end of a text no operator follows. -/
theorem operators_end_from (limit : Nat) (start : Span) (e : Exp) :
    From log [] (iterate e (infixOp r limit start)) (Returned log [] (· = e)) := by
  refine iterate_from fun clock _ => iterateFor_done ?_ clock
  refine peek_from.bind ?_
  rintro _ rfl
  exact .pure rfl

theorem level_number_from {n : Nat} {value : Numeral} (number : t.kind = .number)
    (read : Numeral.read? t.text = some value) : From log [t] (Rules.level (n + 1)).exp
      (Returned log [] (· = ofNumeral t.span value)) := by
  refine From.nested (head_from.bind fun start _ => ?_)
  refine (operand_number_from number (numeral_from number read)).bind ?_
  rintro _ rfl
  exact operators_end_from _ _ _

theorem level_number_faulted {n : Nat} (number : t.kind = .number)
    (none : Numeral.read? t.text = none) : From log [t] (Rules.level (n + 1)).exp
      (Faulted log [] (.notANumber t.text)) :=
  From.nested_faulted (head_from.bind fun _ _ =>
    (operand_number_from number (numeral_faulted number none)).faulted_bind fun _ _ =>
      operators_end_from _ _ _)

end Parser

namespace Session

variable {text : String} {settings : Settings}

theorem before_of_lexed {source : List UInt8} {name : String} {tokens : List Token}
    {comments : List CommentRun}
    (lexed : (Scanner.ofBytes source).lexed settings.dialect = ⟨tokens, [], comments⟩) :
    (start source name settings).Before { cap := settings.maxErrors } tokens where
  ahead := congrArg Lexed.tokens lexed
  final := ((Scanner.ofBytes source).run_finds settings.dialect).final_kind
  waiting := by
    refine Eq.trans ?_ (congrArg Lexed.errors lexed)
    simp [Scanner.lexed, start, TokenStream.ofBytes, TokenStream.waiting, TokenStream.errorLists,
      List.flatMap_def]
  log_eq := rfl

/-- The text is one token, from its first byte to its last, whatever is made of it. -/
def IsNumber (d : Dialect) (text : String) : Prop :=
  tokenize text.toUTF8.toList d = .ok [⟨.number, text, .whole text.toUTF8.toList⟩]

/-- The text is read as this expression, which takes all of it, and nothing is wrong with it. -/
def ReadsAs (name : String) (settings : Settings) (text : String) (e : Span → Exp) : Prop :=
  let read := (start text.toUTF8.toList name settings).exp
  read.1 = some (e (.whole text.toUTF8.toList)) ∧ read.2.errors = [] ∧ read.2.tokens.ahead = []

/-- Reading the text as an expression reports this and nothing else. -/
def Reports (name : String) (settings : Settings) (text : String) (cause : Cause) : Prop :=
  (start text.toUTF8.toList name settings).exp.2.errors.map (·.cause) = [cause]

section Alone

variable (h : NumeralText text) (deep : 0 < settings.maxNesting) (name : String)

include h deep

/-- What comes of a number token alone comes of the text. -/
theorem run_numeral {K : EStateM.Result Abort Session Exp → Prop}
    (runs : ∀ n, Parser.From { cap := settings.maxErrors }
      [⟨.number, text, .whole text.toUTF8.toList⟩] (Rules.level (n + 1)).exp K) :
    let fresh := start text.toUTF8.toList name settings
    K (fresh.rules.exp fresh) := by
  intro fresh
  obtain ⟨n, levels⟩ := Nat.exists_eq_succ_of_ne_zero (Nat.pos_iff_ne_zero.1 deep)
  rw [show fresh.rules = .level (n + 1) from congrArg Rules.level levels]
  exact runs n fresh (before_of_lexed (h.lexed settings.dialect))

theorem readsAs_numeral {value : Numeral} (read : Numeral.read? text = some value) :
    ReadsAs name settings text (Parser.ofNumeral · value) := by
  have returned := run_numeral h deep name fun n =>
    Parser.level_number_from (n := n) rfl read
  unfold ReadsAs exp
  dsimp only at returned ⊢
  revert returned
  generalize start text.toUTF8.toList name settings = fresh
  cases fresh.rules.exp fresh with
  | error => exact False.elim
  | ok a s =>
    rintro ⟨rfl, after⟩
    exact ⟨rfl, by simp [errors, after.log_eq], List.map_eq_nil_iff.1 after.ahead⟩

theorem reports_numeral (none : Numeral.read? text = none) :
    Reports name settings text (.notANumber text) := by
  have faulted := run_numeral h deep name fun n =>
    Parser.level_number_faulted (n := n) rfl none
  unfold Reports exp
  dsimp only at faulted ⊢
  revert faulted
  generalize start text.toUTF8.toList name settings = fresh
  cases fresh.rules.exp fresh with
  | error abort s =>
    rintro ⟨d, same, log⟩
    simp [errors, log, ErrorLog.push, same]
  | ok a s =>
    rintro ⟨d, same, after⟩
    simp [errors, after.log_eq, ErrorLog.push, same]

end Alone

/-- How integers are read: as long as they fit, digits alone are the integer they write, and with a
suffix they are the word congruent to it; hexadecimal digits are congruent to it however many there
are.  Digits that do not fit are a float, and no number if they have a suffix. -/
structure ReadsIntegers (name : String) (settings : Settings) : Prop where
  decimal : ∀ ds : List Char, ds ≠ [] → (∀ c ∈ ds, c.isDigit = true) →
    let text := String.ofList ds
    let value := Nat.ofDigitChars 10 ds 0
    IsNumber settings.dialect text ∧
      ((∃ i : Int64, i.toInt = value ∧ ReadsAs name settings text (.integer i)) ↔ value < 2 ^ 63) ∧
      (2 ^ 63 ≤ value → ReadsAs name settings text (.float (.ofDecimal value 0)))
  suffixed : ∀ ds suffix : List Char, ds ≠ [] → (∀ c ∈ ds, c.isDigit = true) →
    Numeral.IsSuffix suffix →
    let text := String.ofList (ds ++ suffix)
    let value := Nat.ofDigitChars 10 ds 0
    IsNumber settings.dialect text ∧
      (value < 2 ^ 64 → ∃ i : Int64, i.toInt ≡ value [ZMOD 2 ^ 64] ∧
        ReadsAs name settings text (.integer i)) ∧
      (2 ^ 64 ≤ value → Reports name settings text (.notANumber text))
  hexadecimal : ∀ (ds suffix : List Char) (values : List Nat) (mark : Char), ds ≠ [] →
    List.Forall₂ Numeral.IsHexDigit ds values → mark = 'x' ∨ mark = 'X' →
    suffix = [] ∨ Numeral.IsSuffix suffix →
    let text := String.ofList ('0' :: mark :: ds ++ suffix)
    let value : Nat := Nat.ofDigits 16 values.reverse
    IsNumber settings.dialect text ∧
      ∃ i : Int64, i.toInt ≡ value [ZMOD 2 ^ 64] ∧ ReadsAs name settings text (.integer i)

open Numeral in
/-- **Integers.**  Whatever the length of an integer, the whole of its text is one token, and reading
it gives its value. -/
theorem reads_integers (deep : 0 < settings.maxNesting) (name : String) :
    ReadsIntegers name settings where
  decimal := by
    intro ds some digits text value
    have numeral : NumeralText text := by
      have plain : NumeralText (String.ofList (ds ++ [])) :=
        numeralText_digits some digits (.inl rfl)
      rwa [List.append_nil] at plain
    have read := read?_digits some digits
    refine ⟨numeral.tokenize _, ⟨?_, fun small => ?_⟩, fun large => ?_⟩
    · rintro ⟨i, same, -⟩
      have bound := i.toInt_lt
      omega
    · rw [if_pos small] at read
      exact ⟨_, Int64.toInt_ofNat_of_lt small, readsAs_numeral numeral deep name read⟩
    · rw [if_neg (Nat.not_lt.2 large)] at read
      exact readsAs_numeral numeral deep name read
  suffixed := by
    intro ds suffix some digits h text value
    have numeral : NumeralText text := numeralText_digits some digits (.inr h)
    have read := read?_suffixed some digits h
    refine ⟨numeral.tokenize _, fun small => ?_, fun large => ?_⟩
    · rw [if_pos small] at read
      exact ⟨_, toInt_ofNat_modEq _, readsAs_numeral numeral deep name read⟩
    · rw [if_neg (Nat.not_lt.2 large)] at read
      exact reports_numeral numeral deep name read
  hexadecimal := by
    intro ds suffix values mark some digits marked h text value
    have numeral : NumeralText text := numeralText_hexadecimal marked digits h
    have read := read?_hexadecimal marked digits some h
    exact ⟨numeral.tokenize _, _, toInt_ofNat_modEq _, readsAs_numeral numeral deep name read⟩

/-- The last integer without a suffix, the first float, the last integer with a suffix, and more
hexadecimal digits than fit. -/
theorem reads_integers_bounds :
    ReadsAs "" {} "9223372036854775807" (.integer 9223372036854775807) ∧
      ReadsAs "" {} "9223372036854775808" (.float (.ofDecimal 9223372036854775808 0)) ∧
      ReadsAs "" {} "18446744073709551615ull" (.integer (-1)) ∧
      Reports "" {} "18446744073709551616LL" (.notANumber "18446744073709551616LL") ∧
      ReadsAs "" {} "0XfFFFFFFFFFFFFFFFELl" (.integer (-2)) := by
  have reads : ReadsIntegers "" {} := reads_integers (by decide) ""
  refine ⟨?_, ?_, ?_, ?_, ?_⟩
  · obtain ⟨-, small, -⟩ :=
      reads.decimal "9223372036854775807".toList (by decide)
        (List.all_eq_true.1 (by decide +kernel))
    obtain ⟨i, same, read⟩ := small.2 (by decide +kernel)
    obtain rfl : i = 9223372036854775807 := Int64.toInt_inj.1 (same.trans (by decide +kernel))
    exact read
  · obtain ⟨-, -, large⟩ :=
      reads.decimal "9223372036854775808".toList (by decide)
        (List.all_eq_true.1 (by decide +kernel))
    exact large (by decide +kernel)
  · obtain ⟨-, small, -⟩ := reads.suffixed "18446744073709551615".toList "ull".toList (by decide)
      (List.all_eq_true.1 (by decide +kernel)) (.inr (by decide))
    obtain ⟨i, same, read⟩ := small (by decide +kernel)
    obtain rfl : i = -1 := Numeral.eq_of_toInt_modEq (same.trans (by decide +kernel))
    exact read
  · obtain ⟨-, -, large⟩ := reads.suffixed "18446744073709551616".toList "LL".toList (by decide)
      (List.all_eq_true.1 (by decide +kernel)) (.inl (by decide))
    exact large (by decide +kernel)
  · have digits : List.Forall₂ Numeral.IsHexDigit "fFFFFFFFFFFFFFFFE".toList
        (List.replicate 16 15 ++ [14]) := by
      simp [Numeral.IsHexDigit]
      decide
    obtain ⟨-, i, same, read⟩ := reads.hexadecimal _ "Ll".toList _ 'X' (by decide) digits (.inr rfl)
      (.inr (.inl (by decide)))
    obtain rfl : i = -2 := Numeral.eq_of_toInt_modEq (same.trans (by decide +kernel))
    exact read

end Session

end LuaChunk
