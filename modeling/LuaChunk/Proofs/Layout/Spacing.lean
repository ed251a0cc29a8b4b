import LuaChunk.Proofs.Layout.Text
import LuaChunk.Proofs.Lexer.Numerals

/-!
# The words of a written tree are set apart

No word of a written tree is joined by what stands after it.  An expression may be followed by a
blank or by one of the brackets, commas and colons that are written right after expressions; what
stands before an expression without a blank is not joined by its first character.
-/

set_option autoImplicit false

namespace LuaChunk

open Fragment

/-- What may be written right after an expression or a name. -/
def gentleChars : List Char := [' ', '\n', ',', ')', ']', '}', '(', '[', ':']

/-- Nothing follows, or what may follow an expression. -/
def Gentle (next : Option Char) : Prop := ∀ c ∈ next, c ∈ gentleChars

/-- A character that an expression may begin with: a sign comes first in negative integers
only. -/
structure Leads (e : Exp) (c : Char) : Prop where
  bracket : c ≠ '['
  equals : c ≠ '='
  sign : c = '-' → e.isNegative = true

/-- Set apart whatever follows, if it may follow an expression. -/
def Sealed (fs : List Fragment) : Prop := ∀ next, Gentle next → Spaced .lua fs next

/-! ## Single words -/

section Words

variable {rest : List Fragment} {next : Option Char}

@[simp]
theorem firstChar_space : firstChar (space :: rest) next = some ' ' := rfl

@[simp]
theorem firstChar_newline : firstChar (newline :: rest) next = some '\n' := rfl

theorem spaced_nil : Spaced .lua [] next := trivial

theorem spaced_space : Spaced .lua (space :: rest) next ↔ Spaced .lua rest next := by
  simp [space, Spaced, isGapChar]

theorem spaced_newline : Spaced .lua (newline :: rest) next ↔ Spaced .lua rest next := by
  simp [newline, Spaced, isGapChar]

theorem spaced_indent (depth : Nat) :
    Spaced .lua (indent depth :: rest) next ↔ Spaced .lua rest next := by
  have blanks : ∀ c ∈ List.replicate depth '\t', isGapChar c = true := by
    intro c among
    rw [List.eq_of_mem_replicate among]
    rfl
  exact ⟨And.right, fun h => ⟨blanks, h⟩⟩

theorem spaced_sym {kind : TokenKind} (word : kind ∈ TokenKind.symbols ++ TokenKind.luaKeywords) :
    Spaced .lua (sym kind :: rest) next ↔
      (∀ c ∈ firstChar rest next, kind.joins c = false) ∧ Spaced .lua rest next := by
  have legible : Word.Legible .lua ⟨kind, kind.spelling⟩ := by
    rcases List.mem_append.1 word with symbol | keyword
    · exact .symbol symbol
    · exact .keyword keyword
  simp only [sym, Spaced, legible, true_and]

/-- Symbols that no character is joined to. -/
theorem spaced_loose {kind : TokenKind} (loose : kind ∈ [.vararg, .comma, .doubleColon, .lparen,
    .rparen, .rbracket, .lbrace, .rbrace, .hash]) :
    Spaced .lua (sym kind :: rest) next ↔ Spaced .lua rest next := by
  have word : kind ∈ TokenKind.symbols ++ TokenKind.luaKeywords := by
    revert kind
    decide
  rw [spaced_sym word, and_iff_right]
  intro c _
  fin_cases loose <;> rfl

theorem spaced_ident {name : String} (h : Identifier .lua name) :
    Spaced .lua (ident name :: rest) next ↔
      (∀ c ∈ firstChar rest next, isNameChar c = false) ∧ Spaced .lua rest next := by
  simp only [ident, Spaced, Word.Legible.name h, true_and]
  rfl

theorem spaced_number {text : String} (h : NumeralText text) :
    Spaced .lua (number text :: rest) next ↔
      (∀ c ∈ firstChar rest next, TokenKind.number.joins c = false) ∧
        Spaced .lua rest next := by
  simp only [number, Spaced, Word.Legible.number h, true_and]

theorem spaced_string (text : String) :
    Spaced .lua (.word ⟨.string, text⟩ :: rest) next ↔ Spaced .lua rest next := by
  simp [Spaced, Word.Legible.string, TokenKind.joins]

theorem Gentle.some {c : Char} (h : c ∈ gentleChars) : Gentle (some c) := by
  rintro _ ⟨⟩
  exact h

theorem gentle_sym {kind : TokenKind}
    (among : kind ∈ [.comma, .rparen, .rbracket, .rbrace, .lparen, .lbracket, .colon,
      .doubleColon]) : Gentle (firstChar (sym kind :: rest) next) := by
  fin_cases among <;> exact .some (by decide)

/-- Words that may stand right before what may follow an expression. -/
theorem Gentle.joins (h : Gentle next) {kind : TokenKind}
    (word : kind ∈ [.kwNil, .kwTrue, .kwFalse, .number, .identifier, .kwEnd, .kwBreak,
      .greater]) : ∀ c ∈ next, kind.joins c = false := by
  have all : gentleChars.all (fun c => !kind.joins c) = true := by
    fin_cases word <;> decide
  intro c among
  simpa using List.all_eq_true.1 all c (h c among)

end Words

attribute [local simp] spaced_nil spaced_space spaced_newline spaced_indent spaced_string
  spaced_append TokenKind.joins_space TokenKind.joins_newline

namespace Sealed

variable {fs gs : List Fragment}

theorem sym {kind : TokenKind}
    (word : kind ∈ [.kwNil, .kwTrue, .kwFalse, .kwEnd, .kwBreak]) : Sealed [sym kind] := by
  intro next gentle
  have among : kind ∈ TokenKind.symbols ++ TokenKind.luaKeywords := by
    revert kind
    decide
  rw [spaced_sym among]
  refine ⟨gentle.joins ?_, spaced_nil⟩
  revert kind
  decide

theorem ident {name : String} (h : Identifier .lua name) : Sealed [ident name] :=
  fun _ gentle => (spaced_ident h).2 ⟨@Gentle.joins _ gentle .identifier (by decide), spaced_nil⟩

theorem number {text : String} (h : NumeralText text) : Sealed [number text] :=
  fun _ gentle => (spaced_number h).2 ⟨gentle.joins (by decide), spaced_nil⟩

theorem string (text : String) : Sealed [.word ⟨.string, text⟩] :=
  fun _ _ => (spaced_string text).2 spaced_nil

theorem loose {kind : TokenKind} (loose : kind ∈ [.vararg, .comma, .doubleColon, .lparen,
    .rparen, .rbracket, .lbrace, .rbrace, .hash]) (h : Sealed fs) :
    Sealed (Fragment.sym kind :: fs) :=
  fun next gentle => (spaced_loose loose).2 (h next gentle)

theorem space (h : Sealed fs) : Sealed (Fragment.space :: fs) :=
  fun next gentle => spaced_space.2 (h next gentle)

/-- A word with a blank after it. -/
theorem word {kind : TokenKind} (word : kind ∈ TokenKind.symbols ++ TokenKind.luaKeywords)
    (h : Sealed fs) : Sealed (Fragment.sym kind :: Fragment.space :: fs) := by
  refine fun next gentle => (spaced_sym word).2 ⟨?_, h.space next gentle⟩
  rintro _ ⟨⟩
  exact kind.joins_space

theorem thenSpace (h : Sealed fs) (k : Sealed gs) : Sealed (fs ++ Fragment.space :: gs) :=
  fun next gentle => (spaced_append ..).2 ⟨h _ (.some (by decide)), k.space next gentle⟩

theorem thenSym {kind : TokenKind} (among : kind ∈ [.comma, .rparen, .rbracket, .rbrace, .lparen,
    .lbracket, .colon, .doubleColon]) (h : Sealed fs) (k : Sealed (Fragment.sym kind :: gs)) :
    Sealed (fs ++ Fragment.sym kind :: gs) :=
  fun next gentle => (spaced_append ..).2 ⟨h _ (gentle_sym among), k next gentle⟩

/-- What is written after a symbol without a blank does not join it. -/
theorem opening {kind : TokenKind} (word : kind ∈ TokenKind.symbols ++ TokenKind.luaKeywords)
    (h : Sealed fs) (apart : ∀ next, ∀ c ∈ firstChar fs next, kind.joins c = false) :
    Sealed (Fragment.sym kind :: fs) :=
  fun next gentle => (spaced_sym word).2 ⟨apart next, h next gentle⟩

theorem nil : Sealed [] := fun _ _ => spaced_nil

/-- With a closing bracket after it. -/
theorem closed {kind : TokenKind} (closing : kind ∈ [.rparen, .rbracket, .rbrace])
    (h : Sealed fs) : Sealed (fs ++ [Fragment.sym kind]) := by
  refine h.thenSym ?_ (.loose ?_ .nil) <;> (revert kind; decide)

/-- A block between a word and what closes it. -/
theorem enclosed {kind : TokenKind} {depth : Nat}
    (word : kind ∈ TokenKind.symbols ++ TokenKind.luaKeywords)
    (block : ∀ next, Spaced .lua fs next) (h : Sealed gs) :
    Sealed (Fragment.sym kind :: enclosedFragments fs depth gs) := by
  intro next gentle
  rw [spaced_sym word, enclosedFragments, List.cons_append, firstChar_newline, spaced_newline,
    spaced_append, spaced_indent]
  refine ⟨?_, block _, h next gentle⟩
  rintro _ ⟨⟩
  exact kind.joins_newline

/-- Items with commas between them. -/
theorem separated {items : List (List Fragment)} (h : ∀ fs ∈ items, Sealed fs) :
    Sealed (separated items) := by
  induction items with
  | nil => exact fun _ _ => spaced_nil
  | cons first rest inductionHypothesis =>
    intro next gentle
    have own := h first List.mem_cons_self
    cases rest with
    | nil => simpa [LuaChunk.separated] using own next gentle
    | cons second rest =>
      have later := inductionHypothesis (fun fs among => h fs (.tail _ among)) next gentle
      rw [LuaChunk.separated, List.intercalate_cons_cons, List.append_assoc, spaced_append]
      refine ⟨own _ (gentle_sym (by decide)), ?_⟩
      simpa (disch := decide) [spaced_loose, LuaChunk.separated] using later

end Sealed

/-! ## Numbers and names -/

theorem Binary64.meaning_cases {x : Binary64} (unsigned : x.isNegative = false) :
    x.meaning = .nan ∨ x.meaning = .infinite false ∨ ∃ m e, x.meaning = .finite false m e := by
  have sign : decide (Nat.pow 2 63 ≤ x.bits.toNat) = false := unsigned
  unfold meaning
  dsimp only
  rw [sign]
  split
  · split
    · exact .inr (.inl rfl)
    · exact .inl rfl
  · split <;> exact .inr (.inr ⟨_, _, rfl⟩)

theorem Binary64.text_finite {x : Binary64} (unsigned : x.isNegative = false)
    (finite : x.isFinite = true) : NumeralText x.text := by
  rcases meaning_cases unsigned with nan | infinite | ⟨m, e, meaning⟩
  · simp [isFinite, nan] at finite
  · simp [isFinite, infinite] at finite
  · rw [text_eq meaning]
    exact (sound_writing m e).numeralText

/-- What is infinite or no number is written as a name. -/
theorem Binary64.text_infinite {x : Binary64} (unsigned : x.isNegative = false)
    (infinite : x.isFinite = false) : Identifier .lua x.text := by
  rcases meaning_cases unsigned with nan | infinity | ⟨m, e, meaning⟩
  · have same : x.text = "NaN" := by simp [text, nan]
    rw [same]
    exact ⟨⟨'N', rfl, rfl⟩, by simp; decide, by decide⟩
  · have same : x.text = "inf" := by simp [text, infinity]
    rw [same]
    exact ⟨⟨'i', rfl, rfl⟩, by simp; decide, by decide⟩
  · simp [isFinite, meaning] at infinite

/-! ## Expressions and their first characters -/

theorem Identifier.leads {name : String} (h : Identifier .lua name) (e : Exp) :
    ∃ c ∈ name.toList.head?, Leads e c := by
  obtain ⟨c, first, -⟩ := h.first
  have part := h.all c (List.mem_of_mem_head? first)
  refine ⟨c, first, ?_, ?_, ?_⟩ <;> (rintro rfl; exact absurd part (by decide))

theorem NumeralText.leads {text : String} (h : NumeralText text) (e : Exp) :
    ∃ c ∈ text.toList.head?, Leads e c := by
  obtain ⟨c, first, begins⟩ := h.head
  refine ⟨c, first, ?_, ?_, ?_⟩ <;> (rintro rfl; exact absurd begins (by decide))

theorem Leads.of_ne {c : Char} (h : c ≠ '[' ∧ c ≠ '=' ∧ c ≠ '-') (e : Exp) : Leads e c :=
  ⟨h.1, h.2.1, fun sign => absurd sign h.2.2⟩

namespace Leads

variable {e : Exp} {c : Char}

theorem minus (h : Leads e c) (unsigned : e.isNegative = false) :
    TokenKind.minus.joins c = false := by
  refine decide_eq_false fun same => ?_
  rw [h.sign same] at unsigned
  cases unsigned

theorem tilde (h : Leads e c) : TokenKind.tilde.joins c = false := decide_eq_false h.equals

theorem lbracket (h : Leads e c) : TokenKind.lbracket.joins c = false := by
  simp [TokenKind.joins, h.bracket, h.equals]

end Leads

/-- What can be called begins with no sign. -/
theorem Leads.of_endsOpen {e : Exp} {c : Char} (h : Leads e c) (called : e.endsOpen = true)
    (e' : Exp) : Leads e' c := by
  refine .of_ne ⟨h.bracket, h.equals, fun sign => ?_⟩ e'
  have negative := h.sign sign
  cases e <;> first | cases negative | cases called

section Leads

variable {fs rest : List Fragment} {next : Option Char} {c : Char}

theorem firstChar_ident {name : String} (h : c ∈ name.toList.head?) :
    c ∈ firstChar (ident name :: rest) next := by
  rw [firstChar, fragmentChars_cons, chars_ident, List.head?_append, h]
  rfl

theorem firstChar_number {text : String} (h : c ∈ text.toList.head?) :
    c ∈ firstChar (number text :: rest) next := by
  rw [firstChar, fragmentChars_cons, chars_number, List.head?_append, h]
  rfl

theorem firstChar_sym {kind : TokenKind} (h : kind.spelling.toList.head? = some c)
    (word : kind ≠ .string := by decide) : c ∈ firstChar (sym kind :: rest) next := by
  rw [firstChar, fragmentChars_cons, chars_sym word, List.head?_append, h]
  rfl

end Leads

/-- The first character of an expression is its own, whatever follows. -/
theorem Exp.Printable.leads {d : Demand} {around : List Body} (depth : Nat) :
    ∀ {e : Exp}, e.Printable d around → ∀ next, ∃ c ∈ firstChar (e.fragments depth) next, Leads e c
  | .nil _, _, _ => ⟨'n', firstChar_sym rfl, .of_ne (by decide) _⟩
  | .bool true _, _, _ => ⟨'t', firstChar_sym rfl, .of_ne (by decide) _⟩
  | .bool false _, _, _ => ⟨'f', firstChar_sym rfl, .of_ne (by decide) _⟩
  | .vararg _, _, _ => ⟨'.', firstChar_sym rfl, .of_ne (by decide) _⟩
  | .integer value span, _, next => by
    obtain ⟨c, first, leads⟩ :=
      (numeralText_toString value.toInt.natAbs).leads (.integer value span)
    rw [Exp.fragments]
    unfold integerFragments
    split
    next negative =>
      refine ⟨'-', firstChar_sym rfl, by decide, by decide, fun _ => ?_⟩
      simpa [isNegative, Int64.lt_iff_toInt_lt] using negative
    next => exact ⟨c, firstChar_number first, leads⟩
  | .float value span, h, next => by
    cases h with
    | float _ unsigned _ =>
    rw [Exp.fragments]
    split
    next finite =>
      obtain ⟨c, first, leads⟩ := (Binary64.text_finite unsigned finite).leads (.float value span)
      exact ⟨c, firstChar_number first, leads⟩
    next infinite =>
      obtain ⟨c, first, leads⟩ := (Binary64.text_infinite unsigned (by simpa using infinite)).leads
        (.float value span)
      exact ⟨c, firstChar_ident first, leads⟩
  | .string text _, _, next => by
    refine ⟨'"', ?_, .of_ne (by decide) _⟩
    rw [Exp.fragments]
    simp [firstChar, Quoted.toList_encode]
  | .name own span, h, next => by
    cases h with
    | name _ identifier =>
    obtain ⟨c, first, leads⟩ := identifier.leads (.name own span)
    rw [Exp.fragments]
    exact ⟨c, firstChar_ident first, leads⟩
  | .unary _ _ _, _, _ | .binary _ _ _ _, _, _ | .paren _ _, _, _ =>
    ⟨'(', firstChar_sym rfl, .of_ne (by decide) _⟩
  | .table _ _ _, _, _ => ⟨'{', firstChar_sym rfl, .of_ne (by decide) _⟩
  | .function _ _, _, _ => ⟨'f', firstChar_sym rfl, .of_ne (by decide) _⟩
  | .call ⟨callee, _, _⟩ _, h, next => by
    cases h with
    | call _ isOpen _ own _ =>
    rw [Exp.fragments, Call.fragments, List.append_assoc, List.append_assoc, firstChar_append]
    obtain ⟨c, first, leads⟩ := Exp.Printable.leads depth own _
    exact ⟨c, first, leads.of_endsOpen isOpen _⟩
  | .index object _ _, h, next => by
    cases h with
    | index _ isOpen own _ =>
    rw [Exp.fragments, List.append_assoc, firstChar_append]
    obtain ⟨c, first, leads⟩ := Exp.Printable.leads depth own _
    exact ⟨c, first, leads.of_endsOpen isOpen _⟩

/-! ## Parts of trees -/

namespace Sealed

variable {fs gs : List Fragment} {depth : Nat}

/-- An expression after a symbol that does not join its first character. -/
theorem before {kind : TokenKind} (word : kind ∈ TokenKind.symbols ++ TokenKind.luaKeywords)
    (h : Sealed fs) {e : Exp} (leads : ∀ next, ∃ c ∈ firstChar fs next, Leads e c)
    (apart : ∀ c, Leads e c → kind.joins c = false) : Sealed (Fragment.sym kind :: fs) := by
  refine h.opening word fun next c among => ?_
  obtain ⟨d, first, leads⟩ := leads next
  exact Option.mem_unique first among ▸ apart d leads

theorem field {key : Option (List Fragment)} {e : Exp}
    (k : ∀ fs ∈ key, Sealed fs ∧ ∀ next, ∃ c ∈ firstChar fs next, Leads e c) (h : Sealed fs) :
    Sealed (fieldFragments key fs) := by
  cases key with
  | none => exact h
  | some key =>
    obtain ⟨own, leads⟩ := k key rfl
    exact .thenSym (by decide) (own.before (by decide) leads fun _ leads => leads.lbracket)
      (.loose (by decide) (.space (.word (by decide) h)))

theorem method {callee : List Fragment} (h : Sealed callee) {m : Option Param}
    (names : ∀ p ∈ m, Identifier .lua p.name) : Sealed (callee ++ methodFragments m) := by
  cases m with
  | none => exact (List.append_nil callee).symm ▸ h
  | some p =>
    have name := names p rfl
    refine h.thenSym (by decide) (.opening (by decide) (.ident name) fun next c among => ?_)
    obtain ⟨d, first, leads⟩ := name.leads (.nil .synthetic)
    rw [Option.mem_unique among (firstChar_ident first)]
    refine decide_eq_false ?_
    rintro rfl
    exact absurd (name.all _ (List.mem_of_mem_head? first)) (by decide)

theorem names {params : List Param} (names : ∀ p ∈ params, Identifier .lua p.name)
    (isVararg : Bool) : Sealed (LuaChunk.separated
      (namesFragments params ++ if isVararg then [[Fragment.sym .vararg]] else [])) := by
  refine .separated fun fs among => ?_
  rcases List.mem_append.1 among with name | last
  · obtain ⟨p, member, rfl⟩ := List.mem_map.1 name
    exact .ident (names p member)
  · cases isVararg with
    | false => cases last
    | true =>
      rw [List.mem_singleton.1 last]
      exact .loose (by decide) .nil

theorem marked {params : List Param} {attrs : List Attribute}
    (names : ∀ p ∈ params, Identifier .lua p.name) :
    Sealed (LuaChunk.separated (markedFragments params attrs)) := by
  have mark (word : String) (identifier : Identifier .lua word)
      (first : ∀ c ∈ word.toList.head?, TokenKind.less.joins c = false) :
      Sealed [Fragment.sym .less, Fragment.ident word, Fragment.sym .greater] := by
    intro next gentle
    rw [spaced_sym (by decide), spaced_ident identifier, spaced_sym (by decide)]
    refine ⟨?_, ?_, gentle.joins (by decide), spaced_nil⟩
    · obtain ⟨c, own, -⟩ := identifier.first
      intro d among
      rw [Option.mem_unique among (firstChar_ident own)]
      exact first c own
    · intro d among
      rw [Option.mem_unique among (firstChar_sym rfl)]
      decide
  refine .separated fun fs among => ?_
  induction params generalizing attrs with
  | nil => cases among
  | cons p params inductionHypothesis =>
    have name := Sealed.ident (names p List.mem_cons_self)
    have later (attrs : List Attribute) :=
      @inductionHypothesis attrs fun p among => names p (.tail _ among)
    cases attrs with
    | nil =>
      rcases List.mem_cons.1 among with rfl | among
      · exact name
      · exact later [] among
    | cons a attrs =>
      rcases List.mem_cons.1 among with rfl | among
      · cases a with
        | regular | exported => exact name
        | const => exact name.thenSpace (mark "const" ⟨⟨'c', rfl, rfl⟩, by simp; decide, by decide⟩
            (by rintro _ ⟨⟩; decide))
        | close => exact name.thenSpace (mark "close" ⟨⟨'c', rfl, rfl⟩, by simp; decide, by decide⟩
            (by rintro _ ⟨⟩; decide))
      · exact later attrs among

theorem values {items : List (List Fragment)} (h : Sealed fs) (each : ∀ gs ∈ items, Sealed gs) :
    Sealed (fs ++ valuesFragments items) := by
  unfold valuesFragments
  split
  · exact (List.append_nil fs).symm ▸ h
  · exact h.thenSpace (.word (by decide) (.separated each))

theorem body {params : List Param} (names : ∀ p ∈ params, Identifier .lua p.name)
    (isVararg isMethod : Bool) (owner name : Option String) {block : Block}
    (spaced : ∀ next, Spaced .lua (block.fragments (depth + 1)) next) :
    Sealed (FunctionBody.fragments depth ⟨params, isVararg, isMethod, block, owner, name⟩) := by
  rw [FunctionBody.fragments]
  exact .thenSym (by decide) (.loose (by decide) (.names names isVararg))
    (.enclosed (by decide) spaced (.sym (by decide)))

theorem exps {es : List Exp} (h : ∀ e ∈ es, Sealed (e.fragments depth)) :
    ∀ fs ∈ es.map (·.fragments depth), Sealed fs := by
  intro fs among
  obtain ⟨e, member, rfl⟩ := List.mem_map.1 among
  exact h e member

theorem chain {opening : TokenKind}
    (word : opening ∈ TokenKind.symbols ++ TokenKind.luaKeywords) {branches : List Branch}
    (conditions : ∀ b ∈ branches, Sealed (b.condition.fragments depth))
    (bodies : ∀ b ∈ branches, ∀ next, Spaced .lua (b.body.fragments (depth + 1)) next) :
    Sealed (chainFragments opening (branches.map fun b =>
      (b.condition.fragments depth, b.body.fragments (depth + 1))) depth) := by
  induction branches generalizing opening with
  | nil => exact .sym (by decide)
  | cons b branches inductionHypothesis =>
    have later := @inductionHypothesis .kwElseif (by decide)
      (fun b among => conditions b (.tail _ among)) fun b among => bodies b (.tail _ among)
    exact .thenSpace (.word word (conditions b List.mem_cons_self))
      (.enclosed (by decide) (bodies b List.mem_cons_self) later)

/-- Statements, with a line for each. -/
theorem stats {stats : List Stat} (h : ∀ s ∈ stats, Sealed (s.fragments depth))
    (next : Option Char) : Spaced .lua (statsFragments depth stats) next := by
  induction stats with
  | nil => exact spaced_nil
  | cons s stats inductionHypothesis =>
    have later := inductionHypothesis fun s among => h s (.tail _ among)
    rw [statsFragments_cons, List.cons_append, spaced_indent, spaced_append, spaced_newline]
    exact ⟨h s List.mem_cons_self _ (.some (by decide)), later⟩

theorem returns {items : List (List Fragment)} (h : ∀ fs ∈ items, Sealed fs)
    (next : Option Char) : Spaced .lua (returnFragments depth items) next := by
  rw [returnFragments, spaced_indent, ← List.cons_append, spaced_append, spaced_newline]
  refine ⟨?_, spaced_nil⟩
  split
  · rw [spaced_sym (by decide)]
    refine ⟨?_, spaced_nil⟩
    rintro _ ⟨⟩
    decide
  · exact Sealed.word (by decide) (.separated h) _ (.some (by decide))

end Sealed

/-! ## Trees -/

/-- The words of a tree are set apart, and so is an expression from what may follow it. -/
theorem Block.Printable.spaced {d : Demand} {around : List Body} {b : Block}
    (h : b.Printable d around) : ∀ depth next, Spaced .lua (b.fragments depth) next := by
  refine @Block.Printable.rec d (fun _ e _ => ∀ depth, Sealed (e.fragments depth))
    (fun _ s _ => ∀ depth, Sealed (s.fragments depth))
    (fun _ b _ => ∀ depth next, Spaced .lua (b.fragments depth) next)
    ?nil ?bool ?vararg ?integer ?float ?string ?name ?unary ?binary ?table ?function ?call ?index
    ?paren ?breakLoop ?label ?goto ?doBlock ?whileLoop ?repeatLoop ?conditional ?numericFor
    ?genericFor ?assign ?declare ?localFunction ?callStat ?importCall ?importNames ?switch ?block
    around b h
  case nil => exact fun _ _ => .sym (by decide)
  case bool => rintro _ (_ | _) _ _ <;> exact .sym (by decide)
  case vararg => exact fun _ _ => .loose (by decide) .nil
  case integer =>
    intro _ value _ _ _
    have text := numeralText_toString value.toInt.natAbs
    rw [Exp.fragments]
    unfold integerFragments
    split
    · refine .opening (by decide) (.number text) fun next c among => ?_
      obtain ⟨d, first, leads⟩ := text.leads (.nil .synthetic)
      exact Option.mem_unique (firstChar_number first) among ▸ leads.minus rfl
    · exact .number text
  case float =>
    intro _ value _ unsigned _ _
    rw [Exp.fragments]
    split
    next finite => exact .number (Binary64.text_finite unsigned finite)
    next infinite => exact .ident (Binary64.text_infinite unsigned (by simpa using infinite))
  case string => exact fun text _ _ => .string text
  case name => exact fun _ identifier _ => Sealed.ident identifier
  case unary =>
    intro _ op operand _ signs printable inner depth
    have inner := inner depth
    have leads := printable.leads depth
    rw [Exp.fragments]
    refine .closed (by decide) ?_
    cases op with
    | not => exact .loose (by decide) (.word (by decide) inner)
    | len => exact .loose (by decide) (.loose (by decide) inner)
    | neg =>
      exact .loose (by decide) (inner.before (by decide) leads fun _ leads => leads.minus (signs rfl))
    | bnot => exact .loose (by decide) (inner.before (by decide) leads fun _ leads => leads.tilde)
  case binary =>
    intro _ left right op _ _ _ first second depth
    have word : op.token ∈ TokenKind.symbols ++ TokenKind.luaKeywords := by cases op <;> decide
    rw [Exp.fragments]
    exact .closed (by decide)
      (.thenSpace (.loose (by decide) (first depth)) (.word word (second depth)))
  case table =>
    intro _ keys values _ _ _ printable _ first second depth
    rw [Exp.fragments, keysFragments_eq, expsFragments_eq]
    refine .closed (by decide) (.loose (by decide) (.separated fun fs among => ?_))
    rw [← List.map_uncurry_zip_eq_zipWith] at among
    obtain ⟨⟨key, value⟩, member, rfl⟩ := List.mem_map.1 among
    obtain ⟨k, v⟩ := List.of_mem_zip member
    obtain ⟨e, own, rfl⟩ := List.mem_map.1 v
    obtain ⟨written, listed, rfl⟩ := List.mem_map.1 k
    refine .field (e := written.getD (.nil .synthetic)) (fun fs same => ?_) (second e own depth)
    cases written with
    | none => cases same
    | some key =>
      cases same
      exact ⟨first key listed depth, (printable key listed).leads depth⟩
  case function =>
    intro _ params block isVararg isMethod owner name _ names _ body depth
    refine .opening (by decide) (.body names isVararg isMethod owner name (body (depth + 1))) ?_
    intro next c among
    rw [Option.mem_unique among (firstChar_sym rfl)]
    decide
  case call =>
    intro _ callee method args _ _ names _ _ first rest depth
    rw [Exp.fragments, Call.fragments, expsFragments_eq]
    exact .closed (by decide) (.thenSym (by decide) ((first depth).method names)
      (.loose (by decide) (.separated (.exps fun e among => rest e among depth))))
  case index =>
    intro _ object key _ _ _ printable first second depth
    rw [Exp.fragments]
    exact .closed (by decide) (.thenSym (by decide) (first depth) ((second depth).before (by decide)
      (printable.leads depth) fun _ leads => leads.lbracket))
  case paren =>
    intro _ inner _ _ same depth
    exact .closed (by decide) (.loose (by decide) (same depth))
  case breakLoop => exact fun _ _ _ => .sym (by decide)
  case label =>
    intro _ name _ identifier _
    have written : Sealed [ident name] := .ident identifier
    exact .loose (by decide) (written.thenSym (by decide) (.loose (by decide) .nil))
  case goto => exact fun _ identifier _ => Sealed.word (by decide) (.ident identifier)
  case doBlock =>
    intro _ body _ _ same depth
    rw [Stat.fragments]
    exact .enclosed (by decide) (same (depth + 1)) (.sym (by decide))
  case whileLoop =>
    intro _ condition body _ _ _ first second depth
    rw [Stat.fragments]
    exact .thenSpace (.word (by decide) (first depth))
      (.enclosed (by decide) (second (depth + 1)) (.sym (by decide)))
  case repeatLoop =>
    intro _ condition body _ _ _ first second depth
    rw [Stat.fragments]
    exact .enclosed (by decide) (second (depth + 1)) (.word (by decide) (first depth))
  case conditional =>
    intro _ branches _ _ _ _ conditions bodies depth
    rw [Stat.fragments, Conditional.fragments, branchesFragments_eq]
    exact .chain (by decide) (fun b among => conditions b among depth)
      fun b among => bodies b among (depth + 1)
  case numericFor =>
    intro _ var init limit step body _ identifier _ _ _ _ first second third fourth depth
    rw [Stat.fragments]
    have name : Sealed [ident var.name] := .ident identifier
    exact .thenSpace (.thenSym (by decide) (.thenSym (by decide) (.word (by decide)
      (name.thenSpace (.word (by decide) (first depth))))
      (.loose (by decide) (.space (second depth)))) (.loose (by decide) (.space (third depth))))
      (.enclosed (by decide) (fourth (depth + 1)) (.sym (by decide)))
  case genericFor =>
    intro _ vars iterables body _ _ names _ _ _ first second depth
    rw [Stat.fragments, expsFragments_eq]
    have vars := Sealed.names names false
    simp only [Bool.false_eq_true, if_false, List.append_nil] at vars
    exact .thenSpace (.thenSpace (.word (by decide) vars)
      (.word (by decide) (.separated (.exps fun e among => first e among depth))))
      (.enclosed (by decide) (second (depth + 1)) (.sym (by decide)))
  case assign =>
    intro _ targets values _ _ _ _ _ _ first second depth
    rw [Stat.fragments, Assignment.fragments, expsFragments_eq, expsFragments_eq]
    exact .thenSpace (.separated (.exps fun e among => first e among depth))
      (.word (by decide) (.separated (.exps fun e among => second e among depth)))
  case declare =>
    intro _ names attrs values _ _ _ identifiers _ _ _ first depth
    rw [Stat.fragments, Declaration.fragments, expsFragments_eq]
    exact .values (.word (by decide) (.marked identifiers))
      (.exps fun e among => first e among depth)
  case localFunction =>
    intro _ name body _ identifier _ function depth
    have inner : Sealed (body.fragments depth) := fun next gentle => (function depth next gentle).2.2
    cases body
    rw [Stat.fragments]
    have written : Sealed [ident name.name] := .ident identifier
    exact .word (by decide) (.word (by decide) (written.thenSym (by decide) inner))
  case callStat => exact fun _ same depth => same depth
  case importCall => exact fun _ same depth => same depth
  case importNames =>
    intro _ declaration _ same depth
    have same := same depth
    simpa only [Stat.fragments] using same
  case switch =>
    intro _ subject cases _ _ _ first second depth
    have first := first depth
    have second := second depth
    simp only [Stat.fragments] at first second ⊢
    intro next gentle
    rw [spaced_append, spaced_newline, spaced_indent]
    exact ⟨first _ (.some (by decide)), second next gentle⟩
  case block =>
    intro _ stats returns _ _ _ _ each values depth next
    have lines := Sealed.stats fun s among => each s among depth
    cases returns with
    | none =>
      rw [Block.fragments]
      exact lines next
    | some es =>
      have values := fun e among => values es rfl e among depth
      rw [Block.fragments, expsFragments_eq, spaced_append]
      exact ⟨lines _, Sealed.returns (.exps values) next⟩

/-- What is set apart from what follows it may also stand at the end of a text. -/
theorem Spaced.atEnd {d : Dialect} {fs : List Fragment} {next : Option Char} (h : Spaced d fs next) :
    Spaced d fs none := by
  induction fs with
  | nil => trivial
  | cons f rest inductionHypothesis =>
    cases f with
    | gap blanks => exact ⟨h.1, inductionHypothesis h.2⟩
    | word w =>
      refine ⟨h.1, fun x first => h.2.1 x ?_, inductionHypothesis h.2.2⟩
      simp_all [firstChar]

theorem Exp.Printable.spaced {d : Demand} {around : List Body} {e : Exp}
    (h : e.Printable d around) (depth : Nat) : Spaced .lua (e.fragments depth) none := by
  have line := h.returned.spaced depth none
  have words : Block.fragments depth ⟨[], some [e], .synthetic⟩ =
      indent depth :: sym .kwReturn :: space :: (e.fragments depth ++ [newline]) := by
    simp [Block.fragments, statsFragments, returnFragments, LuaChunk.separated]
  rw [words, spaced_indent, spaced_sym (by decide), spaced_space, spaced_append] at line
  exact line.2.1.atEnd

end LuaChunk
