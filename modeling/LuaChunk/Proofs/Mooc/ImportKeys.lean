import LuaChunk.Proofs.Diagnostics.Records
import LuaChunk.Proofs.Replay.Chunk
import Mathlib.Data.List.ReduceOption

/-!
# Braced imports

`import n₁, …, nₖ from src { K }` binds each name to a member of a library or table.  The list of keys
is read place by place, with commas between the places: a place may be empty, and the first one asks
for the members named like the locals if it is.  Nothing but the number of values is checked in the
end.
-/

set_option autoImplicit false

open LuaChunk.Parser

namespace LuaChunk

/-! ## Lists of keys -/

/-- The words between the braces: keys, and commas. -/
abbrev KeyWords := List (Option String)

namespace KeyWords

/-- The keys that are written. -/
def keys (ks : KeyWords) : List String := ks.reduceOption

def BeginsWithKey (ks : KeyWords) : Prop := ks.head?.join.isSome = true

instance (ks : KeyWords) : Decidable ks.BeginsWithKey := inferInstanceAs (Decidable (_ = true))

/-- There is a comma between any two keys. -/
def Separated (ks : KeyWords) : Prop := ks.IsChain fun x y => x = none ∨ y = none

instance (ks : KeyWords) : Decidable ks.Separated := inferInstanceAs (Decidable (List.IsChain _ _))

/-- What is read as keys for the names: there are commas between the keys, and either no key is
written, or a key stands first and there are as many keys as names. -/
structure Fits (ks : KeyWords) (names : List String) : Prop where
  separated : ks.Separated
  complete : ks.keys = [] ∨ ks.BeginsWithKey ∧ ks.keys.length = names.length

/-- The members that the names are bound to. -/
def members (ks : KeyWords) (names : List String) : List String :=
  if ks.keys = [] then names else ks.keys

/-- The members that an empty first place asks for. -/
def defaults (ks : KeyWords) (names : List String) : List String :=
  if ks.BeginsWithKey then [] else names

@[simp]
theorem separated_none_cons {ks : KeyWords} : Separated (none :: ks) ↔ ks.Separated := by
  cases ks <;> simp [Separated]

@[simp]
theorem separated_some_none_cons {key : String} {ks : KeyWords} :
    Separated (some key :: none :: ks) ↔ ks.Separated := by
  rw [Separated, List.isChain_cons_cons]
  exact (and_iff_right (.inr rfl)).trans separated_none_cons

theorem keys_ne_nil {ks : KeyWords} (h : ks.BeginsWithKey) : ks.keys ≠ [] := by
  cases ks with
  | nil => cases h
  | cons x ks =>
    cases x with
    | none => cases h
    | some key => exact List.cons_ne_nil _ _

/-- There are as many values as names only if the keys fit. -/
theorem length_defaults_iff {ks : KeyWords} {names : List String} :
    (ks.defaults names ++ ks.keys).length = names.length ↔
      ks.keys = [] ∨ ks.BeginsWithKey ∧ ks.keys.length = names.length := by
  unfold defaults
  by_cases begins : ks.BeginsWithKey
  · simp [begins, keys_ne_nil begins]
  · simp [begins]

theorem defaults_append_keys {ks : KeyWords} {names : List String} (fits : ks.Fits names) :
    ks.defaults names ++ ks.keys = ks.members names := by
  unfold defaults members
  rcases fits.complete with none | ⟨begins, -⟩
  · have other : ¬ ks.BeginsWithKey := fun begins => keys_ne_nil begins none
    simp [none, other]
  · simp [begins, keys_ne_nil begins]

/-- The words that a loop over the places takes in front of another kind of token. -/
inductive TakenBefore (next : TokenKind) : KeyWords → Prop
  | nothing : next ≠ .identifier → next ≠ .comma → TakenBefore next []
  | last (key : String) : next ≠ .comma → TakenBefore next [some key]
  | key (key : String) {ks : KeyWords} : TakenBefore next ks →
      TakenBefore next (some key :: none :: ks)
  | empty {ks : KeyWords} : TakenBefore next ks → TakenBefore next (none :: ks)

theorem TakenBefore.of_separated : ∀ {ks : KeyWords}, ks.Separated → TakenBefore .rbrace ks
  | [], _ => .nothing (by decide) (by decide)
  | none :: _, separated => .empty (of_separated (separated_none_cons.1 separated))
  | [some name], _ => .last name (by decide)
  | some name :: none :: _, separated =>
    .key name (of_separated (separated_some_none_cons.1 separated))
  | some _ :: some _ :: _, separated => by simp [Separated] at separated

/-- Where two keys touch the loop stops between them. -/
theorem TakenBefore.of_not_separated : ∀ {ks : KeyWords}, ¬ ks.Separated →
    ∃ taken key rest, ks = taken ++ some key :: rest ∧ TakenBefore .identifier taken
  | [], touching => absurd .nil touching
  | none :: ks, touching => by
    obtain ⟨taken, key, rest, rfl, before⟩ := of_not_separated (mt separated_none_cons.2 touching)
    exact ⟨none :: taken, key, rest, rfl, before.empty⟩
  | [some _], touching => absurd (.singleton _) touching
  | some first :: none :: ks, touching => by
    obtain ⟨taken, key, rest, rfl, before⟩ :=
      of_not_separated (mt separated_some_none_cons.2 touching)
    exact ⟨some first :: none :: taken, key, rest, rfl, before.key first⟩
  | some first :: some name :: rest, _ => ⟨[some first], name, rest, rfl, .last first (by decide)⟩

/-- The words are as they are meant to be: none at all, or as many keys as names with single commas
between them. -/
def Proper (ks : KeyWords) (names : List String) : Prop :=
  ks = [] ∨ ks = (ks.keys.map some).intersperse none ∧ ks.keys.length = names.length

instance (ks : KeyWords) (names : List String) : Decidable (ks.Proper names) :=
  inferInstanceAs (Decidable (_ ∨ _))

theorem separated_intersperse (keys : List String) :
    Separated ((keys.map some).intersperse none) := by
  induction keys with
  | nil => exact .nil
  | cons key keys inductionHypothesis =>
    cases keys with
    | nil => exact .singleton _
    | cons next keys => simpa using inductionHypothesis

/-- Words as they are meant to be fit. -/
theorem Proper.fits {ks : KeyWords} {names : List String} (proper : ks.Proper names) :
    ks.Fits names := by
  rcases proper with rfl | ⟨whole, length⟩
  · exact ⟨.nil, .inl rfl⟩
  · refine ⟨whole ▸ separated_intersperse _, ?_⟩
    cases keys : ks.keys with
    | nil => exact .inl rfl
    | cons key rest =>
      refine .inr ⟨?_, keys ▸ length⟩
      rw [keys] at whole
      rw [whole]
      cases rest <;> simp [BeginsWithKey]

/-- The token of a word. -/
def token : Option String → Token
  | some key => .name key
  | none => .sign .comma

def tokens (ks : KeyWords) : List Token := ks.map token

end KeyWords

/-! ## Texts that are complained of -/

namespace Parser

variable {α β : Type}

/-- From before a text a diagnostic is recorded, whether the run is stopped or not. -/
def Complains (c : Backdrop) (σ : ScopeStack) (ts : List Token) (p : Parser α) : Prop :=
  ∀ s : Session, s.Awaits c σ ts → s.errors.length < (last (p s)).errors.length

namespace Complains

variable {c : Backdrop} {σ σ' : ScopeStack} {t : Token} {ts ts' : List Token} {p : Parser α}
  {f : α → Parser β} {P : α → Prop}

/-- What is read first is read without complaint. -/
theorem after (h : Crosses c σ ts p σ' ts' P) (k : ∀ a, P a → Complains c σ' ts' (f a)) :
    Complains c σ ts (p >>= f) := by
  intro s awaits
  obtain ⟨a, u, run, result, later⟩ := h s awaits
  have same : s.errors = u.errors := congrArg (·.diagnostics.toList) (awaits.log.trans later.log.symm)
  rw [bind_of_ok run, same]
  exact k a result u later

/-- What cannot return without having recorded something. -/
theorem of_records (h : Records (fun _ => True) p fun _ _ => False) : Complains c σ ts p := by
  intro s _
  have more := ((h s).2 trivial).resolve_right fun ⟨_, _, _, no⟩ => no
  simpa only [Session.errors, Array.length_toList] using more

/-- What is read first is complained of. -/
theorem before (h : Complains c σ ts p) (k : ∀ a, Grows (f a)) : Complains c σ ts (p >>= f) := by
  intro s awaits
  have first := h s awaits
  have count (t : Session) : t.errors.length = noted t := Array.length_toList
  rw [count, count] at first ⊢
  cases run : p s with
  | ok a u =>
    rw [run] at first
    rw [bind_of_ok run]
    exact Nat.lt_of_lt_of_le first (k a u).1
  | error _ u =>
    rw [run] at first
    rw [bind_of_error run]
    exact first

theorem complain (cause : Cause) (span : Span) : Complains c σ ts (complain cause span) :=
  of_records (.complain cause span)

/-- What is complained of before the reading is stopped. -/
theorem stop {cause : Cause} {span : Span} {g : Unit → Parser α}
    (keeps : ∀ s, noted s ≤ noted (last (g () s))) :
    Complains c σ ts (Parser.complain cause span >>= g) :=
  of_records (.stop keeps)

theorem nested (h : Complains c σ ts p) : Complains c σ ts (nested p) := by
  intro s awaits
  have inner := h _ (awaits.withDepth (s.depth + 1))
  unfold Parser.nested
  cases run : p { s with depth := s.depth + 1 } <;>
  · rw [run] at inner
    exact inner

/-- Another token stands where one is expected. -/
theorem expect {kind : TokenKind} (other : t.kind ≠ kind) :
    Complains c σ (t :: ts) (Parser.expect kind) := by
  have taken : Crosses c σ (t :: ts) Parser.next σ ts (· = t) := .alone (.next (.pure rfl))
  refine after taken fun _ same => ?_
  rw [same, if_pos other]
  exact before (complain _ _) fun _ => .pure t

end Complains

/-! ## Reading of keys -/

section Keys

variable {source : ImportSource} {names : List String} {params : List Param} {ks : KeyWords}
  {values : Array Exp} {before : List String} {isFirst : Bool}

/-- One place in a list of keys. -/
def keyPlace (source : ImportSource) (params : List Param) (values : Array Exp) (isFirst : Bool) :
    Parser (Array Exp) := do
  match ← accept .identifier with
  | some key => pure (values.push (source.member key.text key.span))
  | none =>
    if isFirst then
      let span ← now
      pure (values ++ (params.map fun name => source.member name.name span))
    else pure values

theorem moreKeys_eq (source : ImportSource) (params : List Param) (values : Array Exp)
    (isFirst : Bool) : moreKeys source params (values, isFirst) = (do
      let values ← keyPlace source params values isFirst
      if ← accepts .comma then return .yield (values, false) else return .done (values, false)) := by
  unfold moreKeys keyPlace
  simp only [bind_assoc]
  refine bind_congr fun found => ?_
  cases found with
  | some => rfl
  | none => cases isFirst <;> rfl

/-- A member, wherever it is asked for. -/
def unplacedMember (source : ImportSource) (key : String) : Exp :=
  (source.member key .synthetic).unplaced

/-- The values are the members of these names. -/
def Members (source : ImportSource) (keys : List String) (values : Array Exp) : Prop :=
  values.toList.map Exp.unplaced = keys.map (unplacedMember source)

theorem Members.size {keys : List String} (read : Members source keys values) :
    values.size = keys.length := by
  simpa using congrArg List.length read

theorem Members.push {key : String} (read : Members source before values) (span : Span) :
    Members source (before ++ [key]) (values.push (source.member key span)) := by
  unfold Members at *
  rw [Array.toList_push, List.map_append, List.map_append, read]
  exact congrArg (_ ++ [·]) (member_unplaced ..)

theorem Members.append (read : Members source before values) (span : Span) :
    Members source (before ++ params.map (·.name))
      (values ++ (params.map fun name => source.member name.name span)) := by
  unfold Members at *
  rw [Array.toList_appendList, List.map_append, List.map_append, read, List.map_map, List.map_map]
  exact congrArg (_ ++ ·) (List.map_congr_left fun name _ => member_unplaced ..)

namespace Crosses

variable {c : Backdrop} {σ σ' : ScopeStack} {ts ts' : List Token}

theorem placeKey {key : String} {span : Span} (read : Members source before values) :
    Crosses c σ (⟨.identifier, key, span⟩ :: ts) (keyPlace source params values isFirst) σ ts
      (Members source (before ++ [key])) := by
  unfold keyPlace
  exact .accept rfl (.pure (read.push span))

theorem placeEmpty (other : c.facing ts ≠ .identifier) (read : Members source before values) :
    Crosses c σ ts (keyPlace source params values isFirst) σ ts
      (Members source (before ++ if isFirst then params.map (·.name) else [])) := by
  unfold keyPlace
  refine .acceptNone other ?_
  cases isFirst with
  | true => exact .now fun span => .pure (read.append span)
  | false => exact .pure (by simpa using read)

/-- The round of a place with a comma behind it. -/
theorem keyRound {keys : List String} {comma : Token}
    (place : Crosses c σ ts (keyPlace source params values isFirst) σ (comma :: ts')
      (Members source keys)) (kind : comma.kind = .comma) :
    Crosses c σ ts (Parser.moreKeys source params (values, isFirst)) σ ts' fun next =>
      ∃ read, next = .yield read ∧ read.2 = false ∧ Members source keys read.1 := by
  rw [moreKeys_eq]
  exact place.bind fun values read => .accepts kind (.pure ⟨_, rfl, rfl, read⟩)

/-- The round of the last place. -/
theorem lastKeyRound {keys : List String}
    (place : Crosses c σ ts (keyPlace source params values isFirst) σ ts' (Members source keys))
    (other : c.facing ts' ≠ .comma) :
    Crosses c σ ts (Parser.moreKeys source params (values, isFirst)) σ ts' fun next =>
      ∃ read, next = .done read ∧ Members source keys read.1 := by
  rw [moreKeys_eq]
  exact place.bind fun values read => .acceptsNone other (.pure ⟨_, rfl, read⟩)

/-- All places that a loop takes. -/
theorem moreKeys (taken : ks.TakenBefore (c.facing ts')) (same : SameText .lua ks.tokens ts)
    (read : Members source before values) :
    Rounds c σ (ts ++ ts') (Parser.moreKeys source params) (values, isFirst) σ ts' fun result =>
      Members source (before ++ ((if isFirst then ks.defaults (params.map (·.name)) else []) ++
        ks.keys)) result.1 := by
  induction taken generalizing ts values before isFirst with
  | nothing noKey noComma =>
    obtain rfl := same.nil
    refine .done ((lastKeyRound (placeEmpty noKey read) noComma).mono ?_)
    rintro _ ⟨result, rfl, read⟩
    exact ⟨result, rfl, by simpa [KeyWords.keys, KeyWords.defaults, KeyWords.BeginsWithKey] using read⟩
  | last key noComma =>
    obtain ⟨span, _, rfl, none⟩ := same.name
    obtain rfl := none.nil
    refine .done ((lastKeyRound (placeKey read) noComma).mono ?_)
    rintro _ ⟨result, rfl, read⟩
    exact ⟨result, rfl, by simpa [KeyWords.keys, KeyWords.defaults, KeyWords.BeginsWithKey] using read⟩
  | key key taken inductionHypothesis =>
    obtain ⟨span, _, rfl, others⟩ := same.name
    obtain ⟨comma, ts, rfl, kind, rest⟩ := others.cons
    refine .yield (keyRound (placeKey read) kind) (by simp) ?_
    rintro ⟨values, _⟩ ⟨rfl, read⟩ clock enough
    refine (inductionHypothesis rest read clock enough).mono fun result read => ?_
    simpa [KeyWords.keys, KeyWords.defaults, KeyWords.BeginsWithKey] using read
  | empty taken inductionHypothesis =>
    obtain ⟨comma, ts, rfl, kind, rest⟩ := same.cons
    have other : c.facing (comma :: (ts ++ ts')) ≠ .identifier := by
      rw [Backdrop.facing_cons, show comma.kind = .comma from kind]
      decide
    refine .yield (keyRound (placeEmpty other read) kind) (by simp) ?_
    rintro ⟨values, _⟩ ⟨rfl, read⟩ clock enough
    refine (inductionHypothesis rest read clock enough).mono fun result read => ?_
    simpa [KeyWords.keys, KeyWords.defaults, KeyWords.BeginsWithKey] using read

variable {start : Span} {closing : Token}

/-- Keys that fit the names are read as as many members. -/
theorem importKeys (fits : ks.Fits (params.map (·.name))) (same : SameText .lua ks.tokens ts)
    (closes : closing.kind = .rbrace) :
    Crosses c σ (ts ++ closing :: ts') (Parser.importKeys source params start) σ ts' fun values =>
      values.map Exp.unplaced =
        (ks.members (params.map (·.name))).map (unplacedMember source) := by
  have taken : ks.TakenBefore (c.facing (closing :: ts')) := by
    rw [Backdrop.facing_cons, closes]
    exact .of_separated fits.separated
  unfold Parser.importKeys
  refine (iterate (moreKeys taken same (show Members source [] #[] from rfl))).bind fun read known => ?_
  obtain ⟨values, isFirst⟩ := read
  refine .expect closes ?_
  rw [List.nil_append, if_pos rfl] at known
  have size : values.size = params.length := by
    rw [known.size, KeyWords.length_defaults_iff.2 fits.complete, List.length_map]
  rw [KeyWords.defaults_append_keys fits] at known
  dsimp only
  rw [if_neg (not_not.2 size)]
  exact .pure known

end Crosses

namespace Complains

variable {c : Backdrop} {σ : ScopeStack} {ts ts' : List Token} {start : Span} {closing : Token}

/-- Keys that do not fit are complained of: where two of them touch, or where their number is
found. -/
theorem importKeys (unfit : ¬ ks.Fits (params.map (·.name))) (same : SameText .lua ks.tokens ts)
    (closes : closing.kind = .rbrace) :
    Complains c σ (ts ++ closing :: ts') (Parser.importKeys source params start) := by
  have counted (values : Array Exp) : Grows (do
      if values.size ≠ params.length then
        Parser.complain .importCount (← Parser.since start)
        throw (.invariant Cause.importCount.message)
      return values.toList : Parser (List Exp)) :=
    Steps.ite (.bind (Grows.steps.since _) fun _ => Records.stop fun _ => Nat.le_refl _) (.pure _)
  unfold Parser.importKeys
  by_cases separated : ks.Separated
  · have taken : ks.TakenBefore (c.facing (closing :: ts')) := by
      rw [Backdrop.facing_cons, closes]
      exact .of_separated separated
    refine after (.iterate (.moreKeys taken same (show Members source [] #[] from rfl)))
      fun read known => ?_
    obtain ⟨values, isFirst⟩ := read
    refine after (.alone (.expect closes (.pure rfl))) fun _ _ => ?_
    rw [List.nil_append, if_pos rfl] at known
    have size : values.size ≠ params.length := by
      intro size
      refine unfit ⟨separated, KeyWords.length_defaults_iff.1 ?_⟩
      rw [← known.size, size, List.length_map]
    dsimp only
    rw [if_pos size]
    have told : Crosses c σ ts' (Parser.since start) σ ts' fun _ => True :=
      .alone (.since fun _ => .pure trivial)
    exact after told fun span _ => stop fun _ => Nat.le_refl _
  · obtain ⟨first, key, rest, rfl, taken⟩ := KeyWords.TakenBefore.of_not_separated separated
    rw [KeyWords.tokens, List.map_append, List.map_cons] at same
    obtain ⟨ts, left, rfl, read, others⟩ := same.append
    obtain ⟨span, left, rfl, -⟩ := others.name
    rw [List.append_assoc]
    refine after (.iterate (.moreKeys taken read (show Members source [] #[] from rfl)))
      fun read _ => ?_
    exact before (expect (show TokenKind.identifier ≠ .rbrace by decide)) fun _ => counted _

end Complains

end Keys

/-! ## The statement -/

end Parser

/-- The next token, at whichever place. -/
theorem SameText.word {d : Dialect} {x : Token} {ys ts : List Token} (h : SameText d (x :: ys) ts) :
    ∃ span ws, ts = ⟨x.kind, x.text, span⟩ :: ws ∧ SameText d ys ws := by
  have words := h.words
  obtain ⟨⟨kind, text, span⟩, ws, rfl, -, rest⟩ := h.cons
  obtain ⟨rfl, rfl⟩ := Word.mk.inj (List.cons.inj words).1
  exact ⟨span, ws, rfl, rest⟩

/-- A string or a name. -/
def ImportSource.token : ImportSource → Token
  | library name => ⟨.string, name, .synthetic⟩
  | table name => .name name

/-- `n₁, …, nₖ` -/
def nameTokens (first : String) (more : List String) : List Token :=
  .name first :: more.flatMap fun name => [.sign .comma, .name name]

/-- `import n₁, …, nₖ from src { K }` -/
def importTokens (first : String) (more : List String) (source : ImportSource) (ks : KeyWords) :
    List Token :=
  .sign .kwImport :: (nameTokens first more ++ [.sign .kwFrom, source.token] ++
    .sign .lbrace :: (ks.tokens ++ [.sign .rbrace]))

/-- The names of an import, bound to members in turn. -/
def Stat.importOf (names : List String) (source : ImportSource) (members : List String) : Stat :=
  .importNames
    { names := names.map fun name => ⟨name, .synthetic⟩
      attrs := names.map fun _ => .regular
      values := members.map fun key => source.member key .synthetic
      span := .synthetic }

namespace Parser

variable {c : Backdrop} {σ : ScopeStack} {ts ts' : List Token} {first : String} {more : List String}
  {source : ImportSource} {ks : KeyWords}

namespace Crosses

theorem noAttr (other : c.facing ts ≠ .less) : Crosses c σ ts Parser.attr σ ts (· = .regular) := by
  unfold Parser.attr
  exact .acceptsNone other (.pure rfl)

/-- Names without attributes. -/
theorem attrNames (same : SameText .lua (nameTokens first more) ts)
    (noComma : c.facing ts' ≠ .comma) (noAttr' : c.facing ts' ≠ .less) :
    Crosses c σ (ts ++ ts') Parser.attrNames σ ts' fun read =>
      read.1.map (·.name) = first :: more ∧ read.2 = (first :: more).map fun _ => .regular := by
  have rounds {first : String} {more : List String} {ts : List Token} {read : AttrNames}
      (same : SameText .lua (nameTokens first more) ts) :
      Rounds c σ (ts ++ ts') moreAttrNames read σ ts' fun result =>
        result.names.toList.map (·.name) = read.names.toList.map (·.name) ++ first :: more ∧
        result.attrs.toList = read.attrs.toList ++ (first :: more).map fun _ => .regular := by
    induction more generalizing first ts read with
    | nil =>
      obtain ⟨span, _, rfl, none⟩ := same.name
      obtain rfl := none.nil
      refine .done ?_
      unfold moreAttrNames
      refine .expectName rfl ((noAttr noAttr').bind ?_)
      rintro _ rfl
      refine .acceptsNone noComma (.pure ⟨_, rfl, ?_, ?_⟩) <;> simp
    | cons next more inductionHypothesis =>
      obtain ⟨span, _, rfl, others⟩ := same.name
      obtain ⟨comma, ts, rfl, kind, rest⟩ := others.cons
      have other : c.facing (comma :: (ts ++ ts')) ≠ .less := by
        rw [Backdrop.facing_cons, show comma.kind = .comma from kind]
        decide
      have round : Crosses c σ (⟨.identifier, first, span⟩ :: comma :: (ts ++ ts'))
          (moreAttrNames read) σ (ts ++ ts') fun next => ∃ result, next = .yield result ∧
            result.names.toList.map (·.name) = read.names.toList.map (·.name) ++ [first] ∧
            result.attrs.toList = read.attrs.toList ++ [.regular] := by
        unfold moreAttrNames
        refine .expectName rfl ((noAttr other).bind ?_)
        rintro _ rfl
        refine .accepts kind (.pure ⟨_, rfl, ?_, ?_⟩) <;> simp
      refine .yield round (by simp) fun result known clock enough => ?_
      refine (inductionHypothesis rest clock enough).mono fun result' known' => ?_
      simpa [known.1, known.2] using known'
  unfold Parser.attrNames
  refine (iterate (rounds same)).map fun read known => ?_
  simpa using known

/-- A string or a name tells where the names come from. -/
theorem importSource (span : Span) :
    Crosses c σ ts (Parser.importSource ⟨source.token.kind, source.token.text, span⟩) σ ts
      (· = source) := by
  unfold Parser.importSource
  cases source with
  | library name => exact .pure rfl
  | table name => exact .pure rfl

end Crosses

/-- What an import of names reads up to its keys. -/
def importHead : Parser (Span × (List Param × List Attribute) × Token × Token × ImportSource) := do
  let start ← head
  let names ← attrNames
  let word ← expect .kwFrom
  let token ← next
  let source ← importSource token
  return (start, names, word, token, source)

/-- The values that an import of names gives them. -/
def importValues (start : Span) (names : List Param) (word token : Token) (source : ImportSource) :
    Parser (List Exp) := do
  if ← accepts .lbrace then importKeys source names start
  else return [importWhole source word token]

/-- What an import of names reads from its keys on. -/
def importTail (start : Span) (names : List Param × List Attribute) (word token : Token)
    (source : ImportSource) : Parser Stat := do
  let values ← importValues start names.1 word token source
  return .importNames { names := names.1, attrs := names.2, values, span := ← since start }

theorem importStat_eq : importStat = (do
    let keyword ← next
    if (← peek) = .string then
      let library ← next
      return .importCall (.require library.text keyword.span library.span)
        (keyword.span.merge library.span)
    let (start, names, word, token, source) ← importHead
    importTail start names word token source) := by
  have chosen (found : Bool) (p q : Parser (List Exp)) (f : List Exp → Parser Stat) :
      (if found then p else q) >>= f = if found then p >>= f else q >>= f := by
    cases found <;> rfl
  simp only [importStat, importHead, importTail, importValues, bind_assoc, pure_bind, chosen]

namespace Crosses

theorem importHead
    (same : SameText .lua (nameTokens first more ++ [.sign .kwFrom, source.token]) ts) :
    Crosses c σ (ts ++ ts') Parser.importHead σ ts' fun (_, names, _, _, found) =>
      (names.1.map (·.name) = first :: more ∧ names.2 = (first :: more).map fun _ => .regular) ∧
        found = source := by
  obtain ⟨ns, origin, rfl, names, others⟩ := same.append
  obtain ⟨word, origin, rfl, kind, others⟩ := others.cons
  obtain ⟨span, _, rfl, none⟩ := others.word
  obtain rfl := none.nil
  have kwFrom : word.kind = .kwFrom := kind
  rw [List.append_assoc]
  unfold Parser.importHead
  refine .head fun start => (attrNames names ?_ ?_).bind fun names known => .expect kind (.next ?_)
  · rw [List.cons_append, Backdrop.facing_cons, kwFrom]
    decide
  · rw [List.cons_append, Backdrop.facing_cons, kwFrom]
    decide
  · exact (importSource span).bind fun found same => .pure ⟨known, same⟩

theorem importTail {names : List Param × List Attribute} {start : Span} {word token : Token}
    (known : names.1.map (·.name) = first :: more ∧
      names.2 = (first :: more).map fun _ => .regular) (fits : ks.Fits (first :: more))
    (same : SameText .lua (.sign .lbrace :: (ks.tokens ++ [.sign .rbrace])) ts) :
    Crosses c σ (ts ++ ts') (Parser.importTail start names word token source) σ ts' fun s =>
      s.unplaced = (Stat.importOf (first :: more) source (ks.members (first :: more))).unplaced := by
  obtain ⟨opening, _, rfl, opens, others⟩ := same.cons
  obtain ⟨keys, _, rfl, words, last⟩ := others.append
  obtain ⟨closing, _, rfl, closes, none⟩ := last.cons
  obtain rfl := none.nil
  obtain ⟨params, attrs⟩ := names
  obtain ⟨named, rfl⟩ := known
  rw [← named] at fits ⊢
  have values : Crosses c σ (opening :: (keys ++ closing :: ts'))
      (Parser.importValues start params word token source) σ ts' fun values =>
        values.map Exp.unplaced =
          (ks.members (params.map (·.name))).map (unplacedMember source) :=
    .accepts opens (importKeys fits words closes)
  unfold Parser.importTail
  rw [List.cons_append, List.append_assoc]
  refine values.bind fun values read => .since fun _ => .pure ?_
  simp [Stat.importOf, read, Param.recast, unplacedMember]

end Crosses

theorem Complains.importTail {names : List Param × List Attribute} {start : Span}
    {word token : Token} (known : names.1.map (·.name) = first :: more)
    (unfit : ¬ ks.Fits (first :: more))
    (same : SameText .lua (.sign .lbrace :: (ks.tokens ++ [.sign .rbrace])) ts) :
    Complains c σ (ts ++ ts') (Parser.importTail start names word token source) := by
  obtain ⟨opening, _, rfl, opens, others⟩ := same.cons
  obtain ⟨keys, _, rfl, words, last⟩ := others.append
  obtain ⟨closing, _, rfl, closes, none⟩ := last.cons
  obtain rfl := none.nil
  rw [← known] at unfit
  have opened : Crosses c σ (opening :: (keys ++ closing :: ts')) (accepts .lbrace) σ
      (keys ++ closing :: ts') (· = true) := .alone (.accepts opens (.pure rfl))
  have values : Complains c σ (opening :: (keys ++ closing :: ts'))
      (Parser.importValues start names.1 word token source) := by
    refine after opened fun found yes => ?_
    rw [yes, if_pos rfl]
    exact importKeys unfit words closes
  unfold Parser.importTail
  rw [List.cons_append, List.append_assoc, List.singleton_append]
  exact before values fun _ => .bind (Grows.steps.since _) fun _ => .pure _

section Statement

variable {σ' : ScopeStack} {n : Nat} {P : Stat → Prop}

theorem Crosses.importing (mooc : c.settings.dialect = .mooc) (begins : c.facing ts = .kwImport)
    (h : Crosses c σ ts importStat σ' ts' P) :
    Crosses c σ ts (Rules.level (n + 1)).stat σ' ts' P := by
  have falls : Crosses c σ ts (Parser.stat (.level n)) σ' ts' P := by
    unfold Parser.stat moocStat
    refine .isMooc ?_
    rw [mooc]
    refine .peek ?_
    rw [begins]
    exact h
  exact .nested falls

theorem Complains.importing (mooc : c.settings.dialect = .mooc) (begins : c.facing ts = .kwImport)
    (h : Complains c σ ts importStat) : Complains c σ ts (Rules.level (n + 1)).stat := by
  have asked : Crosses c σ ts isMooc σ ts (· = (c.settings.dialect == .mooc)) :=
    .alone (.isMooc (.pure rfl))
  have told : Crosses c σ ts peek σ ts (· = .kwImport) := .alone (.peek (.pure begins))
  have falls : Complains c σ ts (Parser.stat (.level n)) := by
    unfold Parser.stat moocStat
    refine after asked fun _ same => ?_
    rw [same, mooc]
    refine after told fun _ same => ?_
    rw [same]
    exact h
  exact nested falls

/-- Keys that fit the names are read as members that these are bound to. -/
theorem Crosses.importStat (same : SameText .lua (importTokens first more source ks) ts)
    (fits : ks.Fits (first :: more)) :
    Crosses c σ (ts ++ ts') Parser.importStat σ ts' fun s =>
      s.unplaced = (Stat.importOf (first :: more) source (ks.members (first :: more))).unplaced := by
  obtain ⟨word, _, rfl, kind, others⟩ := same.cons
  obtain ⟨head, tail, rfl, names, keys⟩ := others.append
  obtain ⟨span, names', rfl, -⟩ := names.name
  have isName : c.facing (⟨.identifier, first, span⟩ :: names' ++ (tail ++ ts')) ≠ .string :=
    show TokenKind.identifier ≠ .string by decide
  rw [importStat_eq, List.cons_append, List.append_assoc]
  refine .next (.peek ?_)
  rw [if_neg isName]
  exact (importHead names).bind fun _ known => known.2 ▸ importTail known.1 fits keys

/-- Keys that do not fit the names are complained of. -/
theorem Complains.importStat (same : SameText .lua (importTokens first more source ks) ts)
    (unfit : ¬ ks.Fits (first :: more)) :
    Complains c σ (ts ++ ts') Parser.importStat := by
  obtain ⟨word, _, rfl, kind, others⟩ := same.cons
  obtain ⟨head, tail, rfl, names, keys⟩ := others.append
  obtain ⟨span, names', rfl, -⟩ := names.name
  have isName : c.facing (⟨.identifier, first, span⟩ :: names' ++ (tail ++ ts')) ≠ .string :=
    show TokenKind.identifier ≠ .string by decide
  have taken : Crosses c σ (word :: (⟨.identifier, first, span⟩ :: names' ++ (tail ++ ts')))
      Parser.next σ (⟨.identifier, first, span⟩ :: names' ++ (tail ++ ts')) fun _ => True :=
    .alone (.next (.pure trivial))
  have told : Crosses c σ (⟨.identifier, first, span⟩ :: names' ++ (tail ++ ts')) Parser.peek σ
      (⟨.identifier, first, span⟩ :: names' ++ (tail ++ ts')) (· ≠ .string) :=
    .alone (.peek (.pure isName))
  rw [importStat_eq, List.cons_append, List.append_assoc]
  refine after taken fun _ _ => after told fun _ other => ?_
  rw [if_neg other]
  exact after (.importHead names) fun _ known => importTail known.1.1 unfit keys

end Statement

end Parser

namespace Session

variable {c : Settings} {σ : ScopeStack} {log : ErrorLog} {rest ts : List Token} {n : Nat}
  {s : Session} {first : String} {more : List String} {source : ImportSource} {ks : KeyWords}

/-- **Keys of an import.**  Mooc reads `import n₁, …, nₖ from src { K }` without complaint if the
keys `K` fit the names, and otherwise reports an error.  The names are bound to the members of the
library or table that the keys name, or if there are none to those that they name themselves. -/
theorem stat_import_keys (mooc : c.dialect = .mooc)
    (text : SameText .lua (importTokens first more source ks) ts)
    (before : s.Awaits ⟨c, log, rest⟩ σ ts) :
    (ks.Fits (first :: more) → ∃ a t, (Rules.level (n + 1)).stat s = .ok a t ∧
      t.errors = s.errors ∧ t.Awaits ⟨c, log, rest⟩ σ [] ∧ a.unplaced =
        (Stat.importOf (first :: more) source (ks.members (first :: more))).unplaced) ∧
    (¬ ks.Fits (first :: more) →
      s.errors.length < (last ((Rules.level (n + 1)).stat s)).errors.length) := by
  let behind : Backdrop := ⟨c, log, rest⟩
  obtain ⟨word, ts, rfl, kind, -⟩ := text.cons
  rw [← List.append_nil (word :: ts)] at before
  have begins : behind.facing (word :: ts ++ []) = .kwImport := kind
  refine ⟨fun fits => ?_, fun unfit => ?_⟩
  · obtain ⟨a, t, run, known, after⟩ :=
      Crosses.importing (n := n) mooc begins (.importStat text fits) s before
    refine ⟨a, t, run, ?_, after, known⟩
    rw [Session.errors, Session.errors, after.log, before.log]
  · exact Complains.importing (n := n) mooc begins (.importStat text unfit) s before

/-- `import a, b from "l" { x, y }` binds `a` and `b` to the members `x` and `y`, and one more key
is an error. -/
theorem stat_import_keys_two :
    let settings := Settings.forChunk "a.mooc"
    let s := opened "import a, b from \"l\" \x7b x, y \x7d".toUTF8.toList "a.mooc" settings
    let s' := opened "import a, b from \"l\" \x7b x, y, z \x7d".toUTF8.toList "a.mooc" settings
    (∃ a t, (Rules.level 200).stat s = .ok a t ∧ t.errors = [] ∧
      a.unplaced = (Stat.importOf ["a", "b"] (.library "l") ["x", "y"]).unplaced) ∧
    s'.errors.length < (last ((Rules.level 200).stat s')).errors.length := by
  intro settings s s'
  have mooc : settings.dialect = .mooc := by decide +kernel
  have lexed : tokenize "import a, b from \"l\" \x7b x, y \x7d".toUTF8.toList settings.dialect =
      .ok (s.tokens.ahead.map (·.token)) := tokenize_eq_ok.2 ⟨by decide +kernel, rfl⟩
  have lexed' : tokenize "import a, b from \"l\" \x7b x, y, z \x7d".toUTF8.toList settings.dialect =
      .ok (s'.tokens.ahead.map (·.token)) := tokenize_eq_ok.2 ⟨by decide +kernel, rfl⟩
  obtain ⟨a, t, run, quiet, -, known⟩ := (@stat_import_keys _ _ _ _ _ 199 _ "a" ["b"] (.library "l")
    [some "x", none, some "y"] mooc
    ⟨by decide +kernel, fun other => by cases other⟩ (opened_awaits lexed).1).1
    ⟨by decide, by decide⟩
  refine ⟨⟨a, t, run, quiet, known⟩, (@stat_import_keys _ _ _ _ _ 199 _ "a" ["b"] (.library "l")
    [some "x", none, some "y", none, some "z"] mooc
    ⟨by decide +kernel, fun other => by cases other⟩ (opened_awaits lexed').1).2 fun fits => ?_⟩
  exact absurd fits.complete (by decide)

/-- A comma after the last key, or alone between the braces, is read over. -/
theorem analyze_import_commas :
    let errors (src : String) :=
      (start src.toUTF8.toList "a.mooc" (.forChunk "a.mooc")).analyze.1.errors
    ¬ KeyWords.Proper [some "b", none] ["a"] ∧ errors "import a from \"l\" \x7b b, \x7d" = [] ∧
      ¬ KeyWords.Proper [none] ["a"] ∧ errors "import a from \"l\" \x7b , \x7d" = [] := by
  decide +kernel

end Session

end LuaChunk
