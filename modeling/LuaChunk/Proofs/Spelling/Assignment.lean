import LuaChunk.Proofs.Spelling.Expression

/-!
# Assignments and local names are spelled by the tokens taken
-/

set_option autoImplicit false

namespace LuaChunk.Parser

variable {c : Text} {r : Rules}

/-! ## Local names -/

theorem attr_reads : Reads c attr fun i a o => Spells i (.attr a) o := by
  have close (a : Attribute) : Reads c (do let _ ← expect .greater; return a) _ :=
    ((expect_reads .greater).bind fun _ => .pure a)
  refine Reads.mono ((accepts_reads .less).bind fun taken => .ite (P := (!taken) = true)
    (fun _ => .pure _) fun _ => expectName_reads.bind fun name => .ite
      (fun _ => close .const) fun _ => .ite (fun _ => close .close) fun _ =>
      complain_bind_reads ((Reads.pure Attribute.regular).bind close)) ?_
  rintro i a o ⟨_, j, ⟨rfl, t, less⟩ | ⟨rfl, rfl, _⟩, ⟨way, rfl, rfl⟩ | ⟨_, n, k, name, way⟩⟩
  · cases way
  · rcases way with ⟨word, u, _, greater, rfl, rfl⟩ | ⟨_, ⟨word, u, _, greater, rfl, rfl⟩ | ⟨_, ⟨⟩⟩⟩
    · exact .attr less name greater (by rw [word]; rfl)
    · exact .attr less name greater (by rw [word]; rfl)
  · exact .noAttr
  · contradiction

theorem moreAttrNames_reads (read : AttrNames) :
    Reads c (moreAttrNames read) fun m next o =>
      ∃ n k a l, Takes .identifier m n k ∧ Spells k (.attr a) l ∧
        (a = .close → read.hasClose = false) ∧
        ∃ y : AttrNames, y.names = read.names.push ⟨n.text, n.span⟩ ∧ y.attrs = read.attrs.push a ∧
          y.hasClose = (read.hasClose || a == .close) ∧ AfterComma y l next o := by
  refine Reads.mono (expectName_reads.bind fun _ => attr_reads.bind fun _ => .ite
    (fun _ => now_reads.bind fun _ => complain_bind_reads (afterComma_reads _))
    fun _ => afterComma_reads _) ?_
  rintro m next o ⟨n, k, name, a, l, attr, ⟨_, _, _, _, ⟨⟩⟩ | ⟨alone, turn⟩⟩
  have single (closed : a = .close) : read.hasClose = false := by simpa [closed] using alone
  exact ⟨n, k, a, l, name, attr, single, _, rfl, rfl, rfl, turn⟩

/-- The names read end at the place after a comma, and one to be closed has been marked. -/
def AttrNames.Before (i : Place c) (read : AttrNames) (m : Place c) : Prop :=
  (read = {} ∧ m = i) ∨
    ∃ j t, Spells i (.attrNames read.names.toList read.attrs.toList) j ∧ Takes .comma j t m ∧
      (.close ∈ read.attrs → read.hasClose = true)

theorem AttrNames.Before.push {read y : AttrNames} {i m k l : Place c} {n : Token} {a : Attribute}
    (before : read.Before i m) (name : Takes .identifier m n k) (attr : Spells k (.attr a) l)
    (single : a = .close → read.hasClose = false)
    (names : y.names = read.names.push ⟨n.text, n.span⟩) (attrs : y.attrs = read.attrs.push a) :
    Spells i (.attrNames y.names.toList y.attrs.toList) l := by
  rw [names, attrs]
  rcases before with ⟨rfl, rfl⟩ | ⟨j, t, spelled, comma, marked⟩
  · exact .oneAttrName name attr
  · have alone (closed : a = .close) : .close ∉ read.attrs.toList := by
      intro among
      have twice := (single closed).symm.trans (marked (Array.mem_toList_iff.1 among))
      cases twice
    simpa using spelled.moreAttrNames comma name attr alone

theorem AttrNames.Before.marked {read y : AttrNames} {i m : Place c} {a : Attribute}
    (before : read.Before i m) (attrs : y.attrs = read.attrs.push a)
    (hasClose : y.hasClose = (read.hasClose || a == .close)) (among : .close ∈ y.attrs) :
    y.hasClose = true := by
  rw [attrs, Array.mem_push] at among
  rw [hasClose, Bool.or_eq_true]
  rcases among with earlier | rfl
  · rcases before with ⟨rfl, rfl⟩ | ⟨_, _, _, _, marked⟩
    · simp at earlier
    · exact .inl (marked earlier)
  · exact .inr rfl

theorem attrNames_reads :
    Reads c attrNames fun i read o => Spells i (.attrNames read.1 read.2) o := by
  refine Reads.mono ((Reads.iterate (J := fun i read o => AttrNames.Before i read o)
    moreAttrNames_reads (fun _ => .inl ⟨rfl, rfl⟩) ?_ ?_).bind fun _ => .pure _) ?_
  · rintro i read m y o before ⟨n, k, a, l, name, attr, single, y', names, attrs, hasClose,
      ⟨t, equality, comma⟩ | ⟨⟨⟩, _⟩⟩
    cases equality
    exact .inr ⟨l, t, before.push name attr single names attrs, comma,
      before.marked attrs hasClose⟩
  · rintro read m y o ⟨n, k, a, l, name, attr, _, _, _, _, _, ⟨t, _, comma⟩ | ⟨⟨⟩, _⟩⟩
    have := name.length (by decide)
    have := attr.length_le
    have := comma.length_le
    omega
  · rintro i result o ⟨_, _, ⟨read, m, before, n, k, a, l, name, attr, single, y, names, attrs, _,
      ⟨_, ⟨⟩, _⟩ | ⟨equality, rfl⟩⟩, rfl, rfl⟩
    cases equality
    exact before.push name attr single names attrs

theorem localDecl_reads (h : r.Reads c) (start : Span) :
    Reads c (localDecl r start) fun j s o => ∀ i t, Takes .kwLocal i t j → start = t.span →
      Spells i (.stat s) o := by
  refine Reads.mono (attrNames_reads.bind fun _ => accepts_join_reads .assign
    (expList_reads h) (.pure _) fun _ => (since_reads start).map _) ?_
  rintro j s o ⟨⟨names, attrs⟩, k, spelled, values, l, init, _, rfl, rfl, rfl⟩ i t word
    rfl
  rcases init with ⟨u, m, assign, given⟩ | ⟨_, rfl, rfl⟩
  · exact .localDecl word spelled (.values assign given)
  · exact .localDecl word spelled .noValues

/-! ## Assignments -/

theorem target_reads (e : Exp) :
    Reads c (target e) fun m t o => t = e ∧ o = m ∧ (e.isBad = false → e.IsTarget) := by
  unfold target
  split
  · exact (Reads.pure _).mono fun _ _ _ ⟨same, still⟩ => ⟨same, still, fun _ => .name _ _⟩
  · exact (Reads.pure _).mono fun _ _ _ ⟨same, still⟩ => ⟨same, still, fun _ => .index _ _ _⟩
  · exact (Reads.pure _).mono fun _ _ _ ⟨same, still⟩ => ⟨same, still, nofun⟩
  · exact Reads.mono (complain_bind_reads (.pure _)) fun _ _ _ => False.elim

theorem prefixExp_isBad {i o : Place c} {e : Exp} (h : Spells i (.prefixExp e) o) :
    e.isBad = false := by
  cases h <;> rfl

theorem targets_reads (h : r.Reads c) (first : Exp) :
    Reads c (iterate #[first] (moreTargets r)) fun i targets o =>
      ∃ rest, targets.toList = first :: rest ∧ Spells i (.targets rest) o := by
  have round (targets : Array Exp) := accepts_bind_reads (c := c) .comma
    ((prefixExp_reads h).bind fun e =>
      (target_reads e).map fun t => ForInStep.yield (targets.push t))
    (.pure (ForInStep.done targets))
  refine Reads.mono (Reads.iterate (J := fun i (targets : Array Exp) o =>
    ∃ rest, targets.toList = first :: rest ∧ Spells i (.targets rest) o) round
    (fun _ => ⟨[], rfl, .noTargets⟩) ?_ ?_) ?_
  · rintro i targets m y o ⟨rest, equality, before⟩
      (⟨t, k, comma, e, n, spelled, _, pushed, rfl, rfl, isTarget⟩ | ⟨_, ⟨⟩, _⟩)
    cases pushed
    exact ⟨rest ++ [_], by simp [equality],
      before.moreTargets comma spelled (isTarget (prefixExp_isBad spelled))⟩
  · rintro targets m y o (⟨t, k, comma, e, n, spelled, _, _, _, rfl, _⟩ | ⟨_, ⟨⟩, _⟩)
    have := comma.length (by decide)
    have := spelled.length_le
    omega
  · rintro i targets o ⟨_, m, before, ⟨_, _, _, _, _, _, _, ⟨⟩, _⟩ | ⟨_, equality, rfl⟩⟩
    cases equality
    exact before

theorem compound_reads (h : r.Reads c) (start : Span) (op : BinaryOp) (e : Exp) :
    Reads c (compound r start op e) fun i s o => e.IsTarget →
      BinaryOp.ofCompound? i.head.kind = some op → Spells i (.assignRest start e s) o := by
  refine Reads.mono (next_reads.bind fun _ => peek_reads.bind fun kind => .ite
    (P := kind ≠ .assign) (fun _ => (since_reads _).bind fun _ => complain_bind_reads (.pure _))
    fun _ => next_reads.bind fun _ => h.exp.bind fun _ => (since_reads _).map _) ?_
  rintro i s o ⟨t, j, sign, _, _, ⟨rfl, rfl⟩, ⟨_, _, _, _, ⟨⟩⟩ |
    ⟨assign, u, k, taken, value, m, spelled, _, rfl, rfl, rfl⟩⟩ target found
  have found : BinaryOp.ofCompound? t.kind = some op := by rw [sign.token_eq, found]
  exact .compound target found sign (taken.of_kind (Decidable.not_not.1 assign)) spelled

theorem badCompound_reads (h : r.Reads c) (start : Span) : Reads c (badCompound r start) never := by
  have rest : Reads c (do complain .severalCompoundTargets (← since start); return Stat.empty)
      never := by
    refine Reads.mono ((since_reads start).bind fun _ => complain_bind_reads (.pure _)) ?_
    rintro i s o ⟨_, _, _, ⟨⟩⟩
  refine Reads.mono (next_reads.bind fun _ => accepts_bind_reads .assign
    ((expList_reads h).bind fun _ => rest) rest) ?_
  rintro i s o ⟨_, _, _, ⟨_, _, _, _, _, _, ⟨⟩⟩ | ⟨_, ⟨⟩⟩⟩

theorem plainAssign_reads (h : r.Reads c) (start : Span) (targets : List Exp) :
    Reads c (plainAssign r start targets) fun j s o => ∀ i first rest, first.IsTarget →
      targets = first :: rest → Spells i (.targets rest) j →
      Spells i (.assignRest start first s) o := by
  refine Reads.mono (accepts_bind_reads .assign ((expList_reads h).bind fun _ =>
    (since_reads _).bind fun _ => .pure _) (isMooc_reads.bind fun mooc => .ite (P := mooc = true)
    (fun _ => (since_reads _).map _) fun _ => (peekToken_reads 0).bind fun _ =>
      complain_bind_reads (.pure _))) ?_
  rintro j s o (⟨t, k, assign, values, m, spelled, _, _, ⟨rfl, rfl⟩, rfl, rfl⟩ |
    ⟨_, mooc, _, ⟨dialect, rfl⟩, ⟨isMooc, _, rfl, rfl, rfl⟩ | ⟨_, _, _, _, ⟨⟩⟩⟩) i first rest target
    rfl targets
  · exact .plain target targets assign spelled
  · exact .bare (dialect.1 isMooc) target targets

/-- Without a comma nothing has been read after the first target. -/
theorem noTargets_inv {i o : Place c} (h : Spells i (.targets []) o) : o = i := by
  generalize equality : Phrase.targets [] = p at h
  cases h <;> simp_all

theorem assignRest_reads (h : r.Reads c) (start : Span) (first : Exp) :
    Reads c (assignRest r start first) fun i s o =>
      (first.isBad = false) → Spells i (.assignRest start first s) o := by
  refine Reads.mono ((target_reads first).bind fun first => (targets_reads h first).bind
    fun targets => peek_bind_reads (R := fun m s o => ∀ i rest, first.IsTarget →
      targets.toList = first :: rest → Spells i (.targets rest) m →
      Spells i (.assignRest start first s) o) fun kind => ?_) ?_
  · have plain := plainAssign_reads h start targets.toList
    split
    next op e found single =>
      refine Reads.mono (compound_reads h start op e) ?_
      rintro m s o spelled kind i rest target equality before
      rw [single] at equality
      cases equality
      rw [noTargets_inv before] at spelled kind
      exact spelled target (kind ▸ found)
    · refine Reads.mono (isMooc_reads.bind fun mooc => .ite (P := mooc = true) (fun _ => plain)
        fun _ => badCompound_reads h start) ?_
      rintro m s o ⟨_, _, ⟨_, rfl⟩, ⟨_, spelled⟩ | ⟨_, ⟨⟩⟩⟩ kind i rest target equality before
      exact spelled i first rest target equality before
    · refine Reads.mono plain ?_
      rintro m s o spelled kind i rest target equality before
      exact spelled i first rest target equality before
  · rintro i s o ⟨_, _, ⟨rfl, rfl, isTarget⟩, targets, m, ⟨rest, equality, before⟩, related⟩ good
    exact related _ rest (isTarget good) equality before

/-! ## Calls and assignments as statements -/

theorem assignOrCall_reads (h : r.Reads c) :
    Reads c (assignOrCall r) fun i s o => Spells i (.assignOrCall s) o := by
  refine Reads.mono (head_reads.bind fun start => (prefixExp_reads h).bind (T := fun e m s o =>
    ∀ i, start = i.head.span → Spells i (.prefixExp e) m → Spells i (.assignOrCall s) o)
    fun e => ?_) ?_
  · split
    · refine (Reads.pure _).mono ?_
      rintro m s o _ i _ spelled
      cases spelled
    · refine Reads.mono ((since_reads start).map _) ?_
      rintro m s o ⟨_, rfl, rfl, rfl⟩ i rfl spelled
      exact .callStat spelled
    · refine Reads.mono (assignRest_reads h start _) ?_
      rintro m s o rest i rfl spelled
      exact .assignment spelled (rest (prefixExp_isBad spelled))
  · rintro i s o ⟨_, _, ⟨rfl, rfl⟩, e, m, spelled, related⟩
    exact related _ rfl spelled

end LuaChunk.Parser
