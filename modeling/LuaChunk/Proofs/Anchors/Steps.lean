import LuaChunk.Proofs.Anchors.Basic

/-!
# Places of tokens and complaints

A token that is taken stands where the next token was, and none of its errors waits any longer.  A
complaint about what has been taken comes before all errors that wait.  Only two complaints are about
the token ahead: one stops the analysis, and the other may come before an error that starts where it
does.
-/

set_option autoImplicit false

namespace LuaChunk

namespace Mark

/-- The token taken last is the one that was ahead. -/
@[grind =]
def Took (m m' : Mark) (t : Token) : Prop := t.span = m'.now ∧ m'.now.start = m.front

/-- The span has been taken, and the last token does not start before it does. -/
@[grind =]
def Covers (m : Mark) (s : Span) : Prop :=
  .start ≤ s.start ∧ s.start ≤ m.now.start ∧ s.start ≤ s.stop ∧ s.stop ≤ m.now.stop

end Mark

/-- It is neither lexical nor about a file. -/
def Cause.isSyntactic : Cause → Bool
  | .lexical _ | .unreadable _ => false
  | _ => true

theorem Diagnostic.not_of_isSyntactic {d : Diagnostic} (h : d.cause.isSyntactic = true) :
    d.isLexical = false ∧ d.isUnreadable = false := by
  obtain ⟨cause, span, overflow⟩ := d
  cases cause <;> first | exact ⟨rfl, rfl⟩ | cases h

namespace Parser

open Session

variable {α β : Type} {d : Dialect} {stop : Position} {m : Mark}

/-! ## Taking tokens -/

/-- Taking a token ends with all of its errors recorded and with the session grounded again. -/
theorem drain_reports {s : Session} (h : s.Grounded d stop) {taken left : List LexicalError}
    (queue : s.tokens.next.2.pending = taken ++ left)
    (tidy : TokenStream.Tidy { s.tokens.next.2 with pending := left })
    (fair : (mark { s with tokens := s.tokens.next.2 }).Fair stop)
    (passed : ∀ e ∈ TokenStream.waiting { s.tokens.next.2 with pending := left },
      s.tokens.next.2.now.start < e.span.start) :
    Reports d stop
      (recordAll taken { s with tokens := { s.tokens.next.2 with pending := left } })
      fun _ t => t.Grounded d stop ∧ t.mark = mark { s with tokens := s.tokens.next.2 } := by
  have account : account { s with tokens := s.tokens.next.2 } = s.account := by
    simp [Session.account, TokenStream.waiting_next]
  refine (recordAll_reports (s := { s with tokens := s.tokens.next.2 }) queue
    (account ▸ h.report)).mono ?_
  rintro _ ⟨settings, tokens, scopes, log, depth⟩ ⟨rfl, rfl, errors⟩
  refine ⟨⟨h.dialect, tidy, ?_, fair, passed, ?_⟩, rfl⟩
  · exact s.tokens.final_next ▸ h.final
  · have same : Session.account ⟨s.settings, { s.tokens.next.2 with pending := left }, scopes, log,
        depth⟩ = s.account := by
      rw [← account]
      simp only [Session.account, TokenStream.waiting, queue]
      rw [show log.diagnostics.toList = _ from errors]
      simp [Session.errors]
    exact same ▸ h.report

theorem next_reports {s : Session} (h : s.Grounded d stop) :
    Reports d stop (next s) fun t s' =>
      s'.Grounded d stop ∧ s.mark.Leads stop s'.mark ∧ s.mark.Took s'.mark t := by
  have fair := h.fair
  have between := h.tidy.front_between
  have now := s.tokens.now_next
  unfold next
  refine Reports.bind (Q := fun t s' => t = s.tokens.next.1 ∧
    s' = { s with tokens := s.tokens.next.2 }) ⟨rfl, rfl⟩ ?_
  rintro _ _ ⟨rfl, rfl⟩
  let m := mark { s with tokens := s.tokens.next.2 }
  have ending (leads : s.mark.Leads stop m) (took : s.mark.Took m s.tokens.next.1) (t : Session)
      (result : t.Grounded d stop ∧ t.mark = m) : Reports d stop ((pure s.tokens.next.1 : Parser _) t)
        fun t s' => s'.Grounded d stop ∧ s.mark.Leads stop s'.mark ∧ s.mark.Took s'.mark t :=
    ⟨result.1, result.2 ▸ leads, result.2 ▸ took⟩
  cases ahead : s.tokens.ahead with
  | nil =>
    obtain ⟨token, last⟩ := TokenStream.next_of_ahead_eq_nil ahead
    obtain ⟨tidy, none⟩ := h.tidy.finish ahead
    have front : s.mark.front = stop := by
      simp [mark, Session.front, TokenStream.upcoming, ahead, h.final]
    have there : m = ⟨⟨stop, stop⟩, stop⟩ := by
      simp [m, mark, Session.front, TokenStream.upcoming, last, now, token, h.final,
        TokenStream.final_next]
    have leads : s.mark.Leads stop m := by grind [Mark.Known, Mark.Steps]
    have took : s.mark.Took m s.tokens.next.1 := by grind [h.final]
    rw [if_pos (token ▸ h.tidy.found.final_kind)]
    refine Reports.bind (Q := fun errors s' => errors = s.tokens.next.2.pending ∧
      s' = { s with tokens := { s.tokens.next.2 with pending := [] } }) ⟨rfl, rfl⟩ ?_
    rintro _ _ ⟨rfl, rfl⟩
    exact (drain_reports h (List.append_nil _).symm tidy leads.2.1 (by simp [none])).bind
      fun _ => ending leads took
  | cons r rest =>
    obtain ⟨token, -, -⟩ := TokenStream.next_of_ahead_eq_cons ahead
    obtain ⟨after, taken, left, queue, cut, tidy⟩ := h.tidy.next ahead
    have width := h.tidy.found.start_lt r.token (by simp [ahead])
    have place : m.now = r.token.span := now.trans (congrArg Token.span token)
    have low : r.token.span.stop ≤ m.front := after ▸ tidy.front_between.1
    have high : m.front ≤ stop := by
      have inside : m.front ≤ s.tokens.next.2.final.token.span.stop :=
        Position.le_trans tidy.front_between.2.1 tidy.front_between.2.2
      rwa [TokenStream.final_next, h.final] at inside
    have front : s.mark.front = r.token.span.start := by
      simp [mark, Session.front, TokenStream.upcoming, ahead]
    have leads : s.mark.Leads stop m := by grind [Mark.Known, Mark.Steps]
    have took : s.mark.Took m s.tokens.next.1 := by grind
    rw [if_neg (token ▸ h.tidy.found.not_eof _ (by simp [ahead]))]
    rw [← token] at cut
    refine Reports.bind (Q := fun _ t => t.Grounded d stop ∧ t.mark = m) ?_ fun _ => ending leads took
    rw [syncBefore_of_cut cut]
    refine drain_reports h queue tidy leads.2.1 fun e waits => ?_
    rw [now, token]
    exact Position.lt_of_lt_of_le width (after ▸ (tidy.lie e waits).low_le)

namespace Anchors

variable {p : Parser α} {P : Mark → α → Prop}

theorem next : Anchors d stop m next fun m' t => m.Took m' t := by
  rintro s grounded rfl
  exact next_reports grounded

/-! ## Complaints -/

/-- A complaint about what has been taken is recorded before all errors that wait. -/
theorem complain {cause : Cause} {span : Span} {f : Unit → Parser α}
    (syntactic : cause.isSyntactic = true) (covers : m.Covers span)
    (h : Anchors d stop m (f ()) P) : Anchors d stop m (complain cause span >>= f) P := by
  refine still (T := fun _ => True) (fun s grounded same => ?_) fun _ _ => h
  obtain ⟨lexical, unreadable⟩ :=
    Diagnostic.not_of_isSyntactic (d := { cause := cause, span := span }) syntactic
  have fair := grounded.fair
  rw [same] at fair
  have later : ∀ e ∈ s.tokens.waiting, span.start < e.span.start := by
    have passed := grounded.passed
    have now : s.tokens.now = m.now := congrArg Mark.now same
    grind
  have none : s.tokens.takeErrorsBefore span.start.nextColumn = ([], s.tokens) :=
    TokenStream.takeErrorsBefore_none fun e among early =>
      Position.not_le.2 (later e (List.mem_append_left _ among)) (Position.lt_nextColumn_iff.1 early)
  have points : Diagnostic.Points stop { cause := cause, span := span } :=
    ⟨unreadable, by grind⟩
  have report := grounded.report.insert points lexical fun first e rest split start =>
    absurd start (Position.not_le.2 (later e (split ▸ by simp)))
  have synced : syncBefore span.start.nextColumn s = .ok () s := syncBefore_of_cut none
  have only : Parser.complain cause span s = record { cause := cause, span := span } s := by
    change EStateM.bind (syncBefore span.start.nextColumn) _ s = _
    unfold EStateM.bind
    rw [synced]
  rw [only]
  rw [List.append_cons] at report
  refine (record_reports report.append_left).mono ?_
  rintro _ _ rfl
  refine ⟨⟨⟨grounded.dialect, grounded.tidy, grounded.final, grounded.fair, grounded.passed, ?_⟩,
    same⟩, trivial⟩
  simpa [account, ErrorLog.push] using report

theorem throw (abort : Abort) : Anchors d stop m (throw abort : Parser α) P :=
  fun _ grounded _ => grounded.errors

theorem expect (kind : TokenKind) :
    Anchors d stop m (expect kind) fun m' t => m.Took m' t :=
  bind next fun m' t leads took => ite (fun _ => complain rfl (by grind) (pure fun _ => took))
    fun _ => pure fun _ => took

theorem expectName : Anchors d stop m expectName fun m' t => m.Took m' t :=
  bind next fun m' t leads took => ite (fun _ => complain rfl (by grind) (pure fun _ => took))
    fun _ => pure fun _ => took

theorem accept (kind : TokenKind) :
    Anchors d stop m (accept kind) fun m' taken => ∀ t, taken = some t → m.Took m' t :=
  peek fun _ => ite (fun _ => map next fun _ _ _ took => by grind) fun _ => pure fun _ => nofun

theorem accepts (kind : TokenKind) : Stays d stop m (accepts kind) :=
  map (accept kind) fun _ _ _ _ => trivial

theorem head {f : Span → Parser α}
    (h : ∀ s : Span, s.start = m.front → .start ≤ s.start → Anchors d stop m (f s) P) :
    Anchors d stop m (Parser.head >>= f) P := by
  refine still (T := fun s => s.start = m.front ∧ .start ≤ s.start) (fun s grounded same => ?_)
    fun s first => h s first.1 first.2
  obtain ⟨kept, same'⟩ := grounded.look 1
  exact ⟨⟨kept, same'.trans same⟩, congrArg Mark.front same, grounded.fair.2.2.2.1⟩

end Anchors

/-! ## Complaints about the token ahead -/

/-- A complaint about the token ahead, with the errors that are recorded before it. -/
theorem complain_head_reports {s : Session} (h : s.Grounded d stop) {cause : Cause} {place : Span}
    (syntactic : cause.isSyntactic = true) (ahead : place = (s.tokens.upcoming 0).token.span) :
    Reports d stop (complain cause place s) fun _ t =>
      ∃ taken left, s.tokens.pending = taken ++ left ∧
        s.tokens.takeErrorsBefore place.start.nextColumn =
          (taken, { s.tokens with pending := left }) ∧
        t.settings = s.settings ∧ t.tokens = { s.tokens with pending := left } ∧
        t.errors = s.errors ++ taken.map (·.diagnostic) ++ [{ cause := cause, span := place }] ∧
        Diagnostic.Points stop { cause := cause, span := place } ∧ Report d stop t.errors := by
  obtain ⟨lexical, unreadable⟩ :=
    Diagnostic.not_of_isSyntactic (d := { cause := cause, span := place }) syntactic
  obtain ⟨taken, left, queue, cut, -⟩ :=
    s.tokens.takeErrorsBefore_cases place.start.nextColumn
  have points : Diagnostic.Points stop { cause := cause, span := place } := by
    have between := h.tidy.front_between
    have front := h.fair.2.2.2.1
    rw [h.final, ← ahead] at between
    refine ⟨unreadable, ?_, between.2⟩
    rw [show s.mark.front = (s.tokens.upcoming 0).token.span.start from rfl, ← ahead] at front
    exact front
  have first : Report d stop (s.errors ++ taken.map (·.diagnostic)) := by
    have report := h.report
    simp only [account, TokenStream.waiting, queue, List.append_assoc, List.map_append] at report
    rw [← List.append_assoc] at report
    exact report.append_left
  have last := first.concat points lexical
  refine Reports.bind (Q := fun _ t => t.settings = s.settings ∧
    t.tokens = { s.tokens with pending := left } ∧
    t.errors = s.errors ++ taken.map (·.diagnostic)) ?_ ?_
  · rw [syncBefore_of_cut cut]
    exact recordAll_reports queue h.report
  · rintro _ t ⟨settings, tokens, errors⟩
    rw [← errors] at last
    refine (record_reports last).mono ?_
    rintro _ _ rfl
    refine ⟨taken, left, queue, cut, settings, tokens, ?_, points, ?_⟩
    · rw [← errors]
      simp [Session.errors, ErrorLog.push]
    · simpa [Session.errors, ErrorLog.push] using last

/-- A complaint that an assignment is missing may come before the error of a whole string, if that has
two errors before it. -/
theorem missing_reports {s : Session} (h : s.Grounded d stop) (looked : 0 < s.tokens.seen)
    (lua : d = .lua) (near : String) {place : Span}
    (ahead : place = (s.tokens.upcoming 0).token.span) :
    Reports d stop (complain (.expected .assign near) place s) fun _ t =>
      t.Grounded d stop ∧ t.mark = s.mark := by
  refine (complain_head_reports h rfl ahead).mono ?_
  rintro _ ⟨settings, tokens, scopes, log, depth⟩
    ⟨taken, left, queue, cut, rfl, rfl, errors, points, _⟩
  let rest := TokenStream.waiting { s.tokens with pending := left }
  have waiting : s.tokens.waiting = taken ++ rest := by
    simp only [rest, TokenStream.waiting, queue, List.append_assoc]
  have before : Report d stop (s.errors ++ taken.map (·.diagnostic) ++ rest.map (·.diagnostic)) := by
    rw [List.append_assoc, ← List.map_append, ← waiting]
    exact h.report
  have after := before.insert points rfl fun first e later split start => by
    rw [ahead] at cut start
    obtain ⟨fault, same, enough, escapes⟩ := h.tidy.left_errors looked queue cut split start
    refine ⟨lua, ⟨near, rfl⟩, congrArg Cause.lexical fault, same.trans ahead.symm, ?_⟩
    have all : ((taken ++ first).map (·.diagnostic)).countP (·.isEscapeIn e.span) =
        (taken ++ first).length := by
      rw [List.countP_map, List.countP_eq_length]
      intro x among
      obtain ⟨escape, inside⟩ := escapes x among
      simp [LexicalError.diagnostic, Diagnostic.isEscapeIn, escape, inside]
    refine Nat.le_trans (all ▸ enough) (List.Sublist.countP_le ?_)
    rw [List.map_append]
    exact (List.sublist_append_right _ _).append (List.sublist_cons_self _ _)
  refine ⟨⟨h.dialect, h.tidy.drop queue, h.final, h.fair, fun e waits => ?_, ?_⟩, rfl⟩
  · exact h.passed e (waiting ▸ List.mem_append_right taken waits)
  · rw [List.append_cons, ← errors] at after
    exact after

namespace Anchors

theorem tooDeep {P : Mark → α → Prop} : Anchors d stop m (tooDeep : Parser α) P := by
  rintro s grounded rfl
  obtain ⟨deeper, -⟩ := grounded.congr { s with depth := s.depth + 1 } rfl rfl rfl
  obtain ⟨looked, -⟩ := deeper.look 1
  refine Reports.bind (Q := fun _ t => t = { s with depth := s.depth + 1 }) rfl ?_
  rintro _ _ rfl
  refine Reports.bind (Q := fun place t => t = { s with
    depth := s.depth + 1, tokens := s.tokens.look 1 } ∧
    place = (s.tokens.upcoming 0).token.span) ⟨rfl, rfl⟩ ?_
  rintro place _ ⟨rfl, ahead⟩
  refine (complain_head_reports looked rfl (by simpa using ahead)).bind ?_
  rintro _ t ⟨_, _, _, _, _, _, _, _, report⟩
  exact report

theorem missing {f : Unit → Parser α} {P : Mark → α → Prop} (lua : d = .lua)
    (h : Anchors d stop m (f ()) P) :
    Anchors d stop m (do
      let token ← Parser.peekToken 0
      Parser.complain (.expected .assign token.near) token.span
      f ()) P := by
  rintro s grounded same
  obtain ⟨looked, same'⟩ := grounded.look 1
  have seen : 0 < (s.tokens.look 1).seen := by
    rw [TokenStream.seen_look]
    omega
  refine Reports.bind (Q := fun token t => t = { s with tokens := s.tokens.look 1 } ∧
    token = (s.tokens.upcoming 0).token) ⟨rfl, rfl⟩ ?_
  rintro _ _ ⟨rfl, rfl⟩
  refine (missing_reports looked seen lua _ (by simp)).bind fun _ t ⟨kept, still⟩ => ?_
  exact h t kept (still.trans (same'.trans same))

end Anchors

end Parser

end LuaChunk
