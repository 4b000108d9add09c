import ClassLang.Proofs.Interpretation
import ClassLang.Trace

/-!
What is told, and what is done. The rules that tell what happens are the rules
of the grammar, since both are the same shapes. And whatever scanning or parsing
reports is told as an event, in the same order, and no other event is a report.
-/

namespace ClassLang

/-- The report that an event tells of. -/
def Event.diagnostic? : Event → Option Diagnostic
  | lexicalError error offset => some ⟨error.message, offset⟩
  | parseAborted error => some error.toDiagnostic
  | finishedScanning _ _ | parsingClass _ _ | parsingMember _ _ => none

namespace Noted

variable {α β : Type}

/-- What is done, apart from what is told. -/
def rule (noted : Noted α) : Rule α := fun tokens => (noted tokens).2

theorem interprets_rule : Interprets fun {α} (noted : Noted α) => noted.rule where
  pure _ := rfl
  bind first next := by
    funext tokens
    change (andThen first next tokens).2 =
      EStateM.bind first.rule (fun value => (next value).rule) tokens
    unfold andThen EStateM.bind rule
    obtain ⟨events, _ | _⟩ := first tokens <;> rfl
  read _ := rfl
  note _ _ := rfl

theorem rule_program : program.rule = Rule.program := by
  unfold program classDecl member
  rw [interprets_rule.program, interprets_rule.classDecl, interprets_rule.untilClose,
    interprets_rule.member]
  rfl

/-- No event that is told is a report. -/
def ReportsNothing (noted : Noted α) : Prop :=
  ∀ tokens, (noted tokens).1.filterMap Event.diagnostic? = []

theorem reportsNothing_quiet (rule : Rule α) : (quiet rule).ReportsNothing := fun _ => rfl

theorem ReportsNothing.bind {first : Noted α} {next : α → Noted β}
    (hfirst : first.ReportsNothing) (hnext : ∀ value, (next value).ReportsNothing) :
    (first >>= next).ReportsNothing := by
  intro tokens
  have hevents := hfirst tokens
  change (andThen first next tokens).1.filterMap _ = []
  unfold andThen
  rcases hrun : first tokens with ⟨events, ⟨value, rest⟩ | ⟨thrown, rest⟩⟩
  · rw [hrun] at hevents
    have hmore := hnext value rest
    exact List.filterMap_append.trans (List.append_eq_nil_iff.mpr ⟨hevents, hmore⟩)
  · rwa [hrun] at hevents

theorem ReportsNothing.note {event : Event} {next : Noted α} (hevent : event.diagnostic? = none)
    (hnext : next.ReportsNothing) : (ReadsTokens.note event next : Noted α).ReportsNothing :=
  fun tokens => (List.filterMap_cons_none hevent).trans (hnext tokens)

theorem ReportsNothing.collect {step : Noted (Option α)} (hstep : step.ReportsNothing) :
    (Shape.collect step).ReportsNothing := by
  have honce {more : Noted (List α)} (hmore : more.ReportsNothing) :
      (Shape.collectOnce step more).ReportsNothing := by
    apply hstep.bind
    intro answer
    cases answer with
    | none => exact reportsNothing_quiet _
    | some first => exact hmore.bind fun others => reportsNothing_quiet _
  apply (reportsNothing_quiet _).bind
  intro budget
  induction budget with
  | nil => exact honce (reportsNothing_quiet _)
  | cons _ budget ih => exact honce ih

theorem reportsNothing_member : member.ReportsNothing := by
  apply (reportsNothing_quiet _).bind
  rintro (_ | ⟨first, rest⟩)
  · exact reportsNothing_quiet _
  dsimp only
  cases MemberForm.ofTokens? (first :: rest) with
  | none => exact reportsNothing_quiet _
  | some form => cases form <;> exact .note rfl (reportsNothing_quiet _)

theorem reportsNothing_classDecl : classDecl.ReportsNothing := by
  have hmembers : (Shape.untilClose .closeBrace member).ReportsNothing := by
    refine .bind (.collect ?_) fun members =>
      (reportsNothing_quiet _).bind fun _ => reportsNothing_quiet _
    apply (reportsNothing_quiet _).bind
    intro tokens
    split
    · exact reportsNothing_quiet _
    · exact reportsNothing_member.bind fun _ => reportsNothing_quiet _
  refine (reportsNothing_quiet _).bind fun _ => (reportsNothing_quiet _).bind fun name => ?_
  refine (reportsNothing_quiet _).bind fun parent => .note rfl ?_
  refine (reportsNothing_quiet _).bind fun _ => hmembers.bind fun members => ?_
  exact reportsNothing_quiet _

theorem reportsNothing_program : program.ReportsNothing := by
  refine .bind (.collect ?_) fun classes => ?_
  · apply (reportsNothing_quiet _).bind
    intro tokens
    split
    · exact reportsNothing_quiet _
    · exact reportsNothing_classDecl.bind fun _ => reportsNothing_quiet _
  · split <;> exact reportsNothing_quiet _

end Noted

theorem PlacedPiece.diagnostic?_of_event? (placed : PlacedPiece) :
    placed.event?.bind Event.diagnostic? = placed.diagnostic? := by
  unfold event? diagnostic?
  cases placed.piece.lexeme.error? <;> rfl

/-- What an action reports of itself, it tells. -/
theorem Session.diagnostics_of_events (session : Session) {action : Action}
    (h : ∀ diagnostic, action ≠ .report diagnostic) :
    (session.events action).filterMap Event.diagnostic? = session.entries action := by
  cases action with
  | report diagnostic => exact absurd rfl (h diagnostic)
  | scan source =>
      change (scanEvents source).filterMap _ = (scan source).diagnostics
      unfold scanEvents
      rw [List.filterMap_append, List.filterMap_filterMap,
        funext PlacedPiece.diagnostic?_of_event?]
      exact List.append_nil _
  | parse =>
      change (parseEvents session.tokens).filterMap _ = _
      unfold parseEvents entries
      rw [List.filterMap_append, Noted.reportsNothing_program, List.nil_append]
      cases parse session.tokens <;> rfl

end ClassLang
