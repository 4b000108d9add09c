import ClassLang.Proofs.Parallel
import ClassLang.Session

/-!
One log for many steps. Scanning reports each mistake when it comes to it and
goes on, parsing reports the one that it stops at, and anyone may report besides.
All that any of them does to the log is to add to its end, and none looks at what
it holds. So whatever steps are made, the log holds what each of them adds to an
empty one, one after the other, and each answers as it does over an empty one.
-/

namespace ClassLang

/-- What is done over a log: it answers, and it may report meanwhile. -/
abbrev Reporting := StateM (List Diagnostic)

namespace Reporting

def report (diagnostic : Diagnostic) : Reporting Unit := modify (· ++ [diagnostic])

/-- Come to a piece: its token joins those found so far, or its mistake is
reported. -/
def visit (tokens : List Token) (placed : PlacedPiece) : Reporting (List Token) :=
  match placed.piece.lexeme with
  | .blank => return tokens
  | .token kind => return tokens ++ [⟨kind, placed.offset⟩]
  | .malformed error => do
      report ⟨error.message, placed.offset⟩
      return tokens

def scan (source : String) : Reporting (List Token) :=
  (PlacedPiece.layOut 0 (Piece.all source.toList)).foldlM visit []

def parse (tokens : List Token) : Reporting (Except SyntaxError Program) :=
  match ClassLang.parse tokens with
  | .ok program => return .ok program
  | .error error => do
      report ⟨error.message, error.offset⟩
      return .error error

/-- Parse; all that is reported by then is the answer if it fails. -/
def parseAll (tokens : List Token) : Reporting (Except (List Diagnostic) Program) := do
  match ← parse tokens with
  | .ok program => return .ok program
  | .error _ => return .error (← get)

/-- Scan, and parse if nothing is reported by then. -/
def compile (source : String) : Reporting (Except (List Diagnostic) Program) := do
  let tokens ← scan source
  let reports ← get
  if reports.isEmpty then parseAll tokens else return .error reports

variable {α β : Type}

theorem run_bind (first : Reporting α) (next : α → Reporting β) (log : List Diagnostic) :
    (first >>= next).run log = (next (first.run log).1).run (first.run log).2 := rfl

/-- The action has this answer and adds these entries, whatever the log holds. -/
def Appends (action : Reporting α) (answer : α) (entries : List Diagnostic) : Prop :=
  ∀ log, action.run log = (answer, log ++ entries)

theorem Appends.run_nil {action : Reporting α} {answer : α} {entries : List Diagnostic}
    (h : Appends action answer entries) : action.run [] = (answer, entries) := h []

theorem appends_pure (answer : α) : Appends (pure answer) answer [] := by
  intro log
  rw [List.append_nil]
  rfl

theorem Appends.bind {first : Reporting α} {next : α → Reporting β} {answer : α} {answer' : β}
    {entries entries' : List Diagnostic} (hfirst : Appends first answer entries)
    (hnext : Appends (next answer) answer' entries') :
    Appends (first >>= next) answer' (entries ++ entries') := by
  intro log
  rw [run_bind, hfirst log, ← List.append_assoc]
  exact hnext _

/-- An answer that is made of another one takes no reports of its own. -/
theorem Appends.map {action : Reporting α} {answer : α} {entries : List Diagnostic}
    (h : Appends action answer entries) (make : α → β) :
    Appends (do return make (← action)) (make answer) entries := by
  have hmake : Appends (action >>= fun value => pure (make value)) _ (entries ++ []) :=
    h.bind (appends_pure (make answer))
  rwa [List.append_nil] at hmake

theorem appends_report (diagnostic : Diagnostic) : Appends (report diagnostic) () [diagnostic] :=
  fun _ => rfl

/-- The answer stays as it is where something is reported. -/
theorem appends_report_pure (diagnostic : Diagnostic) (answer : α) :
    Appends (do report diagnostic; return answer) answer [diagnostic] :=
  (appends_report diagnostic).bind (appends_pure answer)

theorem appends_visit (tokens : List Token) (placed : PlacedPiece) :
    Appends (visit tokens placed) (tokens ++ placed.token?.toList) placed.diagnostic?.toList := by
  obtain ⟨⟨text, lexeme⟩, offset⟩ := placed
  cases lexeme with
  | blank =>
      change Appends (pure tokens) (tokens ++ []) []
      rw [List.append_nil]
      exact appends_pure tokens
  | token kind => exact appends_pure (tokens ++ [⟨kind, offset⟩])
  | malformed error =>
      change Appends (do report _; return tokens) (tokens ++ []) [⟨error.message, offset⟩]
      rw [List.append_nil]
      exact appends_report_pure _ tokens

/-- By induction on the pieces that are left: the tokens found so far and the log
are both added to. -/
theorem appends_foldlM_visit (pieces : List PlacedPiece) (tokens : List Token) :
    Appends (pieces.foldlM visit tokens) (tokens ++ (Scan.ofPlaced pieces).tokens)
      (Scan.ofPlaced pieces).diagnostics := by
  induction pieces generalizing tokens with
  | nil =>
      change Appends (pure tokens) (tokens ++ []) []
      rw [List.append_nil]
      exact appends_pure tokens
  | cons placed rest ih =>
      have hrest : Appends (visit tokens placed >>= fun tokens => rest.foldlM visit tokens) _ _ :=
        (appends_visit tokens placed).bind (ih _)
      rw [List.foldlM_cons, Scan.ofPlaced_cons]
      obtain ⟨⟨text, lexeme⟩, offset⟩ := placed
      rw [List.append_assoc] at hrest
      cases lexeme <;> exact hrest

theorem appends_scan (source : String) :
    Appends (scan source) (ClassLang.scan source).tokens (ClassLang.scan source).diagnostics :=
  appends_foldlM_visit _ []

/-- What a failed parse puts into a log. -/
def reportsOf : Except SyntaxError Program → List Diagnostic
  | .ok _ => []
  | .error error => [⟨error.message, error.offset⟩]

theorem appends_parse (tokens : List Token) :
    Appends (parse tokens) (ClassLang.parse tokens) (reportsOf (ClassLang.parse tokens)) := by
  unfold parse
  cases ClassLang.parse tokens with
  | ok program => exact appends_pure _
  | error error => exact appends_report_pure _ _

/-- By induction on the items: each adds to the log behind the ones before it. -/
theorem appends_mapM {action : α → Reporting β} {answer : α → β} {entries : α → List Diagnostic}
    (h : ∀ item, Appends (action item) (answer item) (entries item)) (items : List α) :
    Appends (items.mapM action) (items.map answer) (items.flatMap entries) := by
  induction items with
  | nil => exact appends_pure []
  | cons item rest ih =>
      rw [List.mapM_cons]
      exact (h item).bind (ih.map (answer item :: ·))

end Reporting

/-- One use of a log. -/
inductive Step where
  | report (diagnostic : Diagnostic)
  | scan (source : String)
  | parse (tokens : List Token)

namespace Step

open Reporting (Appends)

def perform : Step → Reporting Answer
  | .report diagnostic => do
      Reporting.report diagnostic
      return .done
  | .scan source => return .tokens (← Reporting.scan source)
  | .parse tokens => return .outcome (← Reporting.parse tokens)

/-- What the step answers over an empty log. -/
def answer (step : Step) : Answer := (step.perform.run []).1

/-- What the step puts into an empty log. -/
def entries (step : Step) : List Diagnostic := (step.perform.run []).2

theorem alone_of_appends {step : Step} {answer : Answer} {entries : List Diagnostic}
    (h : Appends step.perform answer entries) : step.answer = answer ∧ step.entries = entries :=
  ⟨congrArg Prod.fst h.run_nil, congrArg Prod.snd h.run_nil⟩

theorem exists_appends (step : Step) :
    ∃ answer entries, Appends step.perform answer entries := by
  cases step with
  | report diagnostic =>
      exact ⟨Answer.done, [diagnostic], Reporting.appends_report_pure diagnostic Answer.done⟩
  | scan source => exact ⟨_, _, (Reporting.appends_scan source).map Answer.tokens⟩
  | parse tokens => exact ⟨_, _, (Reporting.appends_parse tokens).map Answer.outcome⟩

/-- What a log holds before a step does not matter to it. -/
theorem appends_perform (step : Step) : Appends step.perform step.answer step.entries := by
  obtain ⟨answer, entries, h⟩ := step.exists_appends
  obtain ⟨rfl, rfl⟩ := alone_of_appends h
  exact h

theorem report_alone (diagnostic : Diagnostic) :
    (report diagnostic).answer = .done ∧ (report diagnostic).entries = [diagnostic] :=
  ⟨rfl, rfl⟩

theorem scan_alone (source : String) :
    (scan source).answer = .tokens (ClassLang.scan source).tokens ∧
      (scan source).entries = (ClassLang.scan source).diagnostics :=
  alone_of_appends ((Reporting.appends_scan source).map Answer.tokens)

theorem parse_alone (tokens : List Token) :
    (parse tokens).answer = .outcome (ClassLang.parse tokens) ∧
      (parse tokens).entries = Reporting.reportsOf (ClassLang.parse tokens) :=
  alone_of_appends ((Reporting.appends_parse tokens).map Answer.outcome)

/-- The log after steps over one that was empty. -/
def logOf (steps : List Step) : List Diagnostic := ((steps.mapM perform).run []).2

theorem appends_steps (steps : List Step) :
    Appends (steps.mapM perform) (steps.map answer) (steps.flatMap entries) :=
  Reporting.appends_mapM appends_perform steps

theorem logOf_eq (steps : List Step) : logOf steps = steps.flatMap entries :=
  congrArg Prod.snd (appends_steps steps).run_nil

end Step

theorem Reporting.run_parseAll (tokens : List Token) :
    ((parseAll tokens).run []).1 = (ClassLang.parse tokens).mapError ([·.toDiagnostic]) := by
  unfold parseAll
  rw [run_bind, (appends_parse tokens).run_nil]
  cases ClassLang.parse tokens <;> rfl

/-- Compiling over an empty log is compiling. -/
theorem Reporting.run_compile (source : String) :
    ((compile source).run []).1 = ClassLang.compile source := by
  unfold compile
  rw [run_bind, (appends_scan source).run_nil, compile_eq]
  rcases ClassLang.scan source with ⟨tokens, _ | ⟨first, others⟩⟩
  · exact run_parseAll tokens
  · rfl

/-- Parsing has to go well for a source to compile, and what is reported if it
does not compile is what one of the two steps reports, the second if the first
has nothing to report. -/
theorem compile_iff_entries (source : String) :
    (∀ program, compile source = .ok program ↔
      (Step.scan source).entries = [] ∧ parse (scan source).tokens = .ok program) ∧
    ∀ reports, compile source = .error reports ↔
      reports ≠ [] ∧ (reports = (Step.scan source).entries ∨
        (Step.scan source).entries = [] ∧
          reports = (Step.parse (scan source).tokens).entries) := by
  have hscan := (Step.scan_alone source).2
  have hparse := (Step.parse_alone (scan source).tokens).2
  rw [hscan, hparse]
  refine ⟨fun program => compile_ok_iff, fun reports => compile_error_iff.trans ?_⟩
  constructor
  · rintro (⟨hne, rfl⟩ | ⟨hnone, error, herror, rfl⟩)
    · exact ⟨hne, .inl rfl⟩
    · rw [herror]
      exact ⟨List.cons_ne_nil _ _, .inr ⟨hnone, rfl⟩⟩
  · rintro ⟨hne, rfl | ⟨hnone, rfl⟩⟩
    · exact .inl ⟨hne, rfl⟩
    · cases hresult : parse (scan source).tokens with
      | ok program =>
          rw [hresult] at hne
          exact absurd rfl hne
      | error error => exact .inr ⟨hnone, error, rfl, rfl⟩

namespace Session

/-- The step that an action comes to: what is parsed are the tokens at hand. -/
def step (session : Session) : Action → Step
  | .report diagnostic => .report diagnostic
  | .scan source => .scan source
  | .parse => .parse session.tokens

def steps (session : Session) : List Action → List Step
  | [] => []
  | action :: rest => session.step action :: (session.apply action).steps rest

/-- The answers to actions one after the other. -/
def answers (session : Session) : List Action → List Answer
  | [] => []
  | action :: rest => session.answer action :: (session.apply action).answers rest

/-- What an action adds to the log of a session, and how it is answered, is what
its step comes to alone. -/
theorem step_alone (session : Session) (action : Action) :
    (session.step action).answer = session.answer action ∧
      (session.step action).entries = session.entries action := by
  cases action with
  | report diagnostic => exact Step.report_alone diagnostic
  | scan source => exact Step.scan_alone source
  | parse =>
      refine ⟨(Step.parse_alone session.tokens).1, (Step.parse_alone session.tokens).2.trans ?_⟩
      unfold Session.entries
      cases ClassLang.parse session.tokens <;> rfl

/-- By induction on the actions: a session goes on as its steps do. -/
theorem alone_of_actions (session : Session) (actions : List Action) :
    session.answers actions = (session.steps actions).map Step.answer ∧
      (actions.foldl apply session).log =
        session.log ++ (session.steps actions).flatMap Step.entries := by
  induction actions generalizing session with
  | nil => exact ⟨rfl, (List.append_nil _).symm⟩
  | cons action rest ih =>
      obtain ⟨hanswer, hentries⟩ := session.step_alone action
      obtain ⟨hanswers, hlog⟩ := ih (session.apply action)
      constructor
      · rw [answers, steps, List.map_cons, hanswer, hanswers]
      · rw [List.foldl_cons, hlog, steps, List.flatMap_cons, hentries, ← List.append_assoc]
        rfl

end Session

/-- Whatever the steps are, the log gets what each of them puts into an empty one,
in order, and each answers as over an empty one: it grows by as much, and is empty
only if none of them has anything to report. A report puts itself there, a scan
its lexical errors, a parse the one error that it fails with. A session is such a
row of steps; so is compiling, which fails with what the scan reports, or else
with what the parse does. -/
theorem log_of_steps :
    (∀ (steps : List Step) (log : List Diagnostic),
      (steps.mapM Step.perform).run log =
        (steps.map Step.answer, log ++ steps.flatMap Step.entries)) ∧
    (∀ (steps : List Step) (step : Step),
      Step.logOf (steps ++ [step]) = Step.logOf steps ++ step.entries ∧
        (Step.logOf (steps ++ [step])).length = (Step.logOf steps).length + step.entries.length) ∧
    (∀ steps : List Step,
      (Step.logOf steps).isEmpty = steps.all (fun step => step.entries.isEmpty)) ∧
    (∀ diagnostic, (Step.report diagnostic).entries = [diagnostic]) ∧
    (∀ source, (Step.scan source).answer = .tokens (scan source).tokens ∧
      (Step.scan source).entries = (scan source).diagnostics) ∧
    (∀ tokens, (Step.parse tokens).answer = .outcome (parse tokens) ∧
      (Step.parse tokens).entries = Reporting.reportsOf (parse tokens)) ∧
    (∀ actions : List Action,
      Session.start.answers actions = (Session.start.steps actions).map Step.answer ∧
        (actions.foldl Session.apply .start).log = Step.logOf (Session.start.steps actions)) ∧
    ∀ source, ((Reporting.compile source).run []).1 = compile source ∧
      (∀ program, compile source = .ok program ↔
        (Step.scan source).entries = [] ∧ parse (scan source).tokens = .ok program) ∧
      ∀ reports, compile source = .error reports ↔
        reports ≠ [] ∧ (reports = (Step.scan source).entries ∨
          (Step.scan source).entries = [] ∧
            reports = (Step.parse (scan source).tokens).entries) := by
  have hgrows (steps : List Step) (step : Step) :
      Step.logOf (steps ++ [step]) = Step.logOf steps ++ step.entries := by
    rw [Step.logOf_eq, Step.logOf_eq, List.flatMap_append, List.flatMap_singleton]
  refine ⟨Step.appends_steps, fun steps step => ⟨hgrows steps step, ?_⟩, fun steps => ?_,
    fun diagnostic => (Step.report_alone diagnostic).2, Step.scan_alone, Step.parse_alone,
    fun actions => ?_, fun source => ⟨Reporting.run_compile source, compile_iff_entries source⟩⟩
  · rw [hgrows, List.length_append]
  · rw [Bool.eq_iff_iff, Step.logOf_eq, List.isEmpty_iff, List.flatMap_eq_nil_iff, List.all_eq_true]
    simp only [List.isEmpty_iff]
  · obtain ⟨hanswers, hlog⟩ := Session.start.alone_of_actions actions
    exact ⟨hanswers, by rw [hlog, Step.logOf_eq]; rfl⟩

end ClassLang
