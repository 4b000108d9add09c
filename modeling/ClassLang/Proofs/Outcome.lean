import ClassLang.Rule.Class

/-!
Outcomes of rules. A property of what a rule answers, and of what it leaves
unread, is passed through the rule from its last step back to its first, one
equivalence for each way of putting rules together. Loops are opened the same
way: as long as each step takes a token, the budget of `collect` never runs
out, so `collect` is one step and `collect` again.
-/

namespace ClassLang

variable {α β : Type}

/-- Two runs in sequence, whatever the state that they pass on. -/
theorem bind_apply {ε σ : Type} (first : EStateM ε σ α) (next : α → EStateM ε σ β) (state : σ) :
    (first >>= next) state =
      match first state with
      | .ok value after => next value after
      | .error thrown after => .error thrown after := by
  change EStateM.bind first next state = _
  unfold EStateM.bind
  cases first state <;> rfl

namespace Rule

variable {tokens : List Token} {ok : α → List Token → Prop} {failed : Thrown → List Token → Prop}

theorem Outcome.mono {rule : Rule α} {ok' : α → List Token → Prop}
    {failed' : Thrown → List Token → Prop} (h : rule.Outcome tokens ok failed)
    (hok : ∀ value rest, ok value rest → ok' value rest)
    (hfailed : ∀ thrown rest, failed thrown rest → failed' thrown rest) :
    rule.Outcome tokens ok' failed' := by
  unfold Outcome at h ⊢
  cases hrun : rule tokens with
  | ok value rest =>
      rw [hrun] at h
      exact hok value rest h
  | error thrown rest =>
      rw [hrun] at h
      exact hfailed thrown rest h

theorem Outcome.imp {rule : Rule α} {ok' : α → List Token → Prop}
    (h : rule.Outcome tokens ok failed) (hok : ∀ value rest, ok value rest → ok' value rest) :
    rule.Outcome tokens ok' failed :=
  h.mono hok fun _ _ hfailed => hfailed

theorem Outcome.of_ok {rule : Rule α} (h : rule.Outcome tokens ok failed) {value : α}
    {rest : List Token} (hrun : rule tokens = .ok value rest) : ok value rest := by
  unfold Outcome at h
  rwa [hrun] at h

theorem Outcome.of_error {rule : Rule α} (h : rule.Outcome tokens ok failed) {thrown : Thrown}
    {rest : List Token} (hrun : rule tokens = .error thrown rest) : failed thrown rest := by
  unfold Outcome at h
  rwa [hrun] at h

@[simp] theorem outcome_pure (value : α) :
    Outcome (pure value) tokens ok failed ↔ ok value tokens :=
  Iff.rfl

theorem outcome_bind (first : Rule α) (next : α → Rule β) {ok : β → List Token → Prop} :
    Outcome (first >>= next) tokens ok failed ↔
      first.Outcome tokens (fun value rest => (next value).Outcome rest ok failed) failed := by
  unfold Outcome
  rw [bind_apply]
  cases first tokens <;> rfl

@[simp] theorem outcome_get_bind (next : List Token → Rule α) :
    Outcome (read get >>= next) tokens ok failed ↔ (next tokens).Outcome tokens ok failed :=
  Iff.rfl

@[simp] theorem outcome_skip_bind (next : Unit → Rule α) :
    Outcome (read skip >>= next) tokens ok failed ↔ (next ()).Outcome tokens.tail ok failed :=
  Iff.rfl

/-- Every answer has taken a token. -/
def Advances (rule : Rule α) : Prop :=
  ∀ tokens value rest, rule tokens = .ok value rest → rest.length < tokens.length

/-- Every answer that has a value has taken a token. -/
def StepAdvances (step : Rule (Option α)) : Prop :=
  ∀ tokens value rest, step tokens = .ok (some value) rest → rest.length < tokens.length

/-- What comes after a step is only asked where the step leaves off. -/
theorem collectOnce_congr {step : Rule (Option α)} {more more' : Rule (List α)}
    (h : ∀ value rest, step tokens = .ok (some value) rest → more rest = more' rest) :
    collectOnce step more tokens = collectOnce step more' tokens := by
  unfold collectOnce
  rw [bind_apply, bind_apply]
  cases hrun : step tokens with
  | error thrown rest => rfl
  | ok answer rest =>
      cases answer with
      | none => rfl
      | some value =>
          dsimp only
          rw [bind_apply, bind_apply, h value rest hrun]

/-- Two budgets that both last for the tokens give the same run. -/
theorem collectWithin_congr {step : Rule (Option α)} (hstep : StepAdvances step)
    (budget budget' : List Token) (hbudget : tokens.length ≤ budget.length)
    (hbudget' : tokens.length ≤ budget'.length) :
    collectWithin step budget tokens = collectWithin step budget' tokens := by
  induction budget generalizing budget' tokens with
  | nil =>
      cases budget' with
      | nil => rfl
      | cons _ budget' =>
          apply collectOnce_congr
          intro value rest hrun
          have hless := hstep tokens value rest hrun
          simp only [List.length_nil] at hbudget
          omega
  | cons _ budget ih =>
      cases budget' with
      | nil =>
          apply collectOnce_congr
          intro value rest hrun
          have hless := hstep tokens value rest hrun
          simp only [List.length_nil] at hbudget'
          omega
      | cons _ budget' =>
          apply collectOnce_congr
          intro value rest hrun
          have hless := hstep tokens value rest hrun
          simp only [List.length_cons] at hbudget hbudget'
          exact ih budget' (by omega) (by omega)

theorem collect_eq {step : Rule (Option α)} (hstep : StepAdvances step) :
    collect step tokens = collectOnce step (collect step) tokens := by
  change collectWithin step tokens tokens = _
  cases tokens with
  | nil =>
      apply collectOnce_congr
      intro value rest hrun
      have hless := hstep [] value rest hrun
      simp only [List.length_nil] at hless
      omega
  | cons token budget =>
      apply collectOnce_congr
      intro value rest hrun
      have hless := hstep (token :: budget) value rest hrun
      simp only [List.length_cons] at hless
      exact collectWithin_congr hstep budget rest (by omega) (by omega)

theorem outcome_collectOnce (step : Rule (Option α)) (more : Rule (List α))
    {ok : List α → List Token → Prop} :
    Outcome (collectOnce step more) tokens ok failed ↔
      step.Outcome tokens
        (fun answer rest =>
          match answer with
          | none => ok [] rest
          | some first => more.Outcome rest (fun others => ok (first :: others)) failed)
        failed := by
  unfold collectOnce
  rw [outcome_bind]
  constructor
  · intro h
    refine h.imp ?_
    intro answer rest hanswer
    cases answer with
    | none => exact hanswer
    | some first => exact (outcome_bind _ _).mp hanswer
  · intro h
    refine h.imp ?_
    intro answer rest hanswer
    cases answer with
    | none => exact hanswer
    | some first => exact (outcome_bind _ _).mpr hanswer

/-- A loop is one step and, if that has a value, the loop again. -/
theorem outcome_collect {step : Rule (Option α)} (hstep : StepAdvances step)
    {ok : List α → List Token → Prop} :
    Outcome (collect step) tokens ok failed ↔
      step.Outcome tokens
        (fun answer rest =>
          match answer with
          | none => ok [] rest
          | some first =>
              (collect step).Outcome rest (fun others => ok (first :: others)) failed)
        failed := by
  rw [← outcome_collectOnce step (collect step)]
  unfold Outcome
  rw [collect_eq hstep]

end Rule

end ClassLang
