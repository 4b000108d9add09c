import ClassLang.Proofs.Reading

/-!
What rules answer with, wherever they are run. A property of values is passed
through a rule from what its parts answer with; the tokens do not come into it.
-/

namespace ClassLang.Rule

variable {α β : Type} {holds : α → Prop}

/-- Whatever value the rule answers with, it is such. -/
def Answers (holds : α → Prop) (rule : Rule α) : Prop :=
  ∀ tokens, rule.Outcome tokens (fun value _ => holds value) (fun _ _ => True)

theorem answers_any (rule : Rule α) : Answers (fun _ => True) rule := by
  intro tokens
  unfold Outcome
  split <;> trivial

theorem answers_pure {value : α} (h : holds value) : Answers holds (pure value) := fun _ => h

theorem answers_throw {thrown : Thrown} : Answers holds (throw thrown) := fun _ => trivial

theorem answers_fail {fault : Fault} : Answers holds (fail fault) := fun _ => trivial

theorem answers_failExpecting {expected : Expectation} :
    Answers holds (failExpecting expected) := by
  intro tokens
  cases tokens <;> trivial

theorem answers_bind {first : Rule α} {next : α → Rule β} {holds' : β → Prop}
    (hfirst : Answers holds first) (hnext : ∀ value, holds value → Answers holds' (next value)) :
    Answers holds' (first >>= next) := by
  intro tokens
  rw [outcome_bind]
  exact (hfirst tokens).imp fun value rest hvalue => hnext value hvalue rest

/-- What comes first has no part in the value. -/
theorem answers_after {first : Rule α} {next : α → Rule β} {holds : β → Prop}
    (hnext : ∀ value, Answers holds (next value)) : Answers holds (first >>= next) :=
  answers_bind (answers_any first) fun value _ => hnext value

theorem answers_collectOnce {step : Rule (Option α)} {more : Rule (List α)}
    (hstep : Answers (fun answer => ∀ value ∈ answer, holds value) step)
    (hmore : Answers (fun values => ∀ value ∈ values, holds value) more) :
    Answers (fun values => ∀ value ∈ values, holds value) (collectOnce step more) := by
  apply answers_bind hstep
  intro answer hanswer
  cases answer with
  | none => exact answers_pure (by simp)
  | some first =>
      apply answers_bind hmore
      intro others hothers
      exact answers_pure (List.forall_mem_cons.mpr ⟨hanswer first rfl, hothers⟩)

theorem answers_collect {step : Rule (Option α)}
    (hstep : Answers (fun answer => ∀ value ∈ answer, holds value) step) :
    Answers (fun values => ∀ value ∈ values, holds value) (collect step) := by
  have hwithin (budget : List Token) :
      Answers (fun values => ∀ value ∈ values, holds value) (collectWithin step budget) := by
    induction budget with
    | nil => exact answers_collectOnce hstep (answers_pure (by simp))
    | cons _ budget ih => exact answers_collectOnce hstep ih
  exact fun tokens => hwithin tokens tokens

theorem answers_some {rule : Rule α} (h : Answers holds rule) :
    Answers (fun answer => ∀ value ∈ answer, holds value) (do return some (← rule)) := by
  apply answers_bind h
  intro value hvalue
  exact answers_pure (by simpa using hvalue)

theorem answers_none : Answers (fun answer => ∀ value ∈ answer, holds value) (pure none) :=
  answers_pure (by simp)

theorem answers_untilClose {close : Separator} {element : Rule α} (h : Answers holds element) :
    Answers (fun values => ∀ value ∈ values, holds value) (untilClose close element) := by
  have hstep : Answers (fun answer => ∀ value ∈ answer, holds value)
      (untilStep close element) := by
    apply answers_after
    intro tokens
    split
    · exact answers_none
    · exact answers_some h
  apply answers_bind (answers_collect hstep)
  intro values hvalues
  exact answers_after fun _ => answers_pure hvalues

theorem answers_listed {element : Rule α} (h : Answers holds element) :
    Answers (fun values => ∀ value ∈ values, holds value) (listed element) := by
  have hstep : Answers (fun answer => ∀ value ∈ answer, holds value) (listedStep element) := by
    apply answers_after
    intro tokens
    split
    · exact answers_none
    · apply answers_bind h
      intro value hvalue
      exact answers_after fun _ => answers_pure (by simpa using hvalue)
  apply answers_bind (answers_collect hstep)
  intro values hvalues
  exact answers_after fun _ => answers_pure hvalues

end ClassLang.Rule
