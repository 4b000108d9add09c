import ClassLang.Proofs.Reading

/-!
How a rule runs on tokens whose kinds are known. Here the phrase comes first
and the run is followed through it, token by token; nothing depends on the
offsets. The statements are open at the end: `ok` says what is to happen to the
rest of the phrase, so the steps of a rule are chained by applying these facts
one after the other.
-/

namespace ClassLang.Rule

open Grammar Phrase

variable {α β : Type}

/-- On all tokens of these kinds, `ok` holds of the value and of the kinds left
unread, or `failed` of the fault. -/
def Takes (rule : Rule α) (phrase : Phrase) (ok : α → Phrase → Prop) (failed : Fault → Prop) :
    Prop :=
  ∀ tokens, kinds tokens = phrase →
    rule.Outcome tokens (fun value rest => ok value (kinds rest))
      (fun thrown _ => failed thrown.fault)

theorem kinds_eq_cons {tokens : List Token} {kind : TokenKind} {rest : Phrase}
    (h : kinds tokens = kind :: rest) :
    ∃ offset more, tokens = ⟨kind, offset⟩ :: more ∧ kinds more = rest := by
  obtain ⟨⟨_, offset⟩, more, rfl, rfl, hmore⟩ := List.map_eq_cons_iff.mp h
  exact ⟨offset, more, rfl, hmore⟩

theorem nextIs_iff {kind : TokenKind} {tokens : List Token} :
    nextIs kind tokens = true ↔ (kinds tokens).head? = some kind := by
  cases tokens with
  | nil => simp [nextIs]
  | cons token rest => simp [nextIs]

section Steps

variable {phrase rest : Phrase} {ok : α → Phrase → Prop} {failed : Fault → Prop}

theorem Takes.imp {rule : Rule α} {ok' : α → Phrase → Prop} (h : Takes rule phrase ok failed)
    (hok : ∀ value rest, ok value rest → ok' value rest) : Takes rule phrase ok' failed := by
  intro tokens htokens
  exact (h tokens htokens).imp fun value rest => hok value (kinds rest)

/-- A rule that advances leaves fewer tokens than there were. -/
theorem Takes.shortens {rule : Rule α} (hrule : Advances rule) (h : Takes rule phrase ok failed) :
    Takes rule phrase (fun value rest => ok value rest ∧ rest.length < phrase.length) failed := by
  rintro tokens rfl
  have hrun := h tokens rfl
  unfold Outcome at hrun ⊢
  cases hresult : rule tokens with
  | error thrown rest =>
      rw [hresult] at hrun
      exact hrun
  | ok value rest =>
      rw [hresult] at hrun
      refine ⟨hrun, ?_⟩
      simpa [kinds] using hrule tokens value rest hresult

theorem takes_pure {value : α} (h : ok value phrase) : Takes (pure value) phrase ok failed := by
  rintro tokens rfl
  exact h

theorem takes_fail {fault : Fault} (h : failed fault) :
    Takes (fail fault) phrase ok failed :=
  fun _ _ => h

theorem takes_bind {first : Rule α} {next : α → Rule β} {ok : β → Phrase → Prop}
    (h : Takes first phrase (fun value rest => Takes (next value) rest ok failed) failed) :
    Takes (first >>= next) phrase ok failed := by
  intro tokens htokens
  rw [outcome_bind]
  exact (h tokens htokens).imp fun value rest hnext => hnext rest rfl

/-- A last step that only puts the value together. -/
theorem takes_map {first : Rule α} {next : α → β} {ok : β → Phrase → Prop}
    (h : Takes first phrase (fun value => ok (next value)) failed) :
    Takes (first >>= fun value => pure (next value)) phrase ok failed := by
  apply takes_bind
  exact h.imp fun _ _ hvalue => takes_pure hvalue

/-- A loop in the phrase: one step, and the loop again if that has a value. -/
theorem takes_collect {step : Rule (Option α)} (hstep : StepAdvances step)
    {ok : List α → Phrase → Prop}
    (h : Takes step phrase
      (fun answer rest =>
        match answer with
        | none => ok [] rest
        | some first => Takes (collect step) rest (fun others => ok (first :: others)) failed)
      failed) : Takes (collect step) phrase ok failed := by
  intro tokens htokens
  rw [outcome_collect hstep]
  refine (h tokens htokens).imp ?_
  intro answer rest hanswer
  cases answer with
  | none => exact hanswer
  | some first => exact hanswer rest rfl

end Steps

section Tokens

variable {phrase rest : Phrase} {failed : Fault → Prop}

theorem takes_accept {kind : TokenKind} {ok : Bool → Phrase → Prop} (h : ok true rest) :
    Takes (accept kind) (kind :: rest) ok failed := by
  intro tokens htokens
  obtain ⟨offset, more, rfl, rfl⟩ := kinds_eq_cons htokens
  unfold Outcome
  rw [accept_eq, if_pos (by simp [nextIs])]
  exact h

theorem takes_accept_of_ne {kind : TokenKind} {ok : Bool → Phrase → Prop}
    (hne : phrase.head? ≠ some kind) (h : ok false phrase) :
    Takes (accept kind) phrase ok failed := by
  rintro tokens rfl
  unfold Outcome
  rw [accept_eq, if_neg (mt nextIs_iff.mp hne)]
  exact h

theorem takes_keyword {word : Keyword} {ok : Unit → Phrase → Prop} (h : ok () rest) :
    Takes (keyword word) (.keyword word :: rest) ok failed := by
  intro tokens htokens
  obtain ⟨offset, more, rfl, rfl⟩ := kinds_eq_cons htokens
  unfold Outcome
  rw [keyword_eq, if_pos (by simp [nextIs])]
  exact h

theorem takes_separator {mark : Separator} {ok : Unit → Phrase → Prop} (h : ok () rest) :
    Takes (separator mark) (.separator mark :: rest) ok failed := by
  intro tokens htokens
  obtain ⟨offset, more, rfl, rfl⟩ := kinds_eq_cons htokens
  unfold Outcome
  rw [separator_eq, if_pos (by simp [nextIs])]
  exact h

theorem takes_identifier {name : String} {ok : String → Phrase → Prop} (h : ok name rest) :
    Takes identifier (.identifier name :: rest) ok failed := by
  intro tokens htokens
  obtain ⟨offset, more, rfl, rfl⟩ := kinds_eq_cons htokens
  exact h

theorem takes_type {name : String} {ok : String → Phrase → Prop} (htype : IsType phrase name)
    (h : ok name rest) : Takes type (phrase ++ rest) ok failed := by
  intro tokens htokens
  cases htype with
  | builtIn name =>
      obtain ⟨offset, more, rfl, rfl⟩ := kinds_eq_cons htokens
      exact h
  | className name =>
      obtain ⟨offset, more, rfl, rfl⟩ := kinds_eq_cons htokens
      exact h

end Tokens

section Elements

variable {phrase rest : Phrase} {rule : Rule α} {ok : List α → Phrase → Prop}
  {failed : Fault → Prop}

/-- Elements that end where `close` comes: the form that `untilClose` and
`listed` share. -/
def closedBy (close : Separator) (step : Rule (Option α)) : Rule (List α) := do
  let elements ← collect step
  separator close
  return elements

/-- A closed list is one step and, if that has a value, the rest of the list. -/
theorem outcome_closedBy {close : Separator} {step : Rule (Option α)} (hstep : StepAdvances step)
    {tokens : List Token} {ok : List α → List Token → Prop} {failed : Thrown → List Token → Prop} :
    Outcome (closedBy close step) tokens ok failed ↔
      step.Outcome tokens
        (fun answer rest =>
          match answer with
          | none => (separator close).Outcome rest (fun _ => ok []) failed
          | some first =>
              (closedBy close step).Outcome rest (fun others => ok (first :: others)) failed)
        failed := by
  have hloop (tokens : List Token) (ok : List α → List Token → Prop) :
      Outcome (closedBy close step) tokens ok failed ↔
        (collect step).Outcome tokens
          (fun elements rest => (separator close).Outcome rest (fun _ => ok elements) failed)
          failed := by
    simp only [closedBy, outcome_bind, outcome_pure]
  rw [hloop, outcome_collect hstep]
  constructor
  · intro h
    refine h.imp ?_
    intro answer rest hanswer
    cases answer with
    | none => exact hanswer
    | some first => exact (hloop rest _).mpr hanswer
  · intro h
    refine h.imp ?_
    intro answer rest hanswer
    cases answer with
    | none => exact hanswer
    | some first => exact (hloop rest _).mp hanswer

theorem takes_closedBy {close : Separator} {step : Rule (Option α)} (hstep : StepAdvances step)
    (h : Takes step phrase
      (fun answer rest =>
        match answer with
        | none => Takes (separator close) rest (fun _ => ok []) failed
        | some first =>
            Takes (closedBy close step) rest (fun others => ok (first :: others)) failed)
      failed) : Takes (closedBy close step) phrase ok failed := by
  intro tokens htokens
  rw [outcome_closedBy hstep]
  refine (h tokens htokens).imp ?_
  intro answer rest hanswer
  cases answer with
  | none => exact hanswer rest rfl
  | some first => exact hanswer rest rfl

section UntilStep

variable {close : Separator} {ok : Option α → Phrase → Prop}

theorem takes_untilStep_of_closed (h : ok none (.separator close :: rest)) :
    Takes (untilStep close rule) (.separator close :: rest) ok failed := by
  intro tokens htokens
  unfold untilStep
  have hclosed : (tokens.isEmpty || nextIs (.separator close) tokens) = true := by
    rw [Bool.or_eq_true, nextIs_iff, htokens]
    exact .inr rfl
  rw [outcome_get_bind, if_pos hclosed, outcome_pure, htokens]
  exact h

theorem takes_untilStep_of_open (hne : phrase ≠ [])
    (hopen : phrase.head? ≠ some (.separator close))
    (h : Takes rule phrase (fun value => ok (some value)) failed) :
    Takes (untilStep close rule) phrase ok failed := by
  rintro tokens rfl
  unfold untilStep
  have hmore : ¬ (tokens.isEmpty || nextIs (.separator close) tokens) = true := by
    rw [Bool.or_eq_true, List.isEmpty_iff, nextIs_iff, not_or]
    exact ⟨fun hnil => hne (by rw [hnil, kinds_nil]), hopen⟩
  rw [outcome_get_bind, if_neg hmore, outcome_bind]
  exact h tokens rfl

end UntilStep

section ListedStep

variable {ok : Option α → Phrase → Prop}

theorem takes_listedStep_of_closed (h : ok none (.separator .closeParen :: rest)) :
    Takes (listedStep rule) (.separator .closeParen :: rest) ok failed := by
  intro tokens htokens
  unfold listedStep
  have hclosed : nextIs (.separator .closeParen) tokens = true := by
    rw [nextIs_iff, htokens, List.head?_cons]
  rw [outcome_get_bind, if_pos hclosed, outcome_pure, htokens]
  exact h

theorem takes_listedStep_of_open (hopen : phrase.head? ≠ some (.separator .closeParen))
    (h : Takes rule phrase
      (fun value rest => Takes (accept (.separator .comma)) rest (fun _ => ok (some value)) failed)
      failed) : Takes (listedStep rule) phrase ok failed := by
  rintro tokens rfl
  unfold listedStep
  have hmore : ¬ nextIs (.separator .closeParen) tokens = true := by
    rw [nextIs_iff]
    exact hopen
  rw [outcome_get_bind, if_neg hmore, outcome_bind]
  refine (h tokens rfl).imp ?_
  intro value rest hrest
  rw [outcome_bind]
  exact hrest rest rfl

end ListedStep

theorem takes_untilClose_nil {close : Separator} (hstep : StepAdvances (untilStep close rule))
    (h : ok [] rest) : Takes (untilClose close rule) (.separator close :: rest) ok failed :=
  takes_closedBy hstep (takes_untilStep_of_closed (takes_separator h))

/-- The first element in front of `close`, and the elements after it. -/
theorem takes_untilClose_cons {close : Separator} (hstep : StepAdvances (untilStep close rule))
    (hne : phrase ≠ []) (hopen : phrase.head? ≠ some (.separator close))
    (h : Takes rule phrase
      (fun first rest =>
        Takes (untilClose close rule) rest (fun others => ok (first :: others)) failed)
      failed) : Takes (untilClose close rule) phrase ok failed :=
  takes_closedBy hstep (takes_untilStep_of_open hne hopen h)

theorem takes_listed_nil (hstep : StepAdvances (listedStep rule)) (h : ok [] rest) :
    Takes (listed rule) (.separator .closeParen :: rest) ok failed :=
  takes_closedBy hstep (takes_listedStep_of_closed (takes_separator h))

/-- The first element of a list, the comma that may follow it, and the elements
after it. -/
theorem takes_listed_cons (hstep : StepAdvances (listedStep rule))
    (hopen : phrase.head? ≠ some (.separator .closeParen))
    (h : Takes rule phrase
      (fun first rest =>
        Takes (accept (.separator .comma)) rest
          (fun _ rest => Takes (listed rule) rest (fun others => ok (first :: others)) failed)
          failed)
      failed) : Takes (listed rule) phrase ok failed :=
  takes_closedBy hstep (takes_listedStep_of_open hopen h)

end Elements

end ClassLang.Rule
