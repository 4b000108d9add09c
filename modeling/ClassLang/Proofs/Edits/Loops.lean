import ClassLang.Proofs.Edits

/-!
Loops tolerate edits if their steps do. In a list the comma behind an element is
what edits are about: with or without it the element ends in the same place, and
what comes next is the same.
-/

namespace ClassLang.Rule

open Grammar Outline

variable {α : Type} {allowed : TokenKind → Prop} {element : Outline → α → Prop}
  {relation : Outline → α → Prop} {before : Outline} {tokens : List Token}

/-- Outlines of elements one after the other. -/
inductive IsRow (element : Outline → α → Prop) : Outline → List α → Prop where
  | nil : IsRow element [] []
  | cons {first rest : Outline} {value : α} {values : List α} (head : element first value)
      (tail : IsRow element rest values) : IsRow element (first ++ rest) (value :: values)

/-- The outline of a step: nothing, or that of an element. -/
def IsStepOutline (element : Outline → α → Prop) (outline : Outline) : Option α → Prop
  | none => outline = []
  | some value => element outline value

section Collect

variable {step : Rule (Option α)}

theorem outcome_shortens (hstep : StepAdvances step) {ok : Option α → List Token → Prop}
    {failed : Thrown → List Token → Prop} (h : step.Outcome tokens ok failed) :
    step.Outcome tokens
      (fun answer rest => ok answer rest ∧ ∀ value ∈ answer, rest.length < tokens.length)
      failed := by
  unfold Outcome at h ⊢
  cases hrun : step tokens with
  | error thrown rest =>
      rw [hrun] at h
      exact h
  | ok answer rest =>
      rw [hrun] at h
      refine ⟨h, ?_⟩
      rintro value ⟨⟩
      exact hstep tokens value rest hrun

theorem toleratesAll_collect (hstep : StepAdvances step)
    (h : ToleratesAll allowed (IsStepOutline element) step) :
    ToleratesAll allowed (IsRow element) (collect step) := by
  intro tokens
  generalize hsize : tokens.length = size
  induction size using Nat.strongRecOn generalizing tokens with
  | ind size ih =>
      subst hsize
      unfold Tolerates
      rw [outcome_collect hstep]
      refine (outcome_shortens hstep (h tokens)).imp ?_
      rintro answer middle ⟨⟨outline, htokens, hfirm, hanswer, hedits⟩, hshorter⟩
      cases answer with
      | none =>
          cases hanswer
          refine ⟨[], htokens, startsFirm_nil, .nil, ?_⟩
          intro outline' follow hedited hfollow ok failed hok
          exact takes_collect hstep (hedits outline' follow hedited hfollow _ _ hok)
      | some first =>
          have hfirst : element outline first := hanswer
          refine Outcome.imp (ih middle.length (hshorter first rfl) middle rfl) ?_
          rintro values rest ⟨others, hmiddle, hfirm', hvalues, hedits'⟩
          have hrow : IsRow element (outline ++ others) (first :: values) := .cons hfirst hvalues
          refine ⟨outline ++ others, ?_, hfirm.append hfirm', hrow, ?_⟩
          · rw [htokens, hmiddle, phrase_append, List.append_assoc]
          · intro outline' follow hedited hfollow ok failed hok
            obtain ⟨first', others', rfl, hfirst', hothers'⟩ := hedited.exists_append
            rw [phrase_append, List.append_assoc]
            apply takes_collect hstep
            apply hedits first' _ hfirst' (hmiddle ▸ hfollow.append hfirm' hothers')
            exact hedits' others' follow hothers' hfollow _ failed hok

end Collect

/-- A rule that goes by the first token, or by there being none. -/
theorem tolerates_decision {rule branch : Rule α}
    (hrule : ∀ tokens', (kinds tokens').head? = (kinds tokens).head? →
      rule tokens' = branch tokens')
    (h : Tolerates Nothing relation before branch tokens) :
    Tolerates Nothing relation before rule tokens := by
  unfold Tolerates Outcome
  rw [hrule tokens rfl]
  refine Outcome.imp h ?_
  rintro value rest ⟨outline, htokens, hfirm, hvalue, hedits⟩
  refine ⟨outline, htokens, hfirm, hvalue, ?_⟩
  intro outline' follow hedited hfollow ok failed hok tokens' htokens'
  have hhead := (hfollow.append hfirm hedited).of_nothing
  rw [← htokens', ← htokens] at hhead
  unfold Outcome
  rw [hrule tokens' hhead]
  exact hedits outline' follow hedited hfollow ok failed hok tokens' htokens'

section UntilClose

variable {rule : Rule α} {close : Separator}

theorem isClosed_iff :
    (tokens.isEmpty || nextIs (.separator close) tokens) = true ↔
      (kinds tokens).head? = none ∨ (kinds tokens).head? = some (.separator close) := by
  rw [Bool.or_eq_true, nextIs_iff, List.isEmpty_iff, List.head?_eq_none_iff, kinds,
    List.map_eq_nil_iff]

theorem untilStep_apply :
    untilStep close rule tokens =
      (if (tokens.isEmpty || nextIs (.separator close) tokens) = true then pure none
        else do return some (← rule) : Rule (Option α)) tokens :=
  rfl

theorem toleratesAll_some (h : ToleratesAll allowed element rule) :
    ToleratesAll allowed (IsStepOutline element) (do return some (← rule)) := by
  intro tokens
  apply tolerates_bind h
  intro outline value hvalue tokens
  exact tolerates_pure hvalue

theorem toleratesAll_untilStep (h : ToleratesAll Nothing element rule) :
    ToleratesAll Nothing (IsStepOutline element) (untilStep close rule) := by
  intro tokens
  by_cases hclosed : (tokens.isEmpty || nextIs (.separator close) tokens) = true
  · have hnone : Tolerates Nothing (IsStepOutline element) [] (pure none) tokens :=
      tolerates_pure rfl
    refine tolerates_decision (fun tokens' hhead => ?_) hnone
    have hclosed' := isClosed_iff.mpr (hhead ▸ isClosed_iff.mp hclosed)
    rw [untilStep_apply, if_pos hclosed']
  · refine tolerates_decision (fun tokens' hhead => ?_) (toleratesAll_some h tokens)
    have hopen := mt isClosed_iff.mp (hhead ▸ mt isClosed_iff.mpr hclosed)
    rw [untilStep_apply, if_neg hopen]

/-- The outlines of elements and of the separator that closes them. -/
def IsClosedRow (close : Separator) (element : Outline → α → Prop) (outline : Outline)
    (values : List α) : Prop :=
  ∃ inner, outline = inner ++ [Outline.separator close] ∧ IsRow element inner values

theorem toleratesAll_untilClose (hstep : StepAdvances (untilStep close rule))
    (h : ToleratesAll Nothing element rule) :
    ToleratesAll Nothing (IsClosedRow close element) (untilClose close rule) := by
  intro tokens
  apply tolerates_bind (toleratesAll_collect hstep (toleratesAll_untilStep h))
  intro inner values hvalues tokens
  apply tolerates_bind (toleratesAll_separator close)
  rintro _ ⟨⟩ rfl tokens
  exact tolerates_pure ⟨inner, rfl, hvalues⟩

end UntilClose

section Listed

/-- The outline of a list, with a place behind each element. -/
inductive IsListOutline (element : Outline → α → Prop) : Outline → List α → Prop where
  | nil : IsListOutline element [] []
  | cons {first others : Outline} {value : α} {values : List α} (comma : Bool)
      (head : element first value) (tail : IsListOutline element others values) :
      IsListOutline element (Outline.listed first comma others) (value :: values)

/-- The outline of a list and of the parenthesis that closes it. -/
def IsClosedList (element : Outline → α → Prop) (outline : Outline) (values : List α) : Prop :=
  ∃ list, outline = list ++ [Outline.separator .closeParen] ∧ IsListOutline element list values

theorem exists_accept (kind : TokenKind) (tokens : List Token) :
    ∃ present rest, accept kind tokens = .ok present rest ∧
      kinds tokens = (if present then [kind] else []) ++ kinds rest ∧
      (present = false → (kinds rest).head? ≠ some kind) := by
  rw [accept_eq]
  by_cases hnext : nextIs kind tokens = true
  · obtain ⟨token, rest, rfl, rfl⟩ := nextIs_eq_true_iff.mp hnext
    exact ⟨true, rest, if_pos hnext, rfl, nofun⟩
  · exact ⟨false, tokens, if_neg hnext, rfl, fun _ => mt nextIs_iff.mpr hnext⟩

/-- A comma is only missing after an edit where it was missing before, or behind
the last element. -/
theorem exists_place_of_edit {last comma : Bool} {mark : Mark}
    (h : Mark.Edit (.place last comma) mark) :
    ∃ comma', mark = .place last comma' ∧ (comma' = false → comma = true → last = true) := by
  cases h with
  | same => exact ⟨comma, rfl, fun hfalse htrue => by rw [hfalse] at htrue; cases htrue⟩
  | insert => exact ⟨true, rfl, nofun⟩
  | remove => exact ⟨false, rfl, fun _ _ => rfl⟩

variable {rule : Rule α}

/-- Edits of a list, its first element among them. Whether the comma is there or
not, the rest of the list begins as it did, so the element ends in the same
place, and no other comma is taken for its own. -/
theorem takesTo_listed_cons (hstep : StepAdvances (listedStep rule)) {value : α} {values : List α}
    {kind : TokenKind} {more list outline' : Outline} {rest left follow : Phrase} {comma : Bool}
    (hopen : kind ≠ .separator .closeParen) (hnone : comma = false →
      rest.head? ≠ some (.separator .comma))
    (hrest : rest = phrase (list ++ [Outline.separator .closeParen]) ++ left)
    (hfirm : StartsFirm (list ++ [Outline.separator .closeParen]))
    (hfirst : ∀ first' follow', Edited (.token kind :: more) first' →
      BeginsAlike EndsElement ((if comma then [.separator .comma] else []) ++ rest) follow' →
      TakesTo rule (phrase first' ++ follow') value follow')
    (hothers : ∀ others', Edited (list ++ [Outline.separator .closeParen]) others' →
      TakesTo (listed rule) (phrase others' ++ follow) values follow)
    (hedited : Edited (Outline.listed (.token kind :: more) comma list ++
      [Outline.separator .closeParen]) outline') :
    TakesTo (listed rule) (phrase outline' ++ follow) (value :: values) follow := by
  intro ok failed hok
  rw [Outline.listed, List.append_assoc] at hedited
  obtain ⟨first', tail', rfl, hfirst', htail'⟩ := hedited.exists_append
  cases htail' with
  | @cons _ mark' _ others' hmark hothers' =>
      have hothers' : Edited (list ++ [Outline.separator .closeParen]) others' := hothers'
      obtain ⟨comma', rfl, hremoved⟩ := exists_place_of_edit hmark
      have hsame : (phrase others' ++ follow).head? = rest.head? := by
        rcases hfirm.eq_nil_or_exists with hnil | ⟨next, others, hcons⟩
        · simp at hnil
        · rw [hcons] at hothers'
          obtain ⟨_, rfl, _⟩ := hothers'.exists_cons
          rw [hrest, hcons]
          rfl
      have hclosed (hcomma' : comma' = false) (hcomma : comma = true) :
          rest.head? = some (.separator .closeParen) := by
        have hlast := hremoved hcomma' hcomma
        rw [List.isEmpty_iff] at hlast
        rw [hrest, hlast]
        rfl
      obtain ⟨more', rfl, _⟩ := hfirst'.exists_cons
      rw [phrase_append, phrase_place, List.append_assoc, List.append_assoc]
      apply takes_listed_cons hstep
      · rintro ⟨⟩
        exact hopen rfl
      cases comma' with
      | true =>
          apply hfirst _ _ hfirst' (.inr ⟨.separator .comma, rfl, trivial⟩)
          exact takes_accept (hothers others' hothers' _ failed hok)
      | false =>
          have hne : (phrase others' ++ follow).head? ≠ some (.separator .comma) := by
            rw [hsame]
            cases comma with
            | false => exact hnone rfl
            | true =>
                rw [hclosed rfl rfl]
                simp
          have halike : BeginsAlike EndsElement
              ((if comma then [.separator .comma] else []) ++ rest) (phrase others' ++ follow) := by
            cases comma with
            | false => exact .inl hsame
            | true => exact .inr ⟨_, hsame.trans (hclosed rfl rfl), trivial⟩
          apply hfirst _ _ hfirst' halike
          exact takes_accept_of_ne hne (hothers others' hothers' _ failed hok)

theorem toleratesAll_listed (hstep : StepAdvances (listedStep rule))
    (hne : ∀ value, ¬ element [] value) (h : ToleratesAll EndsElement element rule) :
    ToleratesAll allowed (IsClosedList element) (listed rule) := by
  intro tokens
  generalize hsize : tokens.length = size
  induction size using Nat.strongRecOn generalizing tokens with
  | ind size ih =>
      subst hsize
      unfold Tolerates
      refine (outcome_closedBy hstep).mpr ?_
      unfold listedStep
      rw [outcome_get_bind]
      by_cases hclosed : nextIs (.separator .closeParen) tokens = true
      · rw [if_pos hclosed, outcome_pure]
        obtain ⟨⟨_, offset⟩, rest, rfl, rfl⟩ := nextIs_eq_true_iff.mp hclosed
        refine ⟨[Outline.separator .closeParen], rfl, startsFirm_token _ _, ⟨[], rfl, .nil⟩, ?_⟩
        intro outline' follow hedited _ ok failed hok
        obtain ⟨rest', rfl, hrest'⟩ := hedited.exists_cons
        cases hrest'
        exact takes_listed_nil hstep hok
      rw [if_neg hclosed, outcome_bind]
      refine (h tokens).imp ?_
      rintro value middle ⟨first, htokens, hfirm, hvalue, hedits⟩
      rcases hfirm.eq_nil_or_exists with rfl | ⟨kind, more, rfl⟩
      · exact absurd hvalue (hne value)
      obtain ⟨comma, rest, haccept, hmiddle, hnone⟩ := exists_accept (.separator .comma) middle
      rw [read_eq, outcome_bind]
      unfold Outcome
      rw [haccept]
      have hless : rest.length < tokens.length := by
        have hlength := congrArg List.length htokens
        have hlength' := congrArg List.length hmiddle
        simp only [kinds, List.length_map, List.length_append, phrase_token, List.length_cons]
          at hlength hlength'
        omega
      refine Outcome.imp (ih rest.length hless rest rfl) ?_
      rintro values left ⟨_, hrest, hfirm', ⟨list, rfl, hlist⟩, hedits'⟩
      have hopen : kind ≠ .separator .closeParen := by
        rintro rfl
        exact hclosed (nextIs_iff.mpr (by rw [htokens]; rfl))
      refine ⟨Outline.listed (.token kind :: more) comma list ++ [Outline.separator .closeParen],
        ?_, startsFirm_token kind _, ⟨_, rfl, .cons comma hvalue hlist⟩, ?_⟩
      · rw [htokens, hmiddle, hrest, phrase_append, phrase_append, phrase_listed]
        simp only [List.append_assoc]
      · intro outline' follow hedited hfollow
        refine takesTo_listed_cons hstep hopen hnone hrest hfirm' ?_ ?_ hedited
        · rw [← hmiddle]
          exact hedits
        · exact fun others' hothers' => hedits' others' follow hothers' hfollow

end Listed

end ClassLang.Rule
