import ClassLang.Proofs.Progress.Routine
import Mathlib.Logic.Relation

/-!
What is called inside a routine. A call is made on tokens that the routine has
come to. Either a token has been taken before it, or what is called stands below
the routine in an order: a list of statements calls a statement, a statement may
call an expression, and an expression what stands in front of its operators. So
a routine that is called again inside itself has taken a token in between.
-/

namespace ClassLang

/-- A routine that is called, and where. -/
structure Activation where
  routine : Routine
  tally : Tally

namespace Routine

/-- Where a routine stands among those that it may call before a token is
taken. -/
def rank : Routine → Nat
  | .statements => 8
  | .statement => 7
  | .statementBody => 6
  | .expressionStatement | .returnStatement | .arguments => 5
  | .expression _ => 4
  | .climb _ | .members => 3
  | .primary | .member => 2
  | .program | .constructor | .paramList | .ifStatement | .whileStatement | .path => 1
  | .classDecl | .field | .method | .params | .param | .block | .declaration | .condition
  | .initializer | .identifier => 0

theorem rank_le (routine : Routine) : routine.rank ≤ 8 := by
  unfold rank
  split <;> decide

/-- Whether a token has been taken where the routine gives this answer: always,
but for an initializer that is not there. -/
abbrev Takes : (routine : Routine) → routine.Answer → Prop
  | .initializer => fun answer => answer.isSome
  | _ => fun _ => True

end Routine

namespace Tallied

/-- An answer that is `taken` has taken a token. -/
def Advances {α : Type} (taken : α → Prop) (rule : Tallied α) : Prop :=
  ∀ tally value after, rule tally = .ok value after → taken value →
    after.unread.length < tally.unread.length

end Tallied

namespace Plan

open Tallied

variable {α β : Type} {limit : Option Nat} {tally : Tally}

/-- The calls that a plan makes from here. Where a part of it fails, there is no
call behind that. -/
def Calls (limit : Option Nat) : {α : Type} → Plan α → Tally → Activation → Prop
  | _, read _, _, _ => False
  | _, andThen first next, tally, activation =>
      first.Calls limit tally activation ∨
        ∃ value after, first.run limit tally = .ok value after ∧
          (next value).Calls limit after activation
  | _, call routine, tally, activation => activation = ⟨routine, tally⟩

theorem forward_run (plan : Plan α) : (plan.run limit).Forward := by
  induction plan with
  | read rule => exact forward_reading rule
  | andThen first next hfirst hnext => exact forward_bind hfirst hnext
  | call routine => exact Script.forward_run (forward_inner limit) routine.script

theorem suffix_of_run {plan : Plan α} {value : α} {after : Tally}
    (h : plan.run limit tally = .ok value after) : after.unread <:+ tally.unread := by
  have hsuffix := @forward_run _ limit plan tally
  rwa [stop_ok h] at hsuffix

theorem suffix_of_calls {plan : Plan α} {activation : Activation}
    (h : plan.Calls limit tally activation) : activation.tally.unread <:+ tally.unread := by
  induction plan generalizing tally with
  | read rule => exact h.elim
  | call routine =>
      obtain rfl := h
      exact List.suffix_rfl
  | andThen first next hfirst hnext =>
      obtain hcalls | ⟨value, after, hrun, hcalls⟩ := h
      · exact hfirst hcalls
      · exact (hnext value hcalls).trans (suffix_of_run hrun)

theorem run_bind_apply (first : Plan α) (next : α → Plan β) (tally : Tally) :
    (first >>= next).run limit tally =
      match first.run limit tally with
      | .ok value after => (next value).run limit after
      | .error thrown after => .error thrown after := by
  change (first.run limit >>= fun value => (next value).run limit) tally = _
  rw [bind_apply]
  cases first.run limit tally <;> rfl

theorem run_bind_ok {first : Plan α} {next : α → Plan β} {answer : β} {after : Tally}
    (h : (first >>= next).run limit tally = .ok answer after) :
    ∃ value middle, first.run limit tally = .ok value middle ∧
      (next value).run limit middle = .ok answer after := by
  rw [run_bind_apply] at h
  cases hrun : first.run limit tally with
  | error thrown stop =>
      rw [hrun] at h
      cases h
  | ok value middle =>
      rw [hrun] at h
      exact ⟨value, middle, rfl, h⟩

/-- Whatever a plan calls is called on fewer tokens than `size` or stands below
`rank`, and an answer that is `taken` leaves fewer tokens than `size`. -/
structure Descends (limit : Option Nat) (rank size : Nat) (taken : α → Prop) (plan : Plan α)
    (tally : Tally) : Prop where
  calls : ∀ activation, plan.Calls limit tally activation →
    activation.tally.unread.length < size ∨ activation.routine.rank < rank
  answer : ∀ value after, plan.run limit tally = .ok value after → taken value →
    after.unread.length < size

/-- The routines below `rank` take tokens. -/
def AdvanceBelow (limit : Option Nat) (rank : Nat) : Prop :=
  ∀ routine : Routine, routine.rank < rank → (routine.run limit).Advances routine.Takes

section Descends

variable {rank size : Nat} {taken : β → Prop}

theorem descends_of_lt (plan : Plan β) (hsize : tally.unread.length < size) :
    plan.Descends limit rank size taken tally where
  calls _ hcalls := .inl (Nat.lt_of_le_of_lt (suffix_of_calls hcalls).length_le hsize)
  answer _ _ hrun _ := Nat.lt_of_le_of_lt (suffix_of_run hrun).length_le hsize

/-- What comes next matters only where the first part has taken no token. -/
theorem descends_bind {took : α → Prop} {first : Plan α} {next : α → Plan β}
    (hfirst : first.Descends limit rank size took tally)
    (hnext : ∀ value after, first.run limit tally = .ok value after → ¬ took value →
      (next value).Descends limit rank size taken after) :
    (first >>= next).Descends limit rank size taken tally := by
  have hthen {value : α} {after : Tally} (hrun : first.run limit tally = .ok value after) :
      (next value).Descends limit rank size taken after := by
    by_cases htook : took value
    · exact descends_of_lt _ (hfirst.answer value after hrun htook)
    · exact hnext value after hrun htook
  constructor
  · rintro activation (hcalls | ⟨value, after, hrun, hcalls⟩)
    · exact hfirst.calls activation hcalls
    · exact (hthen hrun).calls activation hcalls
  · intro answer after hrun htaken
    obtain ⟨value, middle, hrun, hrest⟩ := run_bind_ok hrun
    exact (hthen hrun).answer answer after hrest htaken

/-- Behind a token that has been taken, anything may follow. -/
theorem descends_behind {first : Plan α} {next : α → Plan β}
    (hfirst : first.Descends limit rank size (fun _ => True) tally) :
    (first >>= next).Descends limit rank size taken tally :=
  descends_bind hfirst fun _ _ _ hnot => absurd trivial hnot

theorem descends_read {rule : Rule β} [rule.Forward]
    (h : ∀ value rest, rule tally.unread = .ok value rest → taken value → rest.length < size) :
    (read rule).Descends limit rank size taken tally := by
  constructor
  · rintro activation ⟨⟩
  · intro value after hrun htaken
    change reading rule tally = .ok value after at hrun
    unfold reading at hrun
    cases hread : rule tally.unread with
    | error thrown rest =>
        rw [hread] at hrun
        cases hrun
    | ok answer rest =>
        rw [hread] at hrun
        cases hrun
        exact h value rest hread htaken

theorem descends_reads {relation : Phrase → β → Prop} {rule : Rule β} [rule.Forward]
    (hreads : Rule.Reads relation rule) (hsize : tally.unread.length ≤ size)
    (hnil : ∀ value, taken value → ¬ relation [] value) :
    (read rule).Descends limit rank size taken tally :=
  descends_read fun _ _ hrun htaken =>
    Nat.lt_of_lt_of_le (hreads.shortens hrun (hnil _ htaken)) hsize

theorem descends_separator (mark : Separator) (hsize : tally.unread.length ≤ size) :
    (read (Rule.separator mark)).Descends limit rank size (fun _ => True) tally :=
  descends_reads (Rule.reads_separator mark) hsize fun _ _ h => List.cons_ne_nil _ _ h.symm

theorem descends_type (hsize : tally.unread.length ≤ size) :
    (read Rule.type).Descends limit rank size (fun _ => True) tally :=
  descends_reads Rule.reads_type hsize fun _ _ h => by cases h

theorem descends_accept (kind : TokenKind) (hsize : tally.unread.length ≤ size) :
    (read (Rule.accept kind)).Descends limit rank size (· = true) tally := by
  apply descends_reads (Rule.reads_accept kind) hsize
  rintro present rfl h
  exact List.cons_ne_nil _ _ h.symm

theorem descends_skip (hne : tally.unread ≠ []) (hsize : tally.unread.length ≤ size) :
    (read Rule.skip).Descends limit rank size (fun _ => True) tally := by
  apply descends_read
  rintro value rest hrun -
  cases hrun
  have hpos := List.length_pos_iff.mpr hne
  rw [List.length_tail]
  omega

theorem descends_throw (thrown : Thrown) :
    (read (throw thrown) : Plan β).Descends limit rank size taken tally :=
  descends_read fun _ _ hrun => by cases hrun

theorem descends_fail (fault : Fault) :
    (read (Rule.fail fault) : Plan β).Descends limit rank size taken tally :=
  descends_read fun _ _ hrun => by cases hrun

theorem descends_failExpecting (expected : Expectation) :
    (read (Rule.failExpecting expected) : Plan β).Descends limit rank size taken tally := by
  apply descends_read
  intro value rest hrun
  cases htokens : tally.unread <;> rw [htokens] at hrun <;> cases hrun

theorem descends_pure (value : β) (hnot : ¬ taken value) :
    (pure value : Plan β).Descends limit rank size taken tally :=
  descends_read fun _ _ hrun htaken => by
    cases hrun
    exact absurd htaken hnot

theorem descends_get {next : List Token → Plan β}
    (h : (next tally.unread).Descends limit rank size taken tally) :
    (read get >>= next).Descends limit rank size taken tally := by
  have hget : (read get).Descends limit rank size (fun _ => False) tally :=
    descends_read fun _ _ _ htaken => htaken.elim
  apply descends_bind hget
  intro tokens after hrun _
  cases hrun
  exact h

theorem descends_call (hbelow : AdvanceBelow limit rank) (routine : Routine)
    (hrank : routine.rank < rank) (hsize : tally.unread.length ≤ size) :
    (call routine).Descends limit rank size routine.Takes tally where
  calls := by
    rintro activation rfl
    exact .inr hrank
  answer value after hrun htaken :=
    Nat.lt_of_lt_of_le (hbelow routine hrank tally value after hrun htaken) hsize

/-- Only the first round of a loop comes to all of the tokens. -/
theorem descends_collect {step : Plan (Option α)}
    (hstep : step.Descends limit rank size (·.isSome) tally) :
    (Shape.collect step).Descends limit rank size (· ≠ []) tally := by
  have honce (more : Plan (List α)) :
      (Shape.collectOnce step more).Descends limit rank size (· ≠ []) tally := by
    apply descends_bind hstep
    intro answer after _ hnot
    cases answer with
    | none => exact descends_pure [] (not_not_intro rfl)
    | some first => exact absurd rfl hnot
  apply descends_get
  cases tally.unread with
  | nil => exact honce _
  | cons token rest => exact honce _

/-- A round that asks for no element where the list is closed. -/
theorem descends_unless {test : List Token → Bool} {element : Plan α}
    {next : α → Plan (Option β)}
    (helement : element.Descends limit rank size (fun _ => True) tally) :
    (read get >>= fun tokens => if test tokens then pure none else element >>= next).Descends
      limit rank size (·.isSome) tally := by
  apply descends_get
  split
  · exact descends_pure none Bool.false_ne_true
  · exact descends_behind helement

theorem descends_closed (loop : Loop) (close : Separator) {next : List loop.Element → Plan β}
    (hstep : loop.step.Descends limit rank size (·.isSome) tally)
    (hsize : tally.unread.length ≤ size) :
    (loop.plan >>= fun elements => read (Rule.separator close) >>= fun _ => next elements).Descends
      limit rank size taken tally := by
  apply descends_bind (descends_collect hstep)
  intro elements after hrun _
  apply descends_behind
  exact descends_separator close (Nat.le_trans (suffix_of_run hrun).length_le hsize)

end Descends

end Plan

namespace Routine

open Plan

variable {limit : Option Nat} {tally : Tally} {size : Nat}

theorem descends_program (hbelow : AdvanceBelow limit program.rank)
    (hsize : tally.unread.length ≤ size) :
    program.body.Descends limit program.rank size program.Takes tally := by
  have hstep : Loop.classes.step.Descends limit program.rank size (·.isSome) tally :=
    descends_unless (descends_call hbelow .classDecl (by decide) hsize)
  apply descends_bind (descends_collect hstep)
  intro classes after _ hnot
  rw [if_pos]
  · exact descends_throw _
  · exact List.isEmpty_iff.mpr (Classical.not_not.mp hnot)

theorem descends_member (hbelow : AdvanceBelow limit member.rank)
    (hsize : tally.unread.length ≤ size) :
    member.body.Descends limit member.rank size member.Takes tally := by
  apply descends_get
  cases tally.unread with
  | nil => exact descends_failExpecting _
  | cons first rest =>
      dsimp only
      cases MemberForm.ofTokens? (first :: rest) with
      | none => exact descends_fail _
      | some form =>
          cases form with
          | field => exact descends_call hbelow .field (by decide) hsize
          | method => exact descends_call hbelow .method (by decide) hsize
          | constructor => exact descends_call hbelow .constructor (by decide) hsize

theorem descends_statementBody (hbelow : AdvanceBelow limit statementBody.rank)
    (hsize : tally.unread.length ≤ size) :
    statementBody.body.Descends limit statementBody.rank size statementBody.Takes tally := by
  apply descends_get
  cases htokens : tally.unread with
  | nil => exact descends_failExpecting _
  | cons token rest =>
      have hne : tally.unread ≠ [] := by
        rw [htokens]
        exact List.cons_ne_nil token rest
      dsimp only
      split
      · exact descends_behind (descends_skip hne hsize)
      · exact descends_behind (descends_call hbelow .block (by decide) hsize)
      · exact descends_behind (descends_skip hne hsize)
      · exact descends_behind (descends_skip hne hsize)
      · exact descends_behind (descends_skip hne hsize)
      · exact descends_behind (descends_skip hne hsize)
      · split
        · exact descends_call hbelow .declaration (by decide) hsize
        · exact descends_call hbelow .expressionStatement (by decide) hsize

theorem descends_primary (hbelow : AdvanceBelow limit primary.rank)
    (hsize : tally.unread.length ≤ size) :
    primary.body.Descends limit primary.rank size primary.Takes tally := by
  apply descends_get
  cases htokens : tally.unread with
  | nil => exact descends_failExpecting _
  | cons token rest =>
      have hne : tally.unread ≠ [] := by
        rw [htokens]
        exact List.cons_ne_nil token rest
      dsimp only
      split
      · exact descends_behind (descends_skip hne hsize)
      · exact descends_behind (descends_call hbelow .path (by decide) hsize)
      · exact descends_behind (descends_skip hne hsize)
      · exact descends_behind (descends_skip hne hsize)
      · exact descends_fail _

/-- Before a routine takes a token, it calls only routines that stand below it. -/
theorem descends_body (routine : Routine) (hbelow : AdvanceBelow limit routine.rank)
    (hsize : tally.unread.length ≤ size) :
    routine.body.Descends limit routine.rank size routine.Takes tally := by
  have hcall (inner : Routine) (hrank : inner.rank < routine.rank) :=
    descends_call hbelow inner hrank hsize
  cases routine with
  | program => exact descends_program hbelow hsize
  | member => exact descends_member hbelow hsize
  | statementBody => exact descends_statementBody hbelow hsize
  | primary => exact descends_primary hbelow hsize
  | classDecl =>
      apply descends_behind
      exact descends_reads (Rule.reads_keyword _) hsize fun _ _ h => List.cons_ne_nil _ _ h.symm
  | field => exact descends_behind (descends_type hsize)
  | method => exact descends_behind (descends_type hsize)
  | param => exact descends_behind (descends_type hsize)
  | declaration => exact descends_behind (descends_type hsize)
  | params => exact descends_behind (descends_separator _ hsize)
  | block => exact descends_behind (descends_separator _ hsize)
  | condition => exact descends_behind (descends_separator _ hsize)
  | constructor => exact descends_behind (hcall .identifier (by decide))
  | ifStatement => exact descends_behind (hcall .condition (by decide))
  | whileStatement => exact descends_behind (hcall .condition (by decide))
  | expressionStatement => exact descends_behind (hcall (.expression 0) (by decide))
  | climb floor => exact descends_behind (hcall .primary (Nat.lt_succ_self 2))
  | path => exact descends_behind (hcall .identifier (by decide))
  | statement => exact hcall .statementBody (by decide)
  | expression floor => exact hcall (.climb floor) (Nat.lt_succ_self 3)
  | members =>
      exact descends_closed .members _ (descends_unless (hcall .member (by decide))) hsize
  | statements =>
      exact descends_closed .statements _ (descends_unless (hcall .statement (by decide))) hsize
  | paramList =>
      exact descends_closed .params _ (descends_unless (hcall .param (by decide))) hsize
  | arguments =>
      exact descends_closed .arguments _ (descends_unless (hcall (.expression 0) (by decide))) hsize
  | returnStatement =>
      apply descends_get
      split
      · exact descends_behind (descends_separator _ hsize)
      · exact descends_behind (hcall (.expression 0) (by decide))
  | initializer =>
      apply descends_bind (descends_accept _ hsize)
      intro present after _ hnot
      rw [if_neg hnot]
      exact descends_pure none Bool.false_ne_true
  | identifier =>
      exact descends_reads Rule.reads_identifier hsize fun _ _ h => List.cons_ne_nil _ _ h.symm

/-- Where a routine that is called here begins what it does; nowhere, if it is a
level of nesting and the limit is reached. -/
def enter? (limit : Option Nat) (routine : Routine) (tally : Tally) : Option Tally :=
  if routine.isLevel then
    match limit.filter (· ≤ tally.depth) with
    | some _ => none
    | none => some tally.enter
  else some tally

theorem unread_of_enter? {routine : Routine} {entry : Tally}
    (h : routine.enter? limit tally = some entry) : entry.unread = tally.unread := by
  unfold enter? at h
  split at h
  · split at h
    · cases h
    · cases h
      rfl
  · cases h
    rfl

/-- A call fails at the limit, or it is what is run from where the routine begins;
no token has a part in how it is left. -/
theorem level_cases (limit : Option Nat) (routine : Routine) (tally : Tally) :
    (routine.enter? limit tally = none ∧ ∃ max, ∀ {α : Type} (rule : Tallied α),
      routine.level limit rule tally =
        .error ((Fault.nestingTooDeep max).before tally.unread) tally) ∨
    ∃ (entry : Tally) (leave : Tally → Tally), routine.enter? limit tally = some entry ∧
      (∀ after, (leave after).unread = after.unread) ∧
      ∀ {α : Type} (rule : Tallied α), routine.level limit rule tally =
        match rule entry with
        | .ok value after => .ok value (leave after)
        | .error thrown after => .error thrown (leave after) := by
  unfold enter? level
  by_cases hlevel : routine.isLevel = true
  · simp only [if_pos hlevel, Tallied.nested]
    cases limit.filter (· ≤ tally.depth) with
    | some max => exact .inl ⟨rfl, max, fun _ => rfl⟩
    | none =>
        refine .inr ⟨tally.enter, Tally.leave, rfl, fun _ => rfl, fun rule => ?_⟩
        cases rule tally.enter <;> rfl
  · simp only [if_neg hlevel]
    refine .inr ⟨tally, id, rfl, fun _ => rfl, fun rule => ?_⟩
    cases rule tally <;> rfl

/-- What a routine answers it has answered from where it begins. -/
theorem exists_enter?_of_run {routine : Routine} {value : routine.Answer} {after : Tally}
    (h : routine.run limit tally = .ok value after) :
    ∃ entry stop, routine.enter? limit tally = some entry ∧
      routine.body.run limit entry = .ok value stop ∧ stop.unread = after.unread := by
  rw [run_eq] at h
  obtain ⟨_, max, hfails⟩ | ⟨entry, leave, hentry, hleave, hruns⟩ := level_cases limit routine tally
  · rw [hfails] at h
    cases h
  · rw [hruns] at h
    cases hrun : routine.body.run limit entry with
    | error thrown stop =>
        rw [hrun] at h
        cases h
    | ok answer stop =>
        rw [hrun] at h
        cases h
        exact ⟨entry, stop, hentry, hrun, (hleave stop).symm⟩

/-- A call depends only on what is run from where the routine begins. -/
theorem level_congr {α : Type} {rule rule' : Tallied α} (routine : Routine)
    (h : ∀ entry, routine.enter? limit tally = some entry → rule entry = rule' entry) :
    routine.level limit rule tally = routine.level limit rule' tally := by
  obtain ⟨_, max, hfails⟩ | ⟨entry, leave, hentry, _, hruns⟩ := level_cases limit routine tally
  · rw [hfails, hfails]
  · rw [hruns, hruns, h entry hentry]

theorem advances_of_below {routine : Routine} (hbelow : AdvanceBelow limit routine.rank) :
    (routine.run limit).Advances routine.Takes := by
  intro tally value after hrun htaken
  obtain ⟨entry, stop, hentry, hbody, hstop⟩ := exists_enter?_of_run hrun
  have hdescends := descends_body routine hbelow (Nat.le_of_eq (congrArg List.length
    (unread_of_enter? hentry)))
  rw [← hstop]
  exact hdescends.answer value stop hbody htaken

theorem advanceBelow (rank : Nat) : AdvanceBelow limit rank := by
  induction rank with
  | zero => exact fun routine hrank => absurd hrank (Nat.not_lt_zero _)
  | succ rank ih =>
      intro routine hrank
      apply advances_of_below
      exact fun other hother => ih other (Nat.lt_of_lt_of_le hother (Nat.le_of_lt_succ hrank))

theorem advances (routine : Routine) : (routine.run limit).Advances routine.Takes :=
  advances_of_below (advanceBelow _)

end Routine

/-- Each round of a loop that answers an element has taken a token. -/
theorem Loop.advances_step {limit : Option Nat} (loop : Loop) :
    (loop.step.run limit).Advances (·.isSome) := by
  intro tally value after hrun hsome
  have hsize := Nat.le_refl tally.unread.length
  have hcall (routine : Routine) := @Plan.descends_call limit tally 9 tally.unread.length
    (Routine.advanceBelow 9) routine (Nat.lt_succ_of_le routine.rank_le) hsize
  have hstep : loop.step.Descends limit 9 tally.unread.length (·.isSome) tally := by
    cases loop with
    | classes => exact Plan.descends_unless (hcall .classDecl)
    | members => exact Plan.descends_unless (hcall .member)
    | statements => exact Plan.descends_unless (hcall .statement)
    | params => exact Plan.descends_unless (hcall .param)
    | arguments => exact Plan.descends_unless (hcall (.expression 0))
    | path =>
        apply Plan.descends_bind (Plan.descends_accept _ hsize)
        intro present after _ hnot
        rw [if_neg hnot]
        exact Plan.descends_pure none Bool.false_ne_true
    | operands floor =>
        have hoperator : (Plan.read (Rule.operatorAtLeast floor)).Descends limit 9
            tally.unread.length (·.isSome) tally := by
          apply Plan.descends_reads (Rule.reads_operatorAtLeast floor) hsize
          rintro (_ | symbol) hsome hnil
          · cases hsome
          · cases hnil
        apply Plan.descends_bind hoperator
        intro answer after _ hnot
        cases answer with
        | none => exact Plan.descends_pure none Bool.false_ne_true
        | some symbol => exact absurd rfl hnot
  exact hstep.answer value after hrun hsome

namespace Activation

variable {limit : Option Nat} {outer inner : Activation}

/-- The outer one calls the inner one. -/
def Calls (limit : Option Nat) (outer inner : Activation) : Prop :=
  ∃ entry, outer.routine.enter? limit outer.tally = some entry ∧
    outer.routine.body.Calls limit entry inner

/-- What shrinks from a routine to those that it calls. -/
def size (activation : Activation) : Nat :=
  9 * activation.tally.unread.length + activation.routine.rank

theorem suffix_of_calls (h : outer.Calls limit inner) :
    inner.tally.unread <:+ outer.tally.unread := by
  obtain ⟨entry, hentry, hcalls⟩ := h
  rw [← Routine.unread_of_enter? hentry]
  exact Plan.suffix_of_calls hcalls

theorem size_lt_of_calls (h : outer.Calls limit inner) : inner.size < outer.size := by
  have hlength := (suffix_of_calls h).length_le
  have hrank := inner.routine.rank_le
  obtain ⟨entry, hentry, hcalls⟩ := h
  have hsize := congrArg List.length (Routine.unread_of_enter? hentry)
  have hdescends := @Routine.descends_body limit entry _ outer.routine (Routine.advanceBelow _)
    (Nat.le_of_eq hsize)
  unfold size
  obtain hless | hbelow := hdescends.calls inner hcalls
  · omega
  · omega

/-- The inner one begins inside the outer one, at any depth. -/
abbrev Holds (limit : Option Nat) : Activation → Activation → Prop :=
  Relation.TransGen (Calls limit)

theorem suffix_of_holds (h : Holds limit outer inner) :
    inner.tally.unread <:+ outer.tally.unread := by
  induction h with
  | single hcalls => exact suffix_of_calls hcalls
  | tail _ hcalls ih => exact (suffix_of_calls hcalls).trans ih

theorem size_lt_of_holds (h : Holds limit outer inner) : inner.size < outer.size := by
  induction h with
  | single hcalls => exact size_lt_of_calls hcalls
  | tail _ hcalls ih => exact Nat.lt_trans (size_lt_of_calls hcalls) ih

/-- Inside itself a routine begins behind a token that it has taken. -/
theorem unread_lt_of_holds (h : Holds limit outer inner) (hsame : inner.routine = outer.routine) :
    inner.tally.unread.length < outer.tally.unread.length := by
  have hsize := size_lt_of_holds h
  unfold size at hsize
  rw [hsame] at hsize
  omega

end Activation

end ClassLang
