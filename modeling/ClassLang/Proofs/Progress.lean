import ClassLang.Proofs.Calls
import ClassLang.Proofs.Progress.Descent

/-!
The rules come to an end by themselves. A rule that answers has taken a token,
so a loop has no more rounds than there are tokens, and a rule inside itself is
run on fewer tokens, so that a budget for rules inside each other that is linear
in the tokens is never used up. A limit on nesting has no part in this: all of
it holds with any limit and with none.
-/

namespace ClassLang

open Tallied

section Loops

variable {limit : Option Nat} {loop : Loop}

namespace Loop

/-- Rounds of a loop behind each other, and the elements that they answer. -/
inductive Rounds (limit : Option Nat) (loop : Loop) : Tally → List loop.Element → Tally → Prop where
  | nil (tally : Tally) : Rounds limit loop tally [] tally
  | cons {start middle stop : Tally} {value : loop.Element} {values : List loop.Element}
      (first : loop.step.run limit start = .ok (some value) middle)
      (others : Rounds limit loop middle values stop) :
      Rounds limit loop start (value :: values) stop

/-- How a loop ends behind rounds that answered these elements: there is no
further element, or the next round fails and the loop with it. -/
def Ends (limit : Option Nat) (loop : Loop) (values : List loop.Element) (stop : Tally)
    (result : EStateM.Result Thrown Tally (List loop.Element)) : Prop :=
  match loop.step.run limit stop with
  | .ok none after => result = .ok values after
  | .ok (some _) _ => False
  | .error thrown after => result = .error thrown after

/-- The elements are listed with commas between them, up to a parenthesis. -/
def isListed : Loop → Bool
  | .params | .arguments => true
  | _ => false

/-- Every round takes a token. -/
theorem Rounds.length_add_le {start stop : Tally} {values : List loop.Element}
    (h : loop.Rounds limit start values stop) :
    values.length + stop.unread.length ≤ start.unread.length := by
  induction h with
  | nil tally => simp
  | cons first others ih =>
      have hless := loop.advances_step _ _ _ first rfl
      rw [List.length_cons]
      omega

theorem exists_rounds_once {more : Plan (List loop.Element)} {start : Tally}
    (hmore : ∀ value middle, loop.step.run limit start = .ok (some value) middle →
      ∃ values stop, loop.Rounds limit middle values stop ∧
        loop.Ends limit values stop (more.run limit middle)) :
    ∃ values stop, loop.Rounds limit start values stop ∧
      loop.Ends limit values stop ((Shape.collectOnce loop.step more).run limit start) := by
  rw [Shape.collectOnce, Plan.run_bind_apply]
  cases hstep : loop.step.run limit start with
  | error thrown after =>
      refine ⟨[], start, .nil start, ?_⟩
      unfold Ends
      rw [hstep]
  | ok answer middle =>
      cases answer with
      | none =>
          refine ⟨[], start, .nil start, ?_⟩
          unfold Ends
          rw [hstep]
          rfl
      | some value =>
          obtain ⟨values, stop, hrounds, hends⟩ := hmore value middle hstep
          refine ⟨value :: values, stop, .cons hstep hrounds, ?_⟩
          dsimp only
          rw [Plan.run_bind_apply]
          unfold Ends at hends ⊢
          cases hlast : loop.step.run limit stop with
          | error thrown after =>
              rw [hlast] at hends
              rw [hends]
          | ok answer after =>
              rw [hlast] at hends
              cases answer with
              | none => rw [hends]; rfl
              | some other => exact hends

/-- A budget of as many rounds as there are tokens never ends a loop. -/
theorem exists_rounds_within (budget : List Token) (start : Tally)
    (hbudget : start.unread.length ≤ budget.length) :
    ∃ values stop, loop.Rounds limit start values stop ∧
      loop.Ends limit values stop ((Shape.collectWithin loop.step budget).run limit start) := by
  induction budget generalizing start with
  | nil =>
      apply exists_rounds_once
      intro value middle hstep
      have hless := loop.advances_step _ _ _ hstep rfl
      exact absurd hless (by rw [List.length_nil] at hbudget; omega)
  | cons token budget ih =>
      apply exists_rounds_once
      intro value middle hstep
      have hless := loop.advances_step _ _ _ hstep rfl
      rw [List.length_cons] at hbudget
      exact ih middle (by omega)

theorem exists_rounds (loop : Loop) (start : Tally) :
    ∃ values stop, loop.Rounds limit start values stop ∧
      loop.Ends limit values stop (loop.plan.run limit start) :=
  exists_rounds_within start.unread start (Nat.le_refl _)

/-- At the end of the tokens there is no further element, but for a list with
commas, which looks for its parenthesis only. -/
theorem step_at_end (h : loop.isListed = false) {tally : Tally} (hend : tally.unread = []) :
    loop.step.run limit tally = .ok none tally := by
  obtain ⟨unread, depth, starts⟩ := tally
  cases hend
  cases loop <;> first | rfl | cases h

end Loop

end Loops

section Budget

variable {limit : Option Nat} {tally : Tally}

/-- A run depends only on the calls that it makes. -/
theorem Plan.runWith_congr {α : Type} {plan : Plan α}
    {calls : (routine : Routine) → Tallied routine.Answer}
    (h : ∀ activation, plan.Calls limit tally activation →
      calls activation.routine activation.tally = activation.routine.run limit activation.tally) :
    plan.runWith calls tally = plan.run limit tally := by
  induction plan generalizing tally with
  | read rule => rfl
  | call routine => exact h ⟨routine, tally⟩ rfl
  | andThen first next hfirst hnext =>
      change (first.runWith calls >>= fun value => (next value).runWith calls) tally =
        (first.run limit >>= fun value => (next value).run limit) tally
      rw [bind_apply, bind_apply, hfirst fun activation hcalls => h activation (.inl hcalls)]
      cases hrun : first.run limit tally with
      | error thrown after => rfl
      | ok value after =>
          exact hnext value fun activation hcalls =>
            h activation (.inr ⟨value, after, hrun, hcalls⟩)

namespace Routine

/-- The rules, at most `budget` of them under way inside each other. Where the
budget is used up, something else is done in their place. -/
def runWithin (limit : Option Nat) (otherwise : (routine : Routine) → Tallied routine.Answer) :
    (budget : Nat) → (routine : Routine) → Tallied routine.Answer
  | 0, routine => otherwise routine
  | budget + 1, routine =>
      routine.level limit (routine.body.runWith (runWithin limit otherwise budget))

/-- A budget above the size of what is called is not used up, so it does not
matter what would be done then. -/
theorem runWithin_eq {otherwise : (routine : Routine) → Tallied routine.Answer} {budget : Nat}
    (activation : Activation) (hbudget : activation.size < budget) :
    runWithin limit otherwise budget activation.routine activation.tally =
      activation.routine.run limit activation.tally := by
  induction budget generalizing activation with
  | zero => exact absurd hbudget (Nat.not_lt_zero _)
  | succ budget ih =>
      rw [run_eq, runWithin]
      apply level_congr
      intro entry hentry
      apply Plan.runWith_congr
      intro inner hcalls
      have hless := Activation.size_lt_of_calls ⟨entry, hentry, hcalls⟩
      exact ih inner (by omega)

theorem runWithin_eq_of_tokens {otherwise : (routine : Routine) → Tallied routine.Answer}
    {budget : Nat} (routine : Routine) (hbudget : 9 * tally.unread.length + 9 ≤ budget) :
    runWithin limit otherwise budget routine tally = routine.run limit tally := by
  have hrank := routine.rank_le
  apply runWithin_eq ⟨routine, tally⟩
  unfold Activation.size
  dsimp only
  omega

end Routine

end Budget

namespace CountingReader

/-- Run a rule from where the reader stands, with what is under way there. -/
def runBy {α : Type} (reader : CountingReader) (rule : Tallied α) :
    Except SyntaxError α × CountingReader :=
  match rule ⟨reader.unread, reader.depth, []⟩ with
  | .ok value stop => (.ok value, ⟨reader.stoppedAt stop.unread, stop.depth⟩)
  | .error thrown stop =>
      (.error (reader.place thrown), ⟨reader.stoppedAt stop.unread, stop.depth⟩)

theorem runBy_script (reader : CountingReader) (call : Call) :
    reader.runBy (call.script.run (inner (some Rule.maxNesting))) = reader.call call := by
  unfold runBy CountingReader.call
  dsimp only
  cases call.script.run (inner (some Rule.maxNesting)) ⟨reader.unread, reader.depth, []⟩ <;> rfl

theorem runBy_congr {α : Type} {reader : CountingReader} {rule rule' : Tallied α}
    (h : rule ⟨reader.unread, reader.depth, []⟩ = rule' ⟨reader.unread, reader.depth, []⟩) :
    reader.runBy rule = reader.runBy rule' := by
  unfold runBy
  rw [h]

/-- An answer that takes a token moves the position on, and not past the end. -/
theorem position_runBy {α : Type} {rule : Tallied α} {taken : α → Prop}
    (hadvances : rule.Advances taken) {reader after : CountingReader} {value : α}
    (hposition : reader.position ≤ reader.tokens.length) (htaken : taken value)
    (hrun : reader.runBy rule = (.ok value, after)) :
    after.tokens = reader.tokens ∧ reader.position < after.position ∧
      after.position ≤ reader.tokens.length := by
  unfold runBy at hrun
  cases hstop : rule ⟨reader.unread, reader.depth, []⟩ with
  | error thrown stop =>
      rw [hstop] at hrun
      cases hrun
  | ok answer stop =>
      rw [hstop] at hrun
      cases hrun
      have hless : stop.unread.length < reader.unread.length := hadvances _ _ _ hstop htaken
      have hunread : reader.unread.length = reader.tokens.length - reader.position :=
        List.length_drop
      refine ⟨rfl, ?_, Nat.sub_le _ _⟩
      change reader.position < reader.tokens.length - stop.unread.length
      omega

/-- With a budget that is enough for the tokens, a call of a reader with nothing
under way goes as it does without a budget. -/
theorem runBy_runWithin {otherwise : (routine : Routine) → Tallied routine.Answer} {budget : Nat}
    (reader : Reader) (hbudget : 9 * reader.unread.length + 9 ≤ budget) :
    let within := Routine.runWithin (some Rule.maxNesting) otherwise budget
    runBy ⟨reader, 0⟩ (within .program) = (reader.program.1, ⟨reader.program.2, 0⟩) ∧
      runBy ⟨reader, 0⟩ (within (.expression 0)) =
        (reader.expression.1, ⟨reader.expression.2, 0⟩) := by
  intro within
  have hcall (call : Call) : runBy ⟨reader, 0⟩ (call.script.run (inner (some Rule.maxNesting))) =
      ((reader.call call).1, ⟨(reader.call call).2, 0⟩) :=
    (runBy_script _ call).trans (call_eq rfl call)
  constructor
  · rw [runBy_congr (Routine.runWithin_eq_of_tokens .program hbudget)]
    exact hcall .program
  · rw [runBy_congr (Routine.runWithin_eq_of_tokens (.expression 0) hbudget)]
    exact hcall .expression

end CountingReader

/-- What answers has taken a token, what begins again inside itself has taken
one in between, a loop has at most as many rounds as there are tokens, and a
budget that is linear in the tokens is enough for whatever is called. None of it
depends on the limit of nesting. A round counts if it answers an element; one
that fails is the last, and only a list with commas begins it where there are no
tokens left. -/
theorem rules_make_progress (limit : Option Nat) :
    (∀ (routine : Routine) (reader after : CountingReader) (value : routine.Answer),
      routine ≠ .initializer → reader.position ≤ reader.tokens.length →
      reader.runBy (routine.run limit) = (.ok value, after) →
        after.tokens = reader.tokens ∧ reader.position < after.position ∧
          after.position ≤ reader.tokens.length) ∧
    (∀ outer inner : Activation, Activation.Holds limit outer inner →
      inner.tally.unread <:+ outer.tally.unread ∧
        (inner.routine = outer.routine →
          inner.tally.unread.length < outer.tally.unread.length)) ∧
    (∀ (loop : Loop) (start : Tally), ∃ values stop,
      loop.Rounds limit start values stop ∧
        loop.Ends limit values stop (loop.plan.run limit start) ∧
        values.length + stop.unread.length ≤ start.unread.length ∧
        (loop.isListed = false → stop.unread = [] → loop.plan.run limit start = .ok values stop)) ∧
    (∀ (otherwise : (routine : Routine) → Tallied routine.Answer) (budget : Nat)
      (routine : Routine) (tally : Tally), 9 * tally.unread.length + 9 ≤ budget →
        Routine.runWithin limit otherwise budget routine tally = routine.run limit tally) ∧
    ∀ (otherwise : (routine : Routine) → Tallied routine.Answer) (budget : Nat) (reader : Reader),
      9 * reader.unread.length + 9 ≤ budget →
        let within := Routine.runWithin (some Rule.maxNesting) otherwise budget
        CountingReader.runBy ⟨reader, 0⟩ (within .program) =
            (reader.program.1, ⟨reader.program.2, 0⟩) ∧
          CountingReader.runBy ⟨reader, 0⟩ (within (.expression 0)) =
            (reader.expression.1, ⟨reader.expression.2, 0⟩) := by
  refine ⟨?_, ?_, ?_, ?_, ?_⟩
  · intro routine reader after value hroutine hposition hrun
    have htakes : routine.Takes value := by
      cases routine with
      | initializer => exact absurd rfl hroutine
      | _ => trivial
    exact CountingReader.position_runBy (Routine.advances routine) hposition htakes hrun
  · intro outer inner hholds
    exact ⟨Activation.suffix_of_holds hholds, Activation.unread_lt_of_holds hholds⟩
  · intro loop start
    obtain ⟨values, stop, hrounds, hends⟩ := loop.exists_rounds start
    refine ⟨values, stop, hrounds, hends, hrounds.length_add_le, ?_⟩
    intro hlisted hend
    unfold Loop.Ends at hends
    rwa [Loop.step_at_end hlisted hend] at hends
  · intro otherwise budget routine tally hbudget
    exact Routine.runWithin_eq_of_tokens routine hbudget
  · intro otherwise budget reader hbudget
    exact CountingReader.runBy_runWithin reader hbudget

/-- `(x)`: an expression begins inside an expression, and is read by itself. -/
theorem rules_make_progress_parens :
    let tokens : List Token :=
      [⟨.separator .openParen, 0⟩, ⟨.identifier "x", 1⟩, ⟨.separator .closeParen, 2⟩]
    let outer : Tally := .ofTokens tokens
    let inner : Tally := ⟨tokens.tail, 1, [⟨1, tokens⟩]⟩
    let reader : CountingReader := ⟨⟨tokens, 1⟩, 1⟩
    let after : CountingReader := ⟨⟨tokens, 2⟩, 1⟩
    Activation.Holds none ⟨.expression 0, outer⟩ ⟨.expression 0, inner⟩ ∧
      inner.unread.length < outer.unread.length ∧
      reader.runBy ((Routine.expression 0).run none) = (.ok (.reference ["x"]), after) ∧
      reader.position < after.position ∧
      (∃ stop, Loop.path.plan.run none (.ofTokens []) = .ok [] stop) ∧
      ∀ otherwise, Routine.runWithin none otherwise 36 (.expression 0) outer =
          (Routine.expression 0).run none outer ∧
        (CountingReader.runBy ⟨.ofTokens tokens, 0⟩
          (Routine.runWithin (some Rule.maxNesting) otherwise 36 (.expression 0))).1 =
            .ok (.reference ["x"]) := by
  intro tokens outer inner reader after
  obtain ⟨hanswer, hinside, hloops, hbudget, hreader⟩ := rules_make_progress none
  have hclimb : Activation.Calls none ⟨.expression 0, outer⟩ ⟨.climb 0, outer.enter⟩ :=
    ⟨_, rfl, rfl⟩
  have hprimary : Activation.Calls none ⟨.climb 0, outer.enter⟩ ⟨.primary, outer.enter⟩ :=
    ⟨_, rfl, .inl rfl⟩
  have hparens : Activation.Calls none ⟨.primary, outer.enter⟩ ⟨.expression 0, inner⟩ :=
    ⟨_, rfl, .inr ⟨_, _, rfl, .inr ⟨_, _, rfl, .inl rfl⟩⟩⟩
  have hholds : Activation.Holds none ⟨.expression 0, outer⟩ ⟨.expression 0, inner⟩ :=
    ((Relation.TransGen.single hclimb).tail hprimary).tail hparens
  have hrun : reader.runBy ((Routine.expression 0).run none) =
      (.ok (.reference ["x"]), after) := by
    rfl
  have hmoved := hanswer (.expression 0) reader after _ (by decide) (by decide) hrun
  have hpath : ∃ stop, Loop.path.plan.run none (.ofTokens []) = .ok [] stop := by
    obtain ⟨values, stop, -, -, hbound, hend⟩ := hloops .path (.ofTokens [])
    obtain ⟨hvalues, hstop⟩ := Nat.add_eq_zero_iff.mp (Nat.le_zero.mp hbound)
    rw [List.length_eq_zero_iff] at hvalues hstop
    exact ⟨stop, hvalues ▸ hend rfl hstop⟩
  refine ⟨hholds, (hinside _ _ hholds).2 rfl, hrun, hmoved.2.1, hpath, fun otherwise => ?_⟩
  refine ⟨hbudget otherwise 36 (.expression 0) outer (Nat.le_refl _), ?_⟩
  rw [(hreader otherwise 36 (.ofTokens tokens) (Nat.le_refl _)).2]
  rfl

end ClassLang
