import ClassLang.Proofs.Nesting.Script

/-!
Scripts run with a count. The statements and expressions under way are counted
up when one begins and down when it ends, and each beginning is noted. With a
limit none begins beyond it; without one the count decides nothing. The
recursion ends by itself: between two beginnings inside each other a token is
taken, but for the expression that a statement begins with.
-/

namespace ClassLang

/-- A statement or an expression that begins: how many are under way with it,
and the tokens that are unread. -/
structure Start where
  depth : Nat
  unread : List Token

/-- Where a run stands. -/
structure Tally where
  unread : List Token
  /-- How many statements and expressions are under way. -/
  depth : Nat
  /-- Those that have begun so far, in order. -/
  starts : List Start

/-- Nothing is under way yet. -/
def Tally.ofTokens (tokens : List Token) : Tally := ⟨tokens, 0, []⟩

/-- One more begins. -/
def Tally.enter (tally : Tally) : Tally :=
  ⟨tally.unread, tally.depth + 1, tally.starts ++ [⟨tally.depth + 1, tally.unread⟩]⟩

/-- The last one that began has ended. -/
def Tally.leave (tally : Tally) : Tally := { tally with depth := tally.depth - 1 }

abbrev Tallied := EStateM Thrown Tally

namespace Tallied

variable {α β : Type}

/-- A rule that begins nothing only moves on in the tokens. -/
def reading (rule : Rule α) : Tallied α := fun tally =>
  match rule tally.unread with
  | .ok value rest => .ok value { tally with unread := rest }
  | .error thrown rest => .error thrown { tally with unread := rest }

instance : ReadsTokens Tallied where
  read rule := reading rule
  note _ next := next

instance : ReadsQuietly Tallied := ⟨fun _ => rfl, fun _ _ => rfl⟩

/-- Run a rule one level deeper, unless the limit is reached. The level is left
again, however the rule ends. -/
def nested (limit : Option Nat) (rule : Tallied α) : Tallied α := fun tally =>
  match limit.filter (· ≤ tally.depth) with
  | some max => .error ((Fault.nestingTooDeep max).before tally.unread) tally
  | none =>
    match rule tally.enter with
    | .ok value after => .ok value after.leave
    | .error thrown after => .error thrown after.leave

/-- Statements and expressions that begin at most `budget` deep inside each
other; the answer where the budget ends does not matter, since `inner` never
gets there. -/
def innerWithin (limit : Option Nat) : (budget : Nat) → InnerRules Tallied
  | 0 => ⟨throw ⟨.emptyProgram, none⟩, fun _ => throw ⟨.emptyProgram, none⟩⟩
  | budget + 1 =>
    { statement := nested limit (Script.statementBody.run (innerWithin limit budget))
      expression := fun floor =>
        nested limit ((Script.climb floor).run (innerWithin limit budget)) }

/-- Statements and expressions, with a budget that is enough for the tokens. -/
def inner (limit : Option Nat) : InnerRules Tallied where
  statement tally := (innerWithin limit (2 * tally.unread.length + 2)).statement tally
  expression floor tally := (innerWithin limit (2 * tally.unread.length + 2)).expression floor tally

section Budget

variable {limit : Option Nat}

theorem inner_statement_apply (tally : Tally) :
    (inner limit).statement tally =
      (innerWithin limit (2 * tally.unread.length + 2)).statement tally :=
  rfl

theorem inner_expression_apply (floor : Nat) (tally : Tally) :
    (inner limit).expression floor tally =
      (innerWithin limit (2 * tally.unread.length + 2)).expression floor tally :=
  rfl

end Budget

/-- Where a run stops, whether it answers or fails. -/
def stop (rule : Tallied α) (tally : Tally) : Tally :=
  match rule tally with
  | .ok _ after => after
  | .error _ after => after

theorem stop_bind_ok {first : Tallied α} {next : α → Tallied β} {tally after : Tally} {value : α}
    (h : first tally = .ok value after) :
    (first >>= next).stop tally = (next value).stop after := by
  unfold stop
  rw [bind_apply, h]

theorem stop_bind_error {first : Tallied α} {next : α → Tallied β} {tally after : Tally}
    {thrown : Thrown} (h : first tally = .error thrown after) :
    (first >>= next).stop tally = after := by
  unfold stop
  rw [bind_apply, h]

theorem stop_ok {rule : Tallied α} {tally after : Tally} {value : α}
    (h : rule tally = .ok value after) : rule.stop tally = after := by
  unfold stop
  rw [h]

theorem stop_error {rule : Tallied α} {tally after : Tally} {thrown : Thrown}
    (h : rule tally = .error thrown after) : rule.stop tally = after := by
  unfold stop
  rw [h]

theorem stop_congr {rule rule' : Tallied α} {tally : Tally} (h : rule tally = rule' tally) :
    rule.stop tally = rule'.stop tally := by
  unfold stop
  rw [h]

/-- No tokens are given back. -/
def Forward (rule : Tallied α) : Prop :=
  ∀ tally, (rule.stop tally).unread <:+ tally.unread

theorem forward_reading (rule : Rule α) [hrule : rule.Forward] : (reading rule).Forward := by
  intro tally
  have hsuffix := hrule.suffix tally.unread
  unfold stop reading
  cases hrun : rule tally.unread with
  | ok value rest => exact hsuffix.of_ok hrun
  | error thrown rest => exact hsuffix.of_error hrun

theorem forward_bind {first : Tallied α} {next : α → Tallied β} (hfirst : first.Forward)
    (hnext : ∀ value, (next value).Forward) : (first >>= next).Forward := by
  intro tally
  have hstop := hfirst tally
  cases hrun : first tally with
  | ok value after =>
      rw [stop_ok hrun] at hstop
      rw [stop_bind_ok hrun]
      exact (hnext value after).trans hstop
  | error thrown after =>
      rw [stop_error hrun] at hstop
      rwa [stop_bind_error hrun]

theorem forward_nested {limit : Option Nat} {rule : Tallied α} (h : rule.Forward) :
    (nested limit rule).Forward := by
  intro tally
  have hstop := h tally.enter
  unfold stop nested
  cases limit.filter (· ≤ tally.depth) with
  | some max => exact List.suffix_rfl
  | none =>
      cases hrun : rule tally.enter with
      | ok value after => rwa [stop_ok hrun] at hstop
      | error thrown after => rwa [stop_error hrun] at hstop

end Tallied

namespace InnerRules

open Tallied

structure Forward (rules : InnerRules Tallied) : Prop where
  statement : rules.statement.Forward
  expression : ∀ floor, (rules.expression floor).Forward

/-- What two rules for statements and expressions do alike: they are alike on
fewer tokens than `size`. -/
def AgreeBelow (size : Nat) (rules rules' : InnerRules Tallied) : Prop :=
  ∀ tally : Tally, tally.unread.length < size →
    rules.statement tally = rules'.statement tally ∧
      ∀ floor, rules.expression floor tally = rules'.expression floor tally

end InnerRules

namespace Script

open Tallied

variable {α β : Type} {rules rules' : InnerRules Tallied} {size : Nat} {tally : Tally}

theorem forward_run (hrules : rules.Forward) (script : Script α) : (script.run rules).Forward := by
  induction script with
  | read rule => exact forward_reading rule
  | andThen first next hfirst hnext => exact forward_bind hfirst hnext
  | statement => exact hrules.statement
  | expression floor => exact hrules.expression floor

/-- On fewer tokens a script cannot tell the rules apart. -/
theorem run_congr (hrules : rules.Forward) (hagree : rules.AgreeBelow size rules')
    (script : Script α) (hsize : tally.unread.length < size) :
    script.run rules tally = script.run rules' tally := by
  induction script generalizing tally with
  | read rule => rfl
  | statement => exact (hagree tally hsize).1
  | expression floor => exact (hagree tally hsize).2 floor
  | andThen first next hfirst hnext =>
      change (first.run rules >>= fun value => (next value).run rules) tally =
        (first.run rules' >>= fun value => (next value).run rules') tally
      rw [bind_apply, bind_apply, ← hfirst hsize]
      cases hrun : first.run rules tally with
      | error thrown after => rfl
      | ok value after =>
          have hsuffix := forward_run hrules first tally
          rw [stop_ok hrun] at hsuffix
          have hlength := hsuffix.length_le
          exact hnext value (by omega)

/-- The script does not tell the rules apart, and goes on behind with fewer
tokens only. -/
def Narrows (rules rules' : InnerRules Tallied) (size : Nat) (script : Script α)
    (tally : Tally) : Prop :=
  script.run rules tally = script.run rules' tally ∧
    ∀ value after, script.run rules tally = .ok value after → after.unread.length < size

theorem narrows_of_lt (hrules : rules.Forward) (hagree : rules.AgreeBelow size rules')
    (script : Script α) (hsize : tally.unread.length < size) :
    Narrows rules rules' size script tally := by
  refine ⟨run_congr hrules hagree script hsize, fun value after hrun => ?_⟩
  have hsuffix := forward_run hrules script tally
  rw [stop_ok hrun] at hsuffix
  have hlength := hsuffix.length_le
  omega

theorem narrows_bind (hrules : rules.Forward) (hagree : rules.AgreeBelow size rules')
    {first : Script α} {next : α → Script β} (hfirst : Narrows rules rules' size first tally) :
    Narrows rules rules' size (first >>= next) tally := by
  unfold Narrows
  change (first.run rules >>= fun value => (next value).run rules) tally =
      (first.run rules' >>= fun value => (next value).run rules') tally ∧
    ∀ value after, (first.run rules >>= fun value => (next value).run rules) tally =
      .ok value after → after.unread.length < size
  rw [bind_apply, bind_apply, ← hfirst.1]
  cases hrun : first.run rules tally with
  | error thrown after => exact ⟨rfl, fun _ _ h => by cases h⟩
  | ok value after =>
      exact narrows_of_lt hrules hagree (next value) (hfirst.2 value after hrun)

/-- A rule that takes a token if it answers. -/
theorem narrows_read {rule : Rule α} [rule.Forward] (hrule : rule.Advances)
    (hsize : tally.unread.length ≤ size) : Narrows rules rules' size (read rule) tally := by
  refine ⟨rfl, fun value after hrun => ?_⟩
  change reading rule tally = .ok value after at hrun
  unfold reading at hrun
  cases hread : rule tally.unread with
  | error thrown rest =>
      rw [hread] at hrun
      cases hrun
  | ok answer rest =>
      rw [hread] at hrun
      cases hrun
      have hless := hrule tally.unread value rest hread
      exact Nat.lt_of_lt_of_le hless hsize

theorem narrows_skip {token : Token} {rest : List Token} (htokens : tally.unread = token :: rest)
    (hsize : tally.unread.length ≤ size) : Narrows rules rules' size (read Rule.skip) tally := by
  refine ⟨rfl, fun value after hrun => ?_⟩
  have hafter : { tally with unread := tally.unread.tail } = after :=
    (EStateM.Result.ok.inj hrun).2
  rw [← hafter, htokens]
  rw [htokens, List.length_cons] at hsize
  exact hsize

theorem run_get_bind (next : List Token → Script α) :
    (ReadsTokens.read get >>= next : Script α).run rules tally =
      (next tally.unread).run rules tally :=
  rfl

theorem narrows_get {next : List Token → Script α}
    (h : Narrows rules rules' size (next tally.unread) tally) :
    Narrows rules rules' size (read get >>= next) tally :=
  h

theorem narrows_failExpecting (expected : Expectation) (hsize : tally.unread.length ≤ size) :
    Narrows rules rules' size (read (Rule.failExpecting expected) : Script α) tally := by
  apply narrows_read _ hsize
  intro tokens value rest hrun
  cases tokens <;> cases hrun

theorem narrows_fail (fault : Fault) (hsize : tally.unread.length ≤ size) :
    Narrows rules rules' size (read (Rule.fail fault) : Script α) tally := by
  apply narrows_read _ hsize
  intro tokens value rest hrun
  cases hrun

theorem advances_separator (mark : Separator) : (Rule.separator mark).Advances :=
  (Rule.reads_separator mark).advances fun _ h => List.cons_ne_nil _ _ h.symm

theorem advances_path : Rule.path.Advances := by
  apply Rule.reads_path.advances
  rintro value ⟨⟩

theorem advances_type : Rule.type.Advances := by
  apply Rule.reads_type.advances
  rintro value ⟨⟩

/-- An expression is begun inside another one only behind its first token. -/
theorem narrows_primary (hrules : rules.Forward) (hagree : rules.AgreeBelow size rules')
    (hsize : tally.unread.length ≤ size) : Narrows rules rules' size primary tally := by
  apply narrows_get
  cases htokens : tally.unread with
  | nil => exact narrows_failExpecting .expression hsize
  | cons token rest =>
      have hskip := @narrows_skip rules rules' size tally token rest htokens hsize
      dsimp only
      split
      · exact narrows_bind hrules hagree hskip
      · exact narrows_bind hrules hagree (narrows_read advances_path hsize)
      · exact narrows_bind hrules hagree hskip
      · exact narrows_bind hrules hagree hskip
      · exact narrows_fail _ hsize

theorem run_climb_congr (hrules : rules.Forward) (hagree : rules.AgreeBelow size rules')
    (floor : Nat) (hsize : tally.unread.length ≤ size) :
    (climb floor).run rules tally = (climb floor).run rules' tally :=
  (narrows_bind hrules hagree (narrows_primary hrules hagree hsize)).1

/-- A statement is begun inside another one only behind its first token; an
expression may be the first thing in it. -/
theorem run_statementBody_congr (hrules : rules.Forward) (hagree : rules.AgreeBelow size rules')
    (hsize : tally.unread.length ≤ size)
    (hexpression : rules.expression 0 tally = rules'.expression 0 tally) :
    statementBody.run rules tally = statementBody.run rules' tally := by
  have hexpressionStatement :
      expressionStatement.run rules tally = expressionStatement.run rules' tally := by
    change (rules.expression 0 >>= _) tally = (rules'.expression 0 >>= _) tally
    rw [bind_apply, bind_apply, hexpression]
    rfl
  have hdeclaration : declaration.run rules tally = declaration.run rules' tally :=
    (narrows_bind hrules hagree (narrows_read advances_type hsize)).1
  have hblock : Narrows rules rules' size block tally :=
    narrows_bind hrules hagree (narrows_read (advances_separator _) hsize)
  unfold statementBody Shape.statement
  rw [run_get_bind, run_get_bind]
  cases htokens : tally.unread with
  | nil => rfl
  | cons token rest =>
      have hskip := @narrows_skip rules rules' size tally token rest htokens hsize
      dsimp only
      split
      · rfl
      · exact (narrows_bind hrules hagree hblock).1
      · exact (narrows_bind hrules hagree hskip).1
      · exact (narrows_bind hrules hagree hskip).1
      · exact (narrows_bind hrules hagree hskip).1
      · rfl
      · split
        · exact hdeclaration
        · exact hexpressionStatement

end Script

namespace Tallied

open Script

variable {limit : Option Nat}

theorem forward_throw {α : Type} (thrown : Thrown) : (throw thrown : Tallied α).Forward :=
  fun _ => List.suffix_rfl

theorem forward_innerWithin (budget : Nat) : (innerWithin limit budget).Forward := by
  induction budget with
  | zero => exact ⟨forward_throw _, fun _ => forward_throw _⟩
  | succ budget ih =>
      exact ⟨forward_nested (forward_run ih _), fun floor => forward_nested (forward_run ih _)⟩

theorem forward_inner (limit : Option Nat) : (inner limit).Forward := by
  have hbudget (tally : Tally) := @forward_innerWithin limit (2 * tally.unread.length + 2)
  constructor
  · intro tally
    have hsuffix := (hbudget tally).statement tally
    rwa [stop_congr (inner_statement_apply tally)]
  · intro floor tally
    have hsuffix := (hbudget tally).expression floor tally
    rwa [stop_congr (inner_expression_apply floor tally)]

theorem nested_congr {α : Type} {rule rule' : Tallied α} {tally : Tally}
    (h : rule tally.enter = rule' tally.enter) :
    nested limit rule tally = nested limit rule' tally := by
  unfold nested
  rw [h]

/-- Two budgets that are both enough give the same run: every token allows for
a statement and for an expression that it begins. -/
theorem innerWithin_congr (budget budget' : Nat) (tally : Tally) :
    (2 * tally.unread.length + 2 ≤ budget → 2 * tally.unread.length + 2 ≤ budget' →
      (innerWithin limit budget).statement tally = (innerWithin limit budget').statement tally) ∧
    ∀ floor, 2 * tally.unread.length + 1 ≤ budget → 2 * tally.unread.length + 1 ≤ budget' →
      (innerWithin limit budget).expression floor tally =
        (innerWithin limit budget').expression floor tally := by
  induction budget generalizing budget' tally with
  | zero => exact ⟨fun h => by omega, fun floor h => by omega⟩
  | succ budget ih =>
      cases budget' with
      | zero => exact ⟨fun _ h => by omega, fun floor _ h => by omega⟩
      | succ budget' =>
          have hagree (hbudget : 2 * tally.unread.length ≤ budget)
              (hbudget' : 2 * tally.unread.length ≤ budget') :
              (innerWithin limit budget).AgreeBelow tally.unread.length
                (innerWithin limit budget') := by
            intro other hother
            have hsame := ih budget' other
            exact ⟨hsame.1 (by omega) (by omega), fun floor => hsame.2 floor (by omega) (by omega)⟩
          have hforward := @forward_innerWithin limit budget
          constructor
          · intro hbudget hbudget'
            have hexpression := (ih budget' tally.enter).2 0 (by simp only [Tally.enter]; omega)
              (by simp only [Tally.enter]; omega)
            apply nested_congr
            exact run_statementBody_congr hforward (hagree (by omega) (by omega)) (Nat.le_refl _)
              hexpression
          · intro floor hbudget hbudget'
            apply nested_congr
            exact run_climb_congr hforward (hagree (by omega) (by omega)) floor (Nat.le_refl _)

theorem agreeBelow_inner (tally : Tally) :
    (innerWithin limit (2 * tally.unread.length + 1)).AgreeBelow tally.unread.length
      (inner limit) := by
  intro other hother
  have hsame := @innerWithin_congr limit (2 * tally.unread.length + 1)
    (2 * other.unread.length + 2) other
  exact ⟨hsame.1 (by omega) (by omega), fun floor => hsame.2 floor (by omega) (by omega)⟩

/-! The budget hides nothing: a statement and an expression are, one level
deeper, what their scripts say, with statements and expressions inside. -/

theorem inner_expression (limit : Option Nat) (floor : Nat) :
    (inner limit).expression floor = nested limit ((climb floor).run (inner limit)) := by
  funext tally
  apply nested_congr
  exact run_climb_congr (forward_innerWithin _) (agreeBelow_inner tally) floor (Nat.le_refl _)

theorem inner_statement (limit : Option Nat) :
    (inner limit).statement = nested limit (statementBody.run (inner limit)) := by
  funext tally
  have hcongr := (@innerWithin_congr limit (2 * tally.unread.length + 1)
    (2 * tally.unread.length + 2) tally.enter).2
  have hexpression := hcongr 0 (Nat.le_refl _) (by simp only [Tally.enter]; omega)
  apply nested_congr
  exact run_statementBody_congr (forward_innerWithin _) (agreeBelow_inner tally) (Nat.le_refl _)
    hexpression

end Tallied

end ClassLang
