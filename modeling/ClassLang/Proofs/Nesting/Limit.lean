import ClassLang.Proofs.Nesting.Tally

/-!
A run with a limit beside one without. As long as the count stays within the
limit, both are the same run; the first statement or expression that begins
beyond it is where the run with the limit ends. Which levels are left is what
the count says, so the run with a limit is the one that counts levels down.
-/

namespace ClassLang

namespace Tallied

variable {α β : Type}

/-- Begun at this depth, the run takes the same course as the rule and gets
back to the depth. -/
def Follows (depth : Nat) (counted : Tallied α) (rule : Rule α) : Prop :=
  ∀ tally : Tally, tally.depth = depth →
    rule.Outcome tally.unread
      (fun value rest => ∃ starts, counted tally = .ok value ⟨rest, depth, starts⟩)
      (fun thrown rest => ∃ starts, counted tally = .error thrown ⟨rest, depth, starts⟩)

theorem follows_reading (depth : Nat) (rule : Rule α) : Follows depth (reading rule) rule := by
  rintro tally rfl
  unfold Rule.Outcome reading
  cases rule tally.unread <;> exact ⟨tally.starts, rfl⟩

theorem follows_bind {depth : Nat} {first : Tallied α} {first' : Rule α} {next : α → Tallied β}
    {next' : α → Rule β} (hfirst : Follows depth first first')
    (hnext : ∀ value, Follows depth (next value) (next' value)) :
    Follows depth (first >>= next) (first' >>= next') := by
  intro tally hdepth
  rw [Rule.outcome_bind]
  refine (hfirst tally hdepth).mono ?_ ?_
  · rintro value rest ⟨starts, hrun⟩
    rw [bind_apply, hrun]
    exact hnext value ⟨rest, depth, starts⟩ rfl
  · rintro thrown rest ⟨starts, hrun⟩
    rw [bind_apply, hrun]
    exact ⟨starts, rfl⟩

theorem follows_nested {limit depth : Nat} (hless : depth < limit) {counted : Tallied α}
    {rule : Rule α} (h : Follows (depth + 1) counted rule) :
    Follows depth (nested (some limit) counted) rule := by
  rintro tally rfl
  have hfilter : (some limit).filter (· ≤ tally.depth) = none := by
    simp [hless]
  unfold nested
  rw [hfilter]
  refine (h tally.enter rfl).mono ?_ ?_
  · rintro value rest ⟨starts, hrun⟩
    dsimp only
    rw [hrun]
    exact ⟨starts, rfl⟩
  · rintro thrown rest ⟨starts, hrun⟩
    dsimp only
    rw [hrun]
    exact ⟨starts, rfl⟩

theorem follows_nested_full {limit depth : Nat} (hfull : limit ≤ depth) (counted : Tallied α) :
    Follows depth (nested (some limit) counted) (Rule.fail (.nestingTooDeep limit)) := by
  rintro tally rfl
  have hfilter : (some limit).filter (· ≤ tally.depth) = some limit := by
    simp [hfull]
  refine ⟨tally.starts, ?_⟩
  unfold nested
  rw [hfilter]

/-- A script follows itself, if the rules for what is inside follow each other. -/
theorem follows_run {depth : Nat} {counted : InnerRules Tallied} {rules : InnerRules Rule}
    (hstatement : Follows depth counted.statement rules.statement)
    (hexpression : ∀ floor, Follows depth (counted.expression floor) (rules.expression floor))
    (script : Script α) : Follows depth (script.run counted) (script.run rules) := by
  induction script with
  | read rule => exact follows_reading depth rule
  | andThen first next hfirst hnext => exact follows_bind hfirst hnext
  | statement => exact hstatement
  | expression floor => exact hexpression floor

/-- The levels that are left and those under way make up the limit. -/
theorem follows_inner {limit : Nat} (levels depth : Nat) (hlimit : depth + levels = limit) :
    Follows depth (inner (some limit)).statement (Rule.statementAt limit levels) ∧
      ∀ floor, Follows depth ((inner (some limit)).expression floor)
        (Rule.expressionAt limit levels floor) := by
  induction levels generalizing depth with
  | zero =>
      refine ⟨?_, fun floor => ?_⟩
      · rw [inner_statement]
        exact follows_nested_full (by omega) _
      · rw [inner_expression]
        exact follows_nested_full (by omega) _
  | succ levels ih =>
      obtain ⟨hstatement, hexpression⟩ := ih (depth + 1) (by omega)
      have hrun {α : Type} (script : Script α) :=
        @follows_run α (depth + 1) (inner (some limit))
          ⟨Rule.statementAt limit levels, Rule.expressionAt limit levels⟩ hstatement hexpression
          script
      refine ⟨?_, fun floor => ?_⟩
      · rw [inner_statement]
        apply follows_nested (by omega)
        have hbody := hrun Script.statementBody
        rwa [Script.run_statementBody] at hbody
      · rw [inner_expression]
        apply follows_nested (by omega)
        have hbody := hrun (Script.climb floor)
        rwa [Script.run_climb] at hbody

theorem follows_program (limit : Nat) :
    Follows 0 (Script.program.run (inner (some limit))) (Rule.programWithin limit) := by
  obtain ⟨hstatement, hexpression⟩ := follows_inner limit 0 (Nat.zero_add limit)
  have hprogram := @follows_run _ 0 (inner (some limit))
    ⟨Rule.statementAt limit limit, Rule.expressionAt limit limit⟩ hstatement hexpression
    Script.program
  rwa [Script.run_program] at hprogram

theorem follows_expression (limit : Nat) :
    Follows 0 ((Script.expression 0).run (inner (some limit))) (Rule.expressionWithin limit) :=
  (follows_inner limit 0 (Nat.zero_add limit)).2 0

/-- What begins in a run. -/
def begun (rule : Tallied α) (tally : Tally) : List Start :=
  (rule.stop tally).starts.drop tally.starts.length

/-- What begins is noted behind what was noted before, and as many are under
way in the end as in the beginning. -/
structure Notes (rule : Tallied α) : Prop where
  starts : ∀ tally, (rule.stop tally).starts = tally.starts ++ rule.begun tally
  depth : ∀ tally, (rule.stop tally).depth = tally.depth

theorem begun_eq {rule : Tallied α} {tally : Tally} {starts : List Start}
    (h : (rule.stop tally).starts = tally.starts ++ starts) : rule.begun tally = starts := by
  rw [begun, h, List.drop_left]

theorem notes_of_exists {rule : Tallied α}
    (h : ∀ tally, (∃ starts, (rule.stop tally).starts = tally.starts ++ starts) ∧
      (rule.stop tally).depth = tally.depth) : rule.Notes where
  starts tally := by
    obtain ⟨⟨starts, hstarts⟩, _⟩ := h tally
    rw [hstarts, begun_eq hstarts]
  depth tally := (h tally).2

theorem stop_reading (rule : Rule α) (tally : Tally) :
    ((reading rule).stop tally).starts = tally.starts ∧
      ((reading rule).stop tally).depth = tally.depth := by
  unfold stop reading
  cases rule tally.unread <;> exact ⟨rfl, rfl⟩

theorem notes_reading (rule : Rule α) : (reading rule).Notes :=
  notes_of_exists fun tally =>
    ⟨⟨[], (stop_reading rule tally).1.trans (List.append_nil _).symm⟩, (stop_reading rule tally).2⟩

theorem begun_reading (rule : Rule α) (tally : Tally) : (reading rule).begun tally = [] :=
  begun_eq ((stop_reading rule tally).1.trans (List.append_nil _).symm)

section Bind

variable {first : Tallied α} {next : α → Tallied β} {tally after : Tally}

theorem begun_bind_error {thrown : Thrown} (hrun : first tally = .error thrown after) :
    (first >>= next).begun tally = first.begun tally := by
  unfold begun
  rw [stop_bind_error hrun, stop_error hrun]

theorem stop_bind_starts (hfirst : first.Notes) (hnext : ∀ value, (next value).Notes) {value : α}
    (hrun : first tally = .ok value after) :
    ((first >>= next).stop tally).starts =
      tally.starts ++ (first.begun tally ++ (next value).begun after) := by
  have hstarts := hfirst.starts tally
  rw [stop_ok hrun] at hstarts
  rw [stop_bind_ok hrun, (hnext value).starts, hstarts, List.append_assoc]

theorem begun_bind_ok (hfirst : first.Notes) (hnext : ∀ value, (next value).Notes) {value : α}
    (hrun : first tally = .ok value after) :
    (first >>= next).begun tally = first.begun tally ++ (next value).begun after :=
  begun_eq (stop_bind_starts hfirst hnext hrun)

theorem notes_bind (hfirst : first.Notes) (hnext : ∀ value, (next value).Notes) :
    (first >>= next).Notes := by
  apply notes_of_exists
  intro tally
  have hdepth := hfirst.depth tally
  cases hrun : first tally with
  | error thrown after =>
      have hstarts := hfirst.starts tally
      rw [stop_error hrun] at hstarts hdepth
      rw [stop_bind_error hrun]
      exact ⟨⟨_, hstarts⟩, hdepth⟩
  | ok value after =>
      refine ⟨⟨_, stop_bind_starts hfirst hnext hrun⟩, ?_⟩
      rw [stop_ok hrun] at hdepth
      rw [stop_bind_ok hrun, (hnext value).depth, hdepth]

end Bind

/-- Without a limit, what begins inside comes behind the beginning itself. -/
theorem stop_nested (rule : Tallied α) (tally : Tally) :
    (nested none rule).stop tally = (rule.stop tally.enter).leave := by
  unfold stop nested
  cases rule tally.enter <;> rfl

theorem stop_nested_starts {rule : Tallied α} (hrule : rule.Notes) (tally : Tally) :
    ((nested none rule).stop tally).starts =
      tally.starts ++ ⟨tally.depth + 1, tally.unread⟩ :: rule.begun tally.enter := by
  rw [stop_nested]
  change (rule.stop tally.enter).starts = _
  rw [hrule.starts, Tally.enter, List.append_assoc, List.singleton_append]

theorem begun_nested {rule : Tallied α} (hrule : rule.Notes) (tally : Tally) :
    (nested none rule).begun tally =
      ⟨tally.depth + 1, tally.unread⟩ :: rule.begun tally.enter :=
  begun_eq (stop_nested_starts hrule tally)

theorem notes_nested {rule : Tallied α} (hrule : rule.Notes) : (nested none rule).Notes := by
  apply notes_of_exists
  intro tally
  refine ⟨⟨_, stop_nested_starts hrule tally⟩, ?_⟩
  have hdepth := hrule.depth tally.enter
  rw [stop_nested]
  change (rule.stop tally.enter).depth - 1 = _
  rw [hdepth]
  exact Nat.add_sub_cancel tally.depth 1

theorem notes_run {rules : InnerRules Tallied} (hstatement : rules.statement.Notes)
    (hexpression : ∀ floor, (rules.expression floor).Notes) (script : Script α) :
    (script.run rules).Notes := by
  induction script with
  | read rule => exact notes_reading rule
  | andThen first next hfirst hnext => exact notes_bind hfirst hnext
  | statement => exact hstatement
  | expression floor => exact hexpression floor

theorem notes_innerWithin (budget : Nat) :
    (innerWithin none budget).statement.Notes ∧
      ∀ floor, ((innerWithin none budget).expression floor).Notes := by
  induction budget with
  | zero =>
      have hthrow {α : Type} : (throw ⟨.emptyProgram, none⟩ : Tallied α).Notes :=
        notes_of_exists fun tally => ⟨⟨[], (List.append_nil _).symm⟩, rfl⟩
      exact ⟨hthrow, fun _ => hthrow⟩
  | succ budget ih =>
      exact ⟨notes_nested (notes_run ih.1 ih.2 _), fun _ => notes_nested (notes_run ih.1 ih.2 _)⟩

theorem notes_inner :
    (inner none).statement.Notes ∧ ∀ floor, ((inner none).expression floor).Notes := by
  constructor
  · apply notes_of_exists
    intro tally
    have hnotes := (notes_innerWithin (2 * tally.unread.length + 2)).1
    exact ⟨⟨_, hnotes.starts tally⟩, hnotes.depth tally⟩
  · intro floor
    apply notes_of_exists
    intro tally
    have hnotes := (notes_innerWithin (2 * tally.unread.length + 2)).2 floor
    exact ⟨⟨_, hnotes.starts tally⟩, hnotes.depth tally⟩

/-- The run with a limit is the one without, unless something begins beyond the
limit: then it ends there. -/
def CutsOff (limit : Nat) (free limited : Tallied α) (tally : Tally) : Prop :=
  match (free.begun tally).find? (limit < ·.depth) with
  | none => limited tally = free tally
  | some start =>
      start.depth = limit + 1 ∧
        ∃ starts, limited tally =
          .error ((Fault.nestingTooDeep limit).before start.unread)
            ⟨start.unread, tally.depth, starts⟩

theorem CutsOff.of_eq {limit : Nat} {free : Tallied α} {tally : Tally}
    (h : free.begun tally = []) : CutsOff limit free free tally := by
  unfold CutsOff
  rw [h]
  rfl

theorem cutsOff_bind {limit depth : Nat} {free limited : Tallied α} {next next' : α → Tallied β}
    (hfree : free.Notes) (hnext : ∀ value, (next value).Notes)
    (hcut : ∀ tally : Tally, tally.depth = depth → CutsOff limit free limited tally)
    (hcut' : ∀ value (tally : Tally), tally.depth = depth →
      CutsOff limit (next value) (next' value) tally)
    (tally : Tally) (hdepth : tally.depth = depth) :
    CutsOff limit (free >>= next) (limited >>= next') tally := by
  have hfirst := hcut tally hdepth
  have hback := hfree.depth tally
  unfold CutsOff at hfirst ⊢
  cases hrun : free tally with
  | error thrown after =>
      rw [begun_bind_error hrun]
      cases hfind : (free.begun tally).find? (limit < ·.depth) with
      | none =>
          rw [hfind] at hfirst
          dsimp only at hfirst ⊢
          rw [bind_apply, bind_apply, hfirst, hrun]
      | some start =>
          rw [hfind] at hfirst
          obtain ⟨hstart, starts, herror⟩ := hfirst
          refine ⟨hstart, starts, ?_⟩
          rw [bind_apply, herror]
  | ok value after =>
      rw [begun_bind_ok hfree hnext hrun, List.find?_append]
      cases hfind : (free.begun tally).find? (limit < ·.depth) with
      | some start =>
          rw [hfind] at hfirst
          obtain ⟨hstart, starts, herror⟩ := hfirst
          refine ⟨hstart, starts, ?_⟩
          rw [bind_apply, herror]
      | none =>
          rw [hfind] at hfirst
          dsimp only at hfirst
          rw [stop_ok hrun] at hback
          have hsecond := hcut' value after (hback.trans hdepth)
          unfold CutsOff at hsecond
          rw [Option.none_or, bind_apply, bind_apply, hfirst, hrun]
          dsimp only
          rwa [hback] at hsecond

theorem cutsOff_nested {limit : Nat} {free limited : Tallied α} {tally : Tally}
    (hfree : free.Notes) (hdepth : tally.depth < limit)
    (hcut : CutsOff limit free limited tally.enter) :
    CutsOff limit (nested none free) (nested (some limit) limited) tally := by
  have hfilter : (some limit).filter (· ≤ tally.depth) = none := by
    simp [hdepth]
  have hback := hfree.depth tally.enter
  have hwithin : ¬ (limit < tally.depth + 1) := by omega
  unfold CutsOff at hcut ⊢
  rw [begun_nested hfree, List.find?_cons_of_neg (by simpa using hwithin)]
  cases hfind : (free.begun tally.enter).find? (limit < ·.depth) with
  | none =>
      rw [hfind] at hcut
      dsimp only at hcut ⊢
      unfold nested
      rw [hfilter, hcut]
      rfl
  | some start =>
      rw [hfind] at hcut
      obtain ⟨hstart, starts, herror⟩ := hcut
      refine ⟨hstart, starts, ?_⟩
      unfold nested
      rw [hfilter]
      dsimp only
      rw [herror]
      rfl

/-- At the limit, what begins is the first that begins beyond it. -/
theorem cutsOff_nested_full {limit : Nat} {free : Tallied α} (limited : Tallied α) {tally : Tally}
    (hfree : free.Notes) (hdepth : tally.depth = limit) :
    CutsOff limit (nested none free) (nested (some limit) limited) tally := by
  have hfilter : (some limit).filter (· ≤ tally.depth) = some limit := by
    simp [hdepth]
  have hbeyond : limit < tally.depth + 1 := by omega
  unfold CutsOff
  rw [begun_nested hfree, List.find?_cons_of_pos (by simpa using hbeyond)]
  refine ⟨by rw [hdepth], tally.starts, ?_⟩
  unfold nested
  rw [hfilter]

theorem cutsOff_run {limit depth : Nat} {free limited : InnerRules Tallied}
    (hnotes : free.statement.Notes ∧ ∀ floor, (free.expression floor).Notes)
    (hstatement : ∀ tally : Tally, tally.depth = depth →
      CutsOff limit free.statement limited.statement tally)
    (hexpression : ∀ floor (tally : Tally), tally.depth = depth →
      CutsOff limit (free.expression floor) (limited.expression floor) tally)
    (script : Script α) (tally : Tally) (hdepth : tally.depth = depth) :
    CutsOff limit (script.run free) (script.run limited) tally := by
  induction script generalizing tally with
  | read rule => exact .of_eq (begun_reading rule tally)
  | statement => exact hstatement tally hdepth
  | expression floor => exact hexpression floor tally hdepth
  | andThen first next hfirst hnext =>
      exact cutsOff_bind (notes_run hnotes.1 hnotes.2 first)
        (fun value => notes_run hnotes.1 hnotes.2 (next value)) hfirst hnext tally hdepth

/-- Induction on the levels that are left below the limit. -/
theorem cutsOff_inner {limit : Nat} (levels depth : Nat) (hlimit : depth + levels = limit) :
    (∀ tally : Tally, tally.depth = depth →
      CutsOff limit (inner none).statement (inner (some limit)).statement tally) ∧
    ∀ floor (tally : Tally), tally.depth = depth →
      CutsOff limit ((inner none).expression floor) ((inner (some limit)).expression floor)
        tally := by
  have hnotes {α : Type} (script : Script α) : (script.run (inner none)).Notes :=
    notes_run notes_inner.1 notes_inner.2 script
  induction levels generalizing depth with
  | zero =>
      refine ⟨fun tally hdepth => ?_, fun floor tally hdepth => ?_⟩
      · rw [inner_statement, inner_statement]
        exact cutsOff_nested_full _ (hnotes _) (by omega)
      · rw [inner_expression, inner_expression]
        exact cutsOff_nested_full _ (hnotes _) (by omega)
  | succ levels ih =>
      obtain ⟨hstatement, hexpression⟩ := ih (depth + 1) (by omega)
      have hbody {α : Type} (script : Script α) (tally : Tally) (hdepth : tally.depth = depth) :
          CutsOff limit (script.run (inner none)) (script.run (inner (some limit))) tally.enter :=
        cutsOff_run notes_inner hstatement hexpression script tally.enter
          (congrArg Nat.succ hdepth)
      refine ⟨fun tally hdepth => ?_, fun floor tally hdepth => ?_⟩
      · rw [inner_statement, inner_statement]
        exact cutsOff_nested (hnotes _) (by omega) (hbody _ tally hdepth)
      · rw [inner_expression, inner_expression]
        exact cutsOff_nested (hnotes _) (by omega) (hbody _ tally hdepth)

/-- The same for a whole run, which begins with nothing under way. -/
theorem cutsOff_script (limit : Nat) (script : Script α) (tokens : List Token) :
    CutsOff limit (script.run (inner none)) (script.run (inner (some limit)))
      (.ofTokens tokens) := by
  obtain ⟨hstatement, hexpression⟩ := cutsOff_inner limit 0 (Nat.zero_add limit)
  exact cutsOff_run notes_inner hstatement hexpression script _ rfl

end Tallied

end ClassLang
