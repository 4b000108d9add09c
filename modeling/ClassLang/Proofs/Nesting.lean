import ClassLang.Proofs.Nesting.Limit
import ClassLang.Reader

/-!
What the limit on nesting does. Take the parser with the same rules, but where
nothing is nested too deep. If in its run at most as many statements and
expressions are ever under way as the limit allows, the limit changes nothing;
else parsing stops where the first one begins that is one too many. Lists of
any kind take no level by their length.
-/

namespace ClassLang

open Tallied

/-- Later in a run, with as many statements and expressions under way. -/
structure Tally.IsLater (after tally : Tally) : Prop where
  depth : after.depth = tally.depth
  unread : after.unread <:+ tally.unread

theorem Tally.IsLater.refl (tally : Tally) : tally.IsLater tally := ⟨rfl, List.suffix_rfl⟩

theorem Tally.IsLater.trans {first second third : Tally} (h : third.IsLater second)
    (h' : second.IsLater first) : third.IsLater first :=
  ⟨h.depth.trans h'.depth, h.unread.trans h'.unread⟩

namespace Script

variable {α β : Type}

/-- The rule of a script where nothing is nested too deep. -/
def free (script : Script α) : Rule α := fun tokens =>
  match script.run (inner none) (.ofTokens tokens) with
  | .ok value after => .ok value after.unread
  | .error thrown after => .error thrown after.unread

/-- The statements and expressions that begin in a run where nothing is nested
too deep. -/
def begun (script : Script α) (tally : Tally) : List Start :=
  (script.run (inner none)).begun tally

theorem notes_run_inner (script : Script α) : (script.run (inner none)).Notes :=
  notes_run notes_inner.1 notes_inner.2 script

theorem forward_run_inner (script : Script α) : (script.run (inner none)).Forward :=
  forward_run (forward_inner none) script

/-- What begins in a sequence begins in its first part or, later at the same
depth, in the second. -/
theorem mem_begun_bind {first : Script α} {next : α → Script β} {tally : Tally} {start : Start}
    (h : start ∈ (first >>= next).begun tally) :
    start ∈ first.begun tally ∨
      ∃ value, ∃ after : Tally, after.IsLater tally ∧ start ∈ (next value).begun after := by
  have hnotes := notes_run_inner first
  have hdepth := hnotes.depth tally
  have hsuffix := forward_run_inner first tally
  replace h : start ∈
      (first.run (inner none) >>= fun value => (next value).run (inner none)).begun tally := h
  cases hrun : first.run (inner none) tally with
  | error thrown after =>
      rw [begun_bind_error hrun] at h
      exact .inl h
  | ok value after =>
      rw [begun_bind_ok hnotes (fun value => notes_run_inner (next value)) hrun] at h
      rw [stop_ok hrun] at hdepth hsuffix
      rcases List.mem_append.mp h with h | h
      · exact .inl h
      · exact .inr ⟨value, after, ⟨hdepth, hsuffix⟩, h⟩

theorem begun_read (rule : Rule α) [rule.Forward] (tally : Tally) : (read rule).begun tally = [] :=
  begun_reading rule tally

theorem begun_pure (value : α) (tally : Tally) : (pure value : Script α).begun tally = [] :=
  begun_reading (pure value) tally

/-- Whatever begins in the list begins in one of its elements, and each of these
is read at the depth of the list itself. -/
def IsFlat (list : Script β) (element : Script α) : Prop :=
  ∀ tally, ∀ start ∈ list.begun tally,
    ∃ before : Tally, before.IsLater tally ∧ start ∈ element.begun before

theorem IsFlat.rfl {script : Script α} : script.IsFlat script :=
  fun tally _ h => ⟨tally, .refl tally, h⟩

theorem isFlat_of_begun {list : Script β} {element : Script α}
    (h : ∀ tally, list.begun tally = []) : list.IsFlat element := by
  intro tally start hstart
  rw [h] at hstart
  cases hstart

theorem IsFlat.bind {γ : Type} {first : Script β} {next : β → Script γ} {element : Script α}
    (hfirst : first.IsFlat element) (hnext : ∀ value, (next value).IsFlat element) :
    (first >>= next).IsFlat element := by
  intro tally start hstart
  rcases mem_begun_bind hstart with hstart | ⟨value, after, hafter, hstart⟩
  · exact hfirst tally start hstart
  · obtain ⟨before, hbefore, hmem⟩ := hnext value after start hstart
    exact ⟨before, hbefore.trans hafter, hmem⟩

theorem isFlat_read {rule : Rule β} [rule.Forward] {element : Script α} :
    (read rule).IsFlat element :=
  isFlat_of_begun (begun_read rule)

theorem isFlat_pure {value : β} {element : Script α} : (pure value : Script β).IsFlat element :=
  isFlat_of_begun (begun_pure value)

theorem isFlat_collectOnce {step : Script (Option β)} {more : Script (List β)} {element : Script α}
    (hstep : step.IsFlat element) (hmore : more.IsFlat element) :
    (collectOnce step more).IsFlat element := by
  apply IsFlat.bind hstep
  intro answer
  cases answer with
  | none => exact isFlat_pure
  | some first => exact IsFlat.bind hmore fun others => isFlat_pure

/-- However often its step is repeated, a loop goes no deeper than the step. -/
theorem isFlat_collect {step : Script (Option β)} {element : Script α}
    (hstep : step.IsFlat element) : (collect step).IsFlat element := by
  apply IsFlat.bind isFlat_read
  intro budget
  induction budget with
  | nil => exact isFlat_collectOnce hstep isFlat_pure
  | cons _ budget ih => exact isFlat_collectOnce hstep ih

theorem isFlat_untilClose (close : Separator) (element : Script α) :
    (untilClose close element).IsFlat element := by
  apply IsFlat.bind
  · apply isFlat_collect
    apply IsFlat.bind isFlat_read
    intro tokens
    split
    · exact isFlat_pure
    · exact IsFlat.bind .rfl fun value => isFlat_pure
  · exact fun elements => IsFlat.bind isFlat_read fun _ => isFlat_pure

theorem isFlat_listed (element : Script α) : (listed element).IsFlat element := by
  apply IsFlat.bind
  · apply isFlat_collect
    apply IsFlat.bind isFlat_read
    intro tokens
    split
    · exact isFlat_pure
    · exact IsFlat.bind .rfl fun value => IsFlat.bind isFlat_read fun _ => isFlat_pure
  · exact fun elements => IsFlat.bind isFlat_read fun _ => isFlat_pure

theorem isFlat_block : block.IsFlat statement :=
  IsFlat.bind isFlat_read fun _ => isFlat_untilClose _ _

theorem isFlat_classDecl : classDecl.IsFlat member := by
  refine IsFlat.bind isFlat_read fun _ => ?_
  refine IsFlat.bind isFlat_read fun name => ?_
  refine IsFlat.bind isFlat_read fun parent => ?_
  refine IsFlat.bind isFlat_read fun _ => ?_
  exact IsFlat.bind (isFlat_untilClose _ _) fun members => isFlat_pure

theorem isFlat_program : program.IsFlat classDecl := by
  apply IsFlat.bind
  · apply isFlat_collect
    apply IsFlat.bind isFlat_read
    intro tokens
    split
    · exact isFlat_pure
    · exact IsFlat.bind .rfl fun value => isFlat_pure
  · intro classes
    split
    · exact isFlat_read
    · exact isFlat_pure

/-- The right operands of a chain all begin at the depth of its first operand. -/
theorem exists_of_mem_begun_climb {floor : Nat} {tally : Tally} {start : Start}
    (h : start ∈ (climb floor).begun tally) :
    start ∈ primary.begun tally ∨
      ∃ (symbol : Operator) (before : Tally), before.IsLater tally ∧
        start ∈ (expression (symbol.precedence + 1)).begun before := by
  rcases mem_begun_bind h with h | ⟨first, after, hafter, h⟩
  · exact .inl h
  · right
    have hloop : start ∈ (collect (operandStep expression floor)).begun after := by
      rcases mem_begun_bind h with h | ⟨others, _, _, h⟩
      · exact h
      · rw [begun_pure] at h
        cases h
    obtain ⟨middle, hmiddle, hstart⟩ := isFlat_collect .rfl after start hloop
    rcases mem_begun_bind hstart with hstart | ⟨answer, before, hbefore, hstart⟩
    · rw [read_eq, begun_read] at hstart
      cases hstart
    · cases answer with
      | none =>
          rw [begun_pure] at hstart
          cases hstart
      | some symbol =>
          refine ⟨symbol, before, hbefore.trans (hmiddle.trans hafter), ?_⟩
          rcases mem_begun_bind hstart with hstart | ⟨right, _, _, hstart⟩
          · exact hstart
          · rw [begun_pure] at hstart
            cases hstart

/-- The lists of the grammar: none takes a level by its length. -/
structure ListsAreFlat : Prop where
  classes : program.IsFlat classDecl
  members : classDecl.IsFlat member
  statements : block.IsFlat statement
  elements : ∀ {α : Type} (element : Script α), (listed element).IsFlat element
  paths : ∀ tally, (read Rule.path).begun tally = []
  operators : ∀ floor tally, ∀ start ∈ (climb floor).begun tally,
    start ∈ primary.begun tally ∨
      ∃ (symbol : Operator) (before : Tally), before.IsLater tally ∧
        start ∈ (expression (symbol.precedence + 1)).begun before

theorem listsAreFlat : ListsAreFlat where
  classes := isFlat_program
  members := isFlat_classDecl
  statements := isFlat_block
  elements := isFlat_listed
  paths := begun_read Rule.path
  operators _ _ _ := exists_of_mem_begun_climb

/-- The first statement or expression that begins with more than `limit` under
way, itself included. -/
def firstBeyond (limit : Nat) (script : Script α) (tokens : List Token) : Option Start :=
  (script.begun (.ofTokens tokens)).find? (limit < ·.depth)

/-- What a rule that counts levels down makes of the tokens. -/
theorem rule_eq_free {limit : Nat} {script : Script α} {rule : Rule α} {tokens : List Token}
    (hrule : Follows 0 (script.run (inner (some limit))) rule)
    (h : script.firstBeyond limit tokens = none) : rule tokens = script.free tokens := by
  have hcut := cutsOff_script limit script tokens
  have hfollows := hrule (.ofTokens tokens) rfl
  unfold CutsOff at hcut
  unfold firstBeyond begun at h
  rw [h] at hcut
  dsimp only at hcut
  unfold free
  rw [← hcut]
  cases hrun : rule tokens with
  | ok value rest =>
      obtain ⟨starts, hanswer⟩ := hfollows.of_ok hrun
      rw [hanswer]
  | error thrown rest =>
      obtain ⟨starts, hanswer⟩ := hfollows.of_error hrun
      rw [hanswer]

theorem rule_eq_error {limit : Nat} {script : Script α} {rule : Rule α} {tokens : List Token}
    {start : Start} (hrule : Follows 0 (script.run (inner (some limit))) rule)
    (h : script.firstBeyond limit tokens = some start) :
    start.depth = limit + 1 ∧
      rule tokens = .error ((Fault.nestingTooDeep limit).before start.unread) start.unread := by
  have hcut := cutsOff_script limit script tokens
  have hfollows := hrule (.ofTokens tokens) rfl
  unfold CutsOff at hcut
  unfold firstBeyond begun at h
  rw [h] at hcut
  obtain ⟨hdepth, starts, herror⟩ := hcut
  refine ⟨hdepth, ?_⟩
  cases hrun : rule tokens with
  | ok value rest =>
      obtain ⟨starts', hanswer⟩ := hfollows.of_ok hrun
      rw [herror] at hanswer
      cases hanswer
  | error thrown rest =>
      obtain ⟨starts', hanswer⟩ := hfollows.of_error hrun
      rw [herror] at hanswer
      cases hanswer
      rfl

end Script

/-- How an outcome comes about from the run of a script where nothing is nested
too deep: it is the same, or it is cut off where something begins that is one
too many. -/
def Script.LimitCutsOff {α : Type} (script : Script α) (tokens : List Token)
    (outcome : Except SyntaxError α × Reader) : Prop :=
  match script.firstBeyond Rule.maxNesting tokens with
  | none => outcome = (Reader.ofTokens tokens).run script.free
  | some start =>
      start.depth = Rule.maxNesting + 1 ∧
        ∃ before, tokens = before ++ start.unread ∧
          outcome =
            (.error ⟨.nestingTooDeep Rule.maxNesting,
                ((start.unread.head? <|> tokens.getLast?).map Token.offset).getD 0⟩,
              ⟨tokens, before.length⟩)

theorem Script.limitCutsOff_run {α : Type} {script : Script α} {rule : Rule α}
    [hrule : rule.Forward]
    (hfollows : Follows 0 (script.run (inner (some Rule.maxNesting))) rule) (tokens : List Token) :
    script.LimitCutsOff tokens ((Reader.ofTokens tokens).run rule) := by
  have hunread : (Reader.ofTokens tokens).unread = tokens := rfl
  unfold LimitCutsOff Reader.run
  rw [hunread]
  cases hbeyond : script.firstBeyond Rule.maxNesting tokens with
  | none =>
      dsimp only
      rw [rule_eq_free hfollows hbeyond]
  | some start =>
      obtain ⟨hdepth, herror⟩ := rule_eq_error hfollows hbeyond
      obtain ⟨before, hbefore⟩ := (hrule.suffix tokens).of_error herror
      refine ⟨hdepth, before, hbefore.symm, ?_⟩
      have hstopped :
          (Reader.ofTokens tokens).stoppedAt start.unread = ⟨tokens, before.length⟩ := by
        rw [← hbefore, Reader.stoppedAt_append]
      rw [herror]
      dsimp only
      rw [hstopped, Reader.place_before]
      rfl

/-- The limit on nesting changes nothing as long as it is kept, and where it is
not, parsing stops at the first statement or expression beyond it. How long a
list is has no part in this. -/
theorem nesting_limit_cuts_off (tokens : List Token) :
    Script.program.LimitCutsOff tokens (Reader.ofTokens tokens).program ∧
      (Script.expression 0).LimitCutsOff tokens (Reader.ofTokens tokens).expression ∧
      Script.ListsAreFlat :=
  ⟨Script.limitCutsOff_run (follows_program Rule.maxNesting) tokens,
    Script.limitCutsOff_run (follows_expression Rule.maxNesting) tokens, Script.listsAreFlat⟩

end ClassLang
