import ClassLang.Proofs.Soundness.Statement

/-!
The rules for members, classes and programs read those of the grammar. The
form of a member is chosen by looking ahead, but what is read of it need not
be completed the way it was chosen: whatever was taken so far begins some
member, and that is all that a fault is to show.
-/

namespace ClassLang.Rule

open Grammar Phrase

theorem reads_field {value : Rule Expression} (hvalue : Reads IsExpression value) :
    Reads IsMember (field value) := by
  intro tokens
  apply continues_bind reads_type
  intro phrase type htype tokens
  apply continues_bind reads_identifier
  rintro _ name rfl tokens
  apply continues_bind (reads_initializer hvalue)
  intro start answer hstart tokens
  apply continues_bind (reads_separator _)
  rintro _ ⟨⟩ rfl tokens
  exact continues_pure (by simpa using IsMember.field name htype hstart)

/-- A type and a name, without the comma that may follow. -/
def IsBareParam (phrase : Phrase) (param : Param) : Prop :=
  ∃ start, phrase = start ++ [.identifier param.name] ∧ IsType start param.type

theorem reads_param : Reads IsBareParam param := by
  intro tokens
  apply continues_bind reads_type
  intro phrase type htype tokens
  apply continues_bind reads_identifier
  rintro _ name rfl tokens
  exact continues_pure ⟨phrase, rfl, htype⟩

theorem isParams_of_sequence {phrase : Phrase} {params : List Param}
    (h : IsSequence (IsListed IsBareParam) phrase params) : IsParams phrase params := by
  induction h with
  | nil => exact .nil
  | cons head tail ih =>
      obtain ⟨_, comma, rfl, ⟨start, rfl, htype⟩, hcomma⟩ := head
      refine .cons ?_ ih
      simpa using IsParam.param _ htype hcomma

/-- Parameters in parentheses. -/
def IsParamList (phrase : Phrase) (params : List Param) : Prop :=
  ∃ list, phrase = inParens list ∧ IsParams list params

theorem reads_params : Reads IsParamList params := by
  intro tokens
  apply continues_bind (reads_separator _)
  rintro _ ⟨⟩ rfl tokens
  apply continues_last (reads_listed reads_param)
  rintro _ params ⟨list, rfl, hlist⟩
  exact ⟨list, rfl, isParams_of_sequence hlist⟩

theorem reads_method {statement : Rule Statement} (hstatement : Reads IsStatement statement) :
    Reads IsMember (method statement) := by
  intro tokens
  apply continues_bind reads_type
  intro phrase returnType htype tokens
  apply continues_bind reads_identifier
  rintro _ name rfl tokens
  apply continues_bind reads_params
  rintro _ params ⟨list, rfl, hlist⟩ tokens
  apply continues_bind (reads_block hstatement)
  rintro _ body ⟨inner, rfl, hinner⟩ tokens
  exact continues_pure (by simpa using IsMember.method name htype hlist hinner)

theorem reads_constructor {statement : Rule Statement} (hstatement : Reads IsStatement statement) :
    Reads IsMember (constructor statement) := by
  intro tokens
  apply continues_bind reads_identifier
  rintro _ name rfl tokens
  apply continues_bind reads_params
  rintro _ params ⟨list, rfl, hlist⟩ tokens
  apply continues_bind (reads_block hstatement)
  rintro _ body ⟨inner, rfl, hinner⟩ tokens
  exact continues_pure (by simpa using IsMember.constructor name hlist hinner)

theorem viable_member_nil : Viable IsMember [] :=
  ⟨_, _, .field "" (.className "") .absent⟩

theorem reads_memberOf {statement : Rule Statement} {value : Rule Expression}
    (hstatement : Reads IsStatement statement) (hvalue : Reads IsExpression value) :
    Reads IsMember (memberOf statement value) := by
  intro tokens
  apply continues_get_bind
  cases tokens with
  | nil => exact continues_failExpecting (by simp) viable_member_nil
  | cons first rest =>
      simp only
      cases MemberForm.ofTokens? (first :: rest) with
      | none => exact continues_fail rfl viable_member_nil
      | some form =>
          cases form with
          | field => exact reads_field hvalue _
          | method => exact reads_method hstatement _
          | constructor => exact reads_constructor hstatement _

theorem reads_memberWithin (limit : Nat) : Reads IsMember (memberWithin limit) :=
  reads_memberOf (reads_statementAt limit limit) (reads_expressionAt limit limit 0)

theorem reads_parent : Reads IsParent parent := by
  intro tokens
  apply continues_bind (reads_accept _)
  rintro _ present rfl tokens
  cases present with
  | false => exact continues_pure .absent
  | true =>
      apply continues_bind reads_identifier
      rintro _ name rfl tokens
      exact continues_pure (.present name)

theorem reads_classOf {member : Rule Member} (hmember : Reads IsMember member) :
    Reads IsClass (classOf member) := by
  intro tokens
  apply continues_bind (reads_keyword _)
  rintro _ ⟨⟩ rfl tokens
  apply continues_bind reads_identifier
  rintro _ name rfl tokens
  apply continues_bind reads_parent
  intro above parent hparent tokens
  apply continues_bind (reads_separator _)
  rintro _ ⟨⟩ rfl tokens
  apply continues_bind (reads_untilClose .closeBrace hmember)
  rintro _ members ⟨inner, rfl, hinner⟩ tokens
  exact continues_pure (by simpa [inBraces] using IsClass.classDecl name hparent hinner)

theorem reads_classStep {classDecl : Rule ClassDecl} (hclass : Reads IsClass classDecl) :
    Reads (IsStep IsClass) (classStep classDecl) := by
  intro tokens
  apply continues_get_bind
  split
  · exact continues_pure rfl
  · apply continues_bind hclass
    intro phrase value hvalue tokens
    exact continues_pure hvalue

/-- As long as there are tokens, the first class is read as such. So only where
there are none is a program found to have no classes. -/
theorem programOf_cons (classDecl : Rule ClassDecl) (token : Token) (rest : List Token) :
    programOf classDecl (token :: rest) =
      (do
        let first ← classDecl
        let others ← collectWithin (classStep classDecl) rest
        return ⟨first :: others⟩ : Rule Program) (token :: rest) := by
  change ((collectOnce (classStep classDecl) (collectWithin (classStep classDecl) rest)) >>= _)
    (token :: rest) = _
  unfold collectOnce
  change (((classDecl >>= fun value => pure (some value)) >>= _) >>= _) (token :: rest) = _
  simp

theorem reads_programOf {classDecl : Rule ClassDecl} (hclass : Reads IsClass classDecl) :
    Reads IsProgram (programOf classDecl) := by
  intro tokens
  cases tokens with
  | nil =>
      have hclassDecl : IsClass _ _ := .classDecl "" .absent .nil
      have hprogram : IsProgram _ _ := .program (.cons hclassDecl .nil) (by simp)
      exact ⟨⟨rfl, fun hne => absurd rfl hne⟩, [], rfl, _, _, hprogram⟩
  | cons token rest =>
      unfold Continues Outcome
      rw [programOf_cons]
      apply continues_bind hclass
      intro phrase first hfirst tokens
      apply continues_bind (reads_collectWithin (reads_classStep hclass) rest)
      intro phrase' others hothers tokens
      exact continues_pure (.program (.cons hfirst hothers) (by simp))

theorem outcome_classes_end {classDecl : Rule ClassDecl} (hclass : Reads IsClass classDecl)
    (tokens : List Token) :
    Outcome (collect (classStep classDecl)) tokens (fun _ rest => rest = []) (fun _ _ => True) := by
  have hstep : StepAdvances (classStep classDecl) := by
    apply (reads_classStep hclass).stepAdvances
    rintro value ⟨⟩
  generalize hsize : tokens.length = size
  induction size using Nat.strongRecOn generalizing tokens with
  | ind size ih =>
      subst hsize
      rw [outcome_collect hstep]
      unfold Outcome
      cases hrun : classStep classDecl tokens with
      | error thrown rest => trivial
      | ok answer rest =>
          cases answer with
          | some first => exact ih rest.length (hstep tokens first rest hrun) rest rfl
          | none =>
              cases tokens with
              | nil =>
                  cases hrun
                  rfl
              | cons token more =>
                  change (classDecl >>= _) (token :: more) = _ at hrun
                  rw [bind_apply] at hrun
                  split at hrun <;> cases hrun

/-- A program is read to the end of the tokens. -/
theorem programOf_rest {classDecl : Rule ClassDecl} (hclass : Reads IsClass classDecl)
    {tokens rest : List Token} {program : Program}
    (hrun : programOf classDecl tokens = .ok program rest) : rest = [] := by
  have hend : Outcome (programOf classDecl) tokens (fun _ rest => rest = []) (fun _ _ => True) := by
    unfold programOf Shape.program
    rw [outcome_bind]
    refine (outcome_classes_end hclass tokens).imp ?_
    intro classes rest hrest
    split
    · trivial
    · exact hrest
  exact hend.of_ok hrun

theorem reads_programWithin (limit : Nat) : Reads IsProgram (programWithin limit) :=
  reads_programOf (reads_classOf (reads_memberWithin limit))

end ClassLang.Rule
