import ClassLang.Proofs.RoundTrip.Expression
import ClassLang.Proofs.Taking.Statement

/-!
Statements are read back from their phrases, as long as each `else` is written
where it goes when it is read. What follows a statement matters only if that
ends in an `if` without `else`: then no `else` may come.
-/

namespace ClassLang

open Grammar Phrase

namespace Statement

mutual

/-- Whether no `else` stands behind a statement that would take it. -/
def elsesBound : Statement → Bool
  | .block statements => allElsesBound statements
  | .ifThen _ onTrue => elsesBound onTrue
  | .ifElse _ onTrue onFalse => !onTrue.endsOpen && elsesBound onTrue && elsesBound onFalse
  | .whileLoop _ body => elsesBound body
  | .returnStmt _ | .breakStmt | .declaration _ _ _ | .expression _ | .empty => true

def allElsesBound : List Statement → Bool
  | [] => true
  | first :: rest => elsesBound first && allElsesBound rest

end

theorem allElsesBound_iff {statements : List Statement} :
    allElsesBound statements = true ↔ ∀ statement ∈ statements, statement.elsesBound = true := by
  induction statements with
  | nil => simp [allElsesBound]
  | cons first rest ih => rw [allElsesBound, Bool.and_eq_true, ih, List.forall_mem_cons]

end Statement

namespace Rule

variable {limit levels : Nat} {statement : Rule Statement} {value : Rule Expression}
  {follow : Phrase}

/-- Statements are read back. -/
def TakesStatements (limit levels : Nat) (rule : Rule Statement) : Prop :=
  ∀ (statement : Statement) follow, statement.pathsNamed = true → statement.elsesBound = true →
    (statement.endsOpen = true → follow.head? ≠ some (.keyword .elseKw)) →
    TakesNested limit levels rule (statement.phrase ++ follow) statement.levels statement follow

theorem takesNested_statements (hreads : Reads IsStatement statement)
    (hstatement : TakesStatements limit levels statement) {statements : List Statement}
    (hnamed : Statement.allPathsNamed statements = true)
    (helses : Statement.allElsesBound statements = true) :
    TakesNested limit levels (untilClose .closeBrace statement)
      (Statement.phrases statements ++ .separator .closeBrace :: follow)
      (Statement.maxLevels statements) statements follow := by
  rw [Statement.phrases_eq_flatMap, Statement.maxLevels_eq_foldr]
  rw [Statement.allPathsNamed_iff] at hnamed
  rw [Statement.allElsesBound_iff] at helses
  refine takesNested_untilClose (stepAdvances_untilStep_statement hreads .closeBrace)
    (fun rest => rest.head? ≠ some (.keyword .elseKw)) (by simp) statements ?_ ?_
  · intro first hfirst
    obtain ⟨kind, more, hphrase, helse, hclose⟩ :=
      (first.isStatement_phrase (hnamed first hfirst)).exists_cons
    exact ⟨kind, more, hphrase, hclose, fun rest => by simpa using helse⟩
  · intro first hfirst rest hrest
    exact hstatement first rest (hnamed first hfirst) (helses first hfirst) fun _ => hrest

theorem takesNested_block (hreads : Reads IsStatement statement)
    (hstatement : TakesStatements limit levels statement) {statements : List Statement}
    (hnamed : Statement.allPathsNamed statements = true)
    (helses : Statement.allElsesBound statements = true) :
    TakesNested limit levels (block statement) (inBraces (Statement.phrases statements) ++ follow)
      (Statement.maxLevels statements) statements follow := by
  intro ok failed hok hfailed
  simp only [inBraces, List.cons_append, List.append_assoc, List.nil_append]
  apply takes_block
  exact takesNested_statements hreads hstatement hnamed helses ok failed hok hfailed

theorem takesNested_condition (hvalue : TakesWhole limit levels value) {condition : Expression}
    (hnamed : condition.pathsNamed = true) :
    TakesNested limit levels (Rule.condition value) (inParens condition.phrase ++ follow)
      condition.levels condition follow := by
  intro ok failed hok hfailed
  simp only [inParens, List.cons_append, List.append_assoc, List.nil_append]
  apply takes_condition
  apply hvalue.separator hnamed rfl
  · intro hlevels
    exact takes_separator (hok hlevels)
  · exact hfailed

/-- An optional initial value in front of a semicolon. -/
theorem takesNested_initializer (hvalue : TakesWhole limit levels value)
    {start : Option Expression} (hnamed : start.all Expression.pathsNamed = true) :
    TakesNested limit levels (initializer value)
      (ofInitializer start ++ .separator .semicolon :: follow) (initializerLevels start) start
      (.separator .semicolon :: follow) := by
  intro ok failed hok hfailed
  cases start with
  | none => exact takes_initializer_absent (by simp [ofInitializer]) (hok (Nat.zero_le _))
  | some start =>
      apply takes_initializer_present
      exact hvalue.separator hnamed rfl _ failed hok hfailed

theorem takesNested_variableOf {α : Type} (build : String → String → Option Expression → α)
    (hvalue : TakesWhole limit levels value) (type name : String) {start : Option Expression}
    (hnamed : start.all Expression.pathsNamed = true) :
    TakesNested limit levels (variableOf build value) (ofVariable type name start ++ follow)
      (initializerLevels start) (build type name start) follow := by
  intro ok failed hok hfailed
  rw [ofVariable, List.append_assoc, List.cons_append, List.cons_append]
  apply takes_variableOf build (isType_ofTypeText type)
  apply takesNested_initializer hvalue hnamed
  · intro hlevels
    exact takes_separator (hok hlevels)
  · exact hfailed

theorem startsDeclaration_ofVariable (type name : String) {start : Option Expression}
    (hnamed : start.all Expression.pathsNamed = true) :
    StartsDeclaration (ofVariable type name start ++ follow) := by
  rw [ofVariable, List.append_assoc, List.cons_append, List.cons_append]
  exact startsDeclaration_variable (isType_ofTypeText type) (isInitializer_ofInitializer hnamed)

/-- An `if` without `else`, where none comes. -/
theorem takesNested_ifThen (hstatement : TakesStatements limit levels statement)
    (hvalue : TakesWhole limit levels value) {condition : Expression} {onTrue : Statement}
    (hcondition : condition.pathsNamed = true) (honTrue : onTrue.pathsNamed = true)
    (helses : onTrue.elsesBound = true) (hfollow : follow.head? ≠ some (.keyword .elseKw)) :
    TakesNested limit levels (ifStatement statement value)
      (inParens condition.phrase ++ (onTrue.phrase ++ follow))
      (max condition.levels onTrue.levels) (.ifThen condition onTrue) follow := by
  intro ok failed hok hfailed
  apply takes_bind
  apply takesNested_condition hvalue hcondition
  · intro hlevels
    apply takes_bind
    apply hstatement onTrue follow honTrue helses fun _ => hfollow
    · intro hlevels'
      apply takes_bind
      apply takes_accept_of_ne hfollow
      exact takes_pure (hok (by omega))
    · intro hlevels'
      exact hfailed (by omega)
  · intro hlevels
    exact hfailed (by omega)

/-- An `if` with its `else`: the statement in between does not take it. -/
theorem takesNested_ifElse (hstatement : TakesStatements limit levels statement)
    (hvalue : TakesWhole limit levels value) {condition : Expression}
    {onTrue onFalse : Statement} (hcondition : condition.pathsNamed = true)
    (honTrue : onTrue.pathsNamed = true) (honFalse : onFalse.pathsNamed = true)
    (hclosed : onTrue.endsOpen = false) (helses : onTrue.elsesBound = true)
    (helses' : onFalse.elsesBound = true)
    (hfollow : onFalse.endsOpen = true → follow.head? ≠ some (.keyword .elseKw)) :
    TakesNested limit levels (ifStatement statement value)
      (inParens condition.phrase ++
        (onTrue.phrase ++ .keyword .elseKw :: (onFalse.phrase ++ follow)))
      (max condition.levels (max onTrue.levels onFalse.levels)) (.ifElse condition onTrue onFalse)
      follow := by
  intro ok failed hok hfailed
  apply takes_bind
  apply takesNested_condition hvalue hcondition
  · intro hlevels
    apply takes_bind
    apply hstatement onTrue _ honTrue helses
    · intro hopen
      rw [hclosed] at hopen
      cases hopen
    · intro hlevels'
      apply takes_bind
      apply takes_accept
      apply takes_bind
      apply hstatement onFalse follow honFalse helses' hfollow
      · intro hlevels''
        exact takes_pure (hok (by omega))
      · intro hlevels''
        exact hfailed (by omega)
    · intro hlevels'
      exact hfailed (by omega)
  · intro hlevels
    exact hfailed (by omega)

theorem takesNested_whileLoop (hstatement : TakesStatements limit levels statement)
    (hvalue : TakesWhole limit levels value) {condition : Expression} {body : Statement}
    (hcondition : condition.pathsNamed = true) (hbody : body.pathsNamed = true)
    (helses : body.elsesBound = true)
    (hfollow : body.endsOpen = true → follow.head? ≠ some (.keyword .elseKw)) :
    TakesNested limit levels (whileStatement statement value)
      (inParens condition.phrase ++ (body.phrase ++ follow))
      (max condition.levels body.levels) (.whileLoop condition body) follow := by
  intro ok failed hok hfailed
  apply takes_bind
  apply takesNested_condition hvalue hcondition
  · intro hlevels
    apply takes_bind
    apply hstatement body follow hbody helses hfollow
    · intro hlevels'
      exact takes_pure (hok (by omega))
    · intro hlevels'
      exact hfailed (by omega)
  · intro hlevels
    exact hfailed (by omega)

theorem takesNested_returnValue (hvalue : TakesWhole limit levels value) {answer : Expression}
    (hnamed : answer.pathsNamed = true) :
    TakesNested limit levels (returnStatement value)
      (answer.phrase ++ .separator .semicolon :: follow) answer.levels (.returnStmt (some answer))
      follow := by
  intro ok failed hok hfailed
  apply takes_returnStatement_value
  · obtain ⟨kind, more, hphrase, hkind⟩ := (answer.isExpression_phrase hnamed).exists_cons
    rw [hphrase]
    rintro ⟨⟩
    exact hkind
  apply hvalue.separator hnamed rfl
  · intro hlevels
    exact takes_separator (hok hlevels)
  · exact hfailed

theorem takesStatements_statementOf (hreads : Reads IsStatement statement)
    (hstatement : TakesStatements limit levels statement)
    (hvalue : TakesWhole limit levels value) :
    TakesStatements limit (levels + 1) (statementOf statement value) := by
  intro answer follow hnamed helses hfollow ok failed hok hfailed
  cases answer with
  | empty => exact takes_statement_empty (hok (by rw [Statement.levels]; omega))
  | breakStmt => exact takes_statement_break (hok (by rw [Statement.levels]; omega))
  | block statements =>
      rw [Statement.pathsNamed] at hnamed
      rw [Statement.elsesBound] at helses
      rw [Statement.levels] at hok hfailed
      have hinner : TakesNested limit levels _ _ _ statements follow :=
        takesNested_statements hreads hstatement hnamed helses
      simp only [Statement.phrase, inBraces, List.cons_append, List.append_assoc, List.nil_append]
      apply takes_statement_block
      exact hinner.succ _ failed hok hfailed
  | ifThen condition onTrue =>
      simp only [Statement.pathsNamed, Bool.and_eq_true] at hnamed
      rw [Statement.elsesBound] at helses
      rw [Statement.levels] at hok hfailed
      have hif := takesNested_ifThen hstatement hvalue hnamed.1 hnamed.2 helses (hfollow rfl)
      rw [Statement.phrase, List.append_assoc, List.cons_append]
      apply takes_statement_if
      exact hif.succ ok failed hok hfailed
  | ifElse condition onTrue onFalse =>
      simp only [Statement.pathsNamed, Bool.and_eq_true] at hnamed
      simp only [Statement.elsesBound, Bool.and_eq_true, Bool.not_eq_true'] at helses
      rw [Statement.levels] at hok hfailed
      have hif := takesNested_ifElse hstatement hvalue hnamed.1.1 hnamed.1.2 hnamed.2 helses.1.1
        helses.1.2 helses.2 hfollow
      simp only [Statement.phrase, List.append_assoc, List.cons_append]
      apply takes_statement_if
      exact hif.succ ok failed hok hfailed
  | whileLoop condition body =>
      simp only [Statement.pathsNamed, Bool.and_eq_true] at hnamed
      rw [Statement.elsesBound] at helses
      rw [Statement.levels] at hok hfailed
      have hwhile := takesNested_whileLoop hstatement hvalue hnamed.1 hnamed.2 helses hfollow
      rw [Statement.phrase, List.append_assoc, List.cons_append]
      apply takes_statement_while
      exact hwhile.succ ok failed hok hfailed
  | returnStmt answer =>
      rw [Statement.pathsNamed] at hnamed
      rw [Statement.levels] at hok hfailed
      cases answer with
      | none =>
          apply takes_statement_return
          exact takes_returnStatement_nothing (hok (Nat.succ_le_succ (Nat.zero_le _)))
      | some answer =>
          simp only [Statement.phrase, List.append_assoc, List.cons_append, List.nil_append]
          apply takes_statement_return
          exact (takesNested_returnValue hvalue hnamed).succ ok failed hok hfailed
  | declaration type name start =>
      rw [Statement.pathsNamed] at hnamed
      rw [Statement.levels] at hok hfailed
      rw [Statement.phrase]
      apply takes_statement_declaration (startsDeclaration_ofVariable type name hnamed)
      apply (takesNested_variableOf Statement.declaration hvalue type name hnamed).succ
      · exact hok
      · exact hfailed
  | expression answer =>
      rw [Statement.pathsNamed] at hnamed
      rw [Statement.levels] at hok hfailed
      simp only [Statement.phrase, List.append_assoc, List.cons_append, List.nil_append]
      apply takes_statement_expression (answer.isExpression_phrase hnamed)
      apply (hvalue.separator hnamed rfl).succ
      · intro hlevels
        exact takes_separator (hok hlevels)
      · exact hfailed

theorem takesStatements_statementAt (limit levels : Nat) :
    TakesStatements limit levels (statementAt limit levels) := by
  induction levels with
  | zero =>
      intro statement follow _ _ _
      exact TakesNested.of_zero statement.levels_pos
  | succ levels ih =>
      exact takesStatements_statementOf (reads_statementAt limit levels) ih
        (takesNested_expressionAt limit levels).1

end Rule

end ClassLang
