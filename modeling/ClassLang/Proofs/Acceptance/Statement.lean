import ClassLang.Proofs.Acceptance.Expression
import ClassLang.Proofs.Taking.Statement

/-!
Every derivable statement is accepted. It is read in its settled form, in which
nothing is left of a statement but an `else` that it could not take, and no
such `else` comes behind the statements of a block.
-/

namespace ClassLang.Rule

open Grammar Phrase

/-- All statements are taken, unless they would take an `else` that follows. -/
def AcceptsStatements (statement : Rule Statement) : Prop :=
  ∀ takesElse phrase follow, IsSettled takesElse phrase →
    (takesElse = true → follow.head? ≠ some (.keyword .elseKw)) →
    TakesUpTo statement (phrase ++ follow) follow

variable {statement : Rule Statement} {value : Rule Expression} {follow : Phrase}

theorem AcceptsStatements.whole (h : AcceptsStatements statement) {phrase : Phrase}
    {answer : Statement} (hphrase : IsStatement phrase answer)
    (hfollow : follow.head? ≠ some (.keyword .elseKw)) :
    TakesUpTo statement (phrase ++ follow) follow := by
  obtain ⟨takesElse, hsettled⟩ := hphrase.exists_isSettled
  exact h takesElse phrase follow hsettled fun _ => hfollow

/-- The statements up to a closing brace, and the brace. -/
theorem takes_statements (hreads : Reads IsStatement statement) (h : AcceptsStatements statement)
    {inner : Phrase} {statements : List Statement} (hinner : IsStatements inner statements) :
    TakesUpTo (untilClose .closeBrace statement) (inner ++ .separator .closeBrace :: follow)
      follow := by
  refine takes_untilClose (fun rest => rest.head? ≠ some (.keyword .elseKw))
    (stepAdvances_untilStep_statement hreads .closeBrace) (by simp) ?_ ?_ hinner.isSequence
  · intro phrase answer hanswer
    obtain ⟨kind, more, hphrase, helse, hclose⟩ := hanswer.exists_cons
    exact ⟨kind, more, hphrase, hclose, fun rest => by simpa using helse⟩
  · intro phrase answer rest hanswer hrest
    exact h.whole hanswer hrest

theorem takes_test (hvalue : AcceptsWhole value) {test : Phrase} {answer : Expression}
    (htest : IsExpression test answer) :
    TakesUpTo (condition value) (inParens test ++ follow) follow := by
  simp only [inParens, List.cons_append, List.append_assoc, List.nil_append]
  apply takes_condition
  have hclose : Stops test (.separator .closeParen :: follow) :=
    stops_separator rfl
  refine (hvalue _ _ _ htest hclose).takes fun _ => ?_
  exact takes_separator rfl

/-- An expression and the semicolon behind it. -/
theorem takes_value_semicolon (hvalue : AcceptsWhole value) {phrase : Phrase}
    {answer : Expression} (hphrase : IsExpression phrase answer) :
    Takes value (phrase ++ .separator .semicolon :: follow)
      (fun _ rest => TakesUpTo (separator .semicolon) rest follow) TooDeep := by
  have hend : Stops phrase (.separator .semicolon :: follow) :=
    stops_separator rfl
  refine (hvalue _ _ _ hphrase hend).takes fun _ => ?_
  exact takes_separator rfl

/-- An initial value, or none, and the semicolon behind it. -/
theorem takes_initializer_semicolon (hvalue : AcceptsWhole value) {start : Phrase}
    {answer : Option Expression} (hstart : IsInitializer start answer) :
    Takes (initializer value) (start ++ .separator .semicolon :: follow)
      (fun _ rest => TakesUpTo (separator .semicolon) rest follow) TooDeep := by
  cases hstart with
  | absent => exact takes_initializer_absent (by simp) (takes_separator rfl)
  | present hphrase => exact takes_initializer_present (takes_value_semicolon hvalue hphrase)

theorem takes_variable {α : Type} (build : String → String → Option Expression → α)
    (hvalue : AcceptsWhole value) {phrase start : Phrase} {type name : String}
    {answer : Option Expression} (htype : IsType phrase type)
    (hstart : IsInitializer start answer) :
    TakesUpTo (variableOf build value)
      (phrase ++ .identifier name :: (start ++ .separator .semicolon :: follow)) follow :=
  takes_variableOf build htype (takes_initializer_semicolon hvalue hstart)

/-- A statement that does not end in a statement. -/
theorem takes_plain (hreads : Reads IsStatement statement)
    (hstatement : AcceptsStatements statement) (hvalue : AcceptsWhole value)
    {phrase : Phrase} {answer : Statement} (hphrase : IsStatement phrase answer)
    (hplain : ¬ EndsInStatement answer) :
    TakesUpTo (statementOf statement value) (phrase ++ follow) follow := by
  cases hphrase with
  | ifThen htest hfirst => exact absurd trivial hplain
  | ifElse htest hfirst hsecond => exact absurd trivial hplain
  | whileLoop htest hinner => exact absurd trivial hplain
  | empty => exact takes_statement_empty rfl
  | breakStmt => exact takes_statement_break rfl
  | returnNothing => exact takes_statement_return (takes_returnStatement_nothing rfl)
  | block hinner =>
      simp only [inBraces, List.cons_append, List.append_assoc, List.nil_append]
      exact takes_statement_block (takes_statements hreads hstatement hinner)
  | returnValue hphrase =>
      simp only [List.cons_append, List.append_assoc, List.nil_append]
      apply takes_statement_return
      refine takes_returnStatement_value ?_ (takes_value_semicolon hvalue hphrase)
      obtain ⟨kind, more, rfl, hkind⟩ := hphrase.exists_cons
      rintro ⟨⟩
      exact hkind
  | declaration name htype hstart =>
      simp only [List.cons_append, List.append_assoc, List.nil_append]
      exact takes_statement_declaration (startsDeclaration_variable htype hstart)
        (takes_variable Statement.declaration hvalue htype hstart)
  | expression hphrase =>
      simp only [List.cons_append, List.append_assoc, List.nil_append]
      exact takes_statement_expression hphrase (takes_value_semicolon hvalue hphrase)

theorem accepts_statementOf (hreads : Reads IsStatement statement)
    (hstatement : AcceptsStatements statement) (hvalue : AcceptsWhole value) :
    AcceptsStatements (statementOf statement value) := by
  intro takesElse phrase follow hphrase hfollow
  cases hphrase with
  | plain hplain hends => exact takes_plain hreads hstatement hvalue hplain hends
  | @ifThen opened test first _ htest hfirst =>
      simp only [List.cons_append, List.append_assoc]
      apply takes_statement_if
      apply takes_bind
      refine (takes_test hvalue htest).takes fun _ => ?_
      apply takes_bind
      refine (hstatement opened first follow hfirst fun _ => hfollow rfl).takes fun _ => ?_
      apply takes_bind
      apply takes_accept_of_ne (hfollow rfl)
      exact takes_pure rfl
  | @ifElse _ test first second _ htest hfirst hsecond =>
      simp only [List.cons_append, List.append_assoc]
      apply takes_statement_if
      apply takes_bind
      refine (takes_test hvalue htest).takes fun _ => ?_
      apply takes_bind
      refine (hstatement false first _ hfirst (by simp)).takes fun _ => ?_
      apply takes_bind
      apply takes_accept
      apply takes_bind
      refine (hstatement takesElse second follow hsecond hfollow).takes fun _ => ?_
      exact takes_pure rfl
  | @whileLoop _ test inner _ htest hinner =>
      simp only [List.cons_append, List.append_assoc]
      apply takes_statement_while
      apply takes_bind
      refine (takes_test hvalue htest).takes fun _ => ?_
      apply takes_bind
      refine (hstatement takesElse inner follow hinner hfollow).takes fun _ => ?_
      exact takes_pure rfl

theorem accepts_statementAt (limit levels : Nat) :
    AcceptsStatements (statementAt limit levels) := by
  induction levels with
  | zero =>
      intro takesElse phrase follow hphrase hfollow
      exact takes_fail ⟨limit, rfl⟩
  | succ levels ih =>
      exact accepts_statementOf (reads_statementAt limit levels) ih
        (accepts_expressionAt limit levels).whole

end ClassLang.Rule
