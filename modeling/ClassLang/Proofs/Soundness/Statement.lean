import ClassLang.Proofs.Soundness.Expression

/-!
The rules for statements read the statements of the grammar, whatever rules
for inner statements and expressions they are given that do so themselves.
-/

namespace ClassLang.Rule

open Grammar Phrase

theorem reads_initializer {value : Rule Expression} (hvalue : Reads IsExpression value) :
    Reads IsInitializer (initializer value) := by
  intro tokens
  apply continues_bind (reads_accept _)
  rintro _ present rfl tokens
  cases present with
  | false => exact continues_pure .absent
  | true =>
      apply continues_bind hvalue
      intro phrase answer hanswer tokens
      exact continues_pure (.present hanswer)

theorem isStatements_of_sequence {phrase : Phrase} {statements : List Statement}
    (h : IsSequence IsStatement phrase statements) : IsStatements phrase statements := by
  induction h with
  | nil => exact .nil
  | cons head tail ih => exact .cons head ih

/-- Statements in braces. -/
def IsBlock (phrase : Phrase) (statements : List Statement) : Prop :=
  ∃ inner, phrase = inBraces inner ∧ IsStatements inner statements

/-- An expression in parentheses. -/
def IsCondition (phrase : Phrase) (condition : Expression) : Prop :=
  ∃ inner, phrase = inParens inner ∧ IsExpression inner condition

theorem reads_block {statement : Rule Statement} (hstatement : Reads IsStatement statement) :
    Reads IsBlock (block statement) := by
  intro tokens
  apply continues_bind (reads_separator _)
  rintro _ ⟨⟩ rfl tokens
  apply continues_last (reads_untilClose .closeBrace hstatement)
  rintro _ statements ⟨inner, rfl, hinner⟩
  exact ⟨inner, rfl, isStatements_of_sequence hinner⟩

theorem reads_condition {value : Rule Expression} (hvalue : Reads IsExpression value) :
    Reads IsCondition (condition value) := by
  intro tokens
  apply continues_bind (reads_separator _)
  rintro _ ⟨⟩ rfl tokens
  apply continues_bind hvalue
  intro inner answer hanswer tokens
  apply continues_bind (reads_separator _)
  rintro _ ⟨⟩ rfl tokens
  exact continues_pure ⟨inner, rfl, hanswer⟩

theorem reads_declaration {value : Rule Expression} (hvalue : Reads IsExpression value) :
    Reads IsStatement (declaration value) := by
  intro tokens
  apply continues_bind reads_type
  intro phrase type htype tokens
  apply continues_bind reads_identifier
  rintro _ name rfl tokens
  apply continues_bind (reads_initializer hvalue)
  intro start answer hstart tokens
  apply continues_bind (reads_separator _)
  rintro _ ⟨⟩ rfl tokens
  exact continues_pure (by simpa using IsStatement.declaration name htype hstart)

theorem reads_expressionStatement {value : Rule Expression} (hvalue : Reads IsExpression value) :
    Reads IsStatement (expressionStatement value) := by
  intro tokens
  apply continues_bind hvalue
  intro phrase answer hanswer tokens
  apply continues_bind (reads_separator _)
  rintro _ ⟨⟩ rfl tokens
  exact continues_pure (.expression hanswer)

section Keywords

variable {statement : Rule Statement} {value : Rule Expression} {tokens : List Token}

/-! The keyword itself is read before these rules are run. -/

theorem continues_ifStatement (hstatement : Reads IsStatement statement)
    (hvalue : Reads IsExpression value) :
    Continues IsStatement [.keyword .ifKw] (ifStatement statement value) tokens := by
  apply continues_bind (reads_condition hvalue)
  rintro _ test ⟨inner, rfl, htest⟩ tokens
  apply continues_bind hstatement
  intro first onTrue hfirst tokens
  apply continues_bind (reads_accept _)
  rintro _ present rfl tokens
  cases present with
  | false => exact continues_pure (by simpa using IsStatement.ifThen htest hfirst)
  | true =>
      apply continues_bind hstatement
      intro second onFalse hsecond tokens
      exact continues_pure (by simpa using IsStatement.ifElse htest hfirst hsecond)

theorem continues_whileStatement (hstatement : Reads IsStatement statement)
    (hvalue : Reads IsExpression value) :
    Continues IsStatement [.keyword .whileKw] (whileStatement statement value) tokens := by
  apply continues_bind (reads_condition hvalue)
  rintro _ test ⟨inner, rfl, htest⟩ tokens
  apply continues_bind hstatement
  intro first body hbody tokens
  exact continues_pure (by simpa using IsStatement.whileLoop htest hbody)

theorem continues_returnStatement (hvalue : Reads IsExpression value) :
    Continues IsStatement [.keyword .returnKw] (returnStatement value) tokens := by
  apply continues_get_bind
  split
  · apply continues_bind (reads_separator _)
    rintro _ ⟨⟩ rfl tokens
    exact continues_pure .returnNothing
  · apply continues_bind hvalue
    intro phrase answer hanswer tokens
    apply continues_bind (reads_separator _)
    rintro _ ⟨⟩ rfl tokens
    exact continues_pure (.returnValue hanswer)

end Keywords

theorem reads_statementOf {statement : Rule Statement} {value : Rule Expression}
    (hstatement : Reads IsStatement statement) (hvalue : Reads IsExpression value) :
    Reads IsStatement (statementOf statement value) := by
  intro tokens
  apply continues_get_bind
  rcases tokens with _ | ⟨⟨kind, offset⟩, rest⟩
  · exact continues_failExpecting (by simp) ⟨_, _, .empty⟩
  have hother : Continues IsStatement []
      (if isDeclaration (⟨kind, offset⟩ :: rest) then declaration value
        else expressionStatement value) (⟨kind, offset⟩ :: rest) := by
    split
    · exact reads_declaration hvalue _
    · exact reads_expressionStatement hvalue _
  cases kind with
  | separator mark =>
      cases mark with
      | semicolon =>
          apply continues_skip_bind
          exact continues_pure .empty
      | openBrace =>
          apply continues_bind (reads_block hstatement)
          rintro _ statements ⟨inner, rfl, hinner⟩ tokens
          exact continues_pure (.block hinner)
      | dot | openParen | closeBrace | closeParen | comma | assign => exact hother
  | keyword word =>
      cases word with
      | ifKw => exact continues_skip_bind (continues_ifStatement hstatement hvalue)
      | whileKw => exact continues_skip_bind (continues_whileStatement hstatement hvalue)
      | returnKw => exact continues_skip_bind (continues_returnStatement hvalue)
      | breakKw =>
          apply continues_skip_bind
          apply continues_bind (reads_separator _)
          rintro _ ⟨⟩ rfl tokens
          exact continues_pure .breakStmt
      | newKw | classKw | extendsKw | elseKw => exact hother
  | identifier name => exact hother
  | literal value => exact hother
  | typeName name => exact hother
  | operator symbol => exact hother

theorem reads_statementAt (limit levels : Nat) : Reads IsStatement (statementAt limit levels) := by
  induction levels with
  | zero =>
      intro tokens
      exact continues_fail trivial ⟨_, _, .empty⟩
  | succ levels ih => exact reads_statementOf ih (reads_expressionAt limit levels 0)

end ClassLang.Rule
