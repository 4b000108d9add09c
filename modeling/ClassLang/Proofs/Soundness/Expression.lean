import ClassLang.Proofs.Reading

/-!
The rules for expressions read the expressions of the grammar. Each rule is
given the rule for what is inside, so each fact below is about one production
only; the recursion is closed by induction on the levels of nesting that are
left.
-/

namespace ClassLang.Rule

open Grammar Phrase

theorem isPath_of_sequence {first : String} {phrase : Phrase} {others : List String}
    (h : IsSequence (fun part name => part = [.separator .dot, .identifier name]) phrase others) :
    IsPath (.identifier first :: phrase) (first :: others) := by
  induction h generalizing first with
  | nil => exact .name first
  | cons head tail ih =>
      subst head
      exact .dot first ih

/-- The step of `path`. -/
def pathStep : Rule (Option String) := separatedStep .dot identifier

theorem reads_pathStep :
    Reads (IsStep fun part name => part = [TokenKind.separator .dot, .identifier name])
      pathStep := by
  intro tokens
  apply continues_bind (reads_accept _)
  rintro _ present rfl tokens
  cases present with
  | false => exact continues_pure rfl
  | true =>
      apply continues_bind reads_identifier
      rintro _ name rfl tokens
      exact continues_pure rfl

theorem reads_path : Reads IsPath path := by
  intro tokens
  apply continues_bind reads_identifier
  rintro _ first rfl tokens
  apply continues_bind (reads_collect reads_pathStep)
  intro phrase others hothers tokens
  exact continues_pure (isPath_of_sequence hothers)

theorem isArguments_of_sequence {phrase : Phrase} {values : List Expression}
    (h : IsSequence (IsListed IsExpression) phrase values) : IsArguments phrase values := by
  induction h with
  | nil => exact .nil
  | cons head tail ih =>
      obtain ⟨first, comma, rfl, hfirst, hcomma⟩ := head
      exact .cons hfirst hcomma ih

theorem reads_arguments {inner : Rule Expression} (hinner : Reads IsExpression inner) :
    Reads (IsClosed .closeParen IsArguments) (listed inner) := by
  apply (reads_listed hinner).mono
  rintro _ values ⟨list, rfl, hlist⟩
  exact ⟨list, rfl, isArguments_of_sequence hlist⟩

theorem reads_primary {inner : Rule Expression} (hinner : Reads IsExpression inner) :
    Reads IsExpression (primary inner) := by
  have hempty : Viable IsExpression [] := ⟨_, _, .literal (.bool true)⟩
  intro tokens
  apply continues_get_bind
  rcases tokens with _ | ⟨⟨kind, offset⟩, rest⟩
  · exact continues_failExpecting (by simp) hempty
  cases kind with
  | literal value =>
      apply continues_skip_bind
      exact continues_pure (.literal value)
  | identifier name =>
      apply continues_bind reads_path
      intro names path hpath tokens
      apply continues_bind (reads_accept _)
      rintro _ present rfl tokens
      cases present with
      | true =>
          apply continues_bind hinner
          intro phrase value hvalue tokens
          exact continues_pure (by simpa using IsExpression.assignment hpath hvalue)
      | false =>
          apply continues_bind (reads_accept _)
          rintro _ present rfl tokens
          cases present with
          | true =>
              apply continues_bind (reads_arguments hinner)
              rintro _ arguments ⟨list, rfl, hlist⟩ tokens
              exact continues_pure (by simpa [inParens] using IsExpression.call hpath hlist)
          | false => exact continues_pure (by simpa using IsExpression.reference hpath)
  | keyword word =>
      cases word with
      | newKw =>
          apply continues_skip_bind
          apply continues_bind reads_identifier
          rintro _ className rfl tokens
          apply continues_bind (reads_separator _)
          rintro _ ⟨⟩ rfl tokens
          apply continues_bind (reads_arguments hinner)
          rintro _ arguments ⟨list, rfl, hlist⟩ tokens
          exact continues_pure (by simpa [inParens] using IsExpression.new className hlist)
      | classKw | breakKw | extendsKw | ifKw | elseKw | whileKw | returnKw =>
          exact continues_fail rfl hempty
  | separator mark =>
      cases mark with
      | openParen =>
          apply continues_skip_bind
          apply continues_bind hinner
          intro phrase value hvalue tokens
          apply continues_bind (reads_separator _)
          rintro _ ⟨⟩ rfl tokens
          exact continues_pure (by simpa [inParens] using IsExpression.parens hvalue)
      | dot | openBrace | closeBrace | closeParen | comma | semicolon | assign =>
          exact continues_fail rfl hempty
  | typeName name => exact continues_fail rfl hempty
  | operator symbol => exact continues_fail rfl hempty

/-- An operator and its right operand. -/
def IsRightOperand (phrase : Phrase) (pair : Operator × Expression) : Prop :=
  ∃ right, phrase = .operator pair.1 :: right ∧ IsExpression right pair.2

theorem isExpression_foldl {start phrase : Phrase} {left : Expression}
    {others : List (Operator × Expression)} (hleft : IsExpression start left)
    (h : IsSequence IsRightOperand phrase others) :
    IsExpression (start ++ phrase)
      (others.foldl (fun left (symbol, right) => .binary symbol left right) left) := by
  induction h generalizing start left with
  | nil => simpa using hleft
  | cons head tail ih =>
      obtain ⟨right, rfl, hright⟩ := head
      rw [← List.append_assoc]
      exact ih (.binary _ hleft hright)

/-- An operator that is no looser than the floor, or nothing. -/
theorem reads_operatorAtLeast (floor : Nat) :
    Reads (IsStep fun phrase symbol => phrase = [TokenKind.operator symbol])
      (operatorAtLeast floor) := by
  intro tokens
  unfold Continues Outcome
  fun_cases operatorAtLeast floor tokens
  · next symbol offset rest hfloor => exact ⟨[⟨.operator symbol, offset⟩], rfl, rfl⟩
  · exact ⟨[], rfl, rfl⟩
  · exact ⟨[], rfl, rfl⟩

theorem reads_operandStep {operand : Nat → Rule Expression}
    (hoperand : ∀ floor, Reads IsExpression (operand floor)) (floor : Nat) :
    Reads (IsStep IsRightOperand) (operandStep operand floor) := by
  intro tokens
  apply continues_bind (reads_operatorAtLeast floor)
  intro phrase answer hanswer tokens
  cases answer with
  | none =>
      cases hanswer
      exact continues_pure rfl
  | some symbol =>
      cases hanswer
      apply continues_bind (hoperand _)
      intro right value hvalue tokens
      exact continues_pure ⟨right, rfl, hvalue⟩

theorem reads_climb {operand : Nat → Rule Expression}
    (hoperand : ∀ floor, Reads IsExpression (operand floor)) (floor : Nat) :
    Reads IsExpression (climb operand floor) := by
  intro tokens
  apply continues_bind (reads_primary (hoperand 0))
  intro start first hfirst tokens
  apply continues_bind (reads_collect (reads_operandStep hoperand floor))
  intro phrase others hothers tokens
  exact continues_pure (isExpression_foldl hfirst hothers)

theorem reads_expressionAt (limit levels floor : Nat) :
    Reads IsExpression (expressionAt limit levels floor) := by
  induction levels generalizing floor with
  | zero =>
      intro tokens
      exact continues_fail trivial ⟨_, _, .literal (.bool true)⟩
  | succ levels ih => exact reads_climb ih floor

end ClassLang.Rule
