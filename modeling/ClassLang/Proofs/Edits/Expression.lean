import ClassLang.Proofs.Edits.Loops
import ClassLang.Proofs.Taking.Expression

/-!
The rules for expressions tolerate edits. What ends an element of a list goes on
no path, call, assignment or chain of operators, so wherever an expression ends
in front of one such token it also ends in front of another.
-/

namespace ClassLang.Rule

open Grammar Outline

section Rows

variable {α : Type} {element : Outline → α → Prop} {outline : Outline} {values : List α}

theorem IsRow.eq_flatMap {part : α → Outline} (h : IsRow element outline values)
    (helement : ∀ outline value, element outline value → outline = part value) :
    outline = values.flatMap part := by
  induction h with
  | nil => rfl
  | cons head tail ih => rw [List.flatMap_cons, helement _ _ head, ← ih]

theorem IsRow.exists_written {ω : Type} {part : ω → Outline} {tree : ω → α}
    (h : IsRow (IsWritten part tree) outline values) :
    ∃ written : List ω, written.flatMap part = outline ∧ written.map tree = values := by
  induction h with
  | nil => exact ⟨[], rfl, rfl⟩
  | cons head tail ih =>
      obtain ⟨first, rfl, rfl⟩ := head
      obtain ⟨others, rfl, rfl⟩ := ih
      exact ⟨first :: others, rfl, rfl⟩

end Rows

theorem toleratesAll_path :
    ToleratesAll EndsElement (IsWritten Written.Path.outline Written.Path.tree) path := by
  have hstep : ToleratesAll EndsElement
      (IsStepOutline fun outline name =>
        outline = [Outline.separator .dot, Outline.identifier name]) pathStep := by
    intro tokens
    apply tolerates_bind (toleratesAll_accept id)
    rintro _ present rfl tokens
    cases present with
    | false => exact tolerates_pure rfl
    | true =>
        apply tolerates_bind toleratesAll_identifier
        rintro _ name rfl tokens
        exact tolerates_pure rfl
  intro tokens
  apply tolerates_bind toleratesAll_identifier
  rintro _ first rfl tokens
  apply tolerates_bind (toleratesAll_collect stepAdvances_pathStep hstep)
  intro outline others hothers tokens
  refine tolerates_pure ⟨⟨first, others⟩, ?_, rfl⟩
  rw [hothers.eq_flatMap fun _ _ => id]
  rfl

/-- The outlines of expressions. -/
def IsWrittenExpression : Outline → Expression → Prop :=
  IsWritten Written.Expression.outline Written.Expression.tree

/-- The outlines of lists of arguments, up to their closing parenthesis. -/
def IsWrittenArguments (outline : Outline) (values : List Expression) : Prop :=
  ∃ written : Written.Arguments,
    outline = written.outline ++ [Outline.separator .closeParen] ∧ written.tree = values

theorem isWrittenArguments_of_list {outline : Outline} {values : List Expression}
    (h : IsClosedList IsWrittenExpression outline values) : IsWrittenArguments outline values := by
  obtain ⟨list, rfl, hlist⟩ := h
  suffices hwritten : ∃ written : Written.Arguments, written.outline = list ∧
      written.tree = values by
    obtain ⟨written, rfl, rfl⟩ := hwritten
    exact ⟨written, rfl, rfl⟩
  induction hlist with
  | nil => exact ⟨.nil, rfl, rfl⟩
  | cons comma head tail ih =>
      obtain ⟨first, rfl, rfl⟩ := head
      obtain ⟨others, rfl, rfl⟩ := ih
      exact ⟨.cons first comma others, rfl, rfl⟩

theorem not_isWrittenExpression_nil (value : Expression) : ¬ IsWrittenExpression [] value := by
  rintro ⟨written, hnil, rfl⟩
  obtain ⟨kind, more, hcons, _⟩ := written.exists_outline_eq
  rw [hnil] at hcons
  cases hcons

variable {inner : Rule Expression}

theorem toleratesAll_arguments (hreads : Reads IsExpression inner)
    (h : ToleratesAll EndsElement IsWrittenExpression inner) :
    ToleratesAll EndsElement IsWrittenArguments (listed inner) :=
  (toleratesAll_listed (stepAdvances_listedStep hreads) not_isWrittenExpression_nil h).mono
    fun _ _ => isWrittenArguments_of_list

/-- Behind a path. -/
theorem tolerates_pathOperand (hreads : Reads IsExpression inner)
    (h : ToleratesAll EndsElement IsWrittenExpression inner) (path : Written.Path)
    (tokens : List Token) :
    Tolerates EndsElement IsWrittenExpression path.outline (pathOperand inner path.tree)
      tokens := by
  apply tolerates_bind (toleratesAll_accept id)
  rintro _ present rfl tokens
  cases present with
  | true =>
      apply tolerates_bind h
      rintro _ _ ⟨value, rfl, rfl⟩ tokens
      refine tolerates_pure ⟨.assignment path value, ?_, rfl⟩
      simp [Written.Expression.outline, Outline.separator]
  | false =>
      apply tolerates_bind (toleratesAll_accept id)
      rintro _ present rfl tokens
      cases present with
      | true =>
          apply tolerates_bind (toleratesAll_arguments hreads h)
          rintro _ _ ⟨arguments, rfl, rfl⟩ tokens
          refine tolerates_pure ⟨.call path arguments, ?_, rfl⟩
          simp [Written.Expression.outline, Outline.inParens, Outline.separator]
      | false =>
          refine tolerates_pure ⟨.reference path, ?_, rfl⟩
          simp [Written.Expression.outline]

theorem toleratesAll_primary (hreads : Reads IsExpression inner)
    (h : ToleratesAll EndsElement IsWrittenExpression inner) :
    ToleratesAll EndsElement IsWrittenExpression (primary inner) := by
  intro tokens
  rcases tokens with _ | ⟨⟨kind, offset⟩, rest⟩
  · exact tolerates_of_error rfl
  cases kind with
  | literal value =>
      have hnext : Tolerates EndsElement IsWrittenExpression [.token (.literal value)]
          (pure (.literal value)) rest :=
        tolerates_pure ⟨.literal value, rfl, rfl⟩
      exact tolerates_skip (fun _ _ => rfl) hnext
  | identifier name =>
      have hpath : Tolerates EndsElement IsWrittenExpression []
          (path >>= pathOperand inner) (⟨.identifier name, offset⟩ :: rest) := by
        apply tolerates_bind toleratesAll_path
        rintro _ _ ⟨path, rfl, rfl⟩ tokens
        exact tolerates_pathOperand hreads h path tokens
      refine tolerates_branch ?_ not_isWrittenExpression_nil hpath
      exact fun _ _ => rfl
  | keyword word =>
      cases word with
      | newKw =>
          have hnew : Tolerates EndsElement IsWrittenExpression [Outline.keyword .newKw]
              (do
                let className ← identifier
                separator .openParen
                return .new className (← listed inner)) rest := by
            apply tolerates_bind toleratesAll_identifier
            rintro _ className rfl tokens
            apply tolerates_bind (toleratesAll_separator _)
            rintro _ ⟨⟩ rfl tokens
            apply tolerates_bind (toleratesAll_arguments hreads h)
            rintro _ _ ⟨arguments, rfl, rfl⟩ tokens
            refine tolerates_pure ⟨.new className arguments, ?_, rfl⟩
            simp [Written.Expression.outline, Outline.inParens, Outline.separator]
          exact tolerates_skip (fun _ _ => rfl) hnew
      | classKw | breakKw | extendsKw | ifKw | elseKw | whileKw | returnKw =>
          exact tolerates_of_error rfl
  | separator mark =>
      cases mark with
      | openParen =>
          have hparens : Tolerates EndsElement IsWrittenExpression [Outline.separator .openParen]
              (do
                let value ← inner
                separator .closeParen
                return value) rest := by
            apply tolerates_bind h
            rintro _ _ ⟨value, rfl, rfl⟩ tokens
            apply tolerates_bind (toleratesAll_separator _)
            rintro _ ⟨⟩ rfl tokens
            refine tolerates_pure ⟨.parens value, ?_, rfl⟩
            simp [Written.Expression.outline, Outline.inParens, Outline.separator]
          exact tolerates_skip (fun _ _ => rfl) hparens
      | dot | openBrace | closeBrace | closeParen | comma | semicolon | assign =>
          exact tolerates_of_error rfl
  | typeName name => exact tolerates_of_error rfl
  | operator symbol => exact tolerates_of_error rfl

/-- The outline of an operator and its right operand. -/
def IsWrittenOperand (outline : Outline) (pair : Operator × Expression) : Prop :=
  ∃ right, outline = .token (.operator pair.1) :: right ∧ IsWrittenExpression right pair.2

theorem isWrittenExpression_foldl {start outline : Outline} {left : Expression}
    {others : List (Operator × Expression)} (hleft : IsWrittenExpression start left)
    (h : IsRow IsWrittenOperand outline others) :
    IsWrittenExpression (start ++ outline)
      (others.foldl (fun left (symbol, right) => .binary symbol left right) left) := by
  induction h generalizing start left with
  | nil => simpa using hleft
  | @cons _ _ pair _ head tail ih =>
      obtain ⟨_, rfl, ⟨right, rfl, hright⟩⟩ := head
      obtain ⟨first, rfl, rfl⟩ := hleft
      rw [← List.append_assoc]
      refine ih ⟨.binary pair.1 first right, rfl, ?_⟩
      rw [Written.Expression.tree, hright]

variable {operand : Nat → Rule Expression}

theorem toleratesAll_climb (hreads : ∀ floor, Reads IsExpression (operand floor))
    (h : ∀ floor, ToleratesAll EndsElement IsWrittenExpression (operand floor)) (floor : Nat) :
    ToleratesAll EndsElement IsWrittenExpression (climb operand floor) := by
  have hstep : ToleratesAll EndsElement (IsStepOutline IsWrittenOperand)
      (operandStep operand floor) := by
    intro tokens
    apply tolerates_bind (toleratesAll_operatorAtLeast floor fun _ => id)
    intro outline answer hanswer tokens
    cases answer with
    | none => exact tolerates_pure hanswer
    | some symbol =>
        cases hanswer
        apply tolerates_bind (h (symbol.precedence + 1))
        intro right value hvalue tokens
        exact tolerates_pure ⟨right, rfl, hvalue⟩
  intro tokens
  apply tolerates_bind (toleratesAll_primary (hreads 0) (h 0))
  intro start first hfirst tokens
  apply tolerates_bind (toleratesAll_collect (stepAdvances_operandStep hreads) hstep)
  intro outline others hothers tokens
  exact tolerates_pure (isWrittenExpression_foldl hfirst hothers)

theorem toleratesAll_expressionAt (limit levels floor : Nat) :
    ToleratesAll EndsElement IsWrittenExpression (expressionAt limit levels floor) := by
  induction levels generalizing floor with
  | zero => exact fun _ => tolerates_of_error rfl
  | succ levels ih => exact toleratesAll_climb (reads_expressionAt limit levels) ih floor

end ClassLang.Rule
