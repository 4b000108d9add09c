import ClassLang.Proofs.Edits.Expression
import ClassLang.Proofs.Taking.Statement

/-!
The rules for statements tolerate edits. Most of them are told by their first
token, which no edit moves. What tells a declaration from an expression are the
first three tokens of the one, and for the other that it is read at all.
-/

namespace ClassLang.Rule

open Grammar Outline

section Change

variable {α : Type} {relation : Outline → α → Prop} {before : Outline} {tokens : List Token}
  {rule branch : Rule α}

/-- A rule that goes on as another one does, here and after edits. -/
theorem tolerates_change (hrule : rule tokens = branch tokens)
    (htakes : ∀ outline outline' value rest follow, kinds tokens = phrase outline ++ rest →
      relation (before ++ outline) value → Edited outline outline' →
      TakesTo branch (phrase outline' ++ follow) value follow →
      TakesTo rule (phrase outline' ++ follow) value follow)
    (h : Tolerates Nothing relation before branch tokens) :
    Tolerates Nothing relation before rule tokens := by
  unfold Tolerates Outcome
  rw [hrule]
  refine Outcome.imp h ?_
  rintro value rest ⟨outline, htokens, hfirm, hvalue, hedits⟩
  refine ⟨outline, htokens, hfirm, hvalue, fun outline' follow hedited hfollow => ?_⟩
  exact htakes outline outline' value _ follow htokens hvalue hedited
    (hedits outline' follow hedited hfollow)

/-- What is taken in any case is a phrase that the rule reads. -/
theorem TakesTo.reads {phrases : Phrase → α → Prop} {phrase follow : Phrase} {value : α}
    (h : TakesTo rule (phrase ++ follow) value follow) (hreads : Reads phrases rule) :
    phrases phrase value := by
  let tokens : List Token := (phrase ++ follow).map fun kind => ⟨kind, 0⟩
  have htokens : kinds tokens = phrase ++ follow := by
    simp [tokens, kinds, Function.comp_def]
  have hrun := h (fun answer rest => answer = value ∧ rest = follow) (fun _ => False) ⟨rfl, rfl⟩
    tokens htokens
  unfold Outcome at hrun
  cases hresult : rule tokens with
  | error thrown rest =>
      rw [hresult] at hrun
      exact hrun.elim
  | ok answer rest =>
      rw [hresult] at hrun
      obtain ⟨rfl, hrest⟩ := hrun
      obtain ⟨taken, htaken, hvalue⟩ := hreads.taken hresult
      rw [htaken, kinds_append, hrest] at htokens
      rwa [← List.append_cancel_right htokens]

end Change

section Parts

variable {statement : Rule Statement} {value : Rule Expression} {tokens : List Token}

/-- The outlines of statements. -/
def IsWrittenStatement : Outline → Statement → Prop :=
  IsWritten Written.Statement.outline Written.Statement.tree

theorem toleratesAll_initializer (h : ToleratesAll Nothing IsWrittenExpression value) :
    ToleratesAll Nothing
      (IsWritten Written.initializerOutline (Option.map Written.Expression.tree))
      (initializer value) := by
  intro tokens
  apply tolerates_bind (toleratesAll_accept id)
  rintro _ present rfl tokens
  cases present with
  | false => exact tolerates_pure ⟨none, rfl, rfl⟩
  | true =>
      apply tolerates_bind h
      rintro _ _ ⟨written, rfl, rfl⟩ tokens
      exact tolerates_pure ⟨some written, rfl, rfl⟩

theorem toleratesAll_variableOf {α : Type} (build : String → String → Option Expression → α)
    (h : ToleratesAll Nothing IsWrittenExpression value) :
    ToleratesAll Nothing (IsWritten Written.Binding.outline (Written.Binding.tree build))
      (variableOf build value) := by
  intro tokens
  apply tolerates_bind toleratesAll_type
  rintro _ _ ⟨type, rfl, rfl⟩ tokens
  apply tolerates_bind toleratesAll_identifier
  rintro _ name rfl tokens
  apply tolerates_bind (toleratesAll_initializer h)
  rintro _ _ ⟨initial, rfl, rfl⟩ tokens
  apply tolerates_bind (toleratesAll_separator _)
  rintro _ ⟨⟩ rfl tokens
  refine tolerates_pure ⟨⟨type, name, initial⟩, ?_, rfl⟩
  simp [Written.Binding.outline, Outline.separator]

/-- Edits leave what a declaration is known by. -/
theorem startsDeclaration_of_edited {binding : Written.Binding} {outline : Outline}
    (h : Edited binding.outline outline) (follow : Phrase) :
    StartsDeclaration (phrase outline ++ follow) := by
  obtain ⟨type, name, initial⟩ := binding
  obtain ⟨kind, htype, hkind⟩ : ∃ kind, type.outline = [.token kind] ∧ kind.isTypeLike = true := by
    cases type with
    | builtIn name => exact ⟨_, rfl, rfl⟩
    | className name => exact ⟨_, rfl, rfl⟩
  rw [Written.Binding.outline, htype] at h
  obtain ⟨_, rfl, hname⟩ := h.exists_cons
  obtain ⟨_, rfl, hinitial⟩ := hname.exists_cons
  cases initial with
  | none =>
      obtain ⟨more, rfl, _⟩ := hinitial.exists_cons
      exact ⟨kind, name, .semicolon, _, rfl, hkind, .inr rfl⟩
  | some value =>
      obtain ⟨more, rfl, _⟩ := hinitial.exists_cons
      exact ⟨kind, name, .assign, _, rfl, hkind, .inl rfl⟩

/-- The outlines of blocks. -/
def IsWrittenBlock (outline : Outline) (body : List Statement) : Prop :=
  ∃ written, outline = Outline.inBraces (Written.Statement.outlines written) ∧
    Written.Statement.trees written = body

theorem isWrittenBlock_of_row {outline : Outline} {body : List Statement}
    (h : IsRow IsWrittenStatement outline body) :
    ∃ written, Written.Statement.outlines written = outline ∧
      Written.Statement.trees written = body := by
  induction h with
  | nil => exact ⟨[], rfl, rfl⟩
  | cons head tail ih =>
      obtain ⟨first, rfl, rfl⟩ := head
      obtain ⟨others, rfl, rfl⟩ := ih
      exact ⟨first :: others, rfl, rfl⟩

theorem toleratesAll_block (hreads : Reads IsStatement statement)
    (h : ToleratesAll Nothing IsWrittenStatement statement) :
    ToleratesAll Nothing IsWrittenBlock (block statement) := by
  have hstep := stepAdvances_untilStep_statement hreads .closeBrace
  intro tokens
  apply tolerates_bind (toleratesAll_separator _)
  rintro _ ⟨⟩ rfl tokens
  apply tolerates_last (toleratesAll_untilClose hstep h tokens)
  rintro _ body ⟨inner, rfl, hinner⟩
  obtain ⟨written, rfl, rfl⟩ := isWrittenBlock_of_row hinner
  exact ⟨written, rfl, rfl⟩

/-- The outlines of conditions. -/
def IsWrittenCondition (outline : Outline) (condition : Expression) : Prop :=
  ∃ written : Written.Expression,
    outline = Outline.inParens written.outline ∧ written.tree = condition

theorem toleratesAll_condition (h : ToleratesAll Nothing IsWrittenExpression value) :
    ToleratesAll Nothing IsWrittenCondition (condition value) := by
  intro tokens
  apply tolerates_bind (toleratesAll_separator _)
  rintro _ ⟨⟩ rfl tokens
  apply tolerates_bind h
  rintro _ _ ⟨written, rfl, rfl⟩ tokens
  apply tolerates_bind (toleratesAll_separator _)
  rintro _ ⟨⟩ rfl tokens
  exact tolerates_pure ⟨written, rfl, rfl⟩

theorem tolerates_ifStatement (hstatement : ToleratesAll Nothing IsWrittenStatement statement)
    (hvalue : ToleratesAll Nothing IsWrittenExpression value) :
    Tolerates Nothing IsWrittenStatement [Outline.keyword .ifKw] (ifStatement statement value)
      tokens := by
  apply tolerates_bind (toleratesAll_condition hvalue)
  rintro _ _ ⟨test, rfl, rfl⟩ tokens
  apply tolerates_bind hstatement
  rintro _ _ ⟨onTrue, rfl, rfl⟩ tokens
  apply tolerates_bind (toleratesAll_accept id)
  rintro _ present rfl tokens
  cases present with
  | false =>
      refine tolerates_pure ⟨.ifThen test onTrue, ?_, rfl⟩
      simp [Written.Statement.outline]
  | true =>
      apply tolerates_bind hstatement
      rintro _ _ ⟨onFalse, rfl, rfl⟩ tokens
      refine tolerates_pure ⟨.ifElse test onTrue onFalse, ?_, rfl⟩
      simp [Written.Statement.outline, Outline.keyword]

theorem tolerates_whileStatement (hstatement : ToleratesAll Nothing IsWrittenStatement statement)
    (hvalue : ToleratesAll Nothing IsWrittenExpression value) :
    Tolerates Nothing IsWrittenStatement [Outline.keyword .whileKw]
      (whileStatement statement value) tokens := by
  apply tolerates_bind (toleratesAll_condition hvalue)
  rintro _ _ ⟨test, rfl, rfl⟩ tokens
  apply tolerates_bind hstatement
  rintro _ _ ⟨body, rfl, rfl⟩ tokens
  refine tolerates_pure ⟨.whileLoop test body, ?_, rfl⟩
  simp [Written.Statement.outline]

theorem returnStatement_apply :
    returnStatement value tokens =
      (if nextIs (.separator .semicolon) tokens then (do
          separator .semicolon
          return .returnStmt none)
        else (do
          let answer ← value
          separator .semicolon
          return .returnStmt (some answer)) : Rule Statement) tokens :=
  rfl

theorem tolerates_returnStatement (hvalue : ToleratesAll Nothing IsWrittenExpression value) :
    Tolerates Nothing IsWrittenStatement [Outline.keyword .returnKw] (returnStatement value)
      tokens := by
  by_cases hnext : nextIs (.separator .semicolon) tokens = true
  · have hnothing : Tolerates Nothing IsWrittenStatement [Outline.keyword .returnKw]
        (do separator .semicolon; return .returnStmt none) tokens := by
      apply tolerates_bind (toleratesAll_separator _)
      rintro _ ⟨⟩ rfl tokens
      exact tolerates_pure ⟨.returnStmt none, rfl, rfl⟩
    refine tolerates_decision (fun tokens' hhead => ?_) hnothing
    rw [returnStatement_apply, if_pos (nextIs_iff.mpr (hhead.trans (nextIs_iff.mp hnext)))]
  · have hanswer : Tolerates Nothing IsWrittenStatement [Outline.keyword .returnKw] (do
          let answer ← value
          separator .semicolon
          return .returnStmt (some answer)) tokens := by
      apply tolerates_bind hvalue
      rintro _ _ ⟨written, rfl, rfl⟩ tokens
      apply tolerates_bind (toleratesAll_separator _)
      rintro _ ⟨⟩ rfl tokens
      exact tolerates_pure ⟨.returnStmt (some written), rfl, rfl⟩
    refine tolerates_decision (fun tokens' hhead => ?_) hanswer
    rw [returnStatement_apply, if_neg (mt nextIs_iff.mp (hhead ▸ mt nextIs_iff.mpr hnext))]

end Parts

section Forms

variable {statement : Rule Statement} {value : Rule Expression} {tokens : List Token}

theorem tolerates_declaration (hvalue : ToleratesAll Nothing IsWrittenExpression value)
    (hrule : statementOf statement value tokens = declaration value tokens) :
    Tolerates Nothing IsWrittenStatement [] (statementOf statement value) tokens := by
  have hchange := tolerates_change hrule ?_
    (toleratesAll_variableOf Statement.declaration hvalue tokens)
  · apply tolerates_last hchange
    rintro _ _ ⟨binding, rfl, rfl⟩
    exact ⟨.declaration binding, rfl, rfl⟩
  · rintro _ outline' _ _ follow _ ⟨binding, rfl, rfl⟩ hedited htakes ok failed hok
    exact takes_statement_declaration (startsDeclaration_of_edited hedited follow)
      (htakes ok failed hok)

/-- The outlines of expressions with a semicolon behind them. -/
def IsWrittenExpressionStatement (outline : Outline) (statement : Statement) : Prop :=
  ∃ written : Written.Expression, outline = written.outline ++ [Outline.separator .semicolon] ∧
    .expression written.tree = statement

/-- What is read as such a statement after an edit is one. -/
theorem tolerates_expressionStatement (hreads : Reads IsExpression value)
    (hvalue : ToleratesAll Nothing IsWrittenExpression value)
    (hrule : statementOf statement value tokens = expressionStatement value tokens) :
    Tolerates Nothing IsWrittenStatement [] (statementOf statement value) tokens := by
  have hexpression : Tolerates Nothing IsWrittenExpressionStatement []
      (expressionStatement value) tokens := by
    apply tolerates_bind hvalue
    rintro _ _ ⟨written, rfl, rfl⟩ tokens
    apply tolerates_bind (toleratesAll_separator _)
    rintro _ ⟨⟩ rfl tokens
    exact tolerates_pure ⟨written, rfl, rfl⟩
  have hchange := tolerates_change hrule ?_ hexpression
  · apply tolerates_last hchange
    rintro _ _ ⟨written, rfl, rfl⟩
    exact ⟨.expression written, rfl, rfl⟩
  · rintro _ _ _ _ follow _ ⟨written, rfl, rfl⟩ hedited htakes ok failed hok
    obtain ⟨outline', _, rfl, _, hclose⟩ := hedited.exists_append
    obtain ⟨_, rfl, hnil⟩ := hclose.exists_cons
    cases hnil
    have hstatement := htakes.reads (reads_expressionStatement hreads)
    have hrun := htakes ok failed hok
    rw [phrase_append] at hstatement hrun ⊢
    generalize hwhole : phrase outline' ++ phrase [.token (.separator .semicolon)] = whole
      at hstatement
    cases hstatement with
    | expression hphrase =>
        obtain rfl := List.append_cancel_right hwhole
        rw [List.append_assoc] at hrun ⊢
        exact takes_statement_other hphrase hrun

theorem tolerates_statementOf (hreads : Reads IsExpression value)
    (hreads' : Reads IsStatement statement)
    (hstatement : ToleratesAll Nothing IsWrittenStatement statement)
    (hvalue : ToleratesAll Nothing IsWrittenExpression value) :
    ToleratesAll Nothing IsWrittenStatement (statementOf statement value) := by
  have hother {tokens : List Token} (hrule : statementOf statement value tokens =
      (if isDeclaration tokens then declaration value else expressionStatement value) tokens) :
      Tolerates Nothing IsWrittenStatement [] (statementOf statement value) tokens := by
    split at hrule
    · exact tolerates_declaration hvalue hrule
    · exact tolerates_expressionStatement hreads hvalue hrule
  intro tokens
  rcases tokens with _ | ⟨⟨kind, offset⟩, rest⟩
  · exact tolerates_of_error rfl
  cases kind with
  | separator mark =>
      cases mark with
      | semicolon =>
          have hempty : Tolerates Nothing IsWrittenStatement [Outline.separator .semicolon]
              (pure .empty) rest :=
            tolerates_pure ⟨.empty, rfl, rfl⟩
          exact tolerates_skip (fun _ _ => rfl) hempty
      | openBrace =>
          have hblock : Tolerates Nothing IsWrittenStatement []
              (do return .block (← block statement)) (⟨.separator .openBrace, offset⟩ :: rest) := by
            apply tolerates_bind (toleratesAll_block hreads' hstatement)
            rintro _ _ ⟨body, rfl, rfl⟩ tokens
            exact tolerates_pure ⟨.block body, rfl, rfl⟩
          refine tolerates_decision (fun tokens' hhead => ?_) hblock
          obtain ⟨_, hkinds⟩ := List.head?_eq_some_iff.mp hhead
          obtain ⟨_, _, rfl, _⟩ := kinds_eq_cons hkinds
          rfl
      | dot | openParen | closeBrace | closeParen | comma | assign => exact hother rfl
  | keyword word =>
      cases word with
      | ifKw => exact tolerates_skip (fun _ _ => rfl) (tolerates_ifStatement hstatement hvalue)
      | whileKw =>
          exact tolerates_skip (fun _ _ => rfl) (tolerates_whileStatement hstatement hvalue)
      | returnKw => exact tolerates_skip (fun _ _ => rfl) (tolerates_returnStatement hvalue)
      | breakKw =>
          have hbreak : Tolerates Nothing IsWrittenStatement [Outline.keyword .breakKw]
              (do separator .semicolon; return .breakStmt) rest := by
            apply tolerates_bind (toleratesAll_separator _)
            rintro _ ⟨⟩ rfl tokens
            exact tolerates_pure ⟨.breakStmt, rfl, rfl⟩
          exact tolerates_skip (fun _ _ => rfl) hbreak
      | newKw | classKw | extendsKw | elseKw => exact hother rfl
  | identifier name => exact hother rfl
  | literal value => exact hother rfl
  | typeName name => exact hother rfl
  | operator symbol => exact hother rfl

theorem toleratesAll_statementAt (limit levels : Nat) :
    ToleratesAll Nothing IsWrittenStatement (statementAt limit levels) := by
  induction levels with
  | zero => exact fun _ => tolerates_of_error rfl
  | succ levels ih =>
      exact tolerates_statementOf (reads_expressionAt limit levels 0)
        (reads_statementAt limit levels) ih (toleratesAll_expressionAt limit levels 0).strict

end Forms

end ClassLang.Rule
