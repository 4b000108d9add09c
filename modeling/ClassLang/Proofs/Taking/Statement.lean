import ClassLang.Proofs.Soundness.Statement
import ClassLang.Proofs.Taking.Expression

/-!
How the rules for statements run. Most statements are told by their first
token. Behind a type-like token it is the next two that tell a declaration from
an expression, and an expression never has a name in second place.
-/

namespace ClassLang.Rule

open Grammar Phrase

section Parts

variable {statement : Rule Statement} {value : Rule Expression} {phrase rest : Phrase}
  {failed : Fault → Prop}

theorem takes_initializer_absent {ok : Option Expression → Phrase → Prop}
    (hassign : phrase.head? ≠ some (.separator .assign)) (h : ok none phrase) :
    Takes (initializer value) phrase ok failed := by
  apply takes_bind
  apply takes_accept_of_ne hassign
  exact takes_pure h

theorem takes_initializer_present {ok : Option Expression → Phrase → Prop}
    (h : Takes value rest (fun answer => ok (some answer)) failed) :
    Takes (initializer value) (.separator .assign :: rest) ok failed := by
  apply takes_bind
  apply takes_accept
  exact takes_map h

/-- The rule that fields and declarations share. -/
def variableOf {α : Type} (build : String → String → Option Expression → α)
    (value : Rule Expression) : Rule α := do
  let type ← type
  let name ← identifier
  let value ← initializer value
  separator .semicolon
  return build type name value

theorem takes_variableOf {α : Type} (build : String → String → Option Expression → α)
    {type name : String} {ok : α → Phrase → Prop} (htype : IsType phrase type)
    (h : Takes (initializer value) rest
      (fun start rest =>
        Takes (separator .semicolon) rest (fun _ => ok (build type name start)) failed)
      failed) : Takes (variableOf build value) (phrase ++ .identifier name :: rest) ok failed := by
  apply takes_bind
  apply takes_type htype
  apply takes_bind
  apply takes_identifier
  apply takes_bind
  refine h.imp ?_
  intro start rest hend
  exact takes_map hend

theorem takes_block {ok : List Statement → Phrase → Prop}
    (h : Takes (untilClose .closeBrace statement) rest ok failed) :
    Takes (block statement) (.separator .openBrace :: rest) ok failed := by
  apply takes_bind
  apply takes_separator
  exact h

theorem takes_condition {ok : Expression → Phrase → Prop}
    (h : Takes value rest
      (fun answer rest => Takes (separator .closeParen) rest (fun _ => ok answer) failed) failed) :
    Takes (condition value) (.separator .openParen :: rest) ok failed := by
  apply takes_bind
  apply takes_separator
  apply takes_bind
  refine h.imp ?_
  intro answer rest hclose
  exact takes_map hclose

theorem stepAdvances_untilStep_statement (hreads : Reads IsStatement statement)
    (close : Separator) : StepAdvances (untilStep close statement) := by
  apply (reads_untilStep close hreads).stepAdvances
  intro answer hanswer
  obtain ⟨kind, rest, hnil, _⟩ := IsStatement.exists_cons hanswer
  cases hnil

end Parts

section Forms

variable {statement : Rule Statement} {value : Rule Expression} {phrase rest : Phrase}
  {ok : Statement → Phrase → Prop} {failed : Fault → Prop}

theorem takes_statement_empty (h : ok .empty rest) :
    Takes (statementOf statement value) (.separator .semicolon :: rest) ok failed := by
  intro tokens htokens
  obtain ⟨offset, more, rfl, rfl⟩ := kinds_eq_cons htokens
  exact h

theorem takes_statement_block
    (h : Takes (untilClose .closeBrace statement) rest (fun answer => ok (.block answer)) failed) :
    Takes (statementOf statement value) (.separator .openBrace :: rest) ok failed := by
  intro tokens htokens
  have hblock : Takes (do return .block (← block statement)) _ ok failed :=
    takes_map (takes_block h)
  obtain ⟨offset, more, rfl, _⟩ := kinds_eq_cons htokens
  exact hblock _ htokens

theorem takes_statement_if (h : Takes (ifStatement statement value) rest ok failed) :
    Takes (statementOf statement value) (.keyword .ifKw :: rest) ok failed := by
  intro tokens htokens
  obtain ⟨offset, more, rfl, hmore⟩ := kinds_eq_cons htokens
  exact h more hmore

theorem takes_statement_while (h : Takes (whileStatement statement value) rest ok failed) :
    Takes (statementOf statement value) (.keyword .whileKw :: rest) ok failed := by
  intro tokens htokens
  obtain ⟨offset, more, rfl, hmore⟩ := kinds_eq_cons htokens
  exact h more hmore

theorem takes_statement_return (h : Takes (returnStatement value) rest ok failed) :
    Takes (statementOf statement value) (.keyword .returnKw :: rest) ok failed := by
  intro tokens htokens
  obtain ⟨offset, more, rfl, hmore⟩ := kinds_eq_cons htokens
  exact h more hmore

theorem takes_statement_break (h : ok .breakStmt rest) :
    Takes (statementOf statement value)
      (.keyword .breakKw :: .separator .semicolon :: rest) ok failed := by
  intro tokens htokens
  obtain ⟨offset, more, rfl, hmore⟩ := kinds_eq_cons htokens
  have hend : Takes (do separator .semicolon; return .breakStmt) _ ok failed :=
    takes_bind (takes_separator (takes_pure h))
  exact hend more hmore

theorem takes_returnStatement_nothing (h : ok (.returnStmt none) rest) :
    Takes (returnStatement value) (.separator .semicolon :: rest) ok failed := by
  intro tokens htokens
  unfold returnStatement Shape.returnStatement
  rw [outcome_get_bind, if_pos (nextIs_iff.mpr (by rw [htokens, List.head?_cons]))]
  have hend : Takes (do separator .semicolon; return .returnStmt none) _ ok failed :=
    takes_bind (takes_separator (takes_pure h))
  exact hend tokens htokens

theorem takes_returnStatement_value (hne : phrase.head? ≠ some (.separator .semicolon))
    (h : Takes value phrase
      (fun answer rest =>
        Takes (separator .semicolon) rest (fun _ => ok (.returnStmt (some answer))) failed)
      failed) : Takes (returnStatement value) phrase ok failed := by
  rintro tokens rfl
  unfold returnStatement Shape.returnStatement
  rw [outcome_get_bind, if_neg (mt nextIs_iff.mp hne), outcome_bind]
  refine (h tokens rfl).imp ?_
  intro answer rest hend
  exact takes_map hend rest rfl

/-- Whether the phrase of a declaration begins here. -/
def StartsDeclaration (phrase : Phrase) : Prop :=
  ∃ type name mark rest, phrase = type :: .identifier name :: .separator mark :: rest ∧
    type.isTypeLike = true ∧ (mark = .assign ∨ mark = .semicolon)

theorem startsDeclaration_variable {phrase start : Phrase} {type name : String}
    {answer : Option Expression} (htype : IsType phrase type)
    (hstart : IsInitializer start answer) :
    StartsDeclaration
      (phrase ++ .identifier name :: (start ++ .separator .semicolon :: rest)) := by
  obtain ⟨kind, rfl, hkind⟩ := htype.exists_cons
  cases hstart with
  | absent => exact ⟨kind, name, .semicolon, _, rfl, hkind, .inr rfl⟩
  | present hphrase => exact ⟨kind, name, .assign, _, rfl, hkind, .inl rfl⟩

theorem isDeclaration_iff {tokens : List Token} :
    isDeclaration tokens = true ↔ StartsDeclaration (kinds tokens) := by
  constructor
  · intro h
    unfold isDeclaration at h
    split at h
    · next type name _ mark _ rest =>
        rw [Bool.and_eq_true, Bool.or_eq_true, beq_iff_eq, beq_iff_eq] at h
        exact ⟨type.kind, name, mark, kinds rest, rfl, h.1, h.2⟩
    · cases h
  · rintro ⟨type, name, mark, rest, hphrase, htype, hmark⟩
    obtain ⟨_, _, rfl, hname⟩ := kinds_eq_cons hphrase
    obtain ⟨_, _, rfl, hmark'⟩ := kinds_eq_cons hname
    obtain ⟨_, _, rfl, _⟩ := kinds_eq_cons hmark'
    unfold isDeclaration
    rw [Bool.and_eq_true, Bool.or_eq_true, beq_iff_eq, beq_iff_eq]
    exact ⟨htype, hmark⟩

theorem takes_statement_declaration (hstarts : StartsDeclaration phrase)
    (h : Takes (declaration value) phrase ok failed) :
    Takes (statementOf statement value) phrase ok failed := by
  rintro tokens rfl
  have hrun := h tokens rfl
  have hdeclaration := isDeclaration_iff.mpr hstarts
  obtain ⟨type, name, mark, rest, hphrase, htype, _⟩ := hstarts
  obtain ⟨offset, more, rfl, _⟩ := kinds_eq_cons hphrase
  unfold statementOf Shape.statement
  rw [outcome_get_bind]
  cases type with
  | identifier start =>
      simp only
      rwa [if_pos hdeclaration]
  | typeName start =>
      simp only
      rwa [if_pos hdeclaration]
  | keyword word => cases htype
  | separator mark => cases htype
  | literal value => cases htype
  | operator symbol => cases htype

theorem not_startsDeclaration {answer : Expression} (hvalue : IsExpression phrase answer) :
    ¬ StartsDeclaration (phrase ++ .separator .semicolon :: rest) := by
  rintro ⟨type, name, mark, more, hphrase, htype, _⟩
  obtain ⟨kind, behind, rfl, hstarts⟩ := hvalue.exists_cons
  rw [List.cons_append] at hphrase
  obtain ⟨rfl, hsecond⟩ := List.cons_eq_cons.mp hphrase
  cases kind with
  | identifier start =>
      have hend (name : String) :
          (TokenKind.separator .semicolon :: rest).head? ≠ some (.identifier name) := by
        simp
      have hhead := hvalue.head?_append_ne hend name
      rw [hsecond] at hhead
      exact hhead rfl
  | typeName start => exact hstarts
  | keyword word => cases htype
  | separator mark => cases htype
  | literal value => cases htype
  | operator symbol => cases htype

/-- Where an expression and a semicolon come, no declaration begins. -/
theorem takes_statement_other {answer : Expression} (hvalue : IsExpression phrase answer)
    (h : Takes (expressionStatement value) (phrase ++ .separator .semicolon :: rest) ok failed) :
    Takes (statementOf statement value) (phrase ++ .separator .semicolon :: rest) ok failed := by
  intro tokens htokens
  have hrun := h tokens htokens
  have hdeclaration : ¬ isDeclaration tokens = true := by
    rw [isDeclaration_iff, htokens]
    exact not_startsDeclaration hvalue
  obtain ⟨kind, behind, rfl, hstarts⟩ := hvalue.exists_cons
  obtain ⟨offset, more, rfl, _⟩ := kinds_eq_cons htokens
  unfold statementOf Shape.statement
  rw [outcome_get_bind]
  cases kind with
  | literal value => simpa only [if_neg hdeclaration] using hrun
  | identifier name => simpa only [if_neg hdeclaration] using hrun
  | typeName name => cases hstarts
  | operator symbol => cases hstarts
  | keyword word =>
      cases word with
      | newKw => simpa only [if_neg hdeclaration] using hrun
      | classKw | breakKw | extendsKw | ifKw | elseKw | whileKw | returnKw => cases hstarts
  | separator mark =>
      cases mark with
      | openParen => simpa only [if_neg hdeclaration] using hrun
      | dot | openBrace | closeBrace | closeParen | comma | semicolon | assign => cases hstarts

theorem takes_statement_expression {answer : Expression} (hvalue : IsExpression phrase answer)
    (h : Takes value (phrase ++ .separator .semicolon :: rest)
      (fun answer rest =>
        Takes (separator .semicolon) rest (fun _ => ok (.expression answer)) failed)
      failed) :
    Takes (statementOf statement value) (phrase ++ .separator .semicolon :: rest) ok failed := by
  apply takes_statement_other hvalue
  apply takes_bind
  refine h.imp ?_
  intro answer rest hend
  exact takes_map hend

end Forms

end ClassLang.Rule
