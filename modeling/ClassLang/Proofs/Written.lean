import ClassLang.Tree.Written
import ClassLang.Proofs.Derivation

/-!
What written trees look like from the left, and that their phrases are phrases of
the trees that they stand for.
-/

namespace ClassLang

namespace Outline

variable {outline first second : Outline}

@[simp] theorem phrase_nil : phrase [] = [] := rfl

@[simp] theorem phrase_token {kind : TokenKind} :
    phrase (.token kind :: outline) = kind :: phrase outline :=
  rfl

@[simp] theorem phrase_place {last comma : Bool} :
    phrase (.place last comma :: outline) =
      (if comma then [.separator .comma] else []) ++ phrase outline :=
  rfl

@[simp] theorem phrase_append : phrase (first ++ second) = phrase first ++ phrase second :=
  List.flatMap_append

@[simp] theorem phrase_inParens : phrase (inParens outline) = Phrase.inParens (phrase outline) :=
  phrase_append

@[simp] theorem phrase_inBraces : phrase (inBraces outline) = Phrase.inBraces (phrase outline) :=
  phrase_append

theorem phrase_listed (comma : Bool) :
    phrase (listed first comma second) =
      phrase first ++ ((if comma then [.separator .comma] else []) ++ phrase second) := by
  rw [listed, phrase_append, phrase_place]

/-- No mark is a comma, except for the places where one may stand. -/
def Unmarked (outline : Outline) : Prop := .token (.separator .comma) ∉ outline

@[simp] theorem unmarked_nil : Unmarked [] := by simp [Unmarked]

@[simp] theorem unmarked_token {kind : TokenKind} :
    Unmarked (.token kind :: outline) ↔ kind ≠ .separator .comma ∧ Unmarked outline := by
  simp [Unmarked, eq_comm]

@[simp] theorem unmarked_separator {mark : Separator} :
    Unmarked (separator mark :: outline) ↔ mark ≠ .comma ∧ Unmarked outline := by
  simp [separator]

@[simp] theorem unmarked_keyword {word : Keyword} :
    Unmarked (keyword word :: outline) ↔ Unmarked outline := by
  simp [keyword]

@[simp] theorem unmarked_identifier {name : String} :
    Unmarked (identifier name :: outline) ↔ Unmarked outline := by
  simp [identifier]

@[simp] theorem unmarked_append :
    Unmarked (first ++ second) ↔ Unmarked first ∧ Unmarked second := by
  simp [Unmarked]

@[simp] theorem unmarked_inParens : (inParens outline).Unmarked ↔ outline.Unmarked := by
  simp [inParens]

@[simp] theorem unmarked_inBraces : (inBraces outline).Unmarked ↔ outline.Unmarked := by
  simp [inBraces]

@[simp] theorem unmarked_listed {comma : Bool} :
    (listed first comma second).Unmarked ↔ first.Unmarked ∧ second.Unmarked := by
  simp [listed, Unmarked]

theorem unmarked_flatMap {ω : Type} {part : ω → Outline} (h : ∀ written, (part written).Unmarked)
    (written : List ω) : Unmarked (written.flatMap part) := by
  intro hmem
  obtain ⟨first, _, hfirst⟩ := List.mem_flatMap.mp hmem
  exact h first hfirst

end Outline

namespace Written

open Grammar Outline

/-- An expression begins with a token that an expression can start with. -/
theorem Expression.exists_outline_eq :
    (expression : Expression) →
      ∃ kind more, expression.outline = .token kind :: more ∧ StartsExpression kind
  | .literal _ | .reference _ | .new _ _ | .call _ _ | .assignment _ _ | .parens _ =>
      ⟨_, _, rfl, trivial⟩
  | .binary _ left _ => by
      obtain ⟨kind, more, hleft, hkind⟩ := left.exists_outline_eq
      rw [Expression.outline, hleft]
      exact ⟨kind, _, rfl, hkind⟩

/-- A member begins with three tokens, which tell its form. -/
theorem Member.exists_outline_eq (member : Member) :
    ∃ first second third more,
      member.outline = .token first :: .token second :: .token third :: more := by
  cases member with
  | field binding =>
      obtain ⟨type, name, initial⟩ := binding
      cases type <;> cases initial <;> exact ⟨_, _, _, _, rfl⟩
  | method returnType name params body => cases returnType <;> exact ⟨_, _, _, _, rfl⟩
  | constructor name params body =>
      cases params with
      | nil => exact ⟨_, _, _, _, rfl⟩
      | cons first others =>
          obtain ⟨⟨type, _⟩, _⟩ := first
          cases type <;> exact ⟨_, _, _, _, rfl⟩

theorem Path.isPath (path : Path) : IsPath path.outline.phrase path.tree := by
  obtain ⟨first, others⟩ := path
  induction others generalizing first with
  | nil => exact .name first
  | cons next others ih => exact .dot first (ih next)

theorem isComma (comma : Bool) : IsComma (if comma then [.separator .comma] else []) := by
  cases comma with
  | false => exact .absent
  | true => exact .present

mutual

theorem Expression.isExpression :
    (expression : Expression) → IsExpression expression.outline.phrase expression.tree
  | .literal value => .literal value
  | .reference path => .reference path.isPath
  | .new className arguments => by
      have hnew := IsExpression.new className arguments.isArguments
      rwa [← phrase_inParens] at hnew
  | .call path arguments => by
      rw [Expression.outline, phrase_append, phrase_inParens]
      exact .call path.isPath arguments.isArguments
  | .assignment path value => by
      rw [Expression.outline, phrase_append]
      exact .assignment path.isPath value.isExpression
  | .binary symbol left right => by
      rw [Expression.outline, phrase_append]
      exact .binary symbol left.isExpression right.isExpression
  | .parens value => by
      rw [Expression.outline, phrase_inParens]
      exact .parens value.isExpression

theorem Arguments.isArguments :
    (arguments : Arguments) → IsArguments arguments.outline.phrase arguments.tree
  | .nil => .nil
  | .cons first comma others => by
      rw [Arguments.outline, phrase_listed, ← List.append_assoc]
      exact .cons first.isExpression (isComma comma) others.isArguments

end

theorem TypeText.isType : (type : TypeText) → IsType type.outline.phrase type.tree
  | .builtIn name => .builtIn name
  | .className name => .className name

theorem isInitializer (value : Option Expression) :
    IsInitializer (initializerOutline value).phrase (value.map Expression.tree) := by
  cases value with
  | none => exact .absent
  | some value => exact .present value.isExpression

theorem Binding.outline_phrase (binding : Binding) :
    binding.outline.phrase =
      binding.type.outline.phrase ++ .identifier binding.name ::
        (initializerOutline binding.value).phrase ++ [.separator .semicolon] := by
  simp [Binding.outline, identifier, separator]

namespace Statement

theorem phrase_block (statements : List Statement) :
    (block statements).phrase = (phrases statements).inBraces :=
  phrase_inBraces

theorem phrase_ifThen (condition : Expression) (onTrue : Statement) :
    (ifThen condition onTrue).phrase =
      .keyword .ifKw :: condition.phrase.inParens ++ onTrue.phrase := by
  simp [phrase, outline, keyword, Expression.phrase]

theorem phrase_ifElse (condition : Expression) (onTrue onFalse : Statement) :
    (ifElse condition onTrue onFalse).phrase =
      (ifThen condition onTrue).phrase ++ .keyword .elseKw :: onFalse.phrase := by
  simp [phrase, outline, keyword]

theorem phrase_whileLoop (condition : Expression) (body : Statement) :
    (whileLoop condition body).phrase =
      .keyword .whileKw :: condition.phrase.inParens ++ body.phrase := by
  simp [phrase, outline, keyword, Expression.phrase]

theorem phrase_returnStmt (value : Expression) :
    (returnStmt (some value)).phrase =
      .keyword .returnKw :: value.phrase ++ [.separator .semicolon] := by
  simp [phrase, outline, keyword, separator, Expression.phrase]

theorem phrase_expression (value : Expression) :
    (expression value).phrase = value.phrase ++ [.separator .semicolon] :=
  phrase_append

theorem phrases_cons (first : Statement) (others : List Statement) :
    phrases (first :: others) = first.phrase ++ phrases others :=
  phrase_append

mutual

theorem isStatement : (statement : Statement) → IsStatement statement.phrase statement.tree
  | .block statements => by
      rw [phrase_block]
      exact .block (isStatements statements)
  | .ifThen condition onTrue => by
      rw [phrase_ifThen]
      exact .ifThen condition.isExpression onTrue.isStatement
  | .ifElse condition onTrue onFalse => by
      rw [phrase_ifElse, phrase_ifThen]
      exact .ifElse condition.isExpression onTrue.isStatement onFalse.isStatement
  | .whileLoop condition body => by
      rw [phrase_whileLoop]
      exact .whileLoop condition.isExpression body.isStatement
  | .returnStmt none => .returnNothing
  | .returnStmt (some value) => by
      rw [phrase_returnStmt]
      exact .returnValue value.isExpression
  | .breakStmt => .breakStmt
  | .declaration binding => by
      rw [phrase, outline, binding.outline_phrase]
      exact .declaration binding.name binding.type.isType (isInitializer binding.value)
  | .expression value => by
      rw [phrase_expression]
      exact .expression value.isExpression
  | .empty => .empty

theorem isStatements :
    (statements : List Statement) → IsStatements (phrases statements) (trees statements)
  | [] => .nil
  | first :: others => by
      rw [phrases_cons]
      exact .cons first.isStatement (isStatements others)

end

end Statement

theorem TypeText.unmarked (type : TypeText) : type.outline.Unmarked := by
  cases type <;> simp [TypeText.outline]

theorem Path.unmarked (path : Path) : path.outline.Unmarked := by
  simp [Path.outline, Outline.Unmarked, Outline.identifier, Outline.separator]

mutual

theorem Expression.unmarked : (expression : Expression) → expression.outline.Unmarked
  | .literal _ => by simp [Expression.outline]
  | .reference path => path.unmarked
  | .new _ arguments => by simpa [Expression.outline] using arguments.unmarked
  | .call path arguments => by simp [Expression.outline, path.unmarked, arguments.unmarked]
  | .assignment path value => by simp [Expression.outline, path.unmarked, value.unmarked]
  | .binary _ left right => by simp [Expression.outline, left.unmarked, right.unmarked]
  | .parens value => by simpa [Expression.outline] using value.unmarked

theorem Arguments.unmarked : (arguments : Arguments) → arguments.outline.Unmarked
  | .nil => by simp [Arguments.outline]
  | .cons first _ others => by simp [Arguments.outline, first.unmarked, others.unmarked]

end

theorem Binding.unmarked (binding : Binding) : binding.outline.Unmarked := by
  obtain ⟨type, name, initial⟩ := binding
  cases initial with
  | none => simp [Binding.outline, initializerOutline, type.unmarked]
  | some value => simp [Binding.outline, initializerOutline, type.unmarked, value.unmarked]

mutual

theorem Statement.unmarked : (statement : Statement) → statement.outline.Unmarked
  | .block statements => by
      simpa [Statement.outline] using Statement.unmarked_outlines statements
  | .ifThen condition onTrue => by
      simp [Statement.outline, condition.unmarked, onTrue.unmarked]
  | .ifElse condition onTrue onFalse => by
      simp [Statement.outline, condition.unmarked, onTrue.unmarked, onFalse.unmarked]
  | .whileLoop condition body => by simp [Statement.outline, condition.unmarked, body.unmarked]
  | .returnStmt none | .breakStmt | .empty => by simp [Statement.outline]
  | .returnStmt (some value) | .expression value => by simp [Statement.outline, value.unmarked]
  | .declaration binding => binding.unmarked

theorem Statement.unmarked_outlines :
    (statements : List Statement) → (Statement.outlines statements).Unmarked
  | [] => by simp [Statement.outlines]
  | first :: others => by
      simp [Statement.outlines, first.unmarked, Statement.unmarked_outlines others]

end

theorem Params.unmarked (params : Params) : params.outline.Unmarked := by
  induction params with
  | nil => simp [Params.outline]
  | cons first others ih => simp [Params.outline, Param.outline, first.1.type.unmarked, ih]

theorem Member.unmarked (member : Member) : member.outline.Unmarked := by
  cases member with
  | field binding => exact binding.unmarked
  | method returnType name params body =>
      simp [Member.outline, returnType.unmarked, params.unmarked,
        Statement.unmarked_outlines body]
  | constructor name params body =>
      simp [Member.outline, params.unmarked, Statement.unmarked_outlines body]

theorem ClassDecl.unmarked (classDecl : ClassDecl) : classDecl.outline.Unmarked := by
  obtain ⟨name, parent, members⟩ := classDecl
  have hmembers := Outline.unmarked_flatMap Member.unmarked members
  cases parent <;> simp [ClassDecl.outline, parentOutline, hmembers]

/-- Each comma in a program is at the place for one behind an element. -/
theorem Program.unmarked (program : Program) : program.outline.Unmarked :=
  Outline.unmarked_flatMap ClassDecl.unmarked program.classes

end Written

end ClassLang
