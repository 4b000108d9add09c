import ClassLang.Tree.Phrase

/-!
The phrase that is written for a tree is one of its derivations. This asks no
more than a name in each path: an `else` that would go to another `if` when it
is read is derivable all the same.
-/

namespace ClassLang

open Grammar Phrase

namespace Expression

mutual

/-- Whether every path has a name. -/
def pathsNamed : Expression → Bool
  | .literal _ => true
  | .reference path => !path.isEmpty
  | .new _ arguments => allPathsNamed arguments
  | .call path arguments => !path.isEmpty && allPathsNamed arguments
  | .assignment path value => !path.isEmpty && pathsNamed value
  | .binary _ left right => pathsNamed left && pathsNamed right

def allPathsNamed : List Expression → Bool
  | [] => true
  | first :: rest => pathsNamed first && allPathsNamed rest

end

end Expression

namespace Statement

mutual

def pathsNamed : Statement → Bool
  | .block statements => allPathsNamed statements
  | .ifThen condition onTrue => condition.pathsNamed && pathsNamed onTrue
  | .ifElse condition onTrue onFalse =>
      condition.pathsNamed && pathsNamed onTrue && pathsNamed onFalse
  | .whileLoop condition body => condition.pathsNamed && pathsNamed body
  | .returnStmt value | .declaration _ _ value => value.all Expression.pathsNamed
  | .expression value => value.pathsNamed
  | .breakStmt | .empty => true

def allPathsNamed : List Statement → Bool
  | [] => true
  | first :: rest => pathsNamed first && allPathsNamed rest

end

end Statement

def Member.pathsNamed : Member → Bool
  | .field _ _ value => value.all Expression.pathsNamed
  | .method _ _ _ body | .constructor _ _ body => Statement.allPathsNamed body

def ClassDecl.pathsNamed (classDecl : ClassDecl) : Bool :=
  classDecl.members.all Member.pathsNamed

def Program.pathsNamed (program : Program) : Bool := program.classes.all ClassDecl.pathsNamed

theorem Statement.allPathsNamed_iff {statements : List Statement} :
    allPathsNamed statements = true ↔ ∀ statement ∈ statements, statement.pathsNamed = true := by
  induction statements with
  | nil => simp [allPathsNamed]
  | cons first rest ih => rw [allPathsNamed, Bool.and_eq_true, ih, List.forall_mem_cons]

theorem Statement.phrases_eq_flatMap (statements : List Statement) :
    phrases statements = statements.flatMap phrase := by
  induction statements with
  | nil => rfl
  | cons first rest ih => rw [phrases, ih, List.flatMap_cons]

theorem isType_ofTypeText (type : String) : IsType [.ofTypeText type] type := by
  unfold TokenKind.ofTypeText
  cases hname : TypeName.ofWord? type with
  | none => exact .className type
  | some name =>
      rw [← TypeName.ofWord?_eq_some_iff.mp hname]
      exact .builtIn name

theorem isPath_ofPath {path : List String} (hpath : path ≠ []) : IsPath (ofPath path) path := by
  induction path with
  | nil => exact absurd rfl hpath
  | cons name others ih =>
      cases others with
      | nil => exact .name name
      | cons next others => exact .dot name (ih (by simp))

theorem commaSeparated_cons_cons (first second : Phrase) (others : List Phrase) :
    commaSeparated (first :: second :: others) =
      first ++ .separator .comma :: commaSeparated (second :: others) := by
  simp [commaSeparated, List.intercalate, List.intersperse]

@[simp] theorem commaSeparated_singleton (phrase : Phrase) : commaSeparated [phrase] = phrase := by
  simp [commaSeparated, List.intercalate, List.intersperse]

theorem Expression.phrase_binary (symbol : Operator) (left right : Expression) :
    (Expression.binary symbol left right).phrase =
      (if left.needsParens symbol.precedence then inParens left.phrase else left.phrase) ++
        .operator symbol ::
        (if right.needsParens (symbol.precedence + 1) then inParens right.phrase
          else right.phrase) := by
  rw [Expression.phrase]

/-- Parentheses around an operand do not change what it stands for. -/
theorem isExpression_operand {phrase : Phrase} {value : Expression} {parens : Bool}
    (hvalue : IsExpression phrase value) :
    IsExpression (if parens then inParens phrase else phrase) value := by
  cases parens with
  | true => exact .parens hvalue
  | false => exact hvalue

mutual

theorem Expression.isExpression_phrase :
    (value : Expression) → value.pathsNamed = true → IsExpression value.phrase value
  | .literal value, _ => .literal value
  | .reference path, hnamed => by
      simp only [pathsNamed, Bool.not_eq_true', List.isEmpty_eq_false_iff] at hnamed
      exact .reference (isPath_ofPath hnamed)
  | .new className arguments, hnamed => by
      simp only [pathsNamed] at hnamed
      exact .new className (isArguments_phrases arguments hnamed)
  | .call path arguments, hnamed => by
      simp only [pathsNamed, Bool.and_eq_true, Bool.not_eq_true', List.isEmpty_eq_false_iff]
        at hnamed
      exact .call (isPath_ofPath hnamed.1) (isArguments_phrases arguments hnamed.2)
  | .assignment path value, hnamed => by
      simp only [pathsNamed, Bool.and_eq_true, Bool.not_eq_true', List.isEmpty_eq_false_iff]
        at hnamed
      exact .assignment (isPath_ofPath hnamed.1) (isExpression_phrase value hnamed.2)
  | .binary symbol left right, hnamed => by
      simp only [pathsNamed, Bool.and_eq_true] at hnamed
      rw [phrase_binary]
      exact .binary symbol (isExpression_operand (isExpression_phrase left hnamed.1))
        (isExpression_operand (isExpression_phrase right hnamed.2))

theorem Expression.isArguments_phrases :
    (values : List Expression) → Expression.allPathsNamed values = true →
      IsArguments (commaSeparated (Expression.phrases values)) values
  | [], _ => .nil
  | first :: [], hnamed => by
      simp only [allPathsNamed, Bool.and_eq_true] at hnamed
      have hlist := IsArguments.cons (isExpression_phrase first hnamed.1) .absent .nil
      simpa [phrases] using hlist
  | first :: second :: others, hnamed => by
      rw [allPathsNamed, Bool.and_eq_true] at hnamed
      have hothers := isArguments_phrases (second :: others) hnamed.2
      have hlist := IsArguments.cons (isExpression_phrase first hnamed.1) .present hothers
      simpa [phrases, commaSeparated_cons_cons] using hlist

end

theorem isInitializer_ofInitializer {value : Option Expression}
    (hnamed : value.all Expression.pathsNamed = true) :
    IsInitializer (ofInitializer value) value := by
  cases value with
  | none => exact .absent
  | some value => exact .present (value.isExpression_phrase hnamed)

mutual

theorem Statement.isStatement_phrase :
    (statement : Statement) → statement.pathsNamed = true → IsStatement statement.phrase statement
  | .block statements, hnamed => by
      rw [pathsNamed] at hnamed
      exact .block (isStatements_phrases statements hnamed)
  | .ifThen condition onTrue, hnamed => by
      simp only [pathsNamed, Bool.and_eq_true] at hnamed
      exact .ifThen (condition.isExpression_phrase hnamed.1) (isStatement_phrase onTrue hnamed.2)
  | .ifElse condition onTrue onFalse, hnamed => by
      simp only [pathsNamed, Bool.and_eq_true] at hnamed
      exact .ifElse (condition.isExpression_phrase hnamed.1.1)
        (isStatement_phrase onTrue hnamed.1.2) (isStatement_phrase onFalse hnamed.2)
  | .whileLoop condition body, hnamed => by
      simp only [pathsNamed, Bool.and_eq_true] at hnamed
      exact .whileLoop (condition.isExpression_phrase hnamed.1) (isStatement_phrase body hnamed.2)
  | .returnStmt none, _ => .returnNothing
  | .returnStmt (some value), hnamed => by
      rw [pathsNamed] at hnamed
      exact .returnValue (value.isExpression_phrase hnamed)
  | .breakStmt, _ => .breakStmt
  | .declaration type name value, hnamed => by
      rw [pathsNamed] at hnamed
      exact .declaration name (isType_ofTypeText type) (isInitializer_ofInitializer hnamed)
  | .expression value, hnamed => by
      rw [pathsNamed] at hnamed
      exact .expression (value.isExpression_phrase hnamed)
  | .empty, _ => .empty

theorem Statement.isStatements_phrases :
    (statements : List Statement) → Statement.allPathsNamed statements = true →
      IsStatements (Statement.phrases statements) statements
  | [], _ => .nil
  | first :: rest, hnamed => by
      rw [allPathsNamed, Bool.and_eq_true] at hnamed
      exact .cons (isStatement_phrase first hnamed.1) (isStatements_phrases rest hnamed.2)

end

theorem isParams_commaSeparated (params : List Param) :
    IsParams (commaSeparated (params.map Param.phrase)) params := by
  induction params with
  | nil => exact .nil
  | cons first others ih =>
      have hparam {comma : Phrase} (hcomma : IsComma comma) :
          IsParam (first.phrase ++ comma) first :=
        .param first.name (isType_ofTypeText first.type) hcomma
      cases others with
      | nil =>
          have hlist : IsParams _ [first] := .cons (hparam .absent) .nil
          simpa using hlist
      | cons second others =>
          have hlist : IsParams _ (first :: second :: others) := .cons (hparam .present) ih
          simpa [commaSeparated_cons_cons] using hlist

theorem Member.isMember_phrase {member : Member} (hnamed : member.pathsNamed = true) :
    IsMember member.phrase member := by
  cases member with
  | field type name value =>
      exact .field name (isType_ofTypeText type) (isInitializer_ofInitializer hnamed)
  | method returnType name params body =>
      exact .method name (isType_ofTypeText returnType) (isParams_commaSeparated params)
        (Statement.isStatements_phrases body hnamed)
  | constructor name params body =>
      exact .constructor name (isParams_commaSeparated params)
        (Statement.isStatements_phrases body hnamed)

/-- The phrases of all values, one after the other. -/
theorem isSequence_flatMap {α : Type} {element : Phrase → α → Prop} {phrase : α → Phrase}
    {values : List α} (h : ∀ value ∈ values, element (phrase value) value) :
    IsSequence element (values.flatMap phrase) values := by
  induction values with
  | nil => exact .nil
  | cons first rest ih =>
      obtain ⟨hfirst, hrest⟩ := List.forall_mem_cons.mp h
      exact .cons hfirst (ih hrest)

theorem isParent_ofParent (parent : Option String) : IsParent (ofParent parent) parent := by
  cases parent with
  | none => exact .absent
  | some name => exact .present name

theorem ClassDecl.isClass_phrase {classDecl : ClassDecl} (hnamed : classDecl.pathsNamed = true) :
    IsClass classDecl.phrase classDecl := by
  apply IsClass.classDecl classDecl.name (isParent_ofParent classDecl.parent)
  apply isSequence_flatMap
  intro member hmember
  exact Member.isMember_phrase (List.all_eq_true.mp hnamed member hmember)

theorem Program.isProgram_phrase {program : Program} (hnamed : program.pathsNamed = true)
    (hsome : program.classes ≠ []) : IsProgram program.phrase program := by
  refine .program (isSequence_flatMap ?_) hsome
  intro classDecl hclass
  exact ClassDecl.isClass_phrase (List.all_eq_true.mp hnamed classDecl hclass)

end ClassLang
