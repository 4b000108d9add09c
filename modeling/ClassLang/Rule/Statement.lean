import ClassLang.Rule.Expression

/-!
Statements. The next token tells most of them apart; a declaration is known by
its first three tokens, and whatever is nothing else is an expression.
-/

namespace ClassLang

universe u

/-- Whether a declaration begins here: a type, a name, and then `=` or `;`. -/
def Rule.isDeclaration : List Token → Bool
  | type :: ⟨.identifier _, _⟩ :: ⟨.separator mark, _⟩ :: _ =>
      type.kind.isTypeLike && (mark == .assign || mark == .semicolon)
  | _ => false

namespace Shape

open Rule (skip accept separator type nextIs failExpecting isDeclaration)

variable {m : Type → Type u} [Monad m] [ReadsTokens m]

/-- An optional initial value. -/
def initializer (value : m Expression) : m (Option Expression) := do
  if ← read (accept (.separator .assign)) then return some (← value) else return none

def block (statements : m (List Statement)) : m (List Statement) := do
  read (separator .openBrace)
  statements

def condition (value : m Expression) : m Expression := do
  read (separator .openParen)
  let answer ← value
  read (separator .closeParen)
  return answer

def declaration (identifier : m String) (initializer : m (Option Expression)) :
    m Statement := do
  let type ← read type
  let name ← identifier
  let value ← initializer
  read (separator .semicolon)
  return .declaration type name value

def expressionStatement (value : m Expression) : m Statement := do
  let value ← value
  read (separator .semicolon)
  return .expression value

/-- An `if` after its keyword. An `else` is taken as soon as one comes, so it
belongs to the nearest `if` that is still without. -/
def ifStatement (condition : m Expression) (statement : m Statement) : m Statement := do
  let test ← condition
  let onTrue ← statement
  if ← read (accept (.keyword .elseKw)) then return .ifElse test onTrue (← statement)
  else return .ifThen test onTrue

def whileStatement (condition : m Expression) (statement : m Statement) : m Statement := do
  let test ← condition
  return .whileLoop test (← statement)

def returnStatement (value : m Expression) : m Statement := do
  if nextIs (.separator .semicolon) (← read get) then
    read (separator .semicolon)
    return .returnStmt none
  else
    let value ← value
    read (separator .semicolon)
    return .returnStmt (some value)

/-- A statement, from its first token on, by the rules for its forms. -/
def statement (block : m (List Statement)) (ifStatement whileStatement returnStatement
    declaration expressionStatement : m Statement) : m Statement := do
  let tokens ← read get
  match tokens with
  | [] => read (failExpecting .statement)
  | token :: _ =>
    match token.kind with
    | .separator .semicolon =>
      read skip
      return .empty
    | .separator .openBrace => return .block (← block)
    | .keyword .ifKw =>
      read skip
      ifStatement
    | .keyword .whileKw =>
      read skip
      whileStatement
    | .keyword .returnKw =>
      read skip
      returnStatement
    | .keyword .breakKw =>
      read skip
      read (separator .semicolon)
      return .breakStmt
    | _ => if isDeclaration tokens then declaration else expressionStatement

end Shape

namespace Rule

def initializer (value : Rule Expression) : Rule (Option Expression) := Shape.initializer value

def block (statement : Rule Statement) : Rule (List Statement) :=
  Shape.block (untilClose .closeBrace statement)

def condition (value : Rule Expression) : Rule Expression := Shape.condition value

def declaration (value : Rule Expression) : Rule Statement :=
  Shape.declaration identifier (initializer value)

def expressionStatement (value : Rule Expression) : Rule Statement :=
  Shape.expressionStatement value

def ifStatement (statement : Rule Statement) (value : Rule Expression) : Rule Statement :=
  Shape.ifStatement (condition value) statement

def whileStatement (statement : Rule Statement) (value : Rule Expression) : Rule Statement :=
  Shape.whileStatement (condition value) statement

def returnStatement (value : Rule Expression) : Rule Statement := Shape.returnStatement value

/-- A statement whose inner statements and expressions are read by the rules
given. -/
def statementOf (statement : Rule Statement) (value : Rule Expression) : Rule Statement :=
  Shape.statement (block statement) (ifStatement statement value) (whileStatement statement value)
    (returnStatement value) (declaration value) (expressionStatement value)

/-- A statement where so many levels of nesting are left out of `limit`. -/
def statementAt (limit : Nat) : (levels : Nat) → Rule Statement
  | 0 => fail (.nestingTooDeep limit)
  | levels + 1 => statementOf (statementAt limit levels) (expressionAt limit levels 0)

/-- A whole statement of at most `limit` levels. -/
def statementWithin (limit : Nat) : Rule Statement := statementAt limit limit

end Rule

end ClassLang
