import ClassLang.Rule

/-!
Expressions, by precedence climbing. An expression is a primary followed by
operators and their right operands; an operand extends as long as operators
come that bind tighter than the one before it. Each expression inside another
takes one level of nesting, a chain of operators takes none by its length.
-/

namespace ClassLang

universe u

namespace Shape

open Rule (skip accept separator operatorAtLeast failExpecting fail)

variable {m : Type → Type u} [Monad m] [ReadsTokens m]

/-- What an expression begins with, up to its first operator. The `inner`
expressions are those in parentheses and after `=`. -/
def primary (path : m (List String)) (identifier : m String) (inner : m Expression)
    (arguments : m (List Expression)) : m Expression := do
  match ← read get with
  | [] => read (failExpecting .expression)
  | token :: _ =>
    match token.kind with
    | .literal value =>
      read skip
      return .literal value
    | .identifier _ =>
      let names ← path
      if ← read (accept (.separator .assign)) then return .assignment names (← inner)
      else if ← read (accept (.separator .openParen)) then return .call names (← arguments)
      else return .reference names
    | .keyword .newKw =>
      read skip
      let className ← identifier
      read (separator .openParen)
      return .new className (← arguments)
    | .separator .openParen =>
      read skip
      let value ← inner
      read (separator .closeParen)
      return value
    | found => read (fail (.unexpectedExpression found))

/-- An operator that binds at least as tightly as `floor`, and what is on the
right of it. That holds only operators that bind tighter, so that operators of
one precedence group to the left. -/
def operandStep (operand : Nat → m Expression) (floor : Nat) :
    m (Option (Operator × Expression)) := do
  match ← read (operatorAtLeast floor) with
  | none => return none
  | some symbol => return some (symbol, ← operand (symbol.precedence + 1))

/-- An expression whose operators bind at least as tightly as `floor`. -/
def climb (primary : m Expression) (operand : Nat → m Expression) (floor : Nat) :
    m Expression := do
  let first ← primary
  let others ← collect (operandStep operand floor)
  return others.foldl (fun left (symbol, right) => .binary symbol left right) first

end Shape

namespace Rule

export Shape (operandStep)

/-- How many statements and expressions may enclose one another. -/
def maxNesting : Nat := 128

/-- A dotted path. -/
def path : Rule (List String) := separatedBy .dot identifier

/-- What an expression begins with. The `inner` expressions are those in
parentheses, after `=` and in argument lists. -/
def primary (inner : Rule Expression) : Rule Expression :=
  Shape.primary path identifier inner (listed inner)

/-- An expression whose operators bind at least as tightly as `floor`. What is
inside it is read by `operand`, at a floor of its own. -/
def climb (operand : Nat → Rule Expression) (floor : Nat) : Rule Expression :=
  Shape.climb (primary (operand 0)) operand floor

/-- An expression where so many levels of nesting are left out of `limit`. -/
def expressionAt (limit : Nat) : (levels : Nat) → (floor : Nat) → Rule Expression
  | 0 => fun _ => fail (.nestingTooDeep limit)
  | levels + 1 => climb (expressionAt limit levels)

/-- A whole expression of at most `limit` levels. -/
def expressionWithin (limit : Nat) : Rule Expression := expressionAt limit limit 0

def expression : Rule Expression := expressionWithin maxNesting

end Rule

end ClassLang
