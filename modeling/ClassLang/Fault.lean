import ClassLang.Token

/-!
Syntax errors. A fault says what was wrong; it is thrown with the place of the
token that stood in the way. Where the tokens have ended there is none: what is
wrong there is reported at the last of all tokens, which only the reader knows.
-/

namespace ClassLang

/-- What was looked for when reading stopped. -/
inductive Expectation where
  | identifier
  | type
  | keyword (word : Keyword)
  | separator (mark : Separator)
  | classMember
  | statement
  | expression
deriving DecidableEq

namespace Expectation

def description : Expectation → String
  | .identifier => "identifier"
  | .type => "type"
  | .keyword word => (TokenKind.keyword word).description
  | .separator mark => (TokenKind.separator mark).description
  | .classMember => "class member"
  | .statement => "statement"
  | .expression => "expression"

end Expectation

inductive Fault where
  | mismatch (expected : Expectation) (found : TokenKind)
  | endOfTokens (expected : Expectation)
  | unexpectedMember (found : TokenKind)
  | unexpectedExpression (found : TokenKind)
  | emptyProgram
  | nestingTooDeep (max : Nat)
deriving DecidableEq

def Fault.message : Fault → String
  | .mismatch expected found => s!"expected {expected.description}, found {found.description}"
  | .endOfTokens expected => s!"expected {expected.description}, reached end of tokens"
  | .unexpectedMember found => s!"unexpected token in class member: {found.description}"
  | .unexpectedExpression found => s!"unexpected token in expression: {found.description}"
  | .emptyProgram => "a program must contain at least one class"
  | .nestingTooDeep max => s!"nesting is too deep (maximum {max} levels)"

/-- A fault as it is thrown. -/
structure Thrown where
  fault : Fault
  /-- The byte that the fault is about, if there is a token to tell. -/
  offset? : Option Nat
deriving DecidableEq

/-- The fault, thrown in front of these tokens. -/
def Fault.before (fault : Fault) (tokens : List Token) : Thrown :=
  ⟨fault, tokens.head?.map Token.offset⟩

/-- A fault and the byte of the source that it is about. -/
structure SyntaxError where
  fault : Fault
  offset : Nat
deriving DecidableEq

namespace SyntaxError

def message (error : SyntaxError) : String := error.fault.message

end SyntaxError

end ClassLang
