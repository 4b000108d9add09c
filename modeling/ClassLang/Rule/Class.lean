import ClassLang.Rule.Statement

/-!
Classes and programs. The forms of members are told apart by up to three
tokens: a type and a name come before the `(` of a method and before the `=` or
`;` of a field, a name alone comes before the `(` of a constructor.
-/

namespace ClassLang

universe u

/-- The form of the member that begins here. The second token of a field or
method is not looked at: the rule that reads the member finds it missing. -/
def MemberForm.ofTokens? : List Token → Option MemberForm
  | [] => none
  | first :: rest =>
      let has (place : Nat) (mark : Separator) := Rule.nextIs (.separator mark) (rest.drop place)
      if !first.kind.isTypeLike then none
      else if has 1 .openParen then some .method
      else if has 1 .assign || has 1 .semicolon then some .field
      else match first.kind with
        | .identifier _ => if has 0 .openParen then some .constructor else none
        | _ => none

namespace Shape

open Rule (accept keyword separator type failExpecting fail)

variable {m : Type → Type u} [Monad m] [ReadsTokens m]

def field (identifier : m String) (initializer : m (Option Expression)) : m Member := do
  let type ← read type
  let name ← identifier
  let value ← initializer
  read (separator .semicolon)
  return .field type name value

def param (identifier : m String) : m Param := do
  let type ← read type
  let name ← identifier
  return ⟨type, name⟩

def params (paramList : m (List Param)) : m (List Param) := do
  read (separator .openParen)
  paramList

def method (identifier : m String) (params : m (List Param)) (block : m (List Statement)) :
    m Member := do
  let returnType ← read type
  let name ← identifier
  let params ← params
  return .method returnType name params (← block)

def constructor (identifier : m String) (params : m (List Param)) (block : m (List Statement)) :
    m Member := do
  let name ← identifier
  let params ← params
  return .constructor name params (← block)

/-- A member, from its first token on, by the rules for its forms. -/
def member (field method constructor : m Member) : m Member := do
  let tokens ← read get
  match tokens with
  | [] => read (failExpecting .classMember)
  | first :: _ =>
    match MemberForm.ofTokens? tokens with
    | some .field => note (.parsingMember .field first.offset) field
    | some .method => note (.parsingMember .method first.offset) method
    | some .constructor => note (.parsingMember .constructor first.offset) constructor
    | none => read (fail (.unexpectedMember first.kind))

def parent (identifier : m String) : m (Option String) := do
  if ← read (accept (.keyword .extendsKw)) then return some (← identifier) else return none

def classDecl (identifier : m String) (parent : m (Option String)) (members : m (List Member)) :
    m ClassDecl := do
  read (keyword .classKw)
  let name ← identifier
  let parent ← parent
  note (.parsingClass name parent) do
    read (separator .openBrace)
    return ⟨name, parent, ← members⟩

def classStep (classDecl : m ClassDecl) : m (Option ClassDecl) := do
  if (← read get).isEmpty then return none else return some (← classDecl)

/-- Classes to the end of the tokens, one at least. -/
def program (classDecl : m ClassDecl) : m Program := do
  let classes ← collect (classStep classDecl)
  if classes.isEmpty then read (throw ⟨.emptyProgram, some 0⟩)
  else return ⟨classes⟩

end Shape

namespace Rule

export Shape (classStep)

def field (value : Rule Expression) : Rule Member := Shape.field identifier (initializer value)

def param : Rule Param := Shape.param identifier

def params : Rule (List Param) := Shape.params (listed param)

def method (statement : Rule Statement) : Rule Member :=
  Shape.method identifier params (block statement)

def constructor (statement : Rule Statement) : Rule Member :=
  Shape.constructor identifier params (block statement)

def memberOf (statement : Rule Statement) (value : Rule Expression) : Rule Member :=
  Shape.member (field value) (method statement) (constructor statement)

def parent : Rule (Option String) := Shape.parent identifier

def classOf (member : Rule Member) : Rule ClassDecl :=
  Shape.classDecl identifier parent (untilClose .closeBrace member)

/-- Classes to the end of the tokens, one at least. -/
def programOf (classDecl : Rule ClassDecl) : Rule Program := Shape.program classDecl

/-- A member in which statements and expressions enclose one another at most
`limit` deep. Classes and members are no levels of nesting themselves: all are
left at the value of each field and at the body of each method. -/
def memberWithin (limit : Nat) : Rule Member :=
  memberOf (statementWithin limit) (expressionWithin limit)

def programWithin (limit : Nat) : Rule Program := programOf (classOf (memberWithin limit))

def program : Rule Program := programWithin maxNesting

end Rule

end ClassLang
