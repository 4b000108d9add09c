import ClassLang.Token

/-!
Trees of programs. A type is the name that was written for it, whether of a
built-in type or of a class. Parentheses and commas leave no trace.
-/

namespace ClassLang

inductive Expression where
  | literal (value : Literal)
  /-- A dotted path such as `this.owner.name`; one that was read has at least
  one name. -/
  | reference (path : List String)
  | new (className : String) (arguments : List Expression)
  | call (path : List String) (arguments : List Expression)
  | assignment (path : List String) (value : Expression)
  | binary (operator : Operator) (left right : Expression)

inductive Statement where
  | block (statements : List Statement)
  | ifThen (condition : Expression) (onTrue : Statement)
  | ifElse (condition : Expression) (onTrue onFalse : Statement)
  | whileLoop (condition : Expression) (body : Statement)
  | returnStmt (value : Option Expression)
  | breakStmt
  | declaration (type : String) (name : String) (value : Option Expression)
  | expression (value : Expression)
  /-- A semicolon on its own. -/
  | empty

structure Param where
  type : String
  name : String
deriving DecidableEq

inductive Member where
  | field (type : String) (name : String) (value : Option Expression)
  | method (returnType : String) (name : String) (params : List Param) (body : List Statement)
  | constructor (name : String) (params : List Param) (body : List Statement)

/-- The kinds of members. -/
inductive MemberForm where
  | field
  | method
  | constructor
deriving DecidableEq

structure ClassDecl where
  name : String
  parent : Option String
  members : List Member

structure Program where
  classes : List ClassDecl

end ClassLang
