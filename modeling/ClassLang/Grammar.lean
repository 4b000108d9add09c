import ClassLang.Tree

/-!
The grammar. Each relation below says which phrases, as lists of token kinds,
stand for which trees. It knows no precedence, no order of choices and no limit
of nesting, and a phrase can stand for several trees. In lists of parameters
and arguments a comma may follow each element, and none has to.
-/

namespace ClassLang

abbrev Phrase := List TokenKind

namespace Phrase

def inParens (inner : Phrase) : Phrase :=
  .separator .openParen :: inner ++ [.separator .closeParen]

def inBraces (inner : Phrase) : Phrase :=
  .separator .openBrace :: inner ++ [.separator .closeBrace]

end Phrase

namespace Grammar

open Phrase

inductive IsType : Phrase → String → Prop where
  | builtIn (name : TypeName) : IsType [.typeName name] name.spelling
  | className (name : String) : IsType [.identifier name] name

inductive IsPath : Phrase → List String → Prop where
  | name (name : String) : IsPath [.identifier name] [name]
  | dot (name : String) {rest : Phrase} {names : List String} (others : IsPath rest names) :
      IsPath (.identifier name :: .separator .dot :: rest) (name :: names)

/-- A comma or nothing. -/
inductive IsComma : Phrase → Prop where
  | absent : IsComma []
  | present : IsComma [.separator .comma]

/-- Phrases of elements one after the other. -/
inductive IsSequence {α : Type} (element : Phrase → α → Prop) :
    Phrase → List α → Prop where
  | nil : IsSequence element [] []
  | cons {first rest : Phrase} {value : α} {values : List α} (head : element first value)
      (tail : IsSequence element rest values) :
      IsSequence element (first ++ rest) (value :: values)

mutual

inductive IsExpression : Phrase → Expression → Prop where
  | literal (value : Literal) : IsExpression [.literal value] (.literal value)
  | reference {names : Phrase} {path : List String} (hpath : IsPath names path) :
      IsExpression names (.reference path)
  | new (className : String) {list : Phrase} {arguments : List Expression}
      (hlist : IsArguments list arguments) :
      IsExpression (.keyword .newKw :: .identifier className :: inParens list)
        (.new className arguments)
  | call {names list : Phrase} {path : List String} {arguments : List Expression}
      (hpath : IsPath names path) (hlist : IsArguments list arguments) :
      IsExpression (names ++ inParens list) (.call path arguments)
  | assignment {names phrase : Phrase} {path : List String} {value : Expression}
      (hpath : IsPath names path) (hvalue : IsExpression phrase value) :
      IsExpression (names ++ .separator .assign :: phrase) (.assignment path value)
  | binary (symbol : Operator) {first second : Phrase} {left right : Expression}
      (hleft : IsExpression first left) (hright : IsExpression second right) :
      IsExpression (first ++ .operator symbol :: second) (.binary symbol left right)
  | parens {phrase : Phrase} {value : Expression} (hvalue : IsExpression phrase value) :
      IsExpression (inParens phrase) value

inductive IsArguments : Phrase → List Expression → Prop where
  | nil : IsArguments [] []
  | cons {first comma rest : Phrase} {value : Expression} {values : List Expression}
      (hfirst : IsExpression first value) (hcomma : IsComma comma)
      (hrest : IsArguments rest values) :
      IsArguments (first ++ comma ++ rest) (value :: values)

end

inductive IsInitializer : Phrase → Option Expression → Prop where
  | absent : IsInitializer [] none
  | present {phrase : Phrase} {value : Expression} (hvalue : IsExpression phrase value) :
      IsInitializer (.separator .assign :: phrase) (some value)

mutual

inductive IsStatement : Phrase → Statement → Prop where
  | block {inner : Phrase} {statements : List Statement} (hinner : IsStatements inner statements) :
      IsStatement (inBraces inner) (.block statements)
  | ifThen {test first : Phrase} {condition : Expression} {onTrue : Statement}
      (htest : IsExpression test condition) (hfirst : IsStatement first onTrue) :
      IsStatement (.keyword .ifKw :: inParens test ++ first) (.ifThen condition onTrue)
  | ifElse {test first second : Phrase} {condition : Expression} {onTrue onFalse : Statement}
      (htest : IsExpression test condition) (hfirst : IsStatement first onTrue)
      (hsecond : IsStatement second onFalse) :
      IsStatement (.keyword .ifKw :: inParens test ++ first ++ .keyword .elseKw :: second)
        (.ifElse condition onTrue onFalse)
  | whileLoop {test inner : Phrase} {condition : Expression} {body : Statement}
      (htest : IsExpression test condition) (hinner : IsStatement inner body) :
      IsStatement (.keyword .whileKw :: inParens test ++ inner) (.whileLoop condition body)
  | returnNothing :
      IsStatement [.keyword .returnKw, .separator .semicolon] (.returnStmt none)
  | returnValue {phrase : Phrase} {value : Expression} (hvalue : IsExpression phrase value) :
      IsStatement (.keyword .returnKw :: phrase ++ [.separator .semicolon])
        (.returnStmt (some value))
  | breakStmt : IsStatement [.keyword .breakKw, .separator .semicolon] .breakStmt
  | declaration (name : String) {phrase start : Phrase} {type : String}
      {value : Option Expression} (htype : IsType phrase type)
      (hstart : IsInitializer start value) :
      IsStatement (phrase ++ .identifier name :: start ++ [.separator .semicolon])
        (.declaration type name value)
  | expression {phrase : Phrase} {value : Expression} (hvalue : IsExpression phrase value) :
      IsStatement (phrase ++ [.separator .semicolon]) (.expression value)
  | empty : IsStatement [.separator .semicolon] .empty

inductive IsStatements : Phrase → List Statement → Prop where
  | nil : IsStatements [] []
  | cons {first rest : Phrase} {statement : Statement} {statements : List Statement}
      (hfirst : IsStatement first statement) (hrest : IsStatements rest statements) :
      IsStatements (first ++ rest) (statement :: statements)

end

/-- A parameter and the comma that may follow it. -/
inductive IsParam : Phrase → Param → Prop where
  | param (name : String) {phrase comma : Phrase} {type : String} (htype : IsType phrase type)
      (hcomma : IsComma comma) :
      IsParam (phrase ++ .identifier name :: comma) ⟨type, name⟩

def IsParams : Phrase → List Param → Prop := IsSequence IsParam

inductive IsMember : Phrase → Member → Prop where
  | field (name : String) {phrase start : Phrase} {type : String} {value : Option Expression}
      (htype : IsType phrase type) (hstart : IsInitializer start value) :
      IsMember (phrase ++ .identifier name :: start ++ [.separator .semicolon])
        (.field type name value)
  | method (name : String) {phrase list inner : Phrase} {returnType : String}
      {params : List Param} {body : List Statement} (htype : IsType phrase returnType)
      (hlist : IsParams list params) (hinner : IsStatements inner body) :
      IsMember (phrase ++ .identifier name :: inParens list ++ inBraces inner)
        (.method returnType name params body)
  | constructor (name : String) {list inner : Phrase} {params : List Param}
      {body : List Statement} (hlist : IsParams list params) (hinner : IsStatements inner body) :
      IsMember (.identifier name :: inParens list ++ inBraces inner)
        (.constructor name params body)

inductive IsParent : Phrase → Option String → Prop where
  | absent : IsParent [] none
  | present (name : String) : IsParent [.keyword .extendsKw, .identifier name] (some name)

inductive IsClass : Phrase → ClassDecl → Prop where
  | classDecl (name : String) {above inner : Phrase} {parent : Option String}
      {members : List Member} (hparent : IsParent above parent)
      (hinner : IsSequence IsMember inner members) :
      IsClass (.keyword .classKw :: .identifier name :: above ++ inBraces inner)
        ⟨name, parent, members⟩

/-- A program is made of one class or more. -/
inductive IsProgram : Phrase → Program → Prop where
  | program {phrase : Phrase} {classes : List ClassDecl}
      (hclasses : IsSequence IsClass phrase classes) (hsome : classes ≠ []) :
      IsProgram phrase ⟨classes⟩

end Grammar

end ClassLang
