import ClassLang.Grammar

/-!
Trees that keep what the trees of programs leave out: each pair of parentheses
around an operand, whether a comma stands behind an element of a list, and which
token a type was. An outline goes through such a tree from left to right. It
marks the places behind elements, also those where no comma stands, so that
tokens with and without it can be told to be the same otherwise.
-/

namespace ClassLang

/-- A token, or the place behind an element of a list. Of a place it says whether
the element is the last one, and whether there is a comma. -/
inductive Mark where
  | token (kind : TokenKind)
  | place (last comma : Bool)
deriving DecidableEq

abbrev Outline := List Mark

def Mark.phrase : Mark → Phrase
  | .token kind => [kind]
  | .place _ comma => if comma then [.separator .comma] else []

namespace Outline

/-- The tokens alone. -/
def phrase (outline : Outline) : Phrase := outline.flatMap Mark.phrase

def separator (mark : Separator) : Mark := .token (.separator mark)

def keyword (word : Keyword) : Mark := .token (.keyword word)

def identifier (name : String) : Mark := .token (.identifier name)

def inParens (inner : Outline) : Outline :=
  separator .openParen :: inner ++ [separator .closeParen]

def inBraces (inner : Outline) : Outline :=
  separator .openBrace :: inner ++ [separator .closeBrace]

/-- An element in front of the others of its list. -/
def listed (first : Outline) (comma : Bool) (others : Outline) : Outline :=
  first ++ .place others.isEmpty comma :: others

end Outline

namespace Written

open Outline (separator keyword identifier inParens inBraces listed)

/-- A type by its token. -/
inductive TypeText where
  | builtIn (name : TypeName)
  | className (name : String)

namespace TypeText

def outline : TypeText → Outline
  | builtIn name => [.token (.typeName name)]
  | className name => [identifier name]

def tree : TypeText → String
  | builtIn name => name.spelling
  | className name => name

end TypeText

/-- A path has at least one name. -/
structure Path where
  first : String
  others : List String

namespace Path

def outline (path : Path) : Outline :=
  identifier path.first :: path.others.flatMap fun name => [separator .dot, identifier name]

def tree (path : Path) : List String := path.first :: path.others

end Path

mutual

inductive Expression where
  | literal (value : Literal)
  | reference (path : Path)
  | new (className : String) (arguments : Arguments)
  | call (path : Path) (arguments : Arguments)
  | assignment (path : Path) (value : Expression)
  | binary (symbol : Operator) (left right : Expression)
  | parens (value : Expression)

inductive Arguments where
  | nil
  | cons (first : Expression) (comma : Bool) (others : Arguments)

end

mutual

def Expression.outline : Expression → Outline
  | .literal value => [.token (.literal value)]
  | .reference path => path.outline
  | .new className arguments =>
      keyword .newKw :: identifier className :: inParens arguments.outline
  | .call path arguments => path.outline ++ inParens arguments.outline
  | .assignment path value => path.outline ++ separator .assign :: value.outline
  | .binary symbol left right => left.outline ++ .token (.operator symbol) :: right.outline
  | .parens value => inParens value.outline

def Arguments.outline : Arguments → Outline
  | .nil => []
  | .cons first comma others => listed first.outline comma others.outline

end

mutual

def Expression.tree : Expression → ClassLang.Expression
  | .literal value => .literal value
  | .reference path => .reference path.tree
  | .new className arguments => .new className arguments.tree
  | .call path arguments => .call path.tree arguments.tree
  | .assignment path value => .assignment path.tree value.tree
  | .binary symbol left right => .binary symbol left.tree right.tree
  | .parens value => value.tree

def Arguments.tree : Arguments → List ClassLang.Expression
  | .nil => []
  | .cons first _ others => first.tree :: others.tree

end

/-- The tokens of an expression. -/
def Expression.phrase (expression : Expression) : Phrase := expression.outline.phrase

def initializerOutline : Option Expression → Outline
  | none => []
  | some value => separator .assign :: value.outline

/-- What fields and declarations share. -/
structure Binding where
  type : TypeText
  name : String
  value : Option Expression

def Binding.outline (binding : Binding) : Outline :=
  binding.type.outline ++ identifier binding.name ::
    initializerOutline binding.value ++ [separator .semicolon]

/-- A tree that is built from a type, a name and an initial value. -/
def Binding.tree {α : Type} (build : String → String → Option ClassLang.Expression → α)
    (binding : Binding) : α :=
  build binding.type.tree binding.name (binding.value.map Expression.tree)

inductive Statement where
  | block (statements : List Statement)
  | ifThen (condition : Expression) (onTrue : Statement)
  | ifElse (condition : Expression) (onTrue onFalse : Statement)
  | whileLoop (condition : Expression) (body : Statement)
  | returnStmt (value : Option Expression)
  | breakStmt
  | declaration (binding : Binding)
  | expression (value : Expression)
  | empty

namespace Statement

mutual

def outline : Statement → Outline
  | .block statements => inBraces (outlines statements)
  | .ifThen condition onTrue =>
      keyword .ifKw :: inParens condition.outline ++ outline onTrue
  | .ifElse condition onTrue onFalse =>
      keyword .ifKw :: inParens condition.outline ++ outline onTrue ++
        keyword .elseKw :: outline onFalse
  | .whileLoop condition body => keyword .whileKw :: inParens condition.outline ++ outline body
  | .returnStmt none => [keyword .returnKw, separator .semicolon]
  | .returnStmt (some value) => keyword .returnKw :: value.outline ++ [separator .semicolon]
  | .breakStmt => [keyword .breakKw, separator .semicolon]
  | .declaration binding => binding.outline
  | .expression value => value.outline ++ [separator .semicolon]
  | .empty => [separator .semicolon]

def outlines : List Statement → Outline
  | [] => []
  | first :: others => outline first ++ outlines others

end

mutual

def tree : Statement → ClassLang.Statement
  | .block statements => .block (trees statements)
  | .ifThen condition onTrue => .ifThen condition.tree (tree onTrue)
  | .ifElse condition onTrue onFalse => .ifElse condition.tree (tree onTrue) (tree onFalse)
  | .whileLoop condition body => .whileLoop condition.tree (tree body)
  | .returnStmt value => .returnStmt (value.map Expression.tree)
  | .breakStmt => .breakStmt
  | .declaration binding => binding.tree .declaration
  | .expression value => .expression value.tree
  | .empty => .empty

def trees : List Statement → List ClassLang.Statement
  | [] => []
  | first :: others => tree first :: trees others

end

end Statement

/-- The tokens of a statement. -/
def Statement.phrase (statement : Statement) : Phrase := statement.outline.phrase

def Statement.phrases (statements : List Statement) : Phrase :=
  (Statement.outlines statements).phrase

structure Param where
  type : TypeText
  name : String

namespace Param

def outline (param : Param) : Outline := param.type.outline ++ [identifier param.name]

def tree (param : Param) : ClassLang.Param := ⟨param.type.tree, param.name⟩

end Param

/-- Parameters, each with whether a comma stands behind it. -/
abbrev Params := List (Param × Bool)

namespace Params

def outline : Params → Outline
  | [] => []
  | (first, comma) :: others => listed first.outline comma (outline others)

def tree (params : Params) : List ClassLang.Param := params.map fun param => param.1.tree

end Params

inductive Member where
  | field (binding : Binding)
  | method (returnType : TypeText) (name : String) (params : Params) (body : List Statement)
  | constructor (name : String) (params : Params) (body : List Statement)

namespace Member

def outline : Member → Outline
  | .field binding => binding.outline
  | .method returnType name params body =>
      returnType.outline ++ identifier name :: inParens params.outline ++
        inBraces (Statement.outlines body)
  | .constructor name params body =>
      identifier name :: inParens params.outline ++ inBraces (Statement.outlines body)

def tree : Member → ClassLang.Member
  | .field binding => binding.tree .field
  | .method returnType name params body =>
      .method returnType.tree name params.tree (Statement.trees body)
  | .constructor name params body => .constructor name params.tree (Statement.trees body)

end Member

def parentOutline : Option String → Outline
  | none => []
  | some name => [keyword .extendsKw, identifier name]

structure ClassDecl where
  name : String
  parent : Option String
  members : List Member

namespace ClassDecl

def outline (classDecl : ClassDecl) : Outline :=
  keyword .classKw :: identifier classDecl.name :: parentOutline classDecl.parent ++
    inBraces (classDecl.members.flatMap Member.outline)

def tree (classDecl : ClassDecl) : ClassLang.ClassDecl :=
  ⟨classDecl.name, classDecl.parent, classDecl.members.map Member.tree⟩

end ClassDecl

structure Program where
  classes : List ClassDecl

namespace Program

def outline (program : Program) : Outline := program.classes.flatMap ClassDecl.outline

def tree (program : Program) : ClassLang.Program := ⟨program.classes.map ClassDecl.tree⟩

/-- The tokens of a written program. -/
def phrase (program : Program) : Phrase := program.outline.phrase

end Program

end Written

end ClassLang
