import ClassLang.Grammar

/-!
The phrase of a tree, written with as few parentheses as keep it one phrase of
this one tree: an operand has them only where the operators around it would
otherwise take it apart. Elements of a list have commas between them.
-/

namespace ClassLang

open Phrase

/-- Phrases with a comma between each two of them. -/
def Phrase.commaSeparated (phrases : List Phrase) : Phrase :=
  [TokenKind.separator .comma].intercalate phrases

/-- The token of a type that is known by this name. -/
def TokenKind.ofTypeText (type : String) : TokenKind :=
  match TypeName.ofWord? type with
  | some name => .typeName name
  | none => .identifier type

/-- The names of a path with dots between them. -/
def Phrase.ofPath (path : List String) : Phrase :=
  [TokenKind.separator .dot].intercalate (path.map fun name => [.identifier name])

namespace Expression

/-- Whether an operand has to stand in parentheses where all operators must
bind at least as tightly as `floor`. An assignment always has to: it would take
in whatever follows. -/
def needsParens (floor : Nat) : Expression → Bool
  | .assignment _ _ => true
  | .binary symbol _ _ => symbol.precedence < floor
  | _ => false

mutual

def phrase : Expression → Phrase
  | .literal value => [.literal value]
  | .reference path => ofPath path
  | .new className arguments =>
      .keyword .newKw :: .identifier className ::
        inParens (commaSeparated (phrases arguments))
  | .call path arguments => ofPath path ++ inParens (commaSeparated (phrases arguments))
  | .assignment path value => ofPath path ++ .separator .assign :: phrase value
  | .binary symbol left right =>
      (if left.needsParens symbol.precedence then inParens (phrase left) else phrase left) ++
        .operator symbol ::
        (if right.needsParens (symbol.precedence + 1) then inParens (phrase right)
          else phrase right)

def phrases : List Expression → List Phrase
  | [] => []
  | first :: rest => phrase first :: phrases rest

end

end Expression

/-- The phrase of an optional initial value. -/
def Phrase.ofInitializer : Option Expression → Phrase
  | none => []
  | some value => .separator .assign :: value.phrase

/-- The phrase that fields and declarations share. -/
def Phrase.ofVariable (type name : String) (value : Option Expression) : Phrase :=
  .ofTypeText type :: .identifier name :: ofInitializer value ++ [.separator .semicolon]

namespace Statement

mutual

def phrase : Statement → Phrase
  | .block statements => inBraces (phrases statements)
  | .ifThen condition onTrue => .keyword .ifKw :: inParens condition.phrase ++ phrase onTrue
  | .ifElse condition onTrue onFalse =>
      .keyword .ifKw :: inParens condition.phrase ++ phrase onTrue ++
        .keyword .elseKw :: phrase onFalse
  | .whileLoop condition body => .keyword .whileKw :: inParens condition.phrase ++ phrase body
  | .returnStmt none => [.keyword .returnKw, .separator .semicolon]
  | .returnStmt (some value) => .keyword .returnKw :: value.phrase ++ [.separator .semicolon]
  | .breakStmt => [.keyword .breakKw, .separator .semicolon]
  | .declaration type name value => ofVariable type name value
  | .expression value => value.phrase ++ [.separator .semicolon]
  | .empty => [.separator .semicolon]

def phrases : List Statement → Phrase
  | [] => []
  | first :: rest => phrase first ++ phrases rest

end

/-- Whether the statement ends in an `if` without `else`, which would take in
an `else` that follows it. -/
def endsOpen : Statement → Bool
  | .ifThen _ _ => true
  | .ifElse _ _ onFalse => onFalse.endsOpen
  | .whileLoop _ body => body.endsOpen
  | _ => false

end Statement

def Param.phrase (param : Param) : Phrase := [.ofTypeText param.type, .identifier param.name]

def Phrase.ofParams (params : List Param) : Phrase :=
  inParens (commaSeparated (params.map Param.phrase))

def Member.phrase : Member → Phrase
  | .field type name value => ofVariable type name value
  | .method returnType name params body =>
      .ofTypeText returnType :: .identifier name :: ofParams params ++
        inBraces (Statement.phrases body)
  | .constructor name params body =>
      .identifier name :: ofParams params ++ inBraces (Statement.phrases body)

def Phrase.ofParent : Option String → Phrase
  | none => []
  | some name => [.keyword .extendsKw, .identifier name]

def ClassDecl.phrase (classDecl : ClassDecl) : Phrase :=
  .keyword .classKw :: .identifier classDecl.name :: ofParent classDecl.parent ++
    inBraces (classDecl.members.flatMap Member.phrase)

def Program.phrase (program : Program) : Phrase := program.classes.flatMap ClassDecl.phrase

end ClassLang
