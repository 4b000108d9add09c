import ClassLang.Diagnostic
import ClassLang.Dump.Document
import ClassLang.Tree

/-!
How trees and diagnostics are shown: every node by its kind and its parts, in
the order in which the parts are written in a source.
-/

namespace ClassLang

open Dump Document

namespace Operator

def nodeName : Operator → String
  | .and => "And"
  | .or => "Or"
  | .less => "Less"
  | .lessEqual => "LessEqual"
  | .greater => "Greater"
  | .greaterEqual => "GreaterEqual"
  | .equal => "Equal"

end Operator

namespace Literal

def document : Literal → Document
  | .int value => wrapped "Int" (.word (Literal.int value).spelling)
  | .bool value => wrapped "Bool" (.word (Literal.bool value).spelling)

end Literal

/-- The document of a dotted path. -/
def pathDocument (path : List String) : Document :=
  wrapped "Reference" (list (path.map .quoted))

namespace Expression

mutual

def document : Expression → Document
  | .literal value => wrapped "Literal" value.document
  | .reference path => wrapped "Reference" (pathDocument path)
  | .new className arguments =>
      record "New" [("id", .quoted className), ("args", list (documents arguments))]
  | .call path arguments =>
      record "Call" [("reference", pathDocument path), ("args", list (documents arguments))]
  | .assignment path value =>
      record "Assignment" [("reference", pathDocument path), ("exp", document value)]
  | .binary symbol left right =>
      record "Binary" [("operator", .word symbol.nodeName), ("left", document left),
        ("right", document right)]

def documents : List Expression → List Document
  | [] => []
  | first :: rest => document first :: documents rest

end

end Expression

/-- The document of a block, given those of its statements. -/
def blockDocument (statements : List Document) : Document :=
  record "Block" [("stmts", list statements)]

namespace Statement

mutual

def document : Statement → Document
  | .block statements => wrapped "Block" (blockDocument (documents statements))
  | .ifThen condition onTrue =>
      record "If" [("cond", condition.document), ("then", document onTrue),
        ("else", optional none)]
  | .ifElse condition onTrue onFalse =>
      record "If" [("cond", condition.document), ("then", document onTrue),
        ("else", optional (some (document onFalse)))]
  | .whileLoop condition body =>
      record "While" [("cond", condition.document), ("body", document body)]
  | .returnStmt value => record "Return" [("exp", optional (value.map (·.document)))]
  | .breakStmt => .word "Break"
  | .declaration type name value =>
      record "Declaration" [("t", .quoted type), ("id", .quoted name),
        ("exp", optional (value.map (·.document)))]
  | .expression value => wrapped "Expression" value.document
  | .empty => .word "Empty"

def documents : List Statement → List Document
  | [] => []
  | first :: rest => document first :: documents rest

end

end Statement

def Param.document (param : Param) : Document :=
  record "Param" [("t", .quoted param.type), ("id", .quoted param.name)]

def Member.document : Member → Document
  | .field type name value =>
      record "Field" [("t", .quoted type), ("id", .quoted name),
        ("exp", optional (value.map (·.document)))]
  | .method returnType name params body =>
      record "Method" [("return_type", .quoted returnType), ("id", .quoted name),
        ("params", list (params.map Param.document)),
        ("block", blockDocument (Statement.documents body))]
  | .constructor name params body =>
      record "Constructor" [("id", .quoted name), ("params", list (params.map Param.document)),
        ("block", blockDocument (Statement.documents body))]

def ClassDecl.document (classDecl : ClassDecl) : Document :=
  record "Class" [("id", .quoted classDecl.name),
    ("parent", optional (classDecl.parent.map .quoted)),
    ("members", list (classDecl.members.map Member.document))]

namespace Program

def document (program : Program) : Document :=
  record "Program" [("body", list (program.classes.map ClassDecl.document))]

def compact (program : Program) : String := program.document.compact

def pretty (program : Program) : String := program.document.pretty 0

end Program

namespace Diagnostic

def document (diagnostic : Diagnostic) : Document :=
  record "Diagnostic" [("message", .quoted diagnostic.message),
    ("offset", .word diagnostic.offset.repr)]

def compactAll (diagnostics : List Diagnostic) : String :=
  (list (diagnostics.map document)).compact

def prettyAll (diagnostics : List Diagnostic) : String :=
  (list (diagnostics.map document)).pretty 0

end Diagnostic

end ClassLang
