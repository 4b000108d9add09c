import ClassLang.Dump.Quoted

/-!
Documents. A value to be shown is a word, a quoted text or a bracketed group of
entries, and an entry may have a label. A document has a compact form, all on
one line, and a pretty form, where each entry has lines of its own.
-/

namespace ClassLang.Dump

inductive Bracket where
  | brace
  | paren
  | square
deriving DecidableEq

namespace Bracket

def opening : Bracket → String
  | .brace => " \x7b"
  | .paren => "("
  | .square => "["

def closing : Bracket → String
  | .brace => "\x7d"
  | .paren => ")"
  | .square => "]"

/-- What stands inside the brackets on either side when all is on one line. -/
def padding : Bracket → String
  | .brace => " "
  | .paren | .square => ""

end Bracket

inductive Document where
  | word (text : String)
  | quoted (text : String)
  | labelled (label : String) (value : Document)
  | group (name : String) (bracket : Bracket) (entries : List Document)

namespace Document

/-- A name and labelled values in braces. -/
def record (name : String) (fields : List (String × Document)) : Document :=
  .group name .brace (fields.map fun (label, value) => .labelled label value)

/-- A name and one value in parentheses. -/
def wrapped (name : String) (value : Document) : Document := .group name .paren [value]

def list (entries : List Document) : Document := .group "" .square entries

def optional : Option Document → Document
  | none => .word "None"
  | some value => wrapped "Some" value

mutual

/-- All on one line. A group without entries is nothing but its brackets. -/
def compact : Document → String
  | .word text => text
  | .quoted text => quote text
  | .labelled label value => label ++ ": " ++ compact value
  | .group name bracket [] => name ++ bracket.opening ++ bracket.closing
  | .group name bracket (first :: rest) =>
      name ++ bracket.opening ++ bracket.padding ++ compact first ++ compactRest rest ++
        bracket.padding ++ bracket.closing

/-- The entries of a group after its first. -/
def compactRest : List Document → String
  | [] => ""
  | entry :: rest => ", " ++ compact entry ++ compactRest rest

end

/-- The blanks in front of a line that stands inside `depth` brackets. -/
def indent (depth : Nat) : String := String.ofList (List.replicate (4 * depth) ' ')

mutual

/-- Each entry of a group on lines of its own with a comma behind it, the
closing bracket on a line of its own. The first line has no indentation. -/
def pretty (depth : Nat) : Document → String
  | .word text => text
  | .quoted text => quote text
  | .labelled label value => label ++ ": " ++ pretty depth value
  | .group name bracket [] => name ++ bracket.opening ++ bracket.closing
  | .group name bracket (first :: rest) =>
      name ++ bracket.opening ++ "\n" ++ prettyEntries (depth + 1) (first :: rest) ++
        indent depth ++ bracket.closing

def prettyEntries (depth : Nat) : List Document → String
  | [] => ""
  | entry :: rest => indent depth ++ pretty depth entry ++ ",\n" ++ prettyEntries depth rest

end

end Document

end ClassLang.Dump
