/-!
The vocabulary: keywords, names of built-in types, separators, operators and
literal values, with their spellings, and the token made of one of them. Each
spelling is written once; a word is looked up by comparing it with them.
-/

namespace ClassLang

inductive Keyword where
  | newKw
  | classKw
  | breakKw
  | extendsKw
  | ifKw
  | elseKw
  | whileKw
  | returnKw
deriving DecidableEq

namespace Keyword

def all : List Keyword :=
  [.newKw, .classKw, .breakKw, .extendsKw, .ifKw, .elseKw, .whileKw, .returnKw]

def spelling : Keyword → String
  | .newKw => "new"
  | .classKw => "class"
  | .breakKw => "break"
  | .extendsKw => "extends"
  | .ifKw => "if"
  | .elseKw => "else"
  | .whileKw => "while"
  | .returnKw => "return"

/-- The keyword that `word` as a whole spells, in this very case. -/
def ofWord? (word : String) : Option Keyword := all.find? (·.spelling == word)

theorem mem_all (keyword : Keyword) : keyword ∈ all := by
  cases keyword <;> decide

theorem spelling_inj {first second : Keyword} (h : first.spelling = second.spelling) :
    first = second := by
  cases first <;> cases second <;> simp_all [spelling]

theorem ofWord?_spelling (keyword : Keyword) : ofWord? keyword.spelling = some keyword := by
  cases keyword <;> decide

theorem ofWord?_eq_some_iff {word : String} {keyword : Keyword} :
    ofWord? word = some keyword ↔ keyword.spelling = word := by
  constructor
  · intro h
    simpa using List.find?_some h
  · rintro rfl
    exact ofWord?_spelling keyword

end Keyword

/-- The built-in types. A class name serves as a type as well, but it is an
identifier and is not listed here. -/
inductive TypeName where
  | int
  | boolean
  | void
deriving DecidableEq

namespace TypeName

def all : List TypeName := [.int, .boolean, .void]

def spelling : TypeName → String
  | .int => "int"
  | .boolean => "boolean"
  | .void => "void"

def ofWord? (word : String) : Option TypeName := all.find? (·.spelling == word)

theorem mem_all (name : TypeName) : name ∈ all := by
  cases name <;> decide

theorem spelling_inj {first second : TypeName} (h : first.spelling = second.spelling) :
    first = second := by
  cases first <;> cases second <;> simp_all [spelling]

theorem ofWord?_spelling (name : TypeName) : ofWord? name.spelling = some name := by
  cases name <;> decide

theorem ofWord?_eq_some_iff {word : String} {name : TypeName} :
    ofWord? word = some name ↔ name.spelling = word := by
  constructor
  · intro h
    simpa using List.find?_some h
  · rintro rfl
    exact ofWord?_spelling name

end TypeName

inductive Separator where
  | dot
  | openBrace
  | openParen
  | closeBrace
  | closeParen
  | comma
  | semicolon
  | assign
deriving DecidableEq

namespace Separator

def all : List Separator :=
  [.dot, .openBrace, .openParen, .closeBrace, .closeParen, .comma, .semicolon, .assign]

def char : Separator → Char
  | .dot => '.'
  | .openBrace => '{'
  | .openParen => '('
  | .closeBrace => '}'
  | .closeParen => ')'
  | .comma => ','
  | .semicolon => ';'
  | .assign => '='

def spelling (separator : Separator) : String := separator.char.toString

def ofChar? (c : Char) : Option Separator := all.find? (·.char == c)

theorem mem_all (separator : Separator) : separator ∈ all := by
  cases separator <;> decide

theorem char_inj {first second : Separator} (h : first.char = second.char) :
    first = second := by
  cases first <;> cases second <;> simp_all [char]

theorem ofChar?_char (separator : Separator) : ofChar? separator.char = some separator := by
  cases separator <;> decide

theorem ofChar?_eq_some_iff {c : Char} {separator : Separator} :
    ofChar? c = some separator ↔ separator.char = c := by
  constructor
  · intro h
    simpa using List.find?_some h
  · rintro rfl
    exact ofChar?_char separator

end Separator

/-- The binary operators, logical and relational. -/
inductive Operator where
  | and
  | or
  | less
  | lessEqual
  | greater
  | greaterEqual
  | equal
deriving DecidableEq

namespace Operator

/-- All operators, an operator of two characters before each one that its
first character spells: the first of them that a text starts with is then the
longest. -/
def all : List Operator :=
  [.lessEqual, .greaterEqual, .equal, .and, .or, .less, .greater]

def spelling : Operator → String
  | .and => "&&"
  | .or => "||"
  | .less => "<"
  | .lessEqual => "<="
  | .greater => ">"
  | .greaterEqual => ">="
  | .equal => "=="

/-- How tightly an operator binds its operands; a higher number binds tighter,
and operators of one number group to the left. -/
def precedence : Operator → Nat
  | .or => 1
  | .and => 2
  | .less | .lessEqual | .greater | .greaterEqual | .equal => 3

theorem mem_all (operator : Operator) : operator ∈ all := by
  cases operator <;> decide

theorem spelling_inj {first second : Operator} (h : first.spelling = second.spelling) :
    first = second := by
  cases first <;> cases second <;> simp_all [spelling]

end Operator

/-- The value of a literal. Integers are signed words of 64 bits. -/
inductive Literal where
  | int (value : Int64)
  | bool (value : Bool)
deriving DecidableEq

namespace Literal

def spelling : Literal → String
  | .int value => value.toInt.repr
  | .bool true => "true"
  | .bool false => "false"

/-- The truth value that `word` as a whole spells. -/
def boolOfWord? (word : String) : Option Bool :=
  [true, false].find? fun value => (Literal.bool value).spelling == word

theorem boolOfWord?_eq_some_iff {word : String} {value : Bool} :
    boolOfWord? word = some value ↔ (Literal.bool value).spelling = word := by
  constructor
  · intro h
    simpa using List.find?_some h
  · rintro rfl
    cases value <;> decide

end Literal

inductive TokenKind where
  | identifier (name : String)
  | keyword (word : Keyword)
  | separator (mark : Separator)
  | literal (value : Literal)
  | typeName (name : TypeName)
  | operator (symbol : Operator)
deriving DecidableEq

namespace TokenKind

/-- What is written in a source for a token of this kind. -/
def spelling : TokenKind → String
  | .identifier name => name
  | .keyword word => word.spelling
  | .separator mark => mark.spelling
  | .literal value => value.spelling
  | .typeName name => name.spelling
  | .operator symbol => symbol.spelling

/-- The class of the token, for a message. -/
def className : TokenKind → String
  | .identifier _ => "identifier"
  | .keyword _ => "keyword"
  | .separator _ => "separator"
  | .literal _ => "literal"
  | .typeName _ => "type"
  | .operator _ => "operator"

/-- The token as a message names it: its class and its quoted spelling. -/
def description (kind : TokenKind) : String :=
  s!"{kind.className} `{kind.spelling}`"

/-- Whether a type may start here: with a built-in type or with the name of a
class. -/
def isTypeLike : TokenKind → Bool
  | .identifier _ | .typeName _ => true
  | _ => false

end TokenKind

/-- A token and the byte of the source at which it starts. -/
structure Token where
  kind : TokenKind
  offset : Nat
deriving DecidableEq

/-- The same token in a source that has `bytes` more in front. -/
def Token.shift (token : Token) (bytes : Nat) : Token :=
  { token with offset := token.offset + bytes }

end ClassLang
