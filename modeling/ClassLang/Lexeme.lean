import ClassLang.Text.Blank
import ClassLang.Token

/-!
Lexemes. A source falls into consecutive pieces: blanks, tokens and malformed
pieces. Nine rules, tried in a fixed order, say what piece a text begins with;
a text that no rule takes begins with one unexpected character. Reserved words
are matched against the whole run of word characters at hand, so that a word
that merely begins with one is an identifier.
-/

namespace ClassLang

/-- What is wrong with a malformed piece. -/
inductive LexicalError where
  | illegalIdentifier (text : String)
  | unexpectedCharacter (c : Char)
  | integerOutOfRange (text : String)
deriving DecidableEq

def LexicalError.message : LexicalError → String
  | .illegalIdentifier text =>
      s!"illegal identifier `{text}`: identifiers cannot start with a digit"
  | .unexpectedCharacter c => s!"unexpected character `{c}`"
  | .integerOutOfRange text => s!"integer literal `{text}` is out of range"

inductive Lexeme where
  | blank
  | token (kind : TokenKind)
  | malformed (error : LexicalError)
deriving DecidableEq

namespace Lexeme

def kind? : Lexeme → Option TokenKind
  | .token kind => some kind
  | _ => none

def error? : Lexeme → Option LexicalError
  | .malformed error => some error
  | _ => none

end Lexeme

/-- A stretch of a source and what it was found to be. -/
structure Piece where
  text : List Char
  lexeme : Lexeme
deriving DecidableEq

/-- The rules, named for what they take. -/
inductive LexicalRule where
  | blank
  | illegalIdentifier
  | keyword
  | typeName
  | boolean
  | integer
  | operator
  | separator
  | identifier
deriving DecidableEq

namespace LexicalRule

/-- The characters that words are made of: the letters and digits of ASCII, and
the underscore, which belongs to a word although no identifier may hold it. -/
def isWordChar (c : Char) : Bool := c.isAlphanum || c == '_'

/-- The run of word characters that a text begins with. -/
def word (text : List Char) : List Char := text.takeWhile isWordChar

/-- The number that a run of decimal digits stands for. -/
def decimalValue (digits : List Char) : Nat := Nat.ofDigitChars 10 digits 0

/-- The greatest integer literal, one less than the 63rd power of two. -/
def maxInteger : Nat := 0x7FFFFFFFFFFFFFFF

theorem maxInteger_eq : (maxInteger : Int) = Int64.maxValue.toInt := by
  decide

/-- The rules in the order in which they are tried. -/
def all : List LexicalRule :=
  [.blank, .illegalIdentifier, .keyword, .typeName, .boolean, .integer, .operator, .separator,
    .identifier]

/-- The longest run of white space. -/
def blank? (text : List Char) : Option Piece :=
  match text.takeWhile Text.isBlank with
  | [] => none
  | run => some ⟨run, .blank⟩

/-- A word that begins with a digit and does not consist of digits. It is taken
whole, so that one mistake gives one message. -/
def illegalIdentifier? (text : List Char) : Option Piece :=
  match word text with
  | [] => none
  | first :: rest =>
      if first.isDigit && !rest.all Char.isDigit then
        some ⟨first :: rest,
          .malformed (.illegalIdentifier (String.ofList (first :: rest)))⟩
      else none

/-- A word that as a whole is known to `lookup`. -/
def reservedWord? (lookup : String → Option TokenKind) (text : List Char) : Option Piece :=
  (lookup (String.ofList (word text))).map fun kind => ⟨word text, .token kind⟩

def keyword? : List Char → Option Piece :=
  reservedWord? fun text => (Keyword.ofWord? text).map .keyword

def typeName? : List Char → Option Piece :=
  reservedWord? fun text => (TypeName.ofWord? text).map .typeName

def boolean? : List Char → Option Piece :=
  reservedWord? fun text => (Literal.boolOfWord? text).map (.literal ∘ .bool)

/-- A word of digits only. Leading zeros are allowed, and a value that is too
large for an integer is an error of the whole run. -/
def integer? (text : List Char) : Option Piece :=
  match word text with
  | [] => none
  | digits =>
      if digits.all Char.isDigit then
        let value := decimalValue digits
        if value ≤ maxInteger then
          some ⟨digits, .token (.literal (.int (Int64.ofNat value)))⟩
        else some ⟨digits, .malformed (.integerOutOfRange (String.ofList digits))⟩
      else none

/-- The longest operator that the text begins with. -/
def operator? (text : List Char) : Option Piece :=
  (Operator.all.find? (·.spelling.toList.isPrefixOf text)).map fun symbol =>
    ⟨symbol.spelling.toList, .token (.operator symbol)⟩

def separator? : List Char → Option Piece
  | [] => none
  | c :: _ => (Separator.ofChar? c).map fun mark => ⟨[c], .token (.separator mark)⟩

/-- A letter and the letters and digits that follow it, all of them ASCII. -/
def identifier? : List Char → Option Piece
  | [] => none
  | c :: rest =>
      if c.isAlpha then
        let name := c :: rest.takeWhile Char.isAlphanum
        some ⟨name, .token (.identifier (String.ofList name))⟩
      else none

/-- The piece that a text begins with by one rule alone. -/
def piece? : LexicalRule → List Char → Option Piece
  | .blank => blank?
  | .illegalIdentifier => illegalIdentifier?
  | .keyword => keyword?
  | .typeName => typeName?
  | .boolean => boolean?
  | .integer => integer?
  | .operator => operator?
  | .separator => separator?
  | .identifier => identifier?

end LexicalRule

namespace Piece

/-- The piece of the first rule that takes one. -/
def ofRules? (text : List Char) : Option Piece :=
  LexicalRule.all.findSome? (·.piece? text)

/-- The piece that the text `c :: rest` begins with. -/
def first (c : Char) (rest : List Char) : Piece :=
  (ofRules? (c :: rest)).getD ⟨[c], .malformed (.unexpectedCharacter c)⟩

/-- The pieces of a text whose first `skip` characters are already part of a
piece. -/
def allAfter (skip : Nat) : List Char → List Piece
  | [] => []
  | c :: rest =>
      match skip with
      | skip + 1 => allAfter skip rest
      | 0 =>
          let piece := first c rest
          piece :: allAfter (piece.text.length - 1) rest

/-- The pieces that a text falls into, in order. -/
def all (text : List Char) : List Piece := allAfter 0 text

end Piece

end ClassLang
