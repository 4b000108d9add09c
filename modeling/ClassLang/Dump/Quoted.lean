/-!
Quoted text. Between the quotes stand the characters of the text, with an
escape in place of each quote, backslash and control character of ASCII; all
other characters stand for themselves. The escapes of characters beyond ASCII
that do not print are left out: no name in a source has such a character, though
a message may quote one.
-/

namespace ClassLang.Dump

/-- The characters that have an escape of one letter, each with its letter. -/
def shortEscapes : List (Char × Char) :=
  [('\"', '\"'), ('\\', '\\'), ('\n', 'n'), ('\r', 'r'), ('\t', 't'), ('\x00', '0')]

def isControl (c : Char) : Bool := c.toNat < 0x20 || c.toNat == 0x7F

/-- A character as it stands between quotes. A control character without a
letter is given by its code in hexadecimal digits. -/
def escape (c : Char) : List Char :=
  match shortEscapes.lookup c with
  | some letter => ['\\', letter]
  | none =>
      if isControl c then ['\\', 'u', '{'] ++ Nat.toDigits 16 c.toNat ++ ['}'] else [c]

def quote (text : String) : String :=
  "\"" ++ String.ofList (text.toList.flatMap escape) ++ "\""

end ClassLang.Dump
