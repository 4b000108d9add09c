import ClassLang.Text.Place

/-!
Diagnostics. A message about one place of a source, and its rendering for a
reader: the place, the message, the line of the source and a caret under it.
-/

namespace ClassLang

structure Diagnostic where
  message : String
  /-- The byte of the source that the message is about. -/
  offset : Nat
deriving DecidableEq

namespace Diagnostic

def location (diagnostic : Diagnostic) (source : String) : Text.Location :=
  .ofOffset source.toList diagnostic.offset

/-- Three lines: place and message, the line of the source, and a caret below
the character at the offset. Both of the last two are indented by two spaces. -/
def render (diagnostic : Diagnostic) (source : String) : String :=
  let ⟨line, column⟩ := diagnostic.location source
  let text := String.ofList (Text.lineText source.toList line)
  let gap := String.ofList (List.replicate (column - 1) ' ')
  s!"error:{line}:{column}: {diagnostic.message}\n  {text}\n  {gap}^"

/-- The same diagnostic about a source that has `bytes` more in front. -/
def shift (diagnostic : Diagnostic) (bytes : Nat) : Diagnostic :=
  { diagnostic with offset := diagnostic.offset + bytes }

end Diagnostic

end ClassLang
