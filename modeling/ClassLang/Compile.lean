import ClassLang.Reader
import ClassLang.Scan

/-!
From a source to its program, or to the diagnostics that stand in the way.
-/

namespace ClassLang

def SyntaxError.toDiagnostic (error : SyntaxError) : Diagnostic := ⟨error.message, error.offset⟩

/-- A source with lexical errors is not parsed: pieces of it would be missing
among the tokens. So the diagnostics are either all lexical errors or the one
syntax error that parsing stops at. -/
def compile (source : String) : Except (List Diagnostic) Program :=
  match scan source with
  | ⟨tokens, []⟩ => (parse tokens).mapError ([·.toDiagnostic])
  | ⟨_, diagnostics⟩ => .error diagnostics

end ClassLang
