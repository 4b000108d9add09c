import ClassLang.Compile

/-!
Sessions. Scans, parses and reports made one after the other share one log,
which only grows. The source and the tokens at hand are those of the last scan.
-/

namespace ClassLang

inductive Action where
  | report (diagnostic : Diagnostic)
  | scan (source : String)
  | parse
deriving DecidableEq

/-- What an action answers, its entries in the log apart. -/
inductive Answer where
  | done
  | tokens (tokens : List Token)
  | outcome (result : Except SyntaxError Program)

structure Session where
  source : String
  tokens : List Token
  log : List Diagnostic
deriving DecidableEq

namespace Session

def start : Session := ⟨"", [], []⟩

/-- The source and the tokens at hand after an action, the log left alone. -/
def advance (session : Session) : Action → Session
  | .scan source => { session with source := source, tokens := (ClassLang.scan source).tokens }
  | _ => session

def answer (session : Session) : Action → Answer
  | .report _ => .done
  | .scan source => .tokens (ClassLang.scan source).tokens
  | .parse => .outcome (ClassLang.parse session.tokens)

/-- What an action adds to the log: a scan all its lexical errors, a parse its
one syntax error if it has one. -/
def entries (session : Session) : Action → List Diagnostic
  | .report diagnostic => [diagnostic]
  | .scan source => (ClassLang.scan source).diagnostics
  | .parse =>
    match ClassLang.parse session.tokens with
    | .ok _ => []
    | .error error => [error.toDiagnostic]

def apply (session : Session) (action : Action) : Session :=
  { session.advance action with log := session.log ++ session.entries action }

/-- The log, rendered against the source at hand. -/
def rendered (session : Session) : List String :=
  session.log.map (·.render session.source)

end Session

end ClassLang
