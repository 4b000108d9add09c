import ClassLang.CommandLine.Host
import ClassLang.Dump.Tree
import ClassLang.FileTree
import ClassLang.Trace

/-!
The command line, apart from reading the file and writing the answer. One file
is read; its tokens are listed on request, its tree is printed on request or
when nothing else was asked for, and diagnostics go to the error output, behind
what is logged.
-/

namespace ClassLang.CommandLine

/-- A part of the error output: an event, which the log puts into words, or a
text. -/
inductive Entry where
  | event (event : Event)
  | text (text : String)
deriving DecidableEq

/-- What is written so far. -/
structure Console where
  stdout : String
  stderr : List Entry
deriving DecidableEq

/-- Part of a run. It writes, and it may end the run in a failure. -/
abbrev Command := EStateM Failure Console

namespace Command

def print (line : String) : Command Unit :=
  modify fun console => { console with stdout := console.stdout ++ line ++ "\n" }

def writeEntry (entry : Entry) : Command Unit :=
  modify fun console => { console with stderr := console.stderr ++ [entry] }

def printError (line : String) : Command Unit := writeEntry (.text (line ++ "\n"))

/-- Carry out an action, and tell what happens. -/
def perform (session : Session) (action : Action) : Command Session := do
  (session.events action).forM fun event => writeEntry (.event event)
  return session.apply action

/-- One line for each token: its offset, a tab and its description. -/
def listTokens (tokens : List Token) : Command Unit :=
  tokens.forM fun token => print s!"{token.offset}\t{token.kind.description}"

/-- Parse what was scanned, unless something is reported already. The tree is
printed on request or when nothing else was asked for. -/
def parse (options : Options) (session : Session) : Command Session :=
  if session.log.isEmpty then do
    let after ← perform session .parse
    if let .ok program := ClassLang.parse session.tokens then
      if options.tree || !options.tokens then
        print program.pretty
    return after
  else return session

/-- Print what was reported. Any report makes the run fail. -/
def conclude (options : Options) (session : Session) : Command Unit := do
  session.rendered.forM printError
  unless session.log.isEmpty do
    throw ⟨s!"{options.path} reported {session.log.length} error(s)", none⟩

/-- What happens to a source that could be read. Tokens are listed even where
there are errors. -/
def check (options : Options) (source : String) : Command Unit := do
  let session ← perform .start (.scan source)
  if options.tokens then
    listTokens session.tokens
  conclude options (← parse options session)

def ofContent (options : Options) : Except ReadFailure String → Command Unit
  | .ok source => check options source
  | .error failure => throw ⟨s!"failed to read `{options.path}`", some failure.message⟩

end Command

/-- The error output in the words of a log, behind earlier events. -/
def LogWriter.write (writer : LogWriter) (earlier : List Event) : List Entry → String
  | [] => ""
  | .event event :: rest => writer.line earlier event ++ writer.write (earlier ++ [event]) rest
  | .text text :: rest => text ++ writer.write earlier rest

namespace Host

variable (host : Host) (settings : Settings)

/-- What is left behind by a run that comes to a command. A failure is the last
that is written. -/
def report (command : Command Unit) : Report :=
  let log := host.log settings.logFilter?
  match command.run ⟨"", []⟩ with
  | .ok _ console => ⟨0, console.stdout, log.opening ++ log.write [] console.stderr⟩
  | .error failure console =>
      let ending := host.conclude settings.backtraces failure
      ⟨ending.exitCode, console.stdout, log.opening ++ log.write [] console.stderr ++ ending.text⟩

/-- The answer, given the content of the file. -/
def answer (options : Options) (content : Except ReadFailure String) : Report :=
  host.report settings (.ofContent options content)

/-- The answer to arguments that end the run. The log is open before they are
read. -/
def stop (report : Report) : Report :=
  { report with stderr := (host.log settings.logFilter?).opening ++ report.stderr }

end Host

/-- What a run of the program leaves behind in a working directory. -/
def run (host : Host) (settings : Settings) (here : FileTree.Place) (arguments : List String) :
    Report :=
  match host.readArguments arguments with
  | .ok options => host.answer settings options (here.readText options.path)
  | .error report => host.stop settings report

end ClassLang.CommandLine
