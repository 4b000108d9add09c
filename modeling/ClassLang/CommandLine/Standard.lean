import ClassLang.CommandLine.Host

/-!
The host that the program is run with. It reads the arguments in order. Its log
tells no times, and takes the name of a level as its filter; with any other
filter it stays empty. It knows of no places in the program, so a failure is told
in the same way with backtraces.
-/

namespace ClassLang.CommandLine

section Arguments

def help : String :=
  "Scan and parse a Moka source file\n\n" ++
  "Usage: moka [OPTIONS] <PATH>\n\n" ++
  "Arguments:\n" ++
  "  <PATH>  Source file to read\n\n" ++
  "Options:\n" ++
  "      --tokens   Print the token stream\n" ++
  "      --ast      Print the syntax tree (the default when no output is selected)\n" ++
  "  -h, --help     Print help\n" ++
  "  -V, --version  Print version\n"

/-- The answer to arguments that are not well formed. -/
def usage : Report :=
  ⟨2, "", "error: unexpected arguments\n\nUsage: moka [OPTIONS] <PATH>\n\n" ++
    "For more information, try '--help'.\n"⟩

/-- The answer to an argument that is neither a path nor one of the two flags. -/
def notice : String → Report
  | "-h" | "--help" => ⟨0, help, ""⟩
  | "-V" | "--version" => ⟨0, "moka 0.1.0\n", ""⟩
  | _ => usage

/-- The arguments read so far. -/
structure Draft where
  path? : Option String
  tokens : Bool
  tree : Bool

namespace Draft

def empty : Draft := ⟨none, false, false⟩

/-- There is one path only, and it is not empty. -/
def addPath (draft : Draft) (path : String) : Except Report Draft :=
  match draft.path? with
  | none => if path = "" then .error usage else .ok { draft with path? := some path }
  | some _ => .error usage

/-- Read the arguments in order. Each flag comes once at most, and after `--`
everything is a path. -/
def read (draft : Draft) : List String → Except Report Draft
  | [] => .ok draft
  | argument :: rest =>
      if argument = "--" then rest.foldlM addPath draft
      else if argument = "--tokens" then
        if draft.tokens then .error usage else read { draft with tokens := true } rest
      else if argument = "--ast" then
        if draft.tree then .error usage else read { draft with tree := true } rest
      else if isPlain argument then (draft.addPath argument).bind (read · rest)
      else .error (notice argument)

/-- The options, if there is a path. -/
def finish (draft : Draft) : Except Report Options :=
  match draft.path? with
  | none => .error usage
  | some path => .ok ⟨path, draft.tokens, draft.tree⟩

end Draft

end Arguments

section Log

/-- The name of a level in the log. All have the same width. -/
def levelName : Level → String
  | .error => "ERROR"
  | .warning => " WARN"
  | .information => " INFO"
  | .debug => "DEBUG"
  | .trace => "TRACE"

/-- The levels that are logged with a filter. -/
def loggedLevels : (filter? : Option String) → List Level
  | none | some "error" => [.error]
  | some "warn" => [.error, .warning]
  | some "info" => [.error, .warning, .information]
  | some "debug" => [.error, .warning, .information, .debug]
  | some "trace" => [.error, .warning, .information, .debug, .trace]
  | some _ => []

/-- One line for each event of these levels. -/
def LogWriter.ofLevels (levels : List Level) : LogWriter where
  opening := ""
  line _ event :=
    if event.level ∈ levels then
      let fields := String.join (event.fields.map fun (name, value) => s!" {name}={value}")
      s!"{levelName event.level} {event.message}{fields}\n"
    else ""

end Log

/-- What is behind a failure is told below it. -/
def Failure.text (failure : Failure) : String :=
  match failure.cause? with
  | none => s!"Error: {failure.message}\n"
  | some cause => s!"Error: {failure.message}\n\nCaused by:\n    {cause}\n"

def Host.standard : Host where
  readArguments arguments := (Draft.empty.read arguments).bind Draft.finish
  log filter? := .ofLevels (loggedLevels filter?)
  conclude _ failure := ⟨1, failure.text⟩

end ClassLang.CommandLine
