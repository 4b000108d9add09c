import ClassLang.Event

/-!
What a run takes from others: how its arguments are read, what a log writes of
the events that come up, and how a run ends that fails. A host is whatever does
all this. What is known of it is what its documentation promises, and no more.
-/

namespace ClassLang.CommandLine

structure Options where
  path : String
  tokens : Bool
  tree : Bool
deriving DecidableEq

/-- What a run leaves behind. -/
structure Report where
  exitCode : Nat
  stdout : String
  stderr : String
deriving DecidableEq

/-- Why a run fails, and what was behind it. -/
structure Failure where
  message : String
  cause? : Option String
deriving DecidableEq

/-- What the environment asks for. -/
structure Settings where
  /-- Which events are to be logged, if that is said. -/
  logFilter? : Option String
  /-- Whether a failure is to tell where it came up. -/
  backtraces : Bool
deriving DecidableEq

/-- Nothing is asked for. -/
def Settings.unset : Settings := ⟨none, false⟩

/-- What a log writes on the error output. -/
structure LogWriter where
  /-- What is written when the log is opened. -/
  opening : String
  /-- What is written of an event that comes up behind earlier ones. -/
  line : (earlier : List Event) → Event → String

/-- How a run that fails ends: its status, and the last that it writes on the
error output. -/
structure Ending where
  exitCode : Nat
  text : String

structure Host where
  /-- The options that the arguments ask for, or what is left behind by a run that
  ends with reading them. -/
  readArguments : List String → Except Report Options
  log : (filter? : Option String) → LogWriter
  conclude : (backtraces : Bool) → Failure → Ending

section Arguments

/-- The arguments in front of the first `--`. -/
def flagPart (arguments : List String) : List String := arguments.takeWhile (· ≠ "--")

/-- The arguments that stand for a path, whether `--` is in front of them or not. -/
def pathPart (arguments : List String) : List String :=
  (flagPart arguments).filter (fun argument => argument ≠ "--tokens" ∧ argument ≠ "--ast") ++
    (arguments.dropWhile (· ≠ "--")).tail

/-- Whether an argument is no flag even where no `--` is in front of it. A dash
alone is none. -/
def isPlain (argument : String) : Bool := argument.toList.head? ≠ some '-' || argument = "-"

/-- The arguments give one path, which is not empty, and each flag once or not
at all. -/
structure Asks (arguments : List String) (options : Options) : Prop where
  path : pathPart arguments = [options.path]
  path_ne_empty : options.path ≠ ""
  plain : ∀ argument ∈ flagPart arguments,
    argument = "--tokens" ∨ argument = "--ast" ∨ isPlain argument = true
  tokens : (flagPart arguments).count "--tokens" = options.tokens.toNat
  tree : (flagPart arguments).count "--ast" = options.tree.toNat

end Arguments

/-- What the documentation of a host promises. -/
structure Host.Documented (host : Host) : Prop where
  /-- Arguments that are well formed are read as what they ask for. -/
  readArguments {arguments : List String} {options : Options} :
    Asks arguments options → host.readArguments arguments = .ok options
  /-- Without a filter, opening the log writes nothing. -/
  log_opening : (host.log none).opening = ""
  /-- Without a filter, errors are logged and nothing else. -/
  log_line (earlier : List Event) (event : Event) :
    event.level ≠ .error → (host.log none).line earlier event = ""
  /-- A failure makes the status one. -/
  exitCode (backtraces : Bool) (failure : Failure) :
    (host.conclude backtraces failure).exitCode = 1
  /-- A failure with nothing behind it is told by its message, as an error. -/
  text (message : String) : (host.conclude false ⟨message, none⟩).text = s!"Error: {message}\n"

end ClassLang.CommandLine
