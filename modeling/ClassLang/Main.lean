import ClassLang.CommandLine
import ClassLang.CommandLine.Standard

/-!
The program: read the file that the arguments name, and write the answer.
-/

namespace ClassLang

/-- The failure by its number, which some operations give negated. -/
def ReadFailure.ofCode (code : UInt32) (text : String) : ReadFailure :=
  .ofNumber code.toInt32.toInt.natAbs text

def ReadFailure.ofError : IO.Error → ReadFailure
  | .alreadyExists _ code text
  | .interrupted _ code text
  | .noFileOrDirectory _ code text
  | .invalidArgument _ code text
  | .permissionDenied _ code text
  | .resourceExhausted _ code text
  | .inappropriateType _ code text
  | .noSuchThing _ code text => .ofCode code text
  | .otherError code text
  | .resourceBusy code text
  | .resourceVanished code text
  | .unsupportedOperation code text
  | .hardwareFault code text
  | .unsatisfiedConstraints code text
  | .illegalOperation code text
  | .protocolError code text
  | .timeExpired code text => .ofCode code text
  | .unexpectedEof => .other 0 "unexpected end of file"
  | .userError text => .other 0 text

def readText (path : String) : BaseIO (Except ReadFailure String) := do
  match ← (IO.FS.readBinFile path).toBaseIO with
  | .ok bytes => return ReadFailure.decode bytes
  | .error error => return .error (.ofError error)

end ClassLang

open ClassLang ClassLang.CommandLine in
def main (arguments : List String) : IO UInt32 := do
  let host := Host.standard
  let settings : Settings := { Settings.unset with logFilter? := ← IO.getEnv "MOKA_LOG" }
  let report ← match host.readArguments arguments with
    | .ok options => pure (host.answer settings options (← readText options.path))
    | .error report => pure (host.stop settings report)
  IO.print report.stdout
  IO.eprint report.stderr
  return report.exitCode.toUInt32
