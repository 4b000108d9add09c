import ClassLang.Dump.Quoted
import ClassLang.Fault
import ClassLang.Lexeme
import ClassLang.Tree

/-!
Events. What happens on the way from a source to its program is told in events,
each at a level, for a log to write down. Nothing that is answered or reported
depends on them. When an event came up is not part of it.
-/

namespace ClassLang

/-- How much an event matters, the most important first. -/
inductive Level where
  | error
  | warning
  | information
  | debug
  | trace
deriving DecidableEq

inductive Event where
  | lexicalError (error : LexicalError) (offset : Nat)
  | finishedScanning (tokens errors : Nat)
  | parsingClass (name : String) (parent : Option String)
  | parsingMember (form : MemberForm) (offset : Nat)
  | parseAborted (error : SyntaxError)
deriving DecidableEq

namespace Event

def level : Event → Level
  | .lexicalError _ _ | .parseAborted _ => .debug
  | .finishedScanning _ _ | .parsingClass _ _ | .parsingMember _ _ => .trace

def message : Event → String
  | .lexicalError _ _ => "lexical error"
  | .finishedScanning _ _ => "finished scanning"
  | .parsingClass _ _ => "parsing class"
  | .parsingMember .field _ => "member is a field"
  | .parsingMember .method _ => "member is a method"
  | .parsingMember .constructor _ => "member is a constructor"
  | .parseAborted _ => "parse aborted"

/-- What belongs to an event, by name. -/
def fields : Event → List (String × String)
  | .lexicalError error offset => [("offset", offset.repr), ("error", error.message)]
  | .finishedScanning tokens errors => [("tokens", tokens.repr), ("errors", errors.repr)]
  | .parsingClass name parent =>
      [("class", name),
        ("parent", match parent with
          | none => "None"
          | some parent => s!"Some({Dump.quote parent})")]
  | .parsingMember _ offset => [("offset", offset.repr)]
  | .parseAborted error => [("offset", error.offset.repr), ("error", error.message)]

/-- Everything that happens is told for those who look for it only. -/
theorem level_ne_error (event : Event) : event.level ≠ .error := by
  cases event <;> exact Level.noConfusion

end Event

end ClassLang
