import ClassLang.Event

/-!
Rules of the grammar as functions of the unread tokens. A rule answers with a
value or with a fault, and in both cases with the tokens that it left unread,
so that where reading stopped is known after a fault too. No rule gives tokens
back, and no decision looks past the third unread token.

The rules that put others together are written down once, for whatever can read
tokens step by step, and so are those of the grammar that use them. Their text
is the shape of a rule; the rule itself is the shape with rules in its places.
-/

namespace ClassLang

universe u

/-- A rule that reads a value of type `α`; the state is the unread tokens. -/
abbrev Rule := EStateM Thrown (List Token)

namespace Rule

/-- How far past the next token a decision may look. -/
def maxLookahead : Nat := 2

section Tokens

variable {α : Type}

/-- Fail in front of the next token. -/
def fail (fault : Fault) : Rule α := fun tokens => .error (fault.before tokens) tokens

/-- The fault that something else was expected here. -/
def failExpecting (expected : Expectation) : Rule α
  | [] => fail (.endOfTokens expected) []
  | token :: rest => fail (.mismatch expected token.kind) (token :: rest)

def nextIs (kind : TokenKind) : List Token → Bool
  | [] => false
  | token :: _ => token.kind == kind

/-- Take the next token, whatever it is. -/
def skip : Rule Unit := fun tokens => .ok () tokens.tail

/-- Take the next token if it is of this kind, and say whether it was. -/
def accept (kind : TokenKind) : Rule Bool
  | [] => .ok false []
  | token :: rest => if token.kind = kind then .ok true rest else .ok false (token :: rest)

def keyword (word : Keyword) : Rule Unit := do
  unless ← accept (.keyword word) do failExpecting (.keyword word)

def separator (mark : Separator) : Rule Unit := do
  unless ← accept (.separator mark) do failExpecting (.separator mark)

theorem accept_eq (kind : TokenKind) (tokens : List Token) :
    accept kind tokens =
      if nextIs kind tokens then .ok true tokens.tail else .ok false tokens := by
  cases tokens with
  | nil => rfl
  | cons token rest => simp [accept, nextIs]

theorem keyword_eq (word : Keyword) (tokens : List Token) :
    keyword word tokens =
      if nextIs (.keyword word) tokens then .ok () tokens.tail
      else failExpecting (.keyword word) tokens := by
  change (EStateM.bind (accept (.keyword word)) _) tokens = _
  rw [EStateM.bind, accept_eq]
  cases nextIs (.keyword word) tokens <;> rfl

theorem separator_eq (mark : Separator) (tokens : List Token) :
    separator mark tokens =
      if nextIs (.separator mark) tokens then .ok () tokens.tail
      else failExpecting (.separator mark) tokens := by
  change (EStateM.bind (accept (.separator mark)) _) tokens = _
  rw [EStateM.bind, accept_eq]
  cases nextIs (.separator mark) tokens <;> rfl

def identifier : Rule String
  | ⟨.identifier name, _⟩ :: rest => .ok name rest
  | tokens => failExpecting .identifier tokens

/-- The name of a built-in type or of a class. -/
def type : Rule String
  | ⟨.typeName name, _⟩ :: rest => .ok name.spelling rest
  | ⟨.identifier name, _⟩ :: rest => .ok name rest
  | tokens => failExpecting .type tokens

/-- The operator that comes next, if it binds at least as tightly as `floor`. -/
def operatorAtLeast (floor : Nat) : Rule (Option Operator)
  | ⟨.operator symbol, offset⟩ :: rest =>
      if floor ≤ symbol.precedence then .ok (some symbol) rest
      else .ok none (⟨.operator symbol, offset⟩ :: rest)
  | tokens => .ok none tokens

end Tokens

section Forward

variable {α : Type}

/-- How a rule ends on these tokens: `ok` is asked of the value and the tokens
left unread, `failed` of the fault and the tokens left unread. -/
def Outcome (rule : Rule α) (tokens : List Token) (ok : α → List Token → Prop)
    (failed : Thrown → List Token → Prop) : Prop :=
  match rule tokens with
  | .ok value rest => ok value rest
  | .error thrown rest => failed thrown rest

/-- A rule that gives no tokens back, whether it answers or fails. -/
class Forward (rule : Rule α) : Prop where
  suffix : ∀ tokens,
    rule.Outcome tokens (fun _ rest => rest <:+ tokens) (fun _ rest => rest <:+ tokens)

instance (value : α) : Forward (pure value) := ⟨fun _ => List.suffix_rfl⟩
instance : Forward (get : Rule (List Token)) := ⟨fun _ => List.suffix_rfl⟩
instance (thrown : Thrown) : Forward (throw thrown : Rule α) := ⟨fun _ => List.suffix_rfl⟩
instance (fault : Fault) : Forward (fail fault : Rule α) := ⟨fun _ => List.suffix_rfl⟩
instance : Forward skip := ⟨fun tokens => List.tail_suffix tokens⟩

instance (expected : Expectation) : Forward (failExpecting expected : Rule α) where
  suffix tokens := by
    cases tokens <;> exact List.suffix_rfl

instance (kind : TokenKind) : Forward (accept kind) where
  suffix tokens := by
    unfold Outcome
    rw [accept_eq]
    cases nextIs kind tokens
    · exact List.suffix_rfl
    · exact List.tail_suffix tokens

-- For separators by name: shapes that take the same one have to hold the same proof.
instance (mark : Separator) : Forward (accept (.separator mark)) := inferInstance

instance (word : Keyword) : Forward (keyword word) where
  suffix tokens := by
    unfold Outcome
    rw [keyword_eq]
    cases nextIs (.keyword word) tokens
    · exact (inferInstance : Forward (failExpecting (.keyword word) : Rule Unit)).suffix tokens
    · exact List.tail_suffix tokens

instance (mark : Separator) : Forward (separator mark) where
  suffix tokens := by
    unfold Outcome
    rw [separator_eq]
    cases nextIs (.separator mark) tokens
    · exact (inferInstance : Forward (failExpecting (.separator mark) : Rule Unit)).suffix tokens
    · exact List.tail_suffix tokens

instance : Forward identifier where
  suffix tokens := by
    unfold Outcome
    fun_cases identifier tokens
    · exact List.suffix_cons _ _
    · exact (inferInstance : Forward (failExpecting .identifier : Rule String)).suffix tokens

instance : Forward type where
  suffix tokens := by
    unfold Outcome
    fun_cases type tokens
    · exact List.suffix_cons _ _
    · exact List.suffix_cons _ _
    · exact (inferInstance : Forward (failExpecting .type : Rule String)).suffix tokens

instance (floor : Nat) : Forward (operatorAtLeast floor) where
  suffix tokens := by
    unfold Outcome
    fun_cases operatorAtLeast floor tokens
    · exact List.suffix_cons _ _
    · exact List.suffix_rfl
    · exact List.suffix_rfl

end Forward

end Rule

/-- What shapes are made of: steps that read tokens by a rule, and events that
are noted before one goes on. -/
class ReadsTokens (m : Type → Type u) where
  read {α : Type} (rule : Rule α) [rule.Forward] : m α
  note {α : Type} (event : Event) (next : m α) : m α

export ReadsTokens (read note)

/-- A rule reads by itself, and keeps no log. -/
instance : ReadsTokens Rule where
  read rule := rule
  note _ next := next

@[simp] theorem Rule.read_eq {α : Type} (rule : Rule α) [rule.Forward] :
    (read rule : Rule α) = rule :=
  rfl

namespace Shape

open Rule (accept separator nextIs)

variable {m : Type → Type u} [Monad m] [ReadsTokens m] {α : Type}

/-- Run `step` once, and `more` behind it if it answered `some`. -/
def collectOnce (step : m (Option α)) (more : m (List α)) : m (List α) := do
  match ← step with
  | none => return []
  | some first => return first :: (← more)

/-- Run `step` until it answers `none`, at most once more than `budget` has
tokens. -/
def collectWithin (step : m (Option α)) : (budget : List Token) → m (List α)
  | [] => collectOnce step (return [])
  | _ :: budget => collectOnce step (collectWithin step budget)

/-- Run `step` until it answers `none`. A step that answers `some` has to take
a token; then the unread tokens are budget enough. -/
def collect (step : m (Option α)) : m (List α) := do
  collectWithin step (← read get)

/-- One of the elements up to the separator `close`, unless that is next or the
tokens have ended. -/
def untilStep (close : Separator) (element : m α) : m (Option α) := do
  let tokens ← read get
  if tokens.isEmpty || nextIs (.separator close) tokens then return none
  else return some (← element)

/-- Elements up to the separator `close`, and the separator. -/
def untilClose (close : Separator) (element : m α) : m (List α) := do
  let elements ← collect (untilStep close element)
  read (separator close)
  return elements

/-- One element more, if `mark` comes before it. -/
def separatedStep (mark : Separator) (element : m α) : m (Option α) := do
  if ← read (accept (.separator mark)) then return some (← element) else return none

/-- One or more elements with `mark` between them. -/
def separatedBy (mark : Separator) (element : m α) : m (List α) := do
  let first ← element
  let others ← collect (separatedStep mark element)
  return first :: others

/-- One element and the comma that may follow it, unless the closing parenthesis
is next. -/
def listedStep (element : m α) : m (Option α) := do
  if nextIs (.separator .closeParen) (← read get) then return none
  else
    let value ← element
    let _ ← read (accept (.separator .comma))
    return some value

/-- Elements up to the closing parenthesis, and the parenthesis. A comma may
follow each element, and none has to. -/
def listed (element : m α) : m (List α) := do
  let elements ← collect (listedStep element)
  read (separator .closeParen)
  return elements

end Shape

namespace Rule

export Shape (collectOnce collectWithin collect untilStep untilClose separatedStep separatedBy
  listedStep listed)

end Rule

end ClassLang
