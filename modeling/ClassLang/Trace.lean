import ClassLang.Session

/-!
What happens, told as events. Scanning tells of every malformed piece and of its
own end; parsing tells of each class and each member that it comes to, and of
the error that stops it. What is scanned and parsed is the same without it.
-/

namespace ClassLang

def PlacedPiece.event? (placed : PlacedPiece) : Option Event :=
  placed.piece.lexeme.error?.map (.lexicalError · placed.offset)

def scanEvents (source : String) : List Event :=
  let pieces := PlacedPiece.layOut 0 (Piece.all source.toList)
  let found := Scan.ofPlaced pieces
  pieces.filterMap PlacedPiece.event? ++
    [.finishedScanning found.tokens.length found.diagnostics.length]

/-- A rule that tells what happens while it is run, whether it answers or fails. -/
def Noted (α : Type) := List Token → List Event × EStateM.Result Thrown (List Token) α

namespace Noted

variable {α β : Type}

/-- A rule of which nothing is told. -/
def quiet (rule : Rule α) : Noted α := fun tokens => ([], rule tokens)

def andThen (first : Noted α) (next : α → Noted β) : Noted β := fun tokens =>
  match first tokens with
  | (events, .ok value rest) =>
      let (more, result) := next value rest
      (events ++ more, result)
  | (events, .error thrown rest) => (events, .error thrown rest)

instance : Monad Noted where
  pure value := quiet (pure value)
  bind := andThen

instance : ReadsTokens Noted where
  read rule := quiet rule
  note event next := fun tokens =>
    let (events, result) := next tokens
    (event :: events, result)

/-- Inside a member nothing is told. -/
def member : Noted Member :=
  let statement := Rule.statementWithin Rule.maxNesting
  let value := Rule.expressionWithin Rule.maxNesting
  Shape.member (quiet (Rule.field value)) (quiet (Rule.method statement))
    (quiet (Rule.constructor statement))

def classDecl : Noted ClassDecl :=
  Shape.classDecl (quiet Rule.identifier) (quiet Rule.parent)
    (Shape.untilClose .closeBrace member)

def program : Noted Program := Shape.program classDecl

end Noted

def parseEvents (tokens : List Token) : List Event :=
  (Noted.program tokens).1 ++
    match parse tokens with
    | .ok _ => []
    | .error error => [.parseAborted error]

/-- What happens while an action is carried out. -/
def Session.events (session : Session) : Action → List Event
  | .report _ => []
  | .scan source => scanEvents source
  | .parse => parseEvents session.tokens

end ClassLang
