import ClassLang.Rule.Class

/-!
Reading tokens. A reader stands somewhere in a list of tokens and keeps nothing
but that position: each rule it runs starts where the one before it stopped,
whether that one answered or failed.
-/

namespace ClassLang

structure Reader where
  tokens : List Token
  position : Nat

namespace Reader

/-- A reader in front of the first token. -/
def ofTokens (tokens : List Token) : Reader := ⟨tokens, 0⟩

def unread (reader : Reader) : List Token := reader.tokens.drop reader.position

/-- The reader where these tokens are left unread. -/
def stoppedAt (reader : Reader) (rest : List Token) : Reader :=
  { reader with position := reader.tokens.length - rest.length }

/-- Behind the tokens that were taken. -/
theorem stoppedAt_append (taken rest : List Token) :
    (ofTokens (taken ++ rest)).stoppedAt rest = ⟨taken ++ rest, taken.length⟩ := by
  simp [stoppedAt, ofTokens]

/-- What is wrong where the tokens have ended is reported at the last of all
tokens, and at the start if there are none. -/
def place (reader : Reader) (thrown : Thrown) : SyntaxError :=
  ⟨thrown.fault, thrown.offset?.getD ((reader.tokens.getLast?.map Token.offset).getD 0)⟩

/-- What was thrown in front of these tokens is reported at the first of them,
else at the last token of all, else at the start. -/
theorem place_before (reader : Reader) (fault : Fault) (rest : List Token) :
    reader.place (fault.before rest) =
      ⟨fault, ((rest.head? <|> reader.tokens.getLast?).map Token.offset).getD 0⟩ := by
  cases rest <;> rfl

/-- Run a rule from here on. -/
def run {α : Type} (reader : Reader) (rule : Rule α) : Except SyntaxError α × Reader :=
  match rule reader.unread with
  | .ok value rest => (.ok value, reader.stoppedAt rest)
  | .error thrown rest => (.error (reader.place thrown), reader.stoppedAt rest)

theorem run_ok {α : Type} {reader after : Reader} {rule : Rule α} {value : α}
    (h : reader.run rule = (.ok value, after)) :
    ∃ rest, rule reader.unread = .ok value rest ∧ after = reader.stoppedAt rest := by
  unfold run at h
  split at h
  · next answer rest hrun =>
      cases h
      exact ⟨rest, hrun, rfl⟩
  · cases h

theorem run_error {α : Type} {reader after : Reader} {rule : Rule α} {error : SyntaxError}
    (h : reader.run rule = (.error error, after)) :
    ∃ thrown rest, rule reader.unread = .error thrown rest ∧ after = reader.stoppedAt rest ∧
      error = reader.place thrown := by
  unfold run at h
  split at h
  · cases h
  · next thrown rest hrun =>
      cases h
      exact ⟨thrown, rest, hrun, rfl, rfl⟩

def expression (reader : Reader) : Except SyntaxError Expression × Reader :=
  reader.run Rule.expression

def program (reader : Reader) : Except SyntaxError Program × Reader :=
  reader.run Rule.program

end Reader

/-- The program that the tokens make up, or the first syntax error. -/
def parse (tokens : List Token) : Except SyntaxError Program :=
  (Reader.ofTokens tokens).program.1

theorem parse_ok {tokens : List Token} {program : Program} (h : parse tokens = .ok program) :
    ∃ rest, Rule.program tokens = .ok program rest := by
  have hrun : (Reader.ofTokens tokens).run Rule.program =
      (.ok program, ((Reader.ofTokens tokens).run Rule.program).2) := Prod.ext h rfl
  obtain ⟨rest, hrest, _⟩ := Reader.run_ok hrun
  exact ⟨rest, hrest⟩

theorem parse_error {tokens : List Token} {error : SyntaxError} (h : parse tokens = .error error) :
    ∃ thrown rest, Rule.program tokens = .error thrown rest ∧
      error = (Reader.ofTokens tokens).place thrown := by
  have hrun : (Reader.ofTokens tokens).run Rule.program =
      (.error error, ((Reader.ofTokens tokens).run Rule.program).2) := Prod.ext h rfl
  obtain ⟨thrown, rest, hrest, _, herror⟩ := Reader.run_error hrun
  exact ⟨thrown, rest, hrest, herror⟩

end ClassLang
