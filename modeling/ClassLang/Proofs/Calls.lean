import ClassLang.Proofs.Nesting.Limit
import ClassLang.Reader

/-!
One reader that is asked again and again, for expressions and for programs. It
counts the statements and expressions under way, and a call begins with the
count that the call before it left behind. However a call ends, the count is
back at none, so that nothing remains of it but the position: the next call
goes the way of a new reader that is given the unread tokens only.
-/

namespace ClassLang

namespace Reader

variable {α : Type} {reader : Reader} {rule : Rule α}

/-- Where reading stops is counted from the position on. -/
theorem stoppedAt_eq_fresh (h : reader.position ≤ reader.tokens.length) {rest : List Token}
    (hsuffix : rest <:+ reader.unread) :
    reader.stoppedAt rest =
      ⟨reader.tokens, reader.position + ((ofTokens reader.unread).stoppedAt rest).position⟩ := by
  have hlength := hsuffix.length_le
  have hunread : reader.unread.length = reader.tokens.length - reader.position :=
    List.length_drop
  simp only [stoppedAt, ofTokens, mk.injEq, true_and]
  omega

/-- A rule that gives no tokens back moves the position on, and not past the
end. -/
theorem position_run [hrule : rule.Forward] (h : reader.position ≤ reader.tokens.length) :
    (reader.run rule).2.tokens = reader.tokens ∧
      reader.position ≤ (reader.run rule).2.position ∧
      (reader.run rule).2.position ≤ reader.tokens.length := by
  have hstopped {rest : List Token} (hsuffix : rest <:+ reader.unread) :
      reader.position ≤ (reader.stoppedAt rest).position ∧
        (reader.stoppedAt rest).position ≤ reader.tokens.length := by
    refine ⟨?_, Nat.sub_le _ _⟩
    rw [stoppedAt_eq_fresh h hsuffix]
    exact Nat.le_add_right _ _
  have hsuffix := hrule.suffix reader.unread
  unfold run
  cases hrun : rule reader.unread with
  | ok value rest => exact ⟨rfl, hstopped (hsuffix.of_ok hrun)⟩
  | error thrown rest => exact ⟨rfl, hstopped (hsuffix.of_error hrun)⟩

/-- The last of all tokens is the last of those that are unread. -/
theorem place_drop (h : reader.position < reader.tokens.length) (thrown : Thrown) :
    reader.place thrown = (ofTokens reader.unread).place thrown := by
  have hlast : (reader.tokens.drop reader.position).getLast? = reader.tokens.getLast? := by
    rw [List.getLast?_drop, if_neg (by omega)]
  simp only [place, ofTokens, unread, hlast]

/-- Before the end, a run is the run of a new reader of the unread tokens. -/
theorem run_eq_fresh [hrule : rule.Forward] (h : reader.position < reader.tokens.length) :
    reader.run rule =
      (((ofTokens reader.unread).run rule).1,
        ⟨reader.tokens, reader.position + ((ofTokens reader.unread).run rule).2.position⟩) := by
  have hfresh : (ofTokens reader.unread).unread = reader.unread := rfl
  have hsuffix := hrule.suffix reader.unread
  unfold run
  rw [hfresh]
  cases hrun : rule reader.unread with
  | ok value rest =>
      dsimp only
      rw [stoppedAt_eq_fresh (Nat.le_of_lt h) (hsuffix.of_ok hrun)]
  | error thrown rest =>
      dsimp only
      rw [stoppedAt_eq_fresh (Nat.le_of_lt h) (hsuffix.of_error hrun), place_drop h]

end Reader

/-- What a reader may be asked for. -/
inductive Call where
  | expression
  | program
deriving DecidableEq

namespace Call

abbrev Answer : Call → Type
  | .expression => Expression
  | .program => Program

def rule : (call : Call) → Rule call.Answer
  | .expression => Rule.expression
  | .program => Rule.program

def script : (call : Call) → Script call.Answer
  | .expression => Script.expression 0
  | .program => Script.program

instance : (call : Call) → call.rule.Forward
  | .expression => inferInstanceAs (Rule.expressionWithin Rule.maxNesting).Forward
  | .program => inferInstanceAs (Rule.programWithin Rule.maxNesting).Forward

theorem follows (call : Call) :
    Tallied.Follows 0 (call.script.run (Tallied.inner (some Rule.maxNesting))) call.rule := by
  cases call with
  | expression => exact Tallied.follows_expression Rule.maxNesting
  | program => exact Tallied.follows_program Rule.maxNesting

/-- What comes of a call when all tokens have been read. -/
def outcomeAtEnd (tokens : List Token) : (call : Call) → Except SyntaxError call.Answer
  | .expression =>
      .error ⟨.endOfTokens .expression, (tokens.getLast?.map Token.offset).getD 0⟩
  | .program => .error ⟨.emptyProgram, 0⟩

end Call

def Reader.call (reader : Reader) : (call : Call) → Except SyntaxError call.Answer × Reader
  | .expression => reader.expression
  | .program => reader.program

theorem Reader.call_eq_run (reader : Reader) (call : Call) :
    reader.call call = reader.run call.rule := by
  cases call <;> rfl

theorem Reader.call_at_end {reader : Reader} (h : reader.position = reader.tokens.length)
    (call : Call) : (reader.call call).1 = call.outcomeAtEnd reader.tokens := by
  have hunread : reader.unread = [] := by
    rw [unread, h, List.drop_length]
  rw [call_eq_run]
  unfold run
  rw [hunread]
  cases call <;> rfl

/-- A reader with a count of the statements and expressions that are under way. -/
structure CountingReader extends Reader where
  depth : Nat

namespace CountingReader

def ofTokens (tokens : List Token) : CountingReader := ⟨.ofTokens tokens, 0⟩

/-- A call begins at the count of the reader and leaves it at the count that
the run ends with. -/
def call (reader : CountingReader) (call : Call) :
    Except SyntaxError call.Answer × CountingReader :=
  let start : Tally := ⟨reader.unread, reader.depth, []⟩
  match call.script.run (Tallied.inner (some Rule.maxNesting)) start with
  | .ok value stop => (.ok value, ⟨reader.stoppedAt stop.unread, stop.depth⟩)
  | .error thrown stop =>
      (.error (reader.place thrown), ⟨reader.stoppedAt stop.unread, stop.depth⟩)

def after (reader : CountingReader) (calls : List Call) : CountingReader :=
  calls.foldl (fun reader call => (reader.call call).2) reader

/-- With nothing under way a call is that of a reader without a count, and
leaves nothing under way. -/
theorem call_eq {reader : CountingReader} (h : reader.depth = 0) (call : Call) :
    reader.call call =
      ((reader.toReader.call call).1, ⟨(reader.toReader.call call).2, 0⟩) := by
  have hfollows := call.follows ⟨reader.unread, reader.depth, []⟩ h
  rw [Reader.call_eq_run]
  unfold CountingReader.call Reader.run
  cases hrun : call.rule reader.unread with
  | ok value rest =>
      obtain ⟨starts, hcounted⟩ := hfollows.of_ok hrun
      dsimp only
      rw [hcounted]
  | error thrown rest =>
      obtain ⟨starts, hcounted⟩ := hfollows.of_error hrun
      dsimp only
      rw [hcounted]

/-- Between two calls. -/
structure AtRest (tokens : List Token) (reader : CountingReader) : Prop where
  unchanged : reader.tokens = tokens
  depth : reader.depth = 0
  position : reader.position ≤ tokens.length

section AtRest

variable {tokens : List Token} {reader : CountingReader}

theorem atRest_ofTokens (tokens : List Token) : AtRest tokens (ofTokens tokens) :=
  ⟨rfl, rfl, Nat.zero_le _⟩

theorem AtRest.call (h : AtRest tokens reader) (call : Call) :
    AtRest tokens (reader.call call).2 ∧ reader.position ≤ (reader.call call).2.position := by
  obtain ⟨rfl, hdepth, hposition⟩ := h
  obtain ⟨htokens, hmoves, hend⟩ := @Reader.position_run _ reader.toReader call.rule _ hposition
  rw [call_eq hdepth, Reader.call_eq_run]
  exact ⟨⟨htokens, rfl, hend⟩, hmoves⟩

theorem AtRest.after (h : AtRest tokens reader) (calls : List Call) :
    AtRest tokens (reader.after calls) := by
  induction calls generalizing reader with
  | nil => exact h
  | cons call calls ih => exact ih (h.call call).1

/-- Before the end, a call is that of a new reader of the unread tokens. -/
theorem AtRest.call_eq_fresh (h : AtRest tokens reader) (hless : reader.position < tokens.length)
    (call : Call) :
    let fresh := (ofTokens (tokens.drop reader.position)).call call
    reader.call call = (fresh.1, ⟨⟨tokens, reader.position + fresh.2.position⟩, 0⟩) := by
  obtain ⟨rfl, hdepth, _⟩ := h
  have hfresh : (ofTokens (reader.tokens.drop reader.position)).depth = 0 := rfl
  rw [call_eq hdepth, call_eq hfresh, Reader.call_eq_run, Reader.call_eq_run,
    Reader.run_eq_fresh hless]
  rfl

theorem AtRest.call_at_end (h : AtRest tokens reader) (hend : reader.position = tokens.length)
    (call : Call) : (reader.call call).1 = call.outcomeAtEnd tokens := by
  obtain ⟨rfl, hdepth, _⟩ := h
  rw [call_eq hdepth]
  exact Reader.call_at_end hend call

end AtRest

end CountingReader

/-- Whatever a reader has been asked for, and however that ended, nothing
remains of it but the position. -/
theorem calls_leave_only_position (tokens : List Token) (calls : List Call) (call : Call) :
    let reader := (CountingReader.ofTokens tokens).after calls
    let answer := reader.call call
    let fresh := (CountingReader.ofTokens (tokens.drop reader.position)).call call
    reader.tokens = tokens ∧ reader.depth = 0 ∧ reader.position ≤ tokens.length ∧
      reader.position ≤ answer.2.position ∧
      (answer.1, answer.2.toReader) = reader.toReader.call call ∧
      if reader.position < tokens.length then
        answer.1 = fresh.1 ∧ answer.2.position = reader.position + fresh.2.position
      else reader.position = tokens.length ∧ answer.1 = call.outcomeAtEnd tokens := by
  intro reader answer fresh
  have hrest : CountingReader.AtRest tokens reader :=
    (CountingReader.atRest_ofTokens tokens).after calls
  have hcounted : (answer.1, answer.2.toReader) = reader.toReader.call call := by
    simp only [answer, CountingReader.call_eq hrest.depth]
  refine ⟨hrest.unchanged, hrest.depth, hrest.position, (hrest.call call).2, hcounted, ?_⟩
  split
  · next hless =>
      have hfresh : answer = (fresh.1, ⟨⟨tokens, reader.position + fresh.2.position⟩, 0⟩) :=
        hrest.call_eq_fresh hless call
      rw [hfresh]
      exact ⟨rfl, rfl⟩
  · next hless =>
      have hend : reader.position = tokens.length :=
        Nat.le_antisymm hrest.position (Nat.le_of_not_lt hless)
      exact ⟨hend, hrest.call_at_end hend call⟩

end ClassLang
