import ClassLang.Proofs.Calls
import ClassLang.Proofs.Lookahead.Classes

/-!
What a syntax error says about the place where reading stopped. A fault comes up
in front of the token that it names, and no rule that passes it on takes another
token or gives one back. So wherever a call begins, the error that it ends with
is about the token that the reader is left in front of.
-/

namespace ClassLang

/-- Whether the fault is true of the token at this position. Nothing is found
there that was looked for; a member, a statement or an expression is missed only
where the tokens have ended. -/
def Fault.Describes (tokens : List Token) (position : Nat) : Fault → Prop
  | .mismatch expected found =>
      (tokens[position]?).map Token.kind = some found ∧ ¬ expected.Accepts found
  | .endOfTokens _ => position = tokens.length
  | .unexpectedMember found | .unexpectedExpression found =>
      (tokens[position]?).map Token.kind = some found
  | .emptyProgram => position = tokens.length
  | .nestingTooDeep _ => True

/-- The offset of the token at this position, else of the last token, else of
the start. -/
def offsetAt (tokens : List Token) (position : Nat) : Nat :=
  ((tokens[position]? <|> tokens.getLast?).map Token.offset).getD 0

namespace Reader

variable {reader : Reader} {taken rest : List Token}

theorem exists_before (h : reader.unread = taken ++ rest) :
    ∃ before, reader.tokens = before ++ rest :=
  ⟨reader.tokens.take reader.position ++ taken, by
    rw [List.append_assoc, ← h, unread, List.take_append_drop]⟩

/-- Where the reader stops, it stands in front of the first token left. -/
theorem getElem?_stoppedAt (h : reader.unread = taken ++ rest) :
    reader.tokens[(reader.stoppedAt rest).position]? = rest.head? := by
  obtain ⟨before, htokens⟩ := exists_before h
  have hposition : (reader.stoppedAt rest).position = before.length := by
    simp [stoppedAt, htokens]
  rw [hposition, htokens, List.getElem?_append_right (Nat.le_refl _), Nat.sub_self,
    List.head?_eq_getElem?]

theorem describes_stoppedAt (h : reader.unread = taken ++ rest) {fault : Fault}
    (hfits : fault.Fits rest) :
    fault.Describes reader.tokens (reader.stoppedAt rest).position := by
  have hend (hnil : rest = []) : (reader.stoppedAt rest).position = reader.tokens.length := by
    simp [stoppedAt, hnil]
  cases fault with
  | mismatch expected found =>
      rw [Fault.Describes, getElem?_stoppedAt h]
      exact hfits
  | unexpectedMember found | unexpectedExpression found =>
      rw [Fault.Describes, getElem?_stoppedAt h]
      exact hfits
  | endOfTokens expected => exact hend hfits
  | emptyProgram => exact hend hfits
  | nestingTooDeep max => trivial

/-- What was thrown in front of the tokens left unread is reported where the
reader stops. -/
theorem offset_place (h : reader.unread = taken ++ rest) {thrown : Thrown}
    (hfits : thrown.Fits rest) (hfault : thrown.fault ≠ .emptyProgram) :
    (reader.place thrown).offset =
      offsetAt reader.tokens (reader.stoppedAt rest).position := by
  rw [offsetAt, getElem?_stoppedAt h, hfits.eq_before hfault, place_before]

/-- Fewer tokens left are a position further on. -/
theorem position_lt_stoppedAt (h : rest.length < reader.unread.length) :
    reader.position < (reader.stoppedAt rest).position := by
  rw [unread, List.length_drop] at h
  simp only [stoppedAt]
  omega

end Reader

namespace Call

/-- The phrases that a call reads. -/
def IsAnswer : (call : Call) → Phrase → call.Answer → Prop
  | .expression => Grammar.IsExpression
  | .program => Grammar.IsProgram

theorem reads (call : Call) : Rule.Reads call.IsAnswer call.rule := by
  cases call with
  | expression => exact Rule.reads_expressionAt Rule.maxNesting Rule.maxNesting 0
  | program => exact Rule.reads_programWithin Rule.maxNesting

theorem not_isAnswer_nil : (call : Call) → (value : call.Answer) → ¬ call.IsAnswer [] value
  | .expression, _, hvalue => hvalue.ne_nil rfl
  | .program, _, hvalue => by
      cases hvalue with
      | program hclasses hsome =>
          generalize hnil : ([] : Phrase) = phrase at hclasses
          cases hclasses with
          | nil => exact hsome rfl
          | cons head tail =>
              cases head
              simp at hnil

/-- That there are no classes is only found where a program is asked for and no
tokens are left. -/
theorem eq_emptyProgram_iff {call : Call} {tokens rest : List Token} {thrown : Thrown}
    (h : call.rule tokens = .error thrown rest) :
    thrown.fault = .emptyProgram ↔ call = .program ∧ tokens = [] := by
  cases call with
  | expression =>
      have hsees := Rule.sees_expressionAt Rule.maxNesting Rule.maxNesting 0 0 tokens
      have hfault := (hsees.of_error h).1
      simp [hfault]
  | program =>
      constructor
      · intro hempty
        cases tokens with
        | nil => exact ⟨rfl, rfl⟩
        | cons token more =>
            have hsees := Rule.seesAt_programWithin Rule.maxNesting (List.cons_ne_nil token more)
            exact absurd hempty (hsees.of_error h).1
      · rintro ⟨_, rfl⟩
        cases h
        rfl

end Call

/-- However a call ends, and wherever it began: an error is about the token that
the reader is left in front of and is reported there; an expression that was read
has taken a token, and a program all of them. -/
theorem call_describes_stop (tokens : List Token) (position : Nat) (call : Call) :
    let reader : Reader := ⟨tokens, position⟩
    let after := (reader.call call).2
    after.tokens = tokens ∧
      match (reader.call call).1 with
      | .ok _ =>
          position < after.position ∧ after.position ≤ tokens.length ∧
            (call = .program → after.position = tokens.length)
      | .error error =>
          error.fault.Describes tokens after.position ∧
            (error.fault = .emptyProgram ↔ call = .program ∧ tokens.length ≤ position) ∧
            (error.fault ≠ .emptyProgram → error.offset = offsetAt tokens after.position) := by
  intro reader after
  have hcall : reader.call call = reader.run call.rule := reader.call_eq_run call
  cases hrun : call.rule reader.unread with
  | ok value rest =>
      have hanswer : reader.call call = (.ok value, reader.stoppedAt rest) := by
        rw [hcall, Reader.run, hrun]
      simp only [after, hanswer]
      refine ⟨rfl, Reader.position_lt_stoppedAt (call.reads.shortens hrun ?_), Nat.sub_le _ _, ?_⟩
      · exact call.not_isAnswer_nil value
      · rintro rfl
        have hclass := Rule.reads_classWithin Rule.maxNesting
        obtain rfl : rest = [] := Rule.programOf_rest hclass hrun
        rfl
  | error thrown rest =>
      have hanswer : reader.call call = (.error (reader.place thrown), reader.stoppedAt rest) := by
        rw [hcall, Reader.run, hrun]
      obtain ⟨hfits, taken, htaken, _⟩ := (call.reads reader.unread).of_error hrun
      simp only [after, hanswer]
      refine ⟨rfl, Reader.describes_stoppedAt htaken hfits.fault, ?_, ?_⟩
      · exact (Call.eq_emptyProgram_iff hrun).trans
          (and_congr_right' (by rw [Reader.unread, List.drop_eq_nil_iff]))
      · exact fun hfault => Reader.offset_place htaken hfits hfault

/-- Behind the brace in `{ x = f ( new C ; 1`, an expression ends at the
semicolon. -/
theorem call_describes_stop_new :
    let tokens : List Token :=
      [⟨.separator .openBrace, 0⟩, ⟨.identifier "x", 2⟩, ⟨.separator .assign, 4⟩,
        ⟨.identifier "f", 6⟩, ⟨.separator .openParen, 8⟩, ⟨.keyword .newKw, 10⟩,
        ⟨.identifier "C", 14⟩, ⟨.separator .semicolon, 16⟩, ⟨.literal (.int 1), 18⟩]
    let fault : Fault := .mismatch (.separator .openParen) (.separator .semicolon)
    Reader.call ⟨tokens, 1⟩ .expression = (.error ⟨fault, 16⟩, ⟨tokens, 7⟩) ∧
      fault.Describes tokens 7 ∧ 16 = offsetAt tokens 7 := by
  intro tokens fault
  have hcall : Reader.call ⟨tokens, 1⟩ .expression = (.error ⟨fault, 16⟩, ⟨tokens, 7⟩) := rfl
  obtain ⟨_, hends⟩ := call_describes_stop tokens 1 .expression
  rw [hcall] at hends
  exact ⟨hcall, hends.1, hends.2.2 (by simp [fault])⟩

end ClassLang
