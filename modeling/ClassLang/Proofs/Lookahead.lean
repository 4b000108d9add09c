import ClassLang.Proofs.Lookahead.Classes

/-!
No decision of the parser looks further than two tokens past the next one, and
in expressions none looks past the next one. So an outcome is settled by the
tokens that were taken and by the few behind them: put anything in the place of
the others, or nothing, and it stays the same, offsets included.
-/

namespace ClassLang

namespace Reader

variable {taken rest rest' : List Token} {ahead : Nat}

/-- An error is reported at the next token, or the tokens have ended and all of
them are the same. -/
theorem place_of_alike (halike : BeginAlike ahead rest rest') {thrown : Thrown}
    (hfits : thrown.Fits rest) :
    (ofTokens (taken ++ rest')).place thrown = (ofTokens (taken ++ rest)).place thrown := by
  cases rest with
  | nil => rw [halike.eq_nil]
  | cons token more =>
      rw [hfits.eq_before hfits.ne_emptyProgram]
      rfl

/-- Tokens that are the same so far consist of those taken and of others that
begin like those that were left unread. -/
theorem exists_alike {tokens : List Token}
    (h : tokens.take (taken.length + (ahead + 1)) =
      (taken ++ rest).take (taken.length + (ahead + 1))) :
    ∃ rest', tokens = taken ++ rest' ∧ BeginAlike ahead rest rest' := by
  refine ⟨tokens.drop taken.length, ?_, ?_⟩
  · have htaken : tokens.take taken.length = taken := by
      have hless := congrArg (List.take taken.length) h
      rw [List.take_take, List.take_take, Nat.min_eq_left (Nat.le_add_right _ _)] at hless
      rw [hless, List.take_left]
    calc tokens = tokens.take taken.length ++ tokens.drop taken.length :=
          (List.take_append_drop _ _).symm
      _ = taken ++ tokens.drop taken.length := by rw [htaken]
  · have hbehind := congrArg (List.drop taken.length) h
    rw [List.drop_take, List.drop_take, Nat.add_sub_cancel_left, List.drop_left] at hbehind
    exact hbehind

/-- Other tokens that go on in the same way for so long give the same outcome
at the same position. -/
theorem run_eq_of_looksAhead {α : Type} {relation : Phrase → α → Prop} {rule : Rule α}
    (hrule : rule.LooksAhead ahead) (hreads : Rule.Reads relation rule)
    {tokens tokens' : List Token} {outcome : Except SyntaxError α} {after : Reader}
    (hrun : (ofTokens tokens).run rule = (outcome, after))
    (hsame : tokens.take (after.position + (ahead + 1)) =
      tokens'.take (after.position + (ahead + 1))) :
    (ofTokens tokens').run rule = (outcome, ⟨tokens', after.position⟩) := by
  have hunread (tokens : List Token) : (ofTokens tokens).unread = tokens := rfl
  obtain ⟨taken, htokens, hsecond⟩ := hrule tokens
  unfold run at hrun ⊢
  rw [hunread] at hrun ⊢
  cases hfirst : rule tokens with
  | ok value rest =>
      rw [hfirst] at hrun htokens hsecond
      obtain rfl : tokens = taken ++ rest := htokens
      obtain ⟨rfl, rfl⟩ := Prod.mk.inj hrun
      rw [stoppedAt_append] at hsame ⊢
      obtain ⟨rest', rfl, halike⟩ := exists_alike hsame.symm
      rw [hsecond rest' halike]
      simp only [Rule.leaving, stoppedAt_append]
  | error thrown rest =>
      rw [hfirst] at hrun htokens hsecond
      obtain rfl : tokens = taken ++ rest := htokens
      obtain ⟨rfl, rfl⟩ := Prod.mk.inj hrun
      rw [stoppedAt_append] at hsame ⊢
      obtain ⟨rest', rfl, halike⟩ := exists_alike hsame.symm
      rw [hsecond rest' halike]
      simp only [Rule.leaving, stoppedAt_append, place_of_alike halike (hreads.fits hfirst)]

end Reader

/-- Two token lists that are the same up to where a program stopped, and as far
ahead as a decision may look, give the same outcome at the same position. For
an expression the next token is all that has to be the same behind it. -/
theorem outcome_eq_of_take_eq (tokens tokens' : List Token) :
    (∀ outcome after, (Reader.ofTokens tokens).program = (outcome, after) →
      tokens.take (after.position + (Rule.maxLookahead + 1)) =
        tokens'.take (after.position + (Rule.maxLookahead + 1)) →
      (Reader.ofTokens tokens').program = (outcome, ⟨tokens', after.position⟩)) ∧
    ∀ outcome after, (Reader.ofTokens tokens).expression = (outcome, after) →
      tokens.take (after.position + 1) = tokens'.take (after.position + 1) →
      (Reader.ofTokens tokens').expression = (outcome, ⟨tokens', after.position⟩) := by
  constructor
  · intro outcome after hrun hsame
    exact Reader.run_eq_of_looksAhead (Rule.looksAhead_programWithin Rule.maxNesting)
      (Rule.reads_programWithin Rule.maxNesting) hrun hsame
  · intro outcome after hrun hsame
    exact Reader.run_eq_of_looksAhead
      (Rule.looksAhead_expressionAt Rule.maxNesting Rule.maxNesting 0)
      (Rule.reads_expressionAt Rule.maxNesting Rule.maxNesting 0) hrun hsame

/-- `class C { x y )` fails at `x`, which is no member as the third token shows;
nothing behind that matters. Nor does anything behind `;` to the expression `x`. -/
theorem outcome_eq_of_take_eq_member :
    let tokens : List Token :=
      [⟨.keyword .classKw, 0⟩, ⟨.identifier "C", 6⟩, ⟨.separator .openBrace, 8⟩,
        ⟨.identifier "x", 10⟩, ⟨.identifier "y", 12⟩, ⟨.separator .closeParen, 13⟩]
    let tokens' : List Token := tokens ++ [⟨.separator .semicolon, 14⟩]
    let value : List Token := [⟨.identifier "x", 0⟩, ⟨.separator .semicolon, 1⟩]
    let value' : List Token := value ++ [⟨.separator .closeBrace, 2⟩]
    (Reader.ofTokens tokens).program =
        (.error ⟨.unexpectedMember (.identifier "x"), 10⟩, ⟨tokens, 3⟩) ∧
      (Reader.ofTokens tokens').program =
        (.error ⟨.unexpectedMember (.identifier "x"), 10⟩, ⟨tokens', 3⟩) ∧
      (Reader.ofTokens value).expression = (.ok (.reference ["x"]), ⟨value, 1⟩) ∧
      (Reader.ofTokens value').expression = (.ok (.reference ["x"]), ⟨value', 1⟩) := by
  intro tokens tokens' value value'
  have hprogram : (Reader.ofTokens tokens).program =
      (.error ⟨.unexpectedMember (.identifier "x"), 10⟩, ⟨tokens, 3⟩) := rfl
  have hexpression : (Reader.ofTokens value).expression =
      (.ok (.reference ["x"]), ⟨value, 1⟩) := rfl
  exact ⟨hprogram, (outcome_eq_of_take_eq tokens tokens').1 _ _ hprogram rfl, hexpression,
    (outcome_eq_of_take_eq value value').2 _ _ hexpression rfl⟩

end ClassLang
