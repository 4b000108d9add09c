import ClassLang.Proofs.Levels
import ClassLang.Proofs.Taking.Expression

/-!
Expressions are read back from their phrases. A left operand without
parentheses is not read as such: it is what the loop of operators has put
together when the operator behind it comes. So the expression is followed down
its left operands, and each of them hands the loop on to the operator that it
stands in front of.
-/

namespace ClassLang.Rule

open Grammar Phrase

/-- Expressions are read back as a whole. -/
def TakesWhole (limit levels : Nat) (inner : Rule Expression) : Prop :=
  ∀ (value : Expression) follow, value.pathsNamed = true → StopsName follow → StopsAt 0 follow →
    TakesNested limit levels inner (value.phrase ++ follow) value.levels value follow

/-- Expressions are read back as operands. -/
def TakesOperands (limit levels : Nat) (operand : Nat → Rule Expression) : Prop :=
  ∀ floor (value : Expression) follow, value.pathsNamed = true → StopsName follow →
    StopsAt floor follow →
    TakesNested limit levels (operand floor) (value.operandPhrase floor ++ follow)
      (value.operandLevels floor) value follow

section Operands

variable {limit levels : Nat} {inner : Rule Expression} {follow : Phrase}

/-- A whole expression in front of a mark that ends it. -/
theorem TakesWhole.separator (h : TakesWhole limit levels inner) {value : Expression}
    {mark : Separator} (hnamed : value.pathsNamed = true) (hmark : continuesName mark = false) :
    TakesNested limit levels inner (value.phrase ++ .separator mark :: follow) value.levels value
      (.separator mark :: follow) :=
  h value _ hnamed (stopsName_separator hmark) (stopsAt_separator 0 mark follow)

/-- A comma or the closing parenthesis stands behind the first element of a
list, and no more than the comma is taken before the other elements. -/
theorem exists_mark_behind (first : Phrase) (others : List Phrase) (follow : Phrase) :
    ∃ mark rest,
      commaSeparated (first :: others) ++ .separator .closeParen :: follow =
        first ++ .separator mark :: rest ∧
      continuesName mark = false ∧
      ∀ (ok : Phrase → Prop) (failed : Fault → Prop),
        ok (commaSeparated others ++ .separator .closeParen :: follow) →
        Takes (accept (.separator .comma)) (.separator mark :: rest) (fun _ => ok) failed := by
  cases others with
  | nil =>
      refine ⟨.closeParen, follow, by rw [commaSeparated_singleton], rfl, ?_⟩
      intro ok failed hok
      exact takes_accept_of_ne (by simp) hok
  | cons second others =>
      refine ⟨.comma, commaSeparated (second :: others) ++ .separator .closeParen :: follow,
        ?_, rfl, ?_⟩
      · rw [commaSeparated_cons_cons, List.append_assoc, List.cons_append]
      · intro ok failed hok
        exact takes_accept hok

theorem takesNested_arguments (hreads : Reads IsExpression inner)
    (hinner : TakesWhole limit levels inner) (values : List Expression)
    (hnamed : Expression.allPathsNamed values = true) :
    TakesNested limit levels (listed inner)
      (commaSeparated (Expression.phrases values) ++ .separator .closeParen :: follow)
      (Expression.maxLevels values) values follow := by
  have hstep := stepAdvances_listedStep hreads
  induction values with
  | nil =>
      intro ok failed hok _
      exact takes_listed_nil hstep (hok (Nat.zero_le _))
  | cons first others ih =>
      intro ok failed hok hfailed
      rw [Expression.allPathsNamed, Bool.and_eq_true] at hnamed
      rw [Expression.maxLevels] at hok hfailed
      obtain ⟨mark, rest, hphrase, hmark, haccept⟩ :=
        exists_mark_behind first.phrase (Expression.phrases others) follow
      rw [Expression.phrases, hphrase]
      apply takes_listed_cons hstep
      · obtain ⟨kind, more, hfirst, hkind⟩ := (first.isExpression_phrase hnamed.1).exists_cons
        rw [hfirst]
        rintro ⟨⟩
        exact hkind
      apply hinner.separator hnamed.1 hmark
      · intro hfirst
        apply haccept
        apply ih hnamed.2
        · intro hothers
          exact hok (by omega)
        · intro hothers
          exact hfailed (by omega)
      · intro hfirst
        exact hfailed (by omega)

theorem takesNested_parens (hinner : TakesWhole limit levels inner) {value : Expression}
    (hnamed : value.pathsNamed = true) :
    TakesNested limit (levels + 1) (primary inner) (inParens value.phrase ++ follow)
      (value.levels + 1) value follow := by
  intro ok failed hok hfailed
  simp only [inParens, List.cons_append, List.append_assoc, List.nil_append]
  apply takes_primary_parens
  apply (hinner.separator hnamed rfl).succ
  · intro hvalue
    exact takes_separator (hok hvalue)
  · exact hfailed

/-- All expressions but those with an operator are read by `primary`. An
assignment ends where no operator comes. -/
theorem takesNested_primary (hreads : Reads IsExpression inner)
    (hinner : TakesWhole limit levels inner) {value : Expression}
    (hnamed : value.pathsNamed = true)
    (hbinary : ∀ symbol left right, value ≠ .binary symbol left right)
    (hname : StopsName follow) (hassign : value.needsParens 0 = true → StopsAt 0 follow) :
    TakesNested limit (levels + 1) (primary inner) (value.phrase ++ follow) value.levels value
      follow := by
  intro ok failed hok hfailed
  cases value with
  | literal value => exact takes_primary_literal (hok (by rw [Expression.levels]; omega))
  | reference path =>
      simp only [Expression.pathsNamed, Bool.not_eq_true', List.isEmpty_eq_false_iff] at hnamed
      apply takes_primary_reference (isPath_ofPath hnamed) hname
      exact hok (by rw [Expression.levels]; omega)
  | new className arguments =>
      rw [Expression.pathsNamed] at hnamed
      rw [Expression.levels] at hok hfailed
      rw [Expression.phrase]
      simp only [inParens, List.cons_append, List.append_assoc, List.nil_append]
      apply takes_primary_new
      exact (takesNested_arguments hreads hinner arguments hnamed).succ _ failed hok hfailed
  | call path arguments =>
      simp only [Expression.pathsNamed, Bool.and_eq_true, Bool.not_eq_true',
        List.isEmpty_eq_false_iff] at hnamed
      rw [Expression.levels] at hok hfailed
      rw [Expression.phrase]
      simp only [inParens, List.cons_append, List.append_assoc, List.nil_append]
      apply takes_primary_call (isPath_ofPath hnamed.1)
      exact (takesNested_arguments hreads hinner arguments hnamed.2).succ _ failed hok hfailed
  | assignment path value =>
      simp only [Expression.pathsNamed, Bool.and_eq_true, Bool.not_eq_true',
        List.isEmpty_eq_false_iff] at hnamed
      rw [Expression.levels] at hok hfailed
      rw [Expression.phrase, List.append_assoc]
      apply takes_primary_assignment (isPath_ofPath hnamed.1)
      exact (hinner value follow hnamed.2 hname (hassign rfl)).succ _ failed hok hfailed
  | binary symbol left right => exact absurd rfl (hbinary symbol left right)

end Operands

section Operators

variable {limit levels floor : Nat} {operand : Nat → Rule Expression} {follow : Phrase}
  {ok : Expression → Phrase → Prop} {failed : Fault → Prop}

theorem takes_climb_primary (hreads : ∀ floor, Reads IsExpression (operand floor))
    (hwhole : TakesWhole limit levels (operand 0)) {value : Expression}
    (hnamed : value.pathsNamed = true)
    (hbinary : ∀ symbol left right, value ≠ .binary symbol left right)
    (hname : StopsName follow) (hassign : value.needsParens 0 = true → StopsAt 0 follow)
    (hok : value.levels ≤ levels + 1 → Takes (climbFrom operand floor value) follow ok failed)
    (hfailed : levels + 1 < value.levels → failed (.nestingTooDeep limit)) :
    Takes (climb operand floor) (value.phrase ++ follow) ok failed := by
  rw [climb_eq_climbFrom]
  apply takes_bind
  exact takesNested_primary (hreads 0) hwhole hnamed hbinary hname hassign _ failed hok hfailed

/-- An expression without parentheses is read up to its end, and the loop goes
on from there. It has to bind at least as tightly as the operators around it,
which `tight` stands for. -/
theorem takes_climb (hreads : ∀ floor, Reads IsExpression (operand floor))
    (hwhole : TakesWhole limit levels (operand 0)) (hoperand : TakesOperands limit levels operand)
    (failed : Fault → Prop) (ok : Expression → Phrase → Prop) :
    (value : Expression) → {tight : Nat} → {follow : Phrase} → floor ≤ tight →
      value.needsParens tight = false → value.pathsNamed = true → StopsName follow →
      StopsAt (tight + 1) follow →
      (value.levels ≤ levels + 1 → Takes (climbFrom operand floor value) follow ok failed) →
      (levels + 1 < value.levels → failed (.nestingTooDeep limit)) →
      Takes (climb operand floor) (value.phrase ++ follow) ok failed
  | .literal _, _, _, _, _, hnamed, hname, _, hok, hfailed
  | .reference _, _, _, _, _, hnamed, hname, _, hok, hfailed
  | .new _ _, _, _, _, _, hnamed, hname, _, hok, hfailed
  | .call _ _, _, _, _, _, hnamed, hname, _, hok, hfailed =>
      takes_climb_primary hreads hwhole hnamed (by simp) hname (by simp [Expression.needsParens])
        hok hfailed
  | .assignment _ _, _, _, _, hparens, _, _, _, _, _ => by
      cases hparens
  | .binary symbol left right, tight, follow, hfloor, hparens, hnamed, hname, hstops, hok,
      hfailed => by
      have htight : tight ≤ symbol.precedence := by
        simpa [Expression.needsParens] using hparens
      rw [Expression.pathsNamed, Bool.and_eq_true] at hnamed
      rw [Expression.levels_binary] at hok hfailed
      rw [Expression.phrase_binary_operands, List.append_assoc, List.cons_append]
      -- whatever the left operand was read as, the loop is in front of the operator now
      have hrest (hleft : left.operandLevels symbol.precedence ≤ levels + 1) :
          Takes (climbFrom operand floor left)
            (.operator symbol :: (right.operandPhrase (symbol.precedence + 1) ++ follow)) ok
            failed := by
        apply takes_climbFrom hreads (by omega)
        apply hoperand _ right follow hnamed.2 hname (hstops.mono (by omega))
        · intro hright
          exact hok (by omega)
        · intro hright
          exact hfailed (by omega)
      have hoperator : StopsAt (symbol.precedence + 1)
          (.operator symbol :: (right.operandPhrase (symbol.precedence + 1) ++ follow)) := by
        rintro _ ⟨⟩
        omega
      cases hleft : left.needsParens symbol.precedence with
      | false =>
          simp only [Expression.operandPhrase, Expression.operandLevels, hleft] at hrest hfailed ⊢
          refine takes_climb hreads hwhole hoperand failed ok left (Nat.le_trans hfloor htight)
            hleft hnamed.1 (stopsName_operator _ _) hoperator hrest ?_
          intro hdeep
          exact hfailed (by simp only [Bool.false_eq_true, if_false]; omega)
      | true =>
          simp only [Expression.operandPhrase, Expression.operandLevels, hleft, if_true]
            at hrest hfailed ⊢
          rw [climb_eq_climbFrom]
          apply takes_bind
          apply takesNested_parens hwhole hnamed.1 _ _ hrest
          intro hdeep
          exact hfailed (by omega)

theorem takesOperands_climb (hreads : ∀ floor, Reads IsExpression (operand floor))
    (hwhole : TakesWhole limit levels (operand 0)) (hoperand : TakesOperands limit levels operand) :
    TakesOperands limit (levels + 1) (climb operand) := by
  intro floor value follow hnamed hname hstops ok failed hok hfailed
  unfold Expression.operandPhrase
  unfold Expression.operandLevels at hok hfailed
  cases hparens : value.needsParens floor with
  | true =>
      rw [if_pos hparens] at hok hfailed
      rw [if_pos rfl, climb_eq_climbFrom]
      apply takes_bind
      apply takesNested_parens hwhole hnamed
      · intro hvalue
        exact takes_climbFrom_of_stopsAt hreads hstops (hok hvalue)
      · exact hfailed
  | false =>
      rw [hparens, if_neg (by decide)] at hok hfailed
      rw [if_neg (by decide)]
      refine takes_climb hreads hwhole hoperand failed ok value (Nat.le_refl floor) hparens hnamed
        hname (hstops.mono (by omega)) ?_ hfailed
      intro hvalue
      exact takes_climbFrom_of_stopsAt hreads hstops (hok hvalue)

theorem takesWhole_climb (hreads : ∀ floor, Reads IsExpression (operand floor))
    (hwhole : TakesWhole limit levels (operand 0)) (hoperand : TakesOperands limit levels operand) :
    TakesWhole limit (levels + 1) (climb operand 0) := by
  intro value follow hnamed hname hstops ok failed hok hfailed
  cases hparens : value.needsParens 0 with
  | false =>
      refine takes_climb hreads hwhole hoperand failed ok value (Nat.le_refl 0) hparens hnamed
        hname (hstops.mono (by omega)) ?_ hfailed
      intro hvalue
      exact takes_climbFrom_of_stopsAt hreads hstops (hok hvalue)
  | true =>
      have hbinary (symbol : Operator) (left right : Expression) :
          value ≠ .binary symbol left right := by
        rintro rfl
        simp [Expression.needsParens] at hparens
      refine takes_climb_primary hreads hwhole hnamed hbinary hname (fun _ => hstops) ?_ hfailed
      intro hvalue
      exact takes_climbFrom_of_stopsAt hreads hstops (hok hvalue)

theorem takesNested_expressionAt (limit levels : Nat) :
    TakesWhole limit levels (expressionAt limit levels 0) ∧
      TakesOperands limit levels (expressionAt limit levels) := by
  induction levels with
  | zero =>
      refine ⟨?_, ?_⟩
      · intro value follow _ _ _
        exact TakesNested.of_zero value.levels_pos
      · intro floor value follow _ _ _
        exact TakesNested.of_zero (value.operandLevels_pos floor)
  | succ levels ih =>
      obtain ⟨hwhole, hoperand⟩ := ih
      have hreads := reads_expressionAt limit levels
      exact ⟨takesWhole_climb hreads hwhole hoperand, takesOperands_climb hreads hwhole hoperand⟩

end Operators

end ClassLang.Rule
