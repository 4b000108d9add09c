import ClassLang.Proofs.Derivation
import ClassLang.Proofs.Soundness.Expression
import ClassLang.Proofs.Taking

/-!
How the rules for expressions run. An operand is told by its first token, and a
path by what comes behind it; the loop of operators stops at one that the floor
does not allow.
-/

namespace ClassLang.Rule

open Grammar Phrase

section Paths

variable {names follow : Phrase} {path : List String}

theorem stepAdvances_pathStep : StepAdvances pathStep :=
  reads_pathStep.stepAdvances (by simp [IsStep])

/-- Behind its first name, a path is taken to its end if no dot follows. -/
theorem takes_collect_pathStep (hpath : IsPath names path)
    (hdot : follow.head? ≠ some (.separator .dot)) :
    ∃ name rest others, names = .identifier name :: rest ∧ path = name :: others ∧
      ∀ (ok : List String → Phrase → Prop) (failed : Fault → Prop), ok others follow →
        Takes (collect pathStep) (rest ++ follow) ok failed := by
  induction hpath with
  | name name =>
      refine ⟨name, [], [], rfl, rfl, ?_⟩
      intro ok failed h
      apply takes_collect stepAdvances_pathStep
      apply takes_bind
      apply takes_accept_of_ne hdot
      exact takes_pure h
  | dot name others ih =>
      obtain ⟨next, rest, others', rfl, rfl, htakes⟩ := ih
      refine ⟨name, _, _, rfl, rfl, ?_⟩
      intro ok failed h
      apply takes_collect stepAdvances_pathStep
      apply takes_bind
      apply takes_accept
      apply takes_bind
      apply takes_identifier
      apply takes_pure
      exact htakes _ failed h

theorem takes_path {failed : Fault → Prop} (hpath : IsPath names path)
    (hdot : follow.head? ≠ some (.separator .dot)) {ok : List String → Phrase → Prop}
    (h : ok path follow) : Takes Rule.path (names ++ follow) ok failed := by
  obtain ⟨name, rest, others, rfl, rfl, htakes⟩ := takes_collect_pathStep hpath hdot
  apply takes_bind
  apply takes_identifier
  apply takes_bind
  apply htakes
  exact takes_pure h

end Paths

section Operands

variable {inner : Rule Expression} {names rest follow : Phrase} {path : List String}
  {ok : Expression → Phrase → Prop} {failed : Fault → Prop}

/-- Nothing that makes a longer path, a call or an assignment of a name. -/
def StopsName (follow : Phrase) : Prop :=
  follow.head? ≠ some (.separator .dot) ∧ follow.head? ≠ some (.separator .assign) ∧
    follow.head? ≠ some (.separator .openParen)

/-- The marks that a name goes on with. -/
def continuesName : Separator → Bool
  | .dot | .assign | .openParen => true
  | .openBrace | .closeBrace | .closeParen | .comma | .semicolon => false

theorem stopsName_separator {mark : Separator} (hmark : continuesName mark = false) :
    StopsName (.separator mark :: rest) := by
  refine ⟨?_, ?_, ?_⟩
  · rintro ⟨⟩
    cases hmark
  · rintro ⟨⟩
    cases hmark
  · rintro ⟨⟩
    cases hmark

theorem stopsName_operator (symbol : Operator) (rest : Phrase) :
    StopsName (.operator symbol :: rest) :=
  ⟨by simp, by simp, by simp⟩

theorem takes_primary_literal {value : Literal} (h : ok (.literal value) rest) :
    Takes (primary inner) (.literal value :: rest) ok failed := by
  intro tokens htokens
  obtain ⟨offset, more, rfl, rfl⟩ := kinds_eq_cons htokens
  exact h

/-- What becomes of a path once it is read. -/
def pathOperand (inner : Rule Expression) (path : List String) : Rule Expression := do
  if ← accept (.separator .assign) then return .assignment path (← inner)
  else if ← accept (.separator .openParen) then return .call path (← listed inner)
  else return .reference path

theorem takes_primary_path (hpath : IsPath names path)
    (hdot : follow.head? ≠ some (.separator .dot))
    (h : Takes (pathOperand inner path) follow ok failed) :
    Takes (primary inner) (names ++ follow) ok failed := by
  have hwhole : Takes (do pathOperand inner (← Rule.path)) (names ++ follow) ok failed :=
    takes_bind (takes_path hpath hdot h)
  intro tokens htokens
  have hrun := hwhole tokens htokens
  obtain ⟨name, _, rfl, _⟩ := hpath.exists_cons
  obtain ⟨offset, more, rfl, _⟩ := kinds_eq_cons htokens
  exact hrun

theorem takes_primary_reference (hpath : IsPath names path) (hstops : StopsName follow)
    (h : ok (.reference path) follow) : Takes (primary inner) (names ++ follow) ok failed := by
  obtain ⟨hdot, hassign, hparen⟩ := hstops
  apply takes_primary_path hpath hdot
  apply takes_bind
  apply takes_accept_of_ne hassign
  apply takes_bind
  apply takes_accept_of_ne hparen
  exact takes_pure h

theorem takes_primary_assignment (hpath : IsPath names path)
    (h : Takes inner rest (fun value => ok (.assignment path value)) failed) :
    Takes (primary inner) (names ++ .separator .assign :: rest) ok failed := by
  apply takes_primary_path hpath (by simp)
  apply takes_bind
  apply takes_accept
  exact takes_map h

theorem takes_primary_call (hpath : IsPath names path)
    (h : Takes (listed inner) rest (fun arguments => ok (.call path arguments)) failed) :
    Takes (primary inner) (names ++ .separator .openParen :: rest) ok failed := by
  apply takes_primary_path hpath (by simp)
  apply takes_bind
  apply takes_accept_of_ne (by simp)
  apply takes_bind
  apply takes_accept
  exact takes_map h

theorem takes_primary_new {className : String}
    (h : Takes (listed inner) rest (fun arguments => ok (.new className arguments)) failed) :
    Takes (primary inner)
      (.keyword .newKw :: .identifier className :: .separator .openParen :: rest) ok failed := by
  intro tokens htokens
  obtain ⟨offset, more, rfl, hmore⟩ := kinds_eq_cons htokens
  refine (?_ : Takes (do
    let className ← identifier
    separator .openParen
    return .new className (← listed inner)) _ ok failed) more hmore
  apply takes_bind
  apply takes_identifier
  apply takes_bind
  apply takes_separator
  exact takes_map h

theorem takes_primary_parens
    (h : Takes inner rest
      (fun value rest => Takes (separator .closeParen) rest (fun _ => ok value) failed) failed) :
    Takes (primary inner) (.separator .openParen :: rest) ok failed := by
  intro tokens htokens
  obtain ⟨offset, more, rfl, hmore⟩ := kinds_eq_cons htokens
  refine (?_ : Takes (do
    let value ← inner
    separator .closeParen
    return value) _ ok failed) more hmore
  apply takes_bind
  refine h.imp ?_
  intro value rest hclose
  exact takes_map hclose

theorem stepAdvances_listedStep (hreads : Reads IsExpression inner) :
    StepAdvances (listedStep inner) := by
  apply (reads_listedStep hreads).stepAdvances
  rintro value ⟨first, comma, hnil, hvalue, _⟩
  exact hvalue.ne_nil (List.append_eq_nil_iff.mp hnil.symm).1

end Operands

section Operators

variable {operand : Nat → Rule Expression} {floor : Nat} {phrase rest : Phrase}
  {failed : Fault → Prop}

/-- No operator comes that the floor allows. -/
def StopsAt (floor : Nat) (phrase : Phrase) : Prop :=
  ∀ symbol, phrase.head? = some (.operator symbol) → symbol.precedence < floor

theorem StopsAt.mono {floor' : Nat} (h : StopsAt floor phrase) (hfloor : floor ≤ floor') :
    StopsAt floor' phrase := by
  intro symbol hhead
  have hless := h symbol hhead
  omega

theorem stopsAt_separator (floor : Nat) (mark : Separator) (rest : Phrase) :
    StopsAt floor (.separator mark :: rest) := by
  intro symbol hhead
  cases hhead

theorem takes_operatorAtLeast {symbol : Operator} {ok : Option Operator → Phrase → Prop}
    (hfloor : floor ≤ symbol.precedence) (h : ok (some symbol) rest) :
    Takes (operatorAtLeast floor) (.operator symbol :: rest) ok failed := by
  intro tokens htokens
  obtain ⟨offset, more, rfl, rfl⟩ := kinds_eq_cons htokens
  have hrun : operatorAtLeast floor (⟨.operator symbol, offset⟩ :: more) = .ok (some symbol) more :=
    if_pos hfloor
  unfold Outcome
  rw [hrun]
  exact h

theorem takes_operatorAtLeast_of_stopsAt {ok : Option Operator → Phrase → Prop}
    (hstops : StopsAt floor phrase) (h : ok none phrase) :
    Takes (operatorAtLeast floor) phrase ok failed := by
  rintro tokens rfl
  unfold Outcome
  fun_cases operatorAtLeast floor tokens
  · next symbol offset more hfloor =>
      have hless := hstops symbol rfl
      omega
  · exact h
  · exact h

theorem stepAdvances_operandStep (hoperand : ∀ floor, Reads IsExpression (operand floor)) :
    StepAdvances (operandStep operand floor) :=
  (reads_operandStep hoperand floor).stepAdvances (by simp [IsStep, IsRightOperand])

/-- An operator that the floor allows: its right operand, and more operators. -/
theorem takes_operators (hoperand : ∀ floor, Reads IsExpression (operand floor))
    {symbol : Operator} {ok : List (Operator × Expression) → Phrase → Prop}
    (hfloor : floor ≤ symbol.precedence)
    (h : Takes (operand (symbol.precedence + 1)) rest
      (fun right rest => Takes (collect (operandStep operand floor)) rest
        (fun others => ok ((symbol, right) :: others)) failed)
      failed) :
    Takes (collect (operandStep operand floor)) (.operator symbol :: rest) ok failed := by
  apply takes_collect (stepAdvances_operandStep hoperand)
  apply takes_bind
  apply takes_operatorAtLeast hfloor
  exact takes_map h

theorem takes_operators_of_stopsAt (hoperand : ∀ floor, Reads IsExpression (operand floor))
    {ok : List (Operator × Expression) → Phrase → Prop} (hstops : StopsAt floor phrase)
    (h : ok [] phrase) : Takes (collect (operandStep operand floor)) phrase ok failed := by
  apply takes_collect (stepAdvances_operandStep hoperand)
  apply takes_bind
  apply takes_operatorAtLeast_of_stopsAt hstops
  exact takes_pure h

/-- The loop of operators with what it has put together so far. -/
def climbFrom (operand : Nat → Rule Expression) (floor : Nat) (left : Expression) :
    Rule Expression := do
  let others ← collect (operandStep operand floor)
  return others.foldl (fun left (symbol, right) => .binary symbol left right) left

theorem climb_eq_climbFrom (operand : Nat → Rule Expression) (floor : Nat) :
    climb operand floor = primary (operand 0) >>= climbFrom operand floor :=
  rfl

theorem takes_climbFrom (hreads : ∀ floor, Reads IsExpression (operand floor))
    {left : Expression} {symbol : Operator} {ok : Expression → Phrase → Prop}
    (hfloor : floor ≤ symbol.precedence)
    (h : Takes (operand (symbol.precedence + 1)) rest
      (fun right rest => Takes (climbFrom operand floor (.binary symbol left right)) rest ok failed)
      failed) :
    Takes (climbFrom operand floor left) (.operator symbol :: rest) ok failed := by
  apply takes_bind
  apply takes_operators hreads hfloor
  refine h.imp ?_
  intro right rest hloop tokens htokens
  refine ((outcome_bind _ _).mp (hloop tokens htokens)).imp ?_
  exact fun _ _ hothers => takes_pure hothers

theorem takes_climbFrom_of_stopsAt (hreads : ∀ floor, Reads IsExpression (operand floor))
    {left : Expression} {ok : Expression → Phrase → Prop} (hstops : StopsAt floor phrase)
    (h : ok left phrase) :
    Takes (climbFrom operand floor left) phrase ok failed := by
  apply takes_bind
  apply takes_operators_of_stopsAt hreads hstops
  exact takes_pure h

end Operators

end ClassLang.Rule
