import ClassLang.Proofs.Taking.Expression

/-!
Every derivable expression is accepted. How the operators of a derivation are
grouped does not matter to that: an expression that is read with a floor takes
a first part of the operands, and what it leaves goes on with an operator below
the floor. With no floor nothing is left.
-/

namespace ClassLang.Rule

open Grammar Phrase

/-- The one fault that a derivable phrase can meet. -/
def TooDeep (fault : Fault) : Prop := ∃ max, fault = .nestingTooDeep max

/-- The rule takes all of the phrase up to `follow`, or finds nesting too deep. -/
def TakesUpTo {α : Type} (rule : Rule α) (phrase follow : Phrase) : Prop :=
  Takes rule phrase (fun _ rest => rest = follow) TooDeep

theorem TakesUpTo.takes {α : Type} {rule : Rule α} {phrase follow : Phrase}
    {ok : α → Phrase → Prop} (h : TakesUpTo rule phrase follow) (hok : ∀ value, ok value follow) :
    Takes rule phrase ok TooDeep := by
  apply Takes.imp h
  intro value rest hrest
  rw [hrest]
  exact hok value

/-- Elements up to a closing mark. What may come behind an element is said by
`fits`: the next element does, and so does the mark. -/
theorem takes_untilClose {α : Type} {element : Rule α} {close : Separator}
    {relation : Phrase → α → Prop} {follow : Phrase} (fits : Phrase → Prop)
    (hstep : StepAdvances (untilStep close element)) (hclose : fits (.separator close :: follow))
    (hstart : ∀ phrase value, relation phrase value → ∃ kind rest, phrase = kind :: rest ∧
      kind ≠ .separator close ∧ ∀ more, fits (kind :: more))
    (helement : ∀ phrase value rest, relation phrase value → fits rest →
      TakesUpTo element (phrase ++ rest) rest)
    {phrase : Phrase} {values : List α} (h : IsSequence relation phrase values) :
    TakesUpTo (untilClose close element) (phrase ++ .separator close :: follow) follow := by
  induction h with
  | nil => exact takes_untilClose_nil hstep rfl
  | @cons first rest value _ hfirst hrest ih =>
      have hfits : fits (rest ++ .separator close :: follow) := by
        cases hrest with
        | nil => exact hclose
        | cons hnext _ =>
            obtain ⟨kind, more, rfl, _, hfits⟩ := hstart _ _ hnext
            exact hfits _
      have htakes := helement first value _ hfirst hfits
      obtain ⟨kind, more, rfl, hkind, _⟩ := hstart first value hfirst
      rw [List.append_assoc]
      apply takes_untilClose_cons hstep (by simp) (by simpa using hkind)
      exact htakes.takes fun _ => ih

/-- Nothing that an expression with this phrase would go on with. -/
def Stops (phrase follow : Phrase) : Prop :=
  (∀ symbol, follow.head? ≠ some (.operator symbol)) ∧ (EndsInName phrase → StopsName follow)

/-- What is left in front of `follow`: nothing, or an operator and an
expression. -/
inductive Remains (follow : Phrase) : Phrase → Prop where
  | nothing : Remains follow follow
  | operator (symbol : Operator) {rest : Phrase} {value : Expression}
      (hrest : IsExpression rest value) (hstops : Stops rest follow) :
      Remains follow (.operator symbol :: rest ++ follow)

/-- All expressions are taken, as far as the floor goes. -/
def AcceptsExpressions (operand : Nat → Rule Expression) : Prop :=
  ∀ floor phrase value follow, IsExpression phrase value → Stops phrase follow →
    Takes (operand floor) (phrase ++ follow)
      (fun _ rest => Remains follow rest ∧ StopsAt floor rest) TooDeep

/-- Expressions as a whole are taken. -/
def AcceptsWhole (inner : Rule Expression) : Prop :=
  ∀ phrase value follow, IsExpression phrase value → Stops phrase follow →
    TakesUpTo inner (phrase ++ follow) follow

theorem AcceptsExpressions.whole {operand : Nat → Rule Expression}
    (h : AcceptsExpressions operand) : AcceptsWhole (operand 0) := by
  intro phrase value follow hvalue hstops
  refine (h 0 phrase value follow hvalue hstops).imp ?_
  rintro _ rest ⟨hremains, hfloor⟩
  cases hremains with
  | nothing => rfl
  | operator symbol hrest hstops =>
      have hless := hfloor symbol rfl
      omega

theorem stops_separator {phrase follow : Phrase} {mark : Separator}
    (hmark : continuesName mark = false) : Stops phrase (.separator mark :: follow) :=
  ⟨by simp, fun _ => stopsName_separator hmark⟩

section Operands

variable {inner : Rule Expression} {phrase follow : Phrase}

/-- What follows a list, or an element of it, is an element, a comma or the
closing parenthesis. -/
theorem head?_arguments {list : Phrase} {values : List Expression} {kind : TokenKind}
    (hlist : IsArguments list values)
    (hkind : (list ++ .separator .closeParen :: follow).head? = some kind) :
    StartsExpression kind ∨ kind = .separator .closeParen := by
  cases hhead : list.head? with
  | none =>
      obtain rfl := List.head?_eq_none_iff.mp hhead
      exact .inr (Option.some.inj hkind).symm
  | some first =>
      rw [List.head?_append, hhead, Option.some_or, Option.some.injEq] at hkind
      exact .inl (hkind ▸ hlist.head?_startsExpression hhead)

theorem stops_element {first comma list : Phrase} {values : List Expression}
    (hcomma : IsComma comma) (hlist : IsArguments list values)
    (hends : comma = [] → EndsInName first → list.head? ≠ some (.separator .openParen)) :
    Stops first (comma ++ (list ++ .separator .closeParen :: follow)) := by
  cases hcomma with
  | present => exact stops_separator rfl
  | absent =>
      have hnot (kind : TokenKind) (hstart : ¬ StartsExpression kind)
          (hne : kind ≠ .separator .closeParen) :
          (list ++ .separator .closeParen :: follow).head? ≠ some kind := by
        intro hkind
        rcases head?_arguments hlist hkind with hstarts | hclose
        · exact hstart hstarts
        · exact hne hclose
      refine ⟨fun symbol => hnot _ id (by simp), fun hname => ?_⟩
      refine ⟨hnot _ id (by decide), hnot _ id (by decide), ?_⟩
      intro hparen
      have hhead := hends rfl hname
      cases list with
      | nil => cases hparen
      | cons kind more => exact hhead hparen

theorem takes_arguments (hreads : Reads IsExpression inner) (hinner : AcceptsWhole inner)
    {list : Phrase} {values : List Expression} (hlist : IsArguments list values) :
    TakesUpTo (listed inner) (list ++ .separator .closeParen :: follow) follow := by
  have hstep := stepAdvances_listedStep hreads
  generalize hsize : list.length = size
  induction size using Nat.strongRecOn generalizing list values with
  | ind size ih =>
      subst hsize
      cases hlist.isListChain with
      | nil => exact takes_listed_nil hstep rfl
      | @cons first comma rest value values hfirst hcomma hrest hends =>
          rw [List.append_assoc, List.append_assoc]
          obtain ⟨kind, more, rfl, hstarts⟩ := hfirst.exists_cons
          apply takes_listed_cons hstep
          · rintro hclose
            cases hclose
            exact hstarts
          refine (hinner _ value _ hfirst (stops_element hcomma hrest hends)).takes fun _ => ?_
          have hothers := ih rest.length (by simp; omega) hrest rfl
          cases hcomma with
          | present => exact takes_accept hothers
          | absent =>
              apply takes_accept_of_ne _ hothers
              intro hcomma
              rcases head?_arguments hrest hcomma with hstarts | hclose
              · exact hstarts
              · cases hclose

/-- An operand is taken up to its end, wherever a name at its end could not go
on. -/
theorem takes_operand (hreads : Reads IsExpression inner) (hinner : AcceptsWhole inner)
    (hoperand : IsOperand phrase) (hstops : EndsInName phrase → StopsName follow) :
    TakesUpTo (primary inner) (phrase ++ follow) follow := by
  cases hoperand with
  | literal value => exact takes_primary_literal rfl
  | reference hpath => exact takes_primary_reference hpath (hstops hpath.endsInName) rfl
  | new className hlist =>
      simp only [inParens, List.cons_append, List.append_assoc, List.nil_append]
      exact takes_primary_new (takes_arguments hreads hinner hlist)
  | call hpath hlist =>
      simp only [inParens, List.cons_append, List.append_assoc, List.nil_append]
      exact takes_primary_call hpath (takes_arguments hreads hinner hlist)
  | parens hvalue =>
      simp only [inParens, List.cons_append, List.append_assoc, List.nil_append]
      apply takes_primary_parens
      have hclose (phrase : Phrase) : Stops phrase (.separator .closeParen :: follow) :=
        stops_separator rfl
      refine (hinner _ _ _ hvalue (hclose _)).takes fun _ => ?_
      exact takes_separator rfl

end Operands

section Operators

variable {operand : Nat → Rule Expression} {follow : Phrase}

/-- From an operator on, operands are taken until the floor ends the loop. -/
theorem takes_remains (hreads : ∀ floor, Reads IsExpression (operand floor))
    (hoperand : AcceptsExpressions operand) (floor : Nat)
    (hfollow : ∀ symbol, follow.head? ≠ some (.operator symbol)) {phrase : Phrase}
    (hphrase : Remains follow phrase) (left : Expression) :
    Takes (climbFrom operand floor left) phrase
      (fun _ rest => Remains follow rest ∧ StopsAt floor rest) TooDeep := by
  generalize hsize : phrase.length = size
  induction size using Nat.strongRecOn generalizing phrase left with
  | ind size ih =>
      subst hsize
      cases hphrase with
      | nothing =>
          have hstops : StopsAt floor follow := fun symbol hhead => absurd hhead (hfollow symbol)
          exact takes_climbFrom_of_stopsAt hreads hstops ⟨.nothing, hstops⟩
      | @operator symbol rest value hrest hstops =>
          by_cases hfloor : floor ≤ symbol.precedence
          · apply takes_climbFrom hreads hfloor
            have hadvances : Advances (operand (symbol.precedence + 1)) :=
              (hreads _).advances fun value hvalue => hvalue.ne_nil rfl
            refine ((hoperand _ rest value follow hrest hstops).shortens hadvances).imp ?_
            rintro right more ⟨⟨hmore, _⟩, hshorter⟩
            refine ih more.length ?_ hmore _ rfl
            simp only [List.cons_append, List.length_cons]
            omega
          · have hbelow : StopsAt floor (.operator symbol :: rest ++ follow) := by
              rintro _ ⟨⟩
              omega
            exact takes_climbFrom_of_stopsAt hreads hbelow ⟨.operator symbol hrest hstops, hbelow⟩

theorem accepts_climb (hreads : ∀ floor, Reads IsExpression (operand floor))
    (hoperand : AcceptsExpressions operand) : AcceptsExpressions (climb operand) := by
  intro floor phrase value follow hvalue hstops
  rw [climb_eq_climbFrom]
  apply takes_bind
  have hfirst : Takes (primary (operand 0)) (phrase ++ follow)
      (fun _ rest => Remains follow rest) TooDeep := by
    cases hvalue.isChain with
    | last hlast =>
        refine (takes_operand (hreads 0) hoperand.whole hlast hstops.2).takes fun _ => ?_
        exact .nothing
    | @operator symbol first rest value hfirst hrest =>
        rw [List.append_assoc]
        have hname : EndsInName first →
            StopsName (.operator symbol :: rest ++ follow) :=
          fun _ => stopsName_operator symbol _
        refine (takes_operand (hreads 0) hoperand.whole hfirst hname).takes fun _ => ?_
        exact .operator symbol hrest ⟨hstops.1, fun hends => hstops.2 <|
          (endsInName_operator hrest).mpr hends⟩
    | @assignment names rest path value hpath hrest =>
        rw [List.append_assoc]
        apply takes_primary_assignment hpath
        have hends : Stops rest follow :=
          ⟨hstops.1, fun hends => hstops.2 ((endsInName_operator hrest).mpr hends)⟩
        refine (hoperand.whole rest value follow hrest hends).takes fun _ => ?_
        exact .nothing
  refine hfirst.imp ?_
  intro first rest hrest
  exact takes_remains hreads hoperand floor hstops.1 hrest first

theorem accepts_expressionAt (limit levels : Nat) :
    AcceptsExpressions (expressionAt limit levels) := by
  induction levels with
  | zero =>
      intro floor phrase value follow hvalue hstops
      exact takes_fail ⟨limit, rfl⟩
  | succ levels ih => exact accepts_climb (reads_expressionAt limit levels) ih

end Operators

end ClassLang.Rule
