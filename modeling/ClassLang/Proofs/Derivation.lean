import ClassLang.Grammar

/-!
What derivable phrases look like from the left. The grammar is ambiguous in
three places: where operators group, where a parenthesis behind a name in a
list without commas belongs, and where an `else` belongs. For each of them one
derivation is singled out that can be followed token by token: an expression
has a first operand, a list of arguments has a first element that cannot go on,
and a statement has a form in which each `else` is taken as soon as it can be.
-/

namespace ClassLang.Grammar

open Phrase

/-- An expression with this ending could go on as a longer path, a call or an
assignment. -/
def EndsInName (phrase : Phrase) : Prop := ∃ name, phrase.getLast? = some (.identifier name)

theorem endsInName_append {first second : Phrase} (hne : second ≠ []) :
    EndsInName (first ++ second) ↔ EndsInName second := by
  unfold EndsInName
  rw [List.getLast?_append, List.getLast?_eq_some_getLast hne, Option.some_or]

theorem endsInName_cons {kind : TokenKind} {rest : Phrase} (hne : rest ≠ []) :
    EndsInName (kind :: rest) ↔ EndsInName rest := by
  rw [← List.singleton_append, endsInName_append hne]

theorem not_endsInName_inParens (first inner : Phrase) :
    ¬ EndsInName (first ++ inParens inner) := by
  rintro ⟨name, hname⟩
  rw [inParens, ← List.append_assoc, List.getLast?_concat] at hname
  cases hname

theorem IsPath.exists_cons {names : Phrase} {path : List String} (h : IsPath names path) :
    ∃ name rest, names = .identifier name :: rest ∧
      (rest = [] ∨ rest.head? = some (.separator .dot)) := by
  cases h with
  | name name => exact ⟨name, [], rfl, .inl rfl⟩
  | dot name others => exact ⟨name, _, rfl, .inr rfl⟩

theorem IsPath.ne_nil {names : Phrase} {path : List String} (h : IsPath names path) :
    names ≠ [] := by
  obtain ⟨name, rest, rfl, _⟩ := h.exists_cons
  exact List.cons_ne_nil _ _

theorem IsPath.endsInName {names : Phrase} {path : List String} (h : IsPath names path) :
    EndsInName names := by
  induction h with
  | name name => exact ⟨name, rfl⟩
  | dot name others ih =>
      have hne := others.ne_nil
      rwa [endsInName_cons (by simp), endsInName_cons hne]

/-- An operand that is no assignment. -/
inductive IsOperand : Phrase → Prop where
  | literal (value : Literal) : IsOperand [.literal value]
  | reference {names : Phrase} {path : List String} (hpath : IsPath names path) : IsOperand names
  | new (className : String) {list : Phrase} {arguments : List Expression}
      (hlist : IsArguments list arguments) :
      IsOperand (.keyword .newKw :: .identifier className :: inParens list)
  | call {names list : Phrase} {path : List String} {arguments : List Expression}
      (hpath : IsPath names path) (hlist : IsArguments list arguments) :
      IsOperand (names ++ inParens list)
  | parens {phrase : Phrase} {value : Expression} (hvalue : IsExpression phrase value) :
      IsOperand (inParens phrase)

/-- An expression from its first operand on, or from the path that it assigns
to. -/
inductive IsChain : Phrase → Prop where
  | last {phrase : Phrase} (hoperand : IsOperand phrase) : IsChain phrase
  | operator (symbol : Operator) {first rest : Phrase} {value : Expression}
      (hfirst : IsOperand first) (hrest : IsExpression rest value) :
      IsChain (first ++ .operator symbol :: rest)
  | assignment {names rest : Phrase} {path : List String} {value : Expression}
      (hpath : IsPath names path) (hrest : IsExpression rest value) :
      IsChain (names ++ .separator .assign :: rest)

theorem IsExpression.isChain {phrase : Phrase} {value : Expression} :
    IsExpression phrase value → IsChain phrase
  | .literal value => .last (.literal value)
  | .reference hpath => .last (.reference hpath)
  | .new className hlist => .last (.new className hlist)
  | .call hpath hlist => .last (.call hpath hlist)
  | .assignment hpath hvalue => .assignment hpath hvalue
  | .parens hvalue => .last (.parens hvalue)
  | .binary symbol hleft hright => by
      cases hleft.isChain with
      | last hoperand => exact .operator symbol hoperand hright
      | operator symbol' hfirst hrest =>
          rw [List.append_assoc, List.cons_append]
          exact .operator symbol' hfirst (.binary symbol hrest hright)
      | assignment hpath hrest =>
          rw [List.append_assoc, List.cons_append]
          exact .assignment hpath (.binary symbol hrest hright)

/-- The kinds of tokens that an expression can start with. -/
def StartsExpression : TokenKind → Prop
  | .literal _ | .identifier _ | .keyword .newKw | .separator .openParen => True
  | _ => False

theorem IsOperand.exists_cons {phrase : Phrase} (h : IsOperand phrase) :
    ∃ kind rest, phrase = kind :: rest ∧ StartsExpression kind := by
  cases h with
  | literal value => exact ⟨_, _, rfl, trivial⟩
  | new className hlist => exact ⟨_, _, rfl, trivial⟩
  | parens hvalue => exact ⟨_, _, rfl, trivial⟩
  | reference hpath =>
      obtain ⟨name, rest, rfl, _⟩ := hpath.exists_cons
      exact ⟨_, _, rfl, trivial⟩
  | call hpath hlist =>
      obtain ⟨name, rest, rfl, _⟩ := hpath.exists_cons
      exact ⟨_, _, rfl, trivial⟩

theorem IsExpression.exists_cons {phrase : Phrase} {value : Expression}
    (h : IsExpression phrase value) :
    ∃ kind rest, phrase = kind :: rest ∧ StartsExpression kind := by
  cases h.isChain with
  | last hoperand => exact hoperand.exists_cons
  | operator symbol hfirst hrest =>
      obtain ⟨kind, rest, rfl, hkind⟩ := hfirst.exists_cons
      exact ⟨kind, _, rfl, hkind⟩
  | assignment hpath hrest =>
      obtain ⟨name, rest, rfl, _⟩ := hpath.exists_cons
      exact ⟨_, _, rfl, trivial⟩

theorem IsExpression.ne_nil {phrase : Phrase} {value : Expression} (h : IsExpression phrase value) :
    phrase ≠ [] := by
  obtain ⟨kind, rest, rfl, _⟩ := h.exists_cons
  exact List.cons_ne_nil _ _

theorem endsInName_operator {first rest : Phrase} {kind : TokenKind} {value : Expression}
    (h : IsExpression rest value) : EndsInName (first ++ kind :: rest) ↔ EndsInName rest := by
  rw [endsInName_append (List.cons_ne_nil _ _), endsInName_cons h.ne_nil]

/-- A path with a phrase in parentheses behind it is a call, whatever else
comes behind that. -/
theorem IsPath.append_parens {names second : Phrase} {path : List String} {value : Expression}
    (hpath : IsPath names path) (hsecond : IsExpression second value)
    (hparen : second.head? = some (.separator .openParen)) :
    ∃ value', IsExpression (names ++ second) value' := by
  have hcall {phrase : Phrase} (hoperand : IsOperand phrase)
      (hphrase : phrase.head? = some (.separator .openParen)) :
      ∃ value', IsExpression (names ++ phrase) value' := by
    cases hoperand with
    | parens hvalue =>
        have hlist := IsArguments.cons hvalue .absent .nil
        simp only [List.append_nil] at hlist
        exact ⟨_, .call hpath hlist⟩
    | literal value => cases hphrase
    | new className hlist => cases hphrase
    | reference hpath' =>
        obtain ⟨name, rest, rfl, _⟩ := hpath'.exists_cons
        cases hphrase
    | call hpath' hlist =>
        obtain ⟨name, rest, rfl, _⟩ := hpath'.exists_cons
        cases hphrase
  cases hsecond.isChain with
  | last hoperand => exact hcall hoperand hparen
  | operator symbol hfirst hrest =>
      obtain ⟨kind, rest, rfl, _⟩ := hfirst.exists_cons
      obtain ⟨value', hvalue'⟩ := hcall hfirst hparen
      rw [← List.append_assoc]
      exact ⟨_, .binary symbol hvalue' hrest⟩
  | assignment hpath' hrest =>
      obtain ⟨name, rest, rfl, _⟩ := hpath'.exists_cons
      cases hparen

/-- Two expressions side by side are one if the first ends in a name and the
second begins with a parenthesis. -/
theorem IsExpression.append {first second : Phrase} {value other : Expression}
    (hsecond : IsExpression second other)
    (hparen : second.head? = some (.separator .openParen)) :
    IsExpression first value → EndsInName first → ∃ value', IsExpression (first ++ second) value'
  | .literal value, hname => by
      obtain ⟨name, hname⟩ := hname
      cases hname
  | .reference hpath, _ => hpath.append_parens hsecond hparen
  | .new className hlist, hname => absurd hname (not_endsInName_inParens [_, _] _)
  | .call hpath hlist, hname => absurd hname (not_endsInName_inParens _ _)
  | .parens hvalue, hname => absurd hname (not_endsInName_inParens [] _)
  | .assignment hpath hvalue, hname => by
      obtain ⟨value', hvalue'⟩ :=
        append hsecond hparen hvalue ((endsInName_operator hvalue).mp hname)
      rw [List.append_assoc, List.cons_append]
      exact ⟨_, .assignment hpath hvalue'⟩
  | .binary symbol hleft hright, hname => by
      obtain ⟨value', hvalue'⟩ :=
        append hsecond hparen hright ((endsInName_operator hright).mp hname)
      rw [List.append_assoc, List.cons_append]
      exact ⟨_, .binary symbol hleft hvalue'⟩

/-- A list of arguments from its first element on, where that element does not
go on in the next one. -/
inductive IsListChain : Phrase → Prop where
  | nil : IsListChain []
  | cons {first comma rest : Phrase} {value : Expression} {values : List Expression}
      (hfirst : IsExpression first value) (hcomma : IsComma comma)
      (hrest : IsArguments rest values)
      (hends : comma = [] → EndsInName first → rest.head? ≠ some (.separator .openParen)) :
      IsListChain (first ++ comma ++ rest)

theorem isListChain_cons {first comma rest : Phrase} {value : Expression}
    {values : List Expression} (hfirst : IsExpression first value) (hcomma : IsComma comma)
    (hrest : IsArguments rest values) : IsListChain (first ++ comma ++ rest) := by
  induction values generalizing first comma rest value with
  | nil =>
      cases hrest
      exact .cons hfirst hcomma .nil fun _ _ => by simp
  | cons next values ih =>
      by_cases hjoined : comma = [] ∧ EndsInName first ∧
          rest.head? = some (.separator .openParen)
      · obtain ⟨rfl, hname, hparen⟩ := hjoined
        cases hrest with
        | cons hnext hcomma' hrest' =>
            obtain ⟨kind, more, rfl, _⟩ := hnext.exists_cons
            obtain ⟨value', hvalue'⟩ := hnext.append hparen hfirst hname
            have hlonger := ih hvalue' hcomma' hrest'
            simpa using hlonger
      · refine .cons hfirst hcomma hrest ?_
        intro hnone hname hparen
        exact hjoined ⟨hnone, hname, hparen⟩

theorem IsArguments.isListChain {list : Phrase} {values : List Expression}
    (h : IsArguments list values) : IsListChain list := by
  cases h with
  | nil => exact .nil
  | cons hfirst hcomma hrest => exact isListChain_cons hfirst hcomma hrest

theorem IsArguments.head?_startsExpression {list : Phrase} {values : List Expression}
    (h : IsArguments list values) {kind : TokenKind} (hkind : list.head? = some kind) :
    StartsExpression kind := by
  cases h with
  | nil => cases hkind
  | cons hfirst hcomma hrest =>
      obtain ⟨first, more, rfl, hstarts⟩ := hfirst.exists_cons
      obtain rfl : first = kind := by simpa using hkind
      exact hstarts

/-- What comes behind the first name of a path is no name, if no name comes
behind the path. -/
theorem IsPath.head?_append_ne {start : String} {rest more : Phrase} {path : List String}
    (h : IsPath (.identifier start :: rest) path)
    (hmore : ∀ name, more.head? ≠ some (.identifier name)) (name : String) :
    (rest ++ more).head? ≠ some (.identifier name) := by
  obtain ⟨_, _, heq, hrest⟩ := h.exists_cons
  cases heq
  rcases hrest with rfl | hdot
  · exact hmore name
  · rw [List.head?_append, hdot]
    simp

/-- No name stands directly behind the one that an expression begins with, as
it would in a declaration. -/
theorem IsExpression.head?_append_ne {start : String} {rest more : Phrase} {value : Expression}
    (h : IsExpression (.identifier start :: rest) value)
    (hmore : ∀ name, more.head? ≠ some (.identifier name)) (name : String) :
    (rest ++ more).head? ≠ some (.identifier name) := by
  have hoperand {phrase behind : Phrase} (hoperand : IsOperand (.identifier start :: phrase))
      (hbehind : ∀ name, behind.head? ≠ some (.identifier name)) :
      (phrase ++ behind).head? ≠ some (.identifier name) := by
    generalize hwhole : TokenKind.identifier start :: phrase = whole at hoperand
    cases hoperand with
    | literal value => cases hwhole
    | new className hlist => cases hwhole
    | parens hvalue => cases hwhole
    | reference hpath => exact (hwhole ▸ hpath).head?_append_ne hbehind name
    | call hpath hlist =>
        obtain ⟨first, names, rfl, _⟩ := hpath.exists_cons
        rw [List.cons_append] at hwhole
        obtain ⟨hstart, rfl⟩ := List.cons_eq_cons.mp hwhole
        cases hstart
        rw [List.append_assoc]
        exact hpath.head?_append_ne (by simp [inParens]) name
  generalize hwhole : TokenKind.identifier start :: rest = whole at h
  cases h.isChain with
  | last hlast =>
      subst hwhole
      exact hoperand hlast hmore
  | operator symbol hfirst hrest =>
      obtain ⟨kind, first, rfl, _⟩ := hfirst.exists_cons
      rw [List.cons_append] at hwhole
      obtain ⟨rfl, rfl⟩ := List.cons_eq_cons.mp hwhole
      rw [List.append_assoc]
      exact hoperand hfirst (by simp)
  | assignment hpath hrest =>
      obtain ⟨first, names, rfl, _⟩ := hpath.exists_cons
      rw [List.cons_append] at hwhole
      obtain ⟨hstart, rfl⟩ := List.cons_eq_cons.mp hwhole
      cases hstart
      rw [List.append_assoc]
      exact hpath.head?_append_ne (by simp) name

/-- Whether the last thing in a statement is a statement. -/
def EndsInStatement : Statement → Prop
  | .ifThen _ _ | .ifElse _ _ _ | .whileLoop _ _ => True
  | _ => False

/-- A statement in which no `else` could have been taken earlier. The index
says whether it would take one that comes behind it. -/
inductive IsSettled : Bool → Phrase → Prop where
  | plain {phrase : Phrase} {statement : Statement} (hstatement : IsStatement phrase statement)
      (hplain : ¬ EndsInStatement statement) : IsSettled false phrase
  | ifThen {takesElse : Bool} {test first : Phrase} {condition : Expression}
      (htest : IsExpression test condition) (hfirst : IsSettled takesElse first) :
      IsSettled true (.keyword .ifKw :: inParens test ++ first)
  | ifElse {takesElse : Bool} {test first second : Phrase} {condition : Expression}
      (htest : IsExpression test condition) (hfirst : IsSettled false first)
      (hsecond : IsSettled takesElse second) :
      IsSettled takesElse (.keyword .ifKw :: inParens test ++ first ++ .keyword .elseKw :: second)
  | whileLoop {takesElse : Bool} {test inner : Phrase} {condition : Expression}
      (htest : IsExpression test condition) (hinner : IsSettled takesElse inner) :
      IsSettled takesElse (.keyword .whileKw :: inParens test ++ inner)

/-- An `else` behind a statement that takes it goes to the last `if` in there
that has none. -/
theorem IsSettled.append_else {first second : Phrase} {takesElse : Bool}
    (hfirst : IsSettled true first) (hsecond : IsSettled takesElse second) :
    ∃ takesElse', IsSettled takesElse' (first ++ .keyword .elseKw :: second) := by
  generalize hopen : true = opened at hfirst
  induction hfirst with
  | plain hstatement hplain => cases hopen
  | @ifThen opened test inner condition htest hinner ih =>
      cases opened with
      | false => exact ⟨_, .ifElse htest hinner hsecond⟩
      | true =>
          obtain ⟨takesElse', hjoined⟩ := ih rfl
          rw [List.append_assoc]
          exact ⟨_, .ifThen htest hjoined⟩
  | ifElse htest hinner hlast ihinner ihlast =>
      obtain ⟨takesElse', hjoined⟩ := ihlast hopen
      rw [List.append_assoc, List.cons_append]
      exact ⟨_, .ifElse htest hinner hjoined⟩
  | whileLoop htest hinner ih =>
      obtain ⟨takesElse', hjoined⟩ := ih hopen
      rw [List.append_assoc]
      exact ⟨_, .whileLoop htest hjoined⟩

theorem IsStatement.exists_isSettled {phrase : Phrase} {statement : Statement} :
    IsStatement phrase statement → ∃ takesElse, IsSettled takesElse phrase
  | .ifThen htest hfirst => by
      obtain ⟨takesElse, hsettled⟩ := hfirst.exists_isSettled
      exact ⟨_, .ifThen htest hsettled⟩
  | .ifElse htest hfirst hsecond => by
      obtain ⟨opened, hfirst'⟩ := hfirst.exists_isSettled
      obtain ⟨takesElse, hsecond'⟩ := hsecond.exists_isSettled
      cases opened with
      | false => exact ⟨_, .ifElse htest hfirst' hsecond'⟩
      | true =>
          obtain ⟨takesElse', hjoined⟩ := hfirst'.append_else hsecond'
          rw [List.append_assoc]
          exact ⟨_, .ifThen htest hjoined⟩
  | .whileLoop htest hinner => by
      obtain ⟨takesElse, hsettled⟩ := hinner.exists_isSettled
      exact ⟨_, .whileLoop htest hsettled⟩
  | .block hinner => ⟨false, .plain (.block hinner) id⟩
  | .returnNothing => ⟨false, .plain .returnNothing id⟩
  | .returnValue hvalue => ⟨false, .plain (.returnValue hvalue) id⟩
  | .breakStmt => ⟨false, .plain .breakStmt id⟩
  | .declaration name htype hstart => ⟨false, .plain (.declaration name htype hstart) id⟩
  | .expression hvalue => ⟨false, .plain (.expression hvalue) id⟩
  | .empty => ⟨false, .plain .empty id⟩

theorem IsStatements.isSequence {phrase : Phrase} {statements : List Statement}
    (h : IsStatements phrase statements) : IsSequence IsStatement phrase statements := by
  induction statements generalizing phrase with
  | nil =>
      cases h
      exact .nil
  | cons first others ih =>
      cases h with
      | cons hfirst hrest => exact .cons hfirst (ih hrest)

theorem IsType.exists_cons {phrase : Phrase} {type : String} (h : IsType phrase type) :
    ∃ kind, phrase = [kind] ∧ kind.isTypeLike = true := by
  cases h with
  | builtIn name => exact ⟨_, rfl, rfl⟩
  | className name => exact ⟨_, rfl, rfl⟩

theorem IsMember.exists_cons {phrase : Phrase} {member : Member} (h : IsMember phrase member) :
    ∃ kind rest, phrase = kind :: rest ∧ kind.isTypeLike = true := by
  cases h with
  | field name htype hstart =>
      obtain ⟨kind, rfl, hkind⟩ := htype.exists_cons
      exact ⟨kind, _, rfl, hkind⟩
  | method name htype hlist hinner =>
      obtain ⟨kind, rfl, hkind⟩ := htype.exists_cons
      exact ⟨kind, _, rfl, hkind⟩
  | constructor name hlist hinner => exact ⟨_, _, rfl, rfl⟩

/-- No statement begins with an `else` or with a closing brace, so neither is
ever taken for one. -/
theorem IsStatement.exists_cons {phrase : Phrase} {statement : Statement}
    (h : IsStatement phrase statement) :
    ∃ kind rest, phrase = kind :: rest ∧ kind ≠ .keyword .elseKw ∧
      kind ≠ .separator .closeBrace := by
  cases h with
  | declaration name htype hstart =>
      obtain ⟨kind, rfl, hkind⟩ := htype.exists_cons
      refine ⟨kind, _, rfl, ?_, ?_⟩ <;> rintro rfl <;> cases hkind
  | expression hvalue =>
      obtain ⟨kind, rest, rfl, hkind⟩ := hvalue.exists_cons
      refine ⟨kind, _, rfl, ?_, ?_⟩ <;> rintro rfl <;> exact hkind
  | block hinner => exact ⟨_, _, rfl, by decide⟩
  | ifThen htest hfirst => exact ⟨_, _, rfl, by decide⟩
  | ifElse htest hfirst hsecond => exact ⟨_, _, rfl, by decide⟩
  | whileLoop htest hinner => exact ⟨_, _, rfl, by decide⟩
  | returnNothing => exact ⟨_, _, rfl, by decide⟩
  | returnValue hvalue => exact ⟨_, _, rfl, by decide⟩
  | breakStmt => exact ⟨_, _, rfl, by decide⟩
  | empty => exact ⟨_, _, rfl, by decide⟩

end ClassLang.Grammar
