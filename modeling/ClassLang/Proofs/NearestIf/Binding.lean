import ClassLang.Proofs.Answers
import ClassLang.Proofs.RoundTrip.Class
import ClassLang.Reader

/-!
Where an `else` goes. A statement that could take an `else` is never answered
with one in front of the unread tokens: the rule for `if` would have taken it.
So what is read with an `else` behind it does not end in an open `if`, at any
depth, and this is kept from the innermost statement up to the program.
-/

namespace ClassLang.Rule

section Statements

variable {statement : Rule Statement} {value : Rule Expression} {tokens : List Token}

/-- Each `else` goes where it goes when it is read, and behind a statement that
would take one none comes. -/
def ClosedBefore (statement : Statement) (rest : List Token) : Prop :=
  statement.elsesBound = true ∧
    (statement.endsOpen = true → nextIs (.keyword .elseKw) rest = false)

/-- The rule closes its statements. -/
def Closes (rule : Rule Statement) : Prop :=
  ∀ tokens, rule.Outcome tokens ClosedBefore fun _ _ => True

/-- An answer that holds no `else` and does not end in an `if`. -/
theorem closes_of_plain {rule : Rule Statement}
    (h : Answers (fun answer => answer.elsesBound = true ∧ answer.endsOpen = false) rule) :
    Closes rule := by
  intro tokens
  refine (h tokens).imp ?_
  rintro answer rest ⟨helses, hplain⟩
  refine ⟨helses, ?_⟩
  rw [hplain]
  rintro ⟨⟩

theorem closes_after {α : Type} {first : Rule α} {next : α → Rule Statement}
    (hnext : ∀ value, Closes (next value)) : Closes (first >>= next) := by
  intro tokens
  rw [outcome_bind]
  exact (answers_any first tokens).imp fun value rest _ => hnext value rest

theorem closes_ifStatement (h : Closes statement) : Closes (ifStatement statement value) := by
  apply closes_after
  intro test tokens
  rw [outcome_bind]
  refine (h tokens).imp ?_
  rintro onTrue middle ⟨helses, hopen⟩
  rw [outcome_bind]
  unfold Outcome
  rw [read_eq, accept_eq]
  cases helse : nextIs (.keyword .elseKw) middle with
  | false => exact ⟨helses, fun _ => helse⟩
  | true =>
      have hclosed : onTrue.endsOpen = false := by
        rw [Bool.eq_false_iff]
        intro honTrue
        rw [hopen honTrue] at helse
        cases helse
      refine (outcome_bind _ _).mpr ((h middle.tail).imp ?_)
      rintro onFalse rest ⟨helses', hopen'⟩
      refine ⟨?_, hopen'⟩
      rw [Statement.elsesBound, hclosed, helses, helses']
      rfl

theorem closes_whileStatement (h : Closes statement) :
    Closes (whileStatement statement value) := by
  apply closes_after
  intro test tokens
  rw [outcome_bind]
  exact (h tokens).imp fun body rest hbody => hbody

/-- Behind a block it does not matter any more how its statements end. -/
theorem answers_block_elsesBound (h : Closes statement) :
    Answers (fun body => Statement.allElsesBound body = true) (block statement) := by
  have helement : Answers (fun answer => answer.elsesBound = true) statement :=
    fun tokens => (h tokens).imp fun answer rest hanswer => hanswer.1
  apply answers_after
  intro _
  simpa only [Statement.allElsesBound_iff] using answers_untilClose helement

theorem closes_statementOf (h : Closes statement) : Closes (statementOf statement value) := by
  have hplain {α : Type} {first : Rule α} {next : α → Statement}
      (hnext : ∀ value, (next value).elsesBound = true ∧ (next value).endsOpen = false) :
      Closes (first >>= fun value => pure (next value)) :=
    closes_of_plain (answers_after fun value => answers_pure (hnext value))
  have hother (tokens : List Token) :
      Closes (if isDeclaration tokens then declaration value else expressionStatement value) := by
    split
    · apply closes_after
      intro type
      apply closes_after
      intro name
      apply closes_after
      exact fun initial => hplain fun _ => ⟨rfl, rfl⟩
    · apply closes_after
      exact fun answer => hplain fun _ => ⟨rfl, rfl⟩
  apply closes_after
  rintro (_ | ⟨⟨kind, offset⟩, rest⟩)
  · exact closes_of_plain answers_failExpecting
  cases kind with
  | separator mark =>
      cases mark with
      | semicolon => exact hplain fun _ => ⟨rfl, rfl⟩
      | openBrace =>
          apply closes_of_plain
          apply answers_bind (answers_block_elsesBound h)
          exact fun body hbody => answers_pure ⟨hbody, rfl⟩
      | dot | openParen | closeBrace | closeParen | comma | assign => exact hother _
  | keyword word =>
      cases word with
      | ifKw => exact closes_after fun _ => closes_ifStatement h
      | whileKw => exact closes_after fun _ => closes_whileStatement h
      | returnKw =>
          apply closes_after
          intro _
          apply closes_after
          intro tokens
          split
          · exact hplain fun _ => ⟨rfl, rfl⟩
          · apply closes_after
            exact fun answer => hplain fun _ => ⟨rfl, rfl⟩
      | breakKw =>
          apply closes_after
          exact fun _ => hplain fun _ => ⟨rfl, rfl⟩
      | newKw | classKw | extendsKw | elseKw => exact hother _
  | identifier name => exact hother _
  | literal value => exact hother _
  | typeName name => exact hother _
  | operator symbol => exact hother _

theorem closes_statementAt (limit levels : Nat) : Closes (statementAt limit levels) := by
  induction levels with
  | zero => exact closes_of_plain answers_fail
  | succ levels ih => exact closes_statementOf ih

end Statements

section Classes

variable {statement : Rule Statement} {value : Rule Expression}

theorem answers_memberOf_elsesBound (h : Closes statement) :
    Answers (fun member => member.elsesBound = true) (memberOf statement value) := by
  have hbody {build : List Statement → Member}
      (hbuild : ∀ body, (build body).elsesBound = Statement.allElsesBound body) :
      Answers (fun member => member.elsesBound = true)
        (block statement >>= fun body => pure (build body)) := by
    apply answers_bind (answers_block_elsesBound h)
    intro body hanswer
    exact answers_pure (by rwa [hbuild])
  apply answers_after
  rintro (_ | ⟨first, rest⟩)
  · exact answers_failExpecting
  dsimp only
  split
  · apply answers_after
    intro type
    apply answers_after
    intro name
    apply answers_after
    intro initial
    exact answers_after fun _ => answers_pure rfl
  · apply answers_after
    intro type
    apply answers_after
    intro name
    apply answers_after
    exact fun params => hbody fun _ => rfl
  · apply answers_after
    intro name
    apply answers_after
    exact fun params => hbody fun _ => rfl
  · exact answers_fail

theorem answers_classOf_elsesBound {member : Rule Member}
    (h : Answers (fun member => member.elsesBound = true) member) :
    Answers (fun classDecl => classDecl.elsesBound = true) (classOf member) := by
  apply answers_after
  intro _
  apply answers_after
  intro name
  apply answers_after
  intro parent
  apply answers_after
  intro _
  apply answers_bind (answers_untilClose h)
  exact fun members hmembers => answers_pure (List.all_eq_true.mpr hmembers)

theorem answers_programOf_elsesBound {classDecl : Rule ClassDecl}
    (h : Answers (fun classDecl => classDecl.elsesBound = true) classDecl) :
    Answers (fun program => program.elsesBound = true) (programOf classDecl) := by
  have hstep : Answers (fun answer => ∀ value ∈ answer, value.elsesBound = true)
      (classStep classDecl) := by
    apply answers_after
    intro tokens
    split
    · exact answers_none
    · exact answers_some h
  apply answers_bind (answers_collect hstep)
  intro classes hclasses
  split
  · exact answers_throw
  · exact answers_pure (List.all_eq_true.mpr hclasses)

end Classes

end ClassLang.Rule

namespace ClassLang

/-- In a program that was read, each `else` goes where it goes when it is read. -/
theorem elsesBound_of_parse {tokens : List Token} {program : Program}
    (h : parse tokens = .ok program) : program.elsesBound = true := by
  obtain ⟨rest, hrun⟩ := parse_ok h
  have hmember : Rule.Answers (fun member => member.elsesBound = true)
      (Rule.memberWithin Rule.maxNesting) :=
    Rule.answers_memberOf_elsesBound (Rule.closes_statementAt _ _)
  exact (Rule.answers_programOf_elsesBound (Rule.answers_classOf_elsesBound hmember) tokens).of_ok
    hrun

end ClassLang
