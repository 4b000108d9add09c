import ClassLang.Proofs.Edits.Statement
import ClassLang.Proofs.Lookahead.Rules
import ClassLang.Proofs.Taking.Class
import ClassLang.Reader

/-!
The rules for members, classes and programs tolerate edits. The form of a member
is told by its first three tokens, and no place for a comma is among them.
-/

namespace ClassLang.Rule

open Grammar Outline

section Params

theorem toleratesAll_param :
    ToleratesAll EndsElement (IsWritten Written.Param.outline Written.Param.tree) param := by
  intro tokens
  apply tolerates_bind toleratesAll_type
  rintro _ _ ⟨type, rfl, rfl⟩ tokens
  apply tolerates_bind toleratesAll_identifier
  rintro _ name rfl tokens
  exact tolerates_pure ⟨⟨type, name⟩, rfl, rfl⟩

/-- The outlines of lists of parameters in parentheses. -/
def IsWrittenParams (outline : Outline) (params : List Param) : Prop :=
  ∃ written : Written.Params, outline = Outline.inParens written.outline ∧ written.tree = params

theorem exists_params_of_list {list : Outline} {params : List Param}
    (h : IsListOutline (IsWritten Written.Param.outline Written.Param.tree) list params) :
    ∃ written : Written.Params, written.outline = list ∧ written.tree = params := by
  induction h with
  | nil => exact ⟨[], rfl, rfl⟩
  | cons comma head tail ih =>
      obtain ⟨first, rfl, rfl⟩ := head
      obtain ⟨others, rfl, rfl⟩ := ih
      exact ⟨(first, comma) :: others, rfl, rfl⟩

theorem toleratesAll_params : ToleratesAll Nothing IsWrittenParams params := by
  have hne (value : Param) : ¬ IsWritten Written.Param.outline Written.Param.tree [] value := by
    rintro ⟨written, hnil, _⟩
    simp [Written.Param.outline] at hnil
  intro tokens
  apply tolerates_bind (toleratesAll_separator _)
  rintro _ ⟨⟩ rfl tokens
  apply tolerates_last
    (toleratesAll_listed stepAdvances_listedStep_param hne toleratesAll_param tokens)
  rintro _ _ ⟨list, rfl, hlist⟩
  obtain ⟨written, rfl, rfl⟩ := exists_params_of_list hlist
  exact ⟨written, rfl, rfl⟩

end Params

section Members

variable {statement : Rule Statement} {value : Rule Expression} {tokens : List Token}

/-- The outlines of members. -/
def IsWrittenMember : Outline → Member → Prop :=
  IsWritten Written.Member.outline Written.Member.tree

theorem toleratesAll_formRule (hreads : Reads IsStatement statement)
    (hstatement : ToleratesAll Nothing IsWrittenStatement statement)
    (hvalue : ToleratesAll Nothing IsWrittenExpression value) (form : MemberForm) :
    ToleratesAll Nothing IsWrittenMember (formRule statement value form) := by
  have hblock := toleratesAll_block hreads hstatement
  cases form with
  | field =>
      apply (toleratesAll_variableOf Member.field hvalue).mono
      rintro _ _ ⟨binding, rfl, rfl⟩
      exact ⟨.field binding, rfl, rfl⟩
  | method =>
      intro tokens
      apply tolerates_bind toleratesAll_type
      rintro _ _ ⟨returnType, rfl, rfl⟩ tokens
      apply tolerates_bind toleratesAll_identifier
      rintro _ name rfl tokens
      apply tolerates_bind toleratesAll_params
      rintro _ _ ⟨params, rfl, rfl⟩ tokens
      apply tolerates_bind hblock
      rintro _ _ ⟨body, rfl, rfl⟩ tokens
      refine tolerates_pure ⟨.method returnType name params body, ?_, rfl⟩
      simp [Written.Member.outline]
  | constructor =>
      intro tokens
      apply tolerates_bind toleratesAll_identifier
      rintro _ name rfl tokens
      apply tolerates_bind toleratesAll_params
      rintro _ _ ⟨params, rfl, rfl⟩ tokens
      apply tolerates_bind hblock
      rintro _ _ ⟨body, rfl, rfl⟩ tokens
      refine tolerates_pure ⟨.constructor name params body, ?_, rfl⟩
      simp [Written.Member.outline]

/-- After edits the form of the member is still the same. -/
theorem ofTokens?_of_edited {member : Written.Member} {outline : Outline} {rest follow : Phrase}
    {tokens' : List Token} (htokens : kinds tokens = phrase member.outline ++ rest)
    (hedited : Edited member.outline outline)
    (htokens' : kinds tokens' = phrase outline ++ follow) :
    MemberForm.ofTokens? tokens' = MemberForm.ofTokens? tokens := by
  obtain ⟨first, second, third, more, houtline⟩ := member.exists_outline_eq
  rw [houtline] at htokens hedited
  obtain ⟨_, rfl, hsecond⟩ := hedited.exists_cons
  obtain ⟨_, rfl, hthird⟩ := hsecond.exists_cons
  obtain ⟨_, rfl, _⟩ := hthird.exists_cons
  apply memberForm_of_alike
  unfold AlikeFor
  rw [htokens, htokens']
  rfl

theorem memberOf_cons {first : Token} {rest : List Token} :
    memberOf statement value (first :: rest) =
      (match MemberForm.ofTokens? (first :: rest) with
        | some .field => field value
        | some .method => method statement
        | some .constructor => constructor statement
        | none => fail (.unexpectedMember first.kind) : Rule Member) (first :: rest) :=
  rfl

theorem toleratesAll_memberOf (hreads : Reads IsStatement statement)
    (hstatement : ToleratesAll Nothing IsWrittenStatement statement)
    (hvalue : ToleratesAll Nothing IsWrittenExpression value) :
    ToleratesAll Nothing IsWrittenMember (memberOf statement value) := by
  intro tokens
  rcases tokens with _ | ⟨first, rest⟩
  · exact tolerates_of_error rfl
  cases hform : MemberForm.ofTokens? (first :: rest) with
  | none =>
      apply tolerates_of_error
      rw [memberOf_cons, hform]
      rfl
  | some form =>
      have hrule : memberOf statement value (first :: rest) =
          formRule statement value form (first :: rest) := by
        rw [memberOf_cons, hform]
        cases form <;> rfl
      refine tolerates_change hrule ?_ (toleratesAll_formRule hreads hstatement hvalue form _)
      rintro _ _ _ _ follow htokens ⟨member, rfl, rfl⟩ hedited htakes ok failed hok
      refine takes_member form (fun tokens' htokens' => ?_) (htakes ok failed hok)
      rw [ofTokens?_of_edited htokens hedited htokens', hform]

end Members

section Classes

variable {member : Rule Member} {classDecl : Rule ClassDecl}

theorem toleratesAll_parent :
    ToleratesAll Nothing (IsWritten Written.parentOutline id) parent := by
  intro tokens
  apply tolerates_bind (toleratesAll_accept id)
  rintro _ present rfl tokens
  cases present with
  | false => exact tolerates_pure ⟨none, rfl, rfl⟩
  | true =>
      apply tolerates_bind toleratesAll_identifier
      rintro _ name rfl tokens
      exact tolerates_pure ⟨some name, rfl, rfl⟩

/-- The outlines of classes. -/
def IsWrittenClass : Outline → ClassDecl → Prop :=
  IsWritten Written.ClassDecl.outline Written.ClassDecl.tree

theorem toleratesAll_classOf (hreads : Reads IsMember member)
    (h : ToleratesAll Nothing IsWrittenMember member) :
    ToleratesAll Nothing IsWrittenClass (classOf member) := by
  intro tokens
  apply tolerates_bind (toleratesAll_keyword _)
  rintro _ ⟨⟩ rfl tokens
  apply tolerates_bind toleratesAll_identifier
  rintro _ name rfl tokens
  apply tolerates_bind toleratesAll_parent
  rintro _ _ ⟨parent, rfl, rfl⟩ tokens
  apply tolerates_bind (toleratesAll_separator _)
  rintro _ ⟨⟩ rfl tokens
  have hstep := stepAdvances_untilStep_member hreads .closeBrace
  apply tolerates_bind (toleratesAll_untilClose hstep h)
  rintro _ _ ⟨inner, rfl, hinner⟩ tokens
  obtain ⟨members, rfl, rfl⟩ := hinner.exists_written
  refine tolerates_pure ⟨⟨name, parent, members⟩, ?_, rfl⟩
  simp [Written.ClassDecl.outline, Outline.inBraces, Outline.separator, Outline.keyword]

theorem toleratesAll_classStep (h : ToleratesAll Nothing IsWrittenClass classDecl) :
    ToleratesAll Nothing (IsStepOutline IsWrittenClass) (classStep classDecl) := by
  intro tokens
  cases tokens with
  | nil =>
      have hnone : Tolerates Nothing (IsStepOutline IsWrittenClass) [] (pure none) [] :=
        tolerates_pure rfl
      refine tolerates_decision (fun tokens' hhead => ?_) hnone
      obtain rfl := List.map_eq_nil_iff.mp (List.head?_eq_none_iff.mp hhead)
      rfl
  | cons first rest =>
      refine tolerates_decision (fun tokens' hhead => ?_) (toleratesAll_some h (first :: rest))
      obtain ⟨_, hkinds⟩ := List.head?_eq_some_iff.mp hhead
      obtain ⟨_, _, rfl, _⟩ := kinds_eq_cons hkinds
      rfl

/-- The outlines of programs. -/
def IsWrittenProgram : Outline → Program → Prop :=
  IsWritten Written.Program.outline Written.Program.tree

theorem toleratesAll_programOf (hreads : Reads IsClass classDecl)
    (h : ToleratesAll Nothing IsWrittenClass classDecl) :
    ToleratesAll Nothing IsWrittenProgram (programOf classDecl) := by
  intro tokens
  apply tolerates_bind
    (toleratesAll_collect (stepAdvances_classStep hreads) (toleratesAll_classStep h))
  intro outline classes hclasses tokens
  split
  · exact tolerates_of_error rfl
  · obtain ⟨written, rfl, rfl⟩ := hclasses.exists_written
    exact tolerates_pure ⟨⟨written⟩, rfl, rfl⟩

theorem toleratesAll_programWithin (limit : Nat) :
    ToleratesAll Nothing IsWrittenProgram (programWithin limit) := by
  have hmember : ToleratesAll Nothing IsWrittenMember (memberWithin limit) :=
    toleratesAll_memberOf (reads_statementAt limit limit) (toleratesAll_statementAt limit limit)
      (toleratesAll_expressionAt limit limit 0).strict
  have hreads := reads_memberWithin limit
  exact toleratesAll_programOf (reads_classOf hreads) (toleratesAll_classOf hreads hmember)

end Classes

end ClassLang.Rule

namespace ClassLang

open Outline (Edited)

/-- Tokens that are parsed have been written in one way, and all edits of that
are parsed into the same program. -/
theorem exists_written_of_parse {tokens : List Token} {program : Program}
    (h : parse tokens = .ok program) :
    ∃ written : Written.Program, written.phrase = kinds tokens ∧ written.tree = program ∧
      ∀ outline tokens', Edited written.outline outline → kinds tokens' = outline.phrase →
        parse tokens' = .ok program := by
  obtain ⟨rest, hrun⟩ := parse_ok h
  have hclass := Rule.reads_classOf (Rule.reads_memberWithin Rule.maxNesting)
  obtain rfl : rest = [] := Rule.programOf_rest hclass hrun
  obtain ⟨_, htokens, _, ⟨written, rfl, rfl⟩, hedits⟩ :=
    (Rule.toleratesAll_programWithin Rule.maxNesting tokens).of_ok hrun
  refine ⟨written, ?_, rfl, ?_⟩
  · rw [htokens, kinds_nil, List.append_nil]
    rfl
  · intro outline tokens' hedited htokens'
    have htakes := hedits outline [] hedited (.inl rfl) (fun answer _ => answer = written.tree)
      (fun _ => False) rfl tokens' (by rw [htokens', List.append_nil])
    cases hparse : parse tokens' with
    | ok answer =>
        obtain ⟨left, hanswer⟩ := parse_ok hparse
        rw [htakes.of_ok hanswer]
    | error error =>
        obtain ⟨thrown, left, herror, rfl⟩ := parse_error hparse
        exact (htakes.of_error herror).elim

end ClassLang
