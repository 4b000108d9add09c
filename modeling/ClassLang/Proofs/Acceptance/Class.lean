import ClassLang.Proofs.Acceptance.Statement
import ClassLang.Proofs.Taking.Class

/-!
Exactly the derivable lists of tokens are accepted, as long as the limit of
nesting is not met. Each of the choices made by looking ahead is forced by the
phrase of the member or statement that is there, whatever comes after it.
-/

namespace ClassLang

open Grammar Phrase

namespace Rule

variable {statement : Rule Statement} {value : Rule Expression} {follow : Phrase}

/-- All members are taken. -/
def AcceptsMembers (member : Rule Member) : Prop :=
  ∀ phrase answer follow, IsMember phrase answer →
    TakesUpTo member (phrase ++ follow) follow

theorem takes_body (hreads : Reads IsStatement statement) (h : AcceptsStatements statement)
    {inner : Phrase} {body : List Statement} (hinner : IsStatements inner body) :
    TakesUpTo (block statement) (inBraces inner ++ follow) follow := by
  simp only [inBraces, List.cons_append, List.append_assoc, List.nil_append]
  exact takes_block (takes_statements hreads h hinner)

theorem accepts_memberOf (hreads : Reads IsStatement statement)
    (hstatement : AcceptsStatements statement) (hvalue : AcceptsWhole value) :
    AcceptsMembers (memberOf statement value) := by
  intro phrase answer follow hphrase
  cases hphrase with
  | field name htype hstart =>
      simp only [List.cons_append, List.append_assoc, List.nil_append]
      exact takes_member_field (startsDeclaration_variable htype hstart)
        (takes_variable Member.field hvalue htype hstart)
  | method name htype hlist hinner =>
      simp only [List.cons_append, List.append_assoc]
      exact takes_member_method htype hlist (takes_body hreads hstatement hinner)
  | constructor name hlist hinner =>
      simp only [List.cons_append, List.append_assoc]
      exact takes_member_constructor hlist (takes_body hreads hstatement hinner)

variable {member : Rule Member} {classDecl : Rule ClassDecl}

theorem takes_members (hreads : Reads IsMember member) (h : AcceptsMembers member)
    {inner : Phrase} {members : List Member} (hinner : IsSequence IsMember inner members) :
    TakesUpTo (untilClose .closeBrace member) (inner ++ .separator .closeBrace :: follow)
      follow := by
  refine takes_untilClose (fun _ => True) (stepAdvances_untilStep_member hreads .closeBrace)
    trivial ?_ ?_ hinner
  · intro phrase answer hanswer
    obtain ⟨kind, more, hphrase, hkind⟩ := hanswer.exists_cons
    refine ⟨kind, more, hphrase, ?_, fun _ => trivial⟩
    rintro rfl
    cases hkind
  · intro phrase answer rest hanswer _
    exact h phrase answer rest hanswer

/-- All classes are taken. -/
def AcceptsClasses (classDecl : Rule ClassDecl) : Prop :=
  ∀ phrase answer follow, IsClass phrase answer →
    TakesUpTo classDecl (phrase ++ follow) follow

theorem accepts_classOf (hreads : Reads IsMember member) (h : AcceptsMembers member) :
    AcceptsClasses (classOf member) := by
  intro phrase answer follow hphrase
  cases hphrase with
  | classDecl name hparent hinner =>
      simp only [inBraces, List.cons_append, List.append_assoc, List.nil_append]
      exact takes_class hparent (takes_members hreads h hinner)

theorem takes_classes (hreads : Reads IsClass classDecl) (h : AcceptsClasses classDecl)
    {phrase : Phrase} {classes : List ClassDecl} (hclasses : IsSequence IsClass phrase classes) :
    Takes (collect (classStep classDecl)) phrase
      (fun answer rest => answer.length = classes.length ∧ rest = []) TooDeep := by
  induction hclasses with
  | nil => exact takes_classes_nil hreads ⟨rfl, rfl⟩
  | @cons first rest answer others hfirst _ ih =>
      have hne : first ++ rest ≠ [] := by
        cases hfirst
        simp
      apply takes_classes_cons hreads hne
      refine (h first answer rest hfirst).takes fun _ => ?_
      refine ih.imp ?_
      rintro more left ⟨hlength, hleft⟩
      exact ⟨by simp [hlength], hleft⟩

theorem takes_programWithin (limit : Nat) {phrase : Phrase} {program : Program}
    (hprogram : IsProgram phrase program) :
    TakesUpTo (programWithin limit) phrase [] := by
  have hmember : AcceptsMembers (memberWithin limit) :=
    accepts_memberOf (reads_statementAt limit limit) (accepts_statementAt limit limit)
      (accepts_expressionAt limit limit).whole
  have hreads := reads_memberWithin limit
  cases hprogram with
  | program hclasses hsome =>
      apply takes_program
      refine (takes_classes (reads_classOf hreads) (accepts_classOf hreads hmember) hclasses).imp ?_
      rintro answer rest ⟨hlength, hrest⟩
      refine ⟨?_, hrest⟩
      rintro rfl
      exact hsome (List.length_eq_zero_iff.mp hlength.symm)

end Rule

end ClassLang
