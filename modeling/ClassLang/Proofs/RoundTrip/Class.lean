import ClassLang.Proofs.RoundTrip.Statement
import ClassLang.Proofs.Taking.Class

/-!
Members, classes and programs are read back from their phrases. None of them
takes a level of nesting, so that all values and bodies have the same levels.
-/

namespace ClassLang

open Grammar Phrase

/-- Whether every `else` in a body is written where it goes when it is read. -/
def Member.elsesBound : Member → Bool
  | .field _ _ _ => true
  | .method _ _ _ body | .constructor _ _ body => Statement.allElsesBound body

def ClassDecl.elsesBound (classDecl : ClassDecl) : Bool :=
  classDecl.members.all Member.elsesBound

def Program.elsesBound (program : Program) : Bool := program.classes.all ClassDecl.elsesBound

namespace Rule

variable {limit levels : Nat} {statement : Rule Statement} {value : Rule Expression}
  {member : Rule Member} {classDecl : Rule ClassDecl} {follow : Phrase}

theorem takesNested_memberOf (hreads : Reads IsStatement statement)
    (hstatement : TakesStatements limit levels statement)
    (hvalue : TakesWhole limit levels value) {answer : Member}
    (hnamed : answer.pathsNamed = true) (helses : answer.elsesBound = true) :
    TakesNested limit levels (memberOf statement value) (answer.phrase ++ follow) answer.levels
      answer follow := by
  intro ok failed hok hfailed
  cases answer with
  | field type name start =>
      apply takes_member_field (startsDeclaration_ofVariable type name hnamed)
      exact takesNested_variableOf Member.field hvalue type name hnamed ok failed hok hfailed
  | method returnType name params body =>
      rw [Member.phrase, List.append_assoc]
      apply takes_member_method (isType_ofTypeText returnType) (isParams_commaSeparated params)
      exact takesNested_block hreads hstatement hnamed helses _ failed hok hfailed
  | constructor name params body =>
      rw [Member.phrase, List.append_assoc]
      apply takes_member_constructor (isParams_commaSeparated params)
      exact takesNested_block hreads hstatement hnamed helses _ failed hok hfailed

/-- Members are read back. -/
def TakesMembers (limit levels : Nat) (rule : Rule Member) : Prop :=
  ∀ (member : Member) follow, member.pathsNamed = true → member.elsesBound = true →
    TakesNested limit levels rule (member.phrase ++ follow) member.levels member follow

theorem takesNested_classOf (hreads : Reads IsMember member)
    (hmember : TakesMembers limit levels member) {answer : ClassDecl}
    (hnamed : answer.pathsNamed = true) (helses : answer.elsesBound = true) :
    TakesNested limit levels (classOf member) (answer.phrase ++ follow) answer.levels answer
      follow := by
  intro ok failed hok hfailed
  have hnamed := List.all_eq_true.mp hnamed
  have helses := List.all_eq_true.mp helses
  simp only [ClassDecl.phrase, inBraces, List.cons_append, List.append_assoc, List.nil_append]
  apply takes_class (isParent_ofParent answer.parent)
  refine takesNested_untilClose (stepAdvances_untilStep_member hreads .closeBrace)
    (fun _ => True) trivial answer.members ?_ ?_ _ failed hok hfailed
  · intro first hfirst
    obtain ⟨kind, more, hphrase, hkind⟩ :=
      (Member.isMember_phrase (hnamed first hfirst)).exists_cons
    refine ⟨kind, more, hphrase, ?_, fun _ => trivial⟩
    rintro rfl
    cases hkind
  · intro first hfirst rest _
    exact hmember first rest (hnamed first hfirst) (helses first hfirst)

/-- Classes are read back. -/
def TakesClasses (limit levels : Nat) (rule : Rule ClassDecl) : Prop :=
  ∀ (classDecl : ClassDecl) follow, classDecl.pathsNamed = true → classDecl.elsesBound = true →
    TakesNested limit levels rule (classDecl.phrase ++ follow) classDecl.levels classDecl follow

theorem takesNested_classes (hreads : Reads IsClass classDecl)
    (hclass : TakesClasses limit levels classDecl) {classes : List ClassDecl}
    (hnamed : classes.all ClassDecl.pathsNamed = true)
    (helses : classes.all ClassDecl.elsesBound = true) :
    TakesNested limit levels (collect (classStep classDecl)) (classes.flatMap ClassDecl.phrase)
      ((classes.map ClassDecl.levels).foldr max 0) classes [] := by
  induction classes with
  | nil =>
      intro ok failed hok _
      exact takes_classes_nil hreads (hok (Nat.zero_le _))
  | cons first others ih =>
      intro ok failed hok hfailed
      rw [List.all_cons, Bool.and_eq_true] at hnamed helses
      rw [List.map_cons, List.foldr_cons] at hok hfailed
      rw [List.flatMap_cons]
      have hne : first.phrase ++ others.flatMap ClassDecl.phrase ≠ [] := by
        simp [ClassDecl.phrase]
      apply takes_classes_cons hreads hne
      apply hclass first _ hnamed.1 helses.1
      · intro hlevels
        apply ih hnamed.2 helses.2
        · intro hlevels'
          exact hok (by omega)
        · intro hlevels'
          exact hfailed (by omega)
      · intro hlevels
        exact hfailed (by omega)

theorem takesNested_programWithin (limit : Nat) {program : Program}
    (hsome : program.classes ≠ []) (hnamed : program.pathsNamed = true)
    (helses : program.elsesBound = true) :
    TakesNested limit limit (programWithin limit) program.phrase program.levels program [] := by
  have hmember : TakesMembers limit limit (memberWithin limit) := by
    intro member follow hnamed helses
    exact takesNested_memberOf (reads_statementAt limit limit)
      (takesStatements_statementAt limit limit) (takesNested_expressionAt limit limit).1 hnamed
      helses
  have hreads := reads_memberWithin limit
  have hclass : TakesClasses limit limit (classOf (memberWithin limit)) := by
    intro classDecl follow hnamed helses
    exact takesNested_classOf hreads hmember hnamed helses
  intro ok failed hok hfailed
  apply takes_program
  apply takesNested_classes (reads_classOf hreads) hclass hnamed helses
  · intro hlevels
    exact ⟨hsome, hok hlevels⟩
  · exact hfailed

end Rule

end ClassLang
