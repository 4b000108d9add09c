import ClassLang.Proofs.NearestIf.Pending
import ClassLang.Proofs.RoundTrip.Class
import ClassLang.Proofs.Written

/-!
The statements that a written program holds, each with the tokens before it. Each
`else` among the tokens of the program belongs to one of them: the first of its
two statements ends right before that `else`, and the second begins right behind.
-/

namespace ClassLang.Written

open Grammar Phrase Outline

mutual

/-- `Holds whole front inner`: in `whole` stands the statement `inner`, and `front` are
the tokens of `whole` before it. -/
inductive Statement.Holds : Statement → Phrase → Statement → Prop where
  | whole (statement : Statement) : Holds statement [] statement
  | block {statements : List Statement} {front : Phrase} {inner : Statement}
      (hheld : HoldsAmong statements front inner) :
      Holds (.block statements) (.separator .openBrace :: front) inner
  | ifThen (condition : Expression) {onTrue inner : Statement} {front : Phrase}
      (hheld : Holds onTrue front inner) :
      Holds (.ifThen condition onTrue)
        (.keyword .ifKw :: condition.phrase.inParens ++ front) inner
  | onTrue (condition : Expression) {onTrue inner : Statement} (onFalse : Statement)
      {front : Phrase} (hheld : Holds onTrue front inner) :
      Holds (.ifElse condition onTrue onFalse)
        (.keyword .ifKw :: condition.phrase.inParens ++ front) inner
  | onFalse (condition : Expression) (onTrue : Statement) {onFalse inner : Statement}
      {front : Phrase} (hheld : Holds onFalse front inner) :
      Holds (.ifElse condition onTrue onFalse)
        ((Statement.ifThen condition onTrue).phrase ++ .keyword .elseKw :: front) inner
  | whileLoop (condition : Expression) {body inner : Statement} {front : Phrase}
      (hheld : Holds body front inner) :
      Holds (.whileLoop condition body)
        (.keyword .whileKw :: condition.phrase.inParens ++ front) inner

inductive Statement.HoldsAmong : List Statement → Phrase → Statement → Prop where
  | first {first inner : Statement} (others : List Statement) {front : Phrase}
      (hheld : Holds first front inner) : HoldsAmong (first :: others) front inner
  | others (first : Statement) {others : List Statement} {inner : Statement} {front : Phrase}
      (hheld : HoldsAmong others front inner) :
      HoldsAmong (first :: others) (first.phrase ++ front) inner

end

/-- The statements in the body of a member. -/
inductive Member.Holds : Member → Phrase → Statement → Prop where
  | method (returnType : TypeText) (name : String) (params : Params) {body : List Statement}
      {front : Phrase} {inner : Statement} (hheld : Statement.HoldsAmong body front inner) :
      Holds (.method returnType name params body)
        (returnType.outline.phrase ++ .identifier name :: params.outline.phrase.inParens ++
          .separator .openBrace :: front) inner
  | constructor (name : String) (params : Params) {body : List Statement} {front : Phrase}
      {inner : Statement} (hheld : Statement.HoldsAmong body front inner) :
      Holds (.constructor name params body)
        (.identifier name :: params.outline.phrase.inParens ++ .separator .openBrace :: front)
        inner

/-- The statements in what is written one behind the other, where it is known which
are in a single element. -/
inductive AnyHolds {ω : Type} (outline : ω → Outline) (holds : ω → Phrase → Statement → Prop) :
    List ω → Phrase → Statement → Prop where
  | first {first : ω} (others : List ω) {front : Phrase} {inner : Statement}
      (hheld : holds first front inner) : AnyHolds outline holds (first :: others) front inner
  | others (first : ω) {others : List ω} {front : Phrase} {inner : Statement}
      (hheld : AnyHolds outline holds others front inner) :
      AnyHolds outline holds (first :: others) ((outline first).phrase ++ front) inner

inductive ClassDecl.Holds : ClassDecl → Phrase → Statement → Prop where
  | members (name : String) (parent : Option String) {members : List Member} {front : Phrase}
      {inner : Statement} (hheld : AnyHolds Member.outline Member.Holds members front inner) :
      Holds ⟨name, parent, members⟩
        (.keyword .classKw :: .identifier name :: (parentOutline parent).phrase ++
          .separator .openBrace :: front) inner

def Program.Holds (program : Program) : Phrase → Statement → Prop :=
  AnyHolds ClassDecl.outline ClassDecl.Holds program.classes

section Bound

/-!
What is held by a program has its `else`s where it has them.
-/

mutual

theorem Statement.Holds.elsesBound {whole inner : Statement} {front : Phrase} :
    whole.Holds front inner → whole.tree.elsesBound = true → inner.tree.elsesBound = true
  | .whole _, helses => helses
  | .block hheld, helses => hheld.elsesBound helses
  | .ifThen _ hheld, helses | .whileLoop _ hheld, helses => hheld.elsesBound helses
  | .onTrue _ _ hheld, helses => by
      simp only [Statement.tree, ClassLang.Statement.elsesBound, Bool.and_eq_true] at helses
      exact hheld.elsesBound helses.1.2
  | .onFalse _ _ hheld, helses => by
      simp only [Statement.tree, ClassLang.Statement.elsesBound, Bool.and_eq_true] at helses
      exact hheld.elsesBound helses.2

theorem Statement.HoldsAmong.elsesBound {statements : List Statement} {inner : Statement}
    {front : Phrase} :
    Statement.HoldsAmong statements front inner →
      ClassLang.Statement.allElsesBound (Statement.trees statements) = true →
        inner.tree.elsesBound = true
  | .first _ hheld, helses => hheld.elsesBound (Bool.and_eq_true_iff.mp helses).1
  | .others _ hheld, helses => hheld.elsesBound (Bool.and_eq_true_iff.mp helses).2

end

variable {front : Phrase} {inner : Statement}

theorem Member.Holds.elsesBound {member : Member} (h : member.Holds front inner)
    (helses : member.tree.elsesBound = true) : inner.tree.elsesBound = true := by
  cases h with
  | method returnType name params hheld => exact hheld.elsesBound helses
  | constructor name params hheld => exact hheld.elsesBound helses

theorem AnyHolds.exists_holds {ω : Type} {outline : ω → Outline}
    {holds : ω → Phrase → Statement → Prop} {written : List ω}
    (h : AnyHolds outline holds written front inner) :
    ∃ element ∈ written, ∃ front', holds element front' inner := by
  induction h with
  | first others hheld => exact ⟨_, List.mem_cons_self, _, hheld⟩
  | others first hheld ih =>
      obtain ⟨element, hmem, hholds⟩ := ih
      exact ⟨element, List.mem_cons_of_mem first hmem, hholds⟩

theorem ClassDecl.Holds.elsesBound {classDecl : ClassDecl} (h : classDecl.Holds front inner)
    (helses : classDecl.tree.elsesBound = true) : inner.tree.elsesBound = true := by
  cases h with
  | members name parent hheld =>
      obtain ⟨member, hmem, front', hmember⟩ := hheld.exists_holds
      exact hmember.elsesBound (List.all_eq_true.mp helses _ (List.mem_map_of_mem hmem))

theorem Program.Holds.elsesBound {program : Program} (h : program.Holds front inner)
    (helses : program.tree.elsesBound = true) : inner.tree.elsesBound = true := by
  obtain ⟨classDecl, hmem, front', hclass⟩ := AnyHolds.exists_holds h
  exact hclass.elsesBound (List.all_eq_true.mp helses _ (List.mem_map_of_mem hmem))

end Bound

/-- An `else` between these two phrases belongs to a statement that is held: its
first statement ends the one phrase, and its second begins the other. -/
def HoldsOwner (holds : Phrase → Statement → Prop) (before after : Phrase) : Prop :=
  ∃ front condition onTrue onFalse back,
    holds front (.ifElse condition onTrue onFalse) ∧
      before = front ++ (Statement.ifThen condition onTrue).phrase ∧
      after = onFalse.phrase ++ back

/-- Each `else` of the phrase belongs to a statement that is held. -/
def ElsesHeld (holds : Phrase → Statement → Prop) (phrase : Phrase) : Prop :=
  ∀ before after : Phrase, phrase = before ++ .keyword .elseKw :: after →
    HoldsOwner holds before after

section ElsesHeld

variable {holds holds' : Phrase → Statement → Prop} {before after phrase first second head : Phrase}

theorem HoldsOwner.append (h : HoldsOwner holds before after) (more : Phrase) :
    HoldsOwner holds before (after ++ more) := by
  obtain ⟨front, condition, onTrue, onFalse, back, hheld, hbefore, rfl⟩ := h
  exact ⟨front, condition, onTrue, onFalse, back ++ more, hheld, hbefore,
    List.append_assoc _ _ _⟩

theorem HoldsOwner.behind (head : Phrase)
    (h : HoldsOwner (fun front => holds (head ++ front)) before after) :
    HoldsOwner holds (head ++ before) after := by
  obtain ⟨front, condition, onTrue, onFalse, back, hheld, rfl, hafter⟩ := h
  exact ⟨head ++ front, condition, onTrue, onFalse, back, hheld,
    (List.append_assoc _ _ _).symm, hafter⟩

theorem elsesHeld_of_not_mem (h : .keyword .elseKw ∉ phrase) : ElsesHeld holds phrase := by
  rintro before after rfl
  simp at h

theorem ElsesHeld.imp (h : ElsesHeld holds phrase)
    (hholds : ∀ front inner, holds front inner → holds' front inner) :
    ElsesHeld holds' phrase := by
  intro before after hphrase
  obtain ⟨front, condition, onTrue, onFalse, back, hheld, hplace⟩ := h before after hphrase
  exact ⟨front, condition, onTrue, onFalse, back, hholds _ _ hheld, hplace⟩

theorem ElsesHeld.append (hfirst : ElsesHeld holds first)
    (hsecond : ElsesHeld (fun front => holds (first ++ front)) second) :
    ElsesHeld holds (first ++ second) := by
  intro before after h
  rcases exists_of_append_eq h with ⟨more, hmore, rfl⟩ | ⟨more, rfl, hmore⟩
  · exact (hfirst before more hmore).append second
  · exact (hsecond more after hmore).behind first

theorem ElsesHeld.behind (h : ElsesHeld (fun front => holds (head ++ front)) phrase)
    (hhead : .keyword .elseKw ∉ head) : ElsesHeld holds (head ++ phrase) :=
  (elsesHeld_of_not_mem hhead).append h

theorem ElsesHeld.inBraces
    (h : ElsesHeld (fun front => holds (.separator .openBrace :: front)) phrase) :
    ElsesHeld holds phrase.inBraces := by
  have hopen : ElsesHeld holds ([.separator .openBrace] ++ phrase) := h.behind (by simp)
  exact hopen.append (elsesHeld_of_not_mem (by simp))

/-- The `else` of a statement is its own, and any other is in one of its parts. -/
theorem elsesHeld_ifElse {condition : Expression} {onTrue onFalse : Statement}
    (hown : holds [] (.ifElse condition onTrue onFalse))
    (hfirst : ElsesHeld holds (Statement.ifThen condition onTrue).phrase)
    (hsecond : ElsesHeld (fun front =>
      holds ((Statement.ifThen condition onTrue).phrase ++ .keyword .elseKw :: front))
      onFalse.phrase) :
    ElsesHeld holds (Statement.ifElse condition onTrue onFalse).phrase := by
  rw [Statement.phrase_ifElse]
  intro before after h
  rcases exists_of_append_eq h with ⟨more, hmore, rfl⟩ | ⟨more, rfl, hmore⟩
  · exact (hfirst before more hmore).append _
  · cases more with
    | nil =>
        obtain ⟨_, rfl⟩ := List.cons.inj hmore
        exact ⟨[], condition, onTrue, onFalse, [], hown, List.append_nil _,
          (List.append_nil _).symm⟩
    | cons kind more =>
        obtain ⟨rfl, hbehind⟩ := List.cons.inj hmore
        have howner := hsecond more after hbehind
        exact .behind _ (.behind [.keyword .elseKw] howner)

theorem Expression.else_not_mem (expression : Expression) :
    .keyword .elseKw ∉ expression.phrase :=
  expression.isExpression.plain.else_not_mem

/-- What comes before the statement that a condition is for. -/
theorem else_not_mem_condition {word : Keyword} (hword : word ≠ .elseKw)
    (condition : Expression) :
    .keyword .elseKw ∉ TokenKind.keyword word :: condition.phrase.inParens := by
  simp [Phrase.inParens, condition.else_not_mem, hword.symm]

theorem Binding.else_not_mem (binding : Binding) : .keyword .elseKw ∉ binding.outline.phrase := by
  rw [binding.outline_phrase]
  exact (plain_variable _ binding.type.isType (isInitializer binding.value)).else_not_mem

mutual

theorem Statement.elsesHeld :
    (statement : Statement) → ElsesHeld statement.Holds statement.phrase
  | .block statements => by
      rw [Statement.phrase_block]
      exact ((Statement.elsesHeld_phrases statements).imp fun _ _ => .block).inBraces
  | .ifThen condition onTrue => by
      rw [Statement.phrase_ifThen]
      exact (onTrue.elsesHeld.imp fun _ _ => .ifThen condition).behind
        (else_not_mem_condition (by simp) condition)
  | .ifElse condition onTrue onFalse => by
      apply elsesHeld_ifElse (.whole _)
      · rw [Statement.phrase_ifThen]
        exact (onTrue.elsesHeld.imp fun _ _ => .onTrue condition onFalse).behind
          (else_not_mem_condition (by simp) condition)
      · exact onFalse.elsesHeld.imp fun _ _ => .onFalse condition onTrue
  | .whileLoop condition body => by
      rw [Statement.phrase_whileLoop]
      exact (body.elsesHeld.imp fun _ _ => .whileLoop condition).behind
        (else_not_mem_condition (by simp) condition)
  | .returnStmt none | .breakStmt | .empty => elsesHeld_of_not_mem (by decide)
  | .returnStmt (some value) => by
      rw [Statement.phrase_returnStmt]
      exact elsesHeld_of_not_mem (by simp [value.else_not_mem])
  | .declaration binding => elsesHeld_of_not_mem binding.else_not_mem
  | .expression value => by
      rw [Statement.phrase_expression]
      exact elsesHeld_of_not_mem (by simp [value.else_not_mem])

theorem Statement.elsesHeld_phrases :
    (statements : List Statement) →
      ElsesHeld (HoldsAmong statements) (Statement.phrases statements)
  | [] => elsesHeld_of_not_mem (by decide)
  | first :: others => by
      rw [Statement.phrases_cons]
      exact (first.elsesHeld.imp fun _ _ => .first others).append
        ((Statement.elsesHeld_phrases others).imp fun _ _ => .others first)

end

theorem TypeText.else_not_mem (type : TypeText) : .keyword .elseKw ∉ type.outline.phrase := by
  cases type <;> simp [TypeText.outline, identifier]

theorem Params.else_not_mem (params : Params) : .keyword .elseKw ∉ params.outline.phrase := by
  induction params with
  | nil => simp [Params.outline]
  | cons first others ih =>
      rw [Params.outline, phrase_listed]
      cases first.2 <;> simp [Param.outline, identifier, first.1.type.else_not_mem, ih]

theorem Member.elsesHeld (member : Member) : ElsesHeld member.Holds member.outline.phrase := by
  cases member with
  | field binding => exact elsesHeld_of_not_mem binding.else_not_mem
  | method returnType name params body =>
      have hphrase : (Member.method returnType name params body).outline.phrase =
          returnType.outline.phrase ++ .identifier name :: params.outline.phrase.inParens ++
            (Statement.phrases body).inBraces := by
        simp [Member.outline, Statement.phrases, identifier]
      rw [hphrase]
      apply ElsesHeld.behind (.inBraces ((Statement.elsesHeld_phrases body).imp fun _ _ => ?_))
      · simp [Phrase.inParens, returnType.else_not_mem, params.else_not_mem]
      · exact .method returnType name params
  | constructor name params body =>
      have hphrase : (Member.constructor name params body).outline.phrase =
          .identifier name :: params.outline.phrase.inParens ++
            (Statement.phrases body).inBraces := by
        simp [Member.outline, Statement.phrases, identifier]
      rw [hphrase]
      apply ElsesHeld.behind (.inBraces ((Statement.elsesHeld_phrases body).imp fun _ _ => ?_))
      · simp [Phrase.inParens, params.else_not_mem]
      · exact .constructor name params

theorem elsesHeld_flatMap {ω : Type} {outline : ω → Outline}
    {holds : ω → Phrase → Statement → Prop}
    (h : ∀ element, ElsesHeld (holds element) (outline element).phrase) (written : List ω) :
    ElsesHeld (AnyHolds outline holds written) (Outline.phrase (written.flatMap outline)) := by
  induction written with
  | nil => exact elsesHeld_of_not_mem (by simp)
  | cons first others ih =>
      rw [List.flatMap_cons, phrase_append]
      exact ((h first).imp fun _ _ => .first others).append (ih.imp fun _ _ => .others first)

theorem ClassDecl.elsesHeld (classDecl : ClassDecl) :
    ElsesHeld classDecl.Holds classDecl.outline.phrase := by
  obtain ⟨name, parent, members⟩ := classDecl
  have hphrase : (ClassDecl.mk name parent members).outline.phrase =
      .keyword .classKw :: .identifier name :: (parentOutline parent).phrase ++
        (Outline.phrase (members.flatMap Member.outline)).inBraces := by
    simp [ClassDecl.outline, keyword, identifier]
  rw [hphrase]
  apply ElsesHeld.behind
    (.inBraces ((elsesHeld_flatMap Member.elsesHeld members).imp fun _ _ => ?_))
  · cases parent <;> simp [parentOutline, keyword, identifier]
  · exact .members name parent

theorem Program.elsesHeld (program : Program) : ElsesHeld program.Holds program.phrase :=
  elsesHeld_flatMap ClassDecl.elsesHeld program.classes

end ElsesHeld

end ClassLang.Written
