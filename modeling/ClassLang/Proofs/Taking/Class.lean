import ClassLang.Proofs.Soundness.Class
import ClassLang.Proofs.Taking.Statement

/-!
How the rules for members, classes and programs run. The three forms of a
member are told by two marks: the one behind the first token and the one behind
the second.
-/

namespace ClassLang.Rule

open Grammar Phrase

section Params

variable {rest : Phrase} {failed : Fault → Prop}

theorem takes_param {type name : String} {ok : Param → Phrase → Prop} (htype : IsType phrase type)
    (h : ok ⟨type, name⟩ rest) : Takes param (phrase ++ .identifier name :: rest) ok failed := by
  apply takes_bind
  apply takes_type htype
  apply takes_bind
  apply takes_identifier
  exact takes_pure h

theorem stepAdvances_listedStep_param : StepAdvances (listedStep param) := by
  apply (reads_listedStep reads_param).stepAdvances
  rintro value ⟨first, comma, hnil, ⟨start, rfl, _⟩, _⟩
  simp at hnil

/-- What comes next in a list of parameters. -/
theorem head?_params {list : Phrase} {params : List Param} (hlist : IsParams list params)
    (rest : Phrase) :
    ∃ kind more, list ++ .separator .closeParen :: rest = kind :: more ∧
      (kind.isTypeLike = true ∨ kind = .separator .closeParen) := by
  cases hlist with
  | nil => exact ⟨_, _, rfl, .inr rfl⟩
  | cons head tail =>
      cases head with
      | param name htype hcomma =>
          obtain ⟨kind, rfl, hkind⟩ := htype.exists_cons
          exact ⟨kind, _, rfl, .inl hkind⟩

/-- A list of parameters is never misread. -/
theorem takes_paramList {list : Phrase} {params : List Param} (hlist : IsParams list params) :
    Takes (listed param) (list ++ .separator .closeParen :: rest)
      (fun answer left => answer = params ∧ left = rest) failed := by
  induction hlist with
  | nil => exact takes_listed_nil stepAdvances_listedStep_param ⟨rfl, rfl⟩
  | @cons _ others value params head tail ih =>
      cases head with
      | @param name start comma type htype hcomma =>
          obtain ⟨first, rfl, hfirst⟩ := htype.exists_cons
          simp only [List.append_assoc, List.cons_append]
          apply takes_listed_cons stepAdvances_listedStep_param
          · rintro ⟨⟩
            cases hfirst
          apply takes_param htype
          have hothers : Takes (listed param) (others ++ .separator .closeParen :: rest)
              (fun answer left => ⟨type, name⟩ :: answer = ⟨type, name⟩ :: params ∧ left = rest)
              failed := by
            refine ih.imp ?_
            rintro _ _ ⟨rfl, rfl⟩
            exact ⟨rfl, rfl⟩
          cases hcomma with
          | present => exact takes_accept hothers
          | absent =>
              apply takes_accept_of_ne _ hothers
              obtain ⟨kind, more, hbehind, hkind⟩ := head?_params tail rest
              rw [List.nil_append, hbehind]
              rintro ⟨⟩
              rcases hkind with htype | hclose
              · cases htype
              · cases hclose

theorem takes_params {list : Phrase} {params : List Param} (hlist : IsParams list params)
    {ok : List Param → Phrase → Prop} (h : ok params rest) :
    Takes Rule.params (inParens list ++ rest) ok failed := by
  simp only [inParens, List.cons_append, List.append_assoc, List.nil_append]
  apply takes_bind
  apply takes_separator
  refine (takes_paramList hlist).imp ?_
  rintro _ _ ⟨rfl, rfl⟩
  exact h

end Params

section Members

variable {statement : Rule Statement} {value : Rule Expression} {phrase rest : Phrase}
  {ok : Member → Phrase → Prop} {failed : Fault → Prop}

theorem nextIs_cons {kind : TokenKind} {token : Token} {rest : List Token} :
    nextIs kind (token :: rest) = (token.kind == kind) :=
  rfl

/-- The rule for members of a form. -/
def formRule (statement : Rule Statement) (value : Rule Expression) : MemberForm → Rule Member
  | .field => field value
  | .method => method statement
  | .constructor => constructor statement

/-- A member is run as the form that its first tokens show. -/
theorem takes_member (form : MemberForm)
    (hform : ∀ tokens, kinds tokens = phrase → MemberForm.ofTokens? tokens = some form)
    (h : Takes (formRule statement value form) phrase ok failed) :
    Takes (memberOf statement value) phrase ok failed := by
  intro tokens htokens
  have hrun := h tokens htokens
  have hsome := hform tokens htokens
  unfold memberOf Shape.member
  rw [outcome_get_bind]
  cases tokens with
  | nil => cases hsome
  | cons first more =>
      simp only [hsome]
      cases form with
      | field => exact hrun
      | method => exact hrun
      | constructor => exact hrun

theorem takes_member_field (hstarts : StartsDeclaration phrase)
    (h : Takes (field value) phrase ok failed) :
    Takes (memberOf statement value) phrase ok failed := by
  obtain ⟨type, name, mark, rest, rfl, htype, hmark⟩ := hstarts
  refine takes_member .field ?_ h
  intro tokens htokens
  obtain ⟨_, _, rfl, hname⟩ := kinds_eq_cons htokens
  obtain ⟨_, _, rfl, hmark'⟩ := kinds_eq_cons hname
  obtain ⟨_, _, rfl, _⟩ := kinds_eq_cons hmark'
  rcases hmark with rfl | rfl <;> simp [MemberForm.ofTokens?, nextIs_cons, htype]

theorem takes_member_method {type name : String} {list : Phrase} {params : List Param}
    (htype : IsType phrase type) (hlist : IsParams list params)
    (h : Takes (block statement) rest (fun body => ok (.method type name params body)) failed) :
    Takes (memberOf statement value) (phrase ++ .identifier name :: (inParens list ++ rest)) ok
      failed := by
  have hmethod : Takes (method statement) (phrase ++ .identifier name :: (inParens list ++ rest))
      ok failed := by
    apply takes_bind
    apply takes_type htype
    apply takes_bind
    apply takes_identifier
    apply takes_bind
    apply takes_params hlist
    exact takes_map h
  obtain ⟨kind, rfl, hkind⟩ := htype.exists_cons
  refine takes_member .method ?_ hmethod
  intro tokens htokens
  obtain ⟨_, _, rfl, hname⟩ := kinds_eq_cons htokens
  obtain ⟨_, _, rfl, hparen⟩ := kinds_eq_cons hname
  obtain ⟨_, _, rfl, _⟩ := kinds_eq_cons hparen
  simp [MemberForm.ofTokens?, nextIs_cons, hkind]

/-- Behind the parenthesis of a constructor comes neither of the marks that
would make its name a type. -/
theorem takes_member_constructor {name : String} {list : Phrase} {params : List Param}
    (hlist : IsParams list params)
    (h : Takes (block statement) rest (fun body => ok (.constructor name params body)) failed) :
    Takes (memberOf statement value) (.identifier name :: (inParens list ++ rest)) ok
      failed := by
  have hconstructor : Takes (constructor statement)
      (.identifier name :: (inParens list ++ rest)) ok failed := by
    apply takes_bind
    apply takes_identifier
    apply takes_bind
    apply takes_params hlist
    exact takes_map h
  obtain ⟨kind, more, hbehind, hkind⟩ := head?_params hlist rest
  have hmark (mark : Separator) (hmark : mark ≠ .closeParen) : kind ≠ .separator mark := by
    rintro rfl
    rcases hkind with htype | hclose
    · cases htype
    · exact hmark (TokenKind.separator.inj hclose)
  refine takes_member .constructor ?_ hconstructor
  intro tokens htokens
  simp only [inParens, List.cons_append, List.append_assoc, List.nil_append] at htokens
  rw [hbehind] at htokens
  obtain ⟨_, _, rfl, hparen⟩ := kinds_eq_cons htokens
  obtain ⟨_, _, rfl, hkind'⟩ := kinds_eq_cons hparen
  obtain ⟨_, _, rfl, _⟩ := kinds_eq_cons hkind'
  simp [MemberForm.ofTokens?, nextIs_cons, TokenKind.isTypeLike, hmark]

end Members

section Classes

variable {member : Rule Member} {classDecl : Rule ClassDecl} {phrase rest : Phrase}
  {failed : Fault → Prop}

theorem takes_parent {above : Phrase} {parent : Option String} (habove : IsParent above parent)
    {ok : Option String → Phrase → Prop} (hne : rest.head? ≠ some (.keyword .extendsKw))
    (h : ok parent rest) : Takes Rule.parent (above ++ rest) ok failed := by
  cases habove with
  | absent => exact takes_bind (takes_accept_of_ne hne (takes_pure h))
  | present name =>
      apply takes_bind
      apply takes_accept
      apply takes_bind
      apply takes_identifier
      exact takes_pure h

theorem takes_class {above : Phrase} {parent : Option String} (habove : IsParent above parent)
    {name : String} {ok : ClassDecl → Phrase → Prop}
    (h : Takes (untilClose .closeBrace member) rest (fun members => ok ⟨name, parent, members⟩)
      failed) :
    Takes (classOf member)
      (.keyword .classKw :: .identifier name :: (above ++ .separator .openBrace :: rest)) ok
      failed := by
  apply takes_bind
  apply takes_keyword
  apply takes_bind
  apply takes_identifier
  apply takes_bind
  apply takes_parent habove (by simp)
  apply takes_bind
  apply takes_separator
  exact takes_map h

theorem stepAdvances_untilStep_member (hreads : Reads IsMember member) (close : Separator) :
    StepAdvances (untilStep close member) := by
  apply (reads_untilStep close hreads).stepAdvances
  intro answer hanswer
  obtain ⟨kind, rest, hnil, _⟩ := IsMember.exists_cons hanswer
  cases hnil

theorem stepAdvances_classStep (hreads : Reads IsClass classDecl) :
    StepAdvances (classStep classDecl) := by
  apply (reads_classStep hreads).stepAdvances
  rintro value ⟨⟩

theorem takes_classes_nil (hreads : Reads IsClass classDecl)
    {ok : List ClassDecl → Phrase → Prop} (h : ok [] []) :
    Takes (collect (classStep classDecl)) [] ok failed := by
  apply takes_collect (stepAdvances_classStep hreads)
  intro tokens htokens
  obtain rfl := List.map_eq_nil_iff.mp htokens
  exact h

theorem takes_classes_cons (hreads : Reads IsClass classDecl)
    {ok : List ClassDecl → Phrase → Prop} (hne : phrase ≠ [])
    (h : Takes classDecl phrase
      (fun first rest => Takes (collect (classStep classDecl)) rest
        (fun others => ok (first :: others)) failed)
      failed) : Takes (collect (classStep classDecl)) phrase ok failed := by
  apply takes_collect (stepAdvances_classStep hreads)
  rintro tokens rfl
  unfold classStep
  have hmore : ¬ tokens.isEmpty = true := by
    rw [List.isEmpty_iff]
    rintro rfl
    exact hne rfl
  rw [outcome_get_bind, if_neg hmore, outcome_bind]
  exact h tokens rfl

theorem takes_program {ok : Program → Phrase → Prop}
    (h : Takes (collect (classStep classDecl)) phrase
      (fun classes rest => classes ≠ [] ∧ ok ⟨classes⟩ rest) failed) :
    Takes (programOf classDecl) phrase ok failed := by
  apply takes_bind
  refine h.imp ?_
  rintro classes rest ⟨hsome, hok⟩
  rw [if_neg (by simpa using hsome)]
  exact takes_pure hok

end Classes

end ClassLang.Rule
