import ClassLang.Proofs.Brackets
import ClassLang.Proofs.Written

/-!
A phrase and a tree determine how the tree was written. Trees without their
parentheses only leave open which operand a parenthesis at the front belongs to,
and that can be told by the operators inside it: around the whole tree there are
all of them, around a first operand there are fewer.
-/

namespace ClassLang

/-- Whether a token is an operator. -/
def TokenKind.isOperator : TokenKind → Bool
  | .operator _ => true
  | _ => false

def Phrase.operators (phrase : Phrase) : Nat := phrase.countP TokenKind.isOperator

mutual

/-- How many operators there are in an expression. -/
def Expression.operators : Expression → Nat
  | .literal _ | .reference _ => 0
  | .new _ arguments | .call _ arguments => allOperators arguments
  | .assignment _ value => operators value
  | .binary _ left right => operators left + operators right + 1

def Expression.allOperators : List Expression → Nat
  | [] => 0
  | first :: others => operators first + allOperators others

end

namespace Phrase

@[simp] theorem operators_nil : operators [] = 0 := rfl

@[simp] theorem operators_cons (kind : TokenKind) (phrase : Phrase) :
    operators (kind :: phrase) = operators phrase + if kind.isOperator then 1 else 0 :=
  List.countP_cons

@[simp] theorem operators_append (first second : Phrase) :
    operators (first ++ second) = operators first + operators second :=
  List.countP_append

@[simp] theorem operators_inParens (inner : Phrase) :
    inner.inParens.operators = inner.operators := by
  simp [Phrase.inParens, TokenKind.isOperator]

/-- Where brackets match, the parenthesis that closes the one in front of them is
the next one. -/
theorem eq_of_balanced {first second rest rest' : Phrase} (hfirst : first.Balanced)
    (hsecond : second.Balanced)
    (h : first ++ .separator .closeParen :: rest = second ++ .separator .closeParen :: rest') :
    first = second ∧ rest = rest' := by
  have hnone {inner more more' : Phrase} (hinner : inner.Balanced)
      (hmore : (inner ++ more).Balanced)
      (hclose : more ++ .separator .closeParen :: more' = .separator .closeParen :: rest ∨
        more ++ .separator .closeParen :: more' = .separator .closeParen :: rest') : more = [] := by
    have hmore := hinner.of_append hmore
    cases more with
    | nil => rfl
    | cons kind more =>
        obtain rfl : kind = .separator .closeParen := by
          rcases hclose with hclose | hclose <;> exact (List.cons.inj hclose).1
        cases hmore
  rcases List.append_eq_append_iff.mp h with ⟨more, rfl, hmore⟩ | ⟨more, rfl, hmore⟩
  · obtain rfl := hnone hfirst hsecond (.inl hmore.symm)
    simpa using hmore
  · obtain rfl := hnone hsecond hfirst (.inr hmore.symm)
    simpa [eq_comm] using hmore

end Phrase

namespace Grammar

open Phrase

theorem IsPath.operators {names : Phrase} {path : List String} (h : IsPath names path) :
    names.operators = 0 := by
  induction h with
  | name name => rfl
  | dot name others ih => simpa [TokenKind.isOperator] using ih

theorem IsComma.operators {comma : Phrase} (h : IsComma comma) : comma.operators = 0 := by
  cases h <;> rfl

mutual

theorem IsExpression.operators {phrase : Phrase} {value : Expression} :
    IsExpression phrase value → phrase.operators = value.operators
  | .literal value => rfl
  | .reference hpath => hpath.operators
  | .new className hlist => by
      rw [operators_cons, operators_cons, operators_inParens, hlist.operators]
      rfl
  | .call hpath hlist => by
      rw [operators_append, hpath.operators, operators_inParens, hlist.operators, Nat.zero_add]
      rfl
  | .assignment hpath hvalue => by
      rw [operators_append, hpath.operators, operators_cons, hvalue.operators, Nat.zero_add]
      rfl
  | .binary symbol hleft hright => by
      rw [operators_append, hleft.operators, operators_cons, hright.operators]
      rfl
  | .parens hvalue => by rw [operators_inParens, hvalue.operators]

theorem IsArguments.operators {list : Phrase} {values : List Expression} :
    IsArguments list values → list.operators = Expression.allOperators values
  | .nil => rfl
  | .cons hfirst hcomma hrest => by
      rw [operators_append, operators_append, hfirst.operators, hcomma.operators,
        hrest.operators]
      rfl

end

end Grammar

namespace Written

open Grammar Outline

theorem Expression.balanced (expression : Expression) : expression.phrase.Balanced :=
  expression.isExpression.balanced

theorem Expression.operators_phrase (expression : Expression) :
    expression.phrase.operators = expression.tree.operators :=
  expression.isExpression.operators

theorem Expression.phrase_parens (value : Expression) :
    (Expression.parens value).phrase = value.phrase.inParens :=
  phrase_inParens

theorem Expression.phrase_binary (symbol : Operator) (left right : Expression) :
    (Expression.binary symbol left right).phrase =
      left.phrase ++ .operator symbol :: right.phrase :=
  phrase_append

/-- A parenthesis at the front is around the whole expression, or around an
operand with fewer operators. -/
theorem Expression.parens_or_operators_lt {inner rest rest' : Phrase} (hinner : inner.Balanced) :
    (expression : Expression) → expression.phrase ++ rest = inner.inParens ++ rest' →
      (∃ value : Expression, expression = .parens value ∧ value.phrase = inner ∧ rest = rest') ∨
        inner.operators < expression.tree.operators
  | .literal _, h | .reference _, h | .new _ _, h | .call _ _, h | .assignment _ _, h => by
      cases (List.cons.inj h).1
  | .parens value, h => by
      rw [phrase_parens] at h
      obtain ⟨rfl, rfl⟩ := Phrase.eq_of_balanced value.balanced hinner
        (by simpa [Phrase.inParens] using h)
      exact .inl ⟨value, rfl, rfl, rfl⟩
  | .binary symbol left right, h => by
      rw [phrase_binary, List.append_assoc] at h
      have hless : left.tree.operators < (Expression.binary symbol left right).tree.operators := by
        change _ < left.tree.operators + right.tree.operators + 1
        omega
      rcases left.parens_or_operators_lt hinner h with ⟨value, rfl, rfl, _⟩ | hfewer
      · rw [value.operators_phrase]
        exact .inr hless
      · exact .inr (by omega)

/-- What has the phrase and the tree of an expression in parentheses is one. -/
theorem Expression.eq_parens {expression value : Expression} {rest rest' : Phrase}
    (hphrase : expression.phrase ++ rest = (Expression.parens value).phrase ++ rest')
    (htree : expression.tree = value.tree) :
    ∃ value' : Expression, expression = .parens value' ∧ value'.phrase = value.phrase ∧
      rest = rest' := by
  rw [phrase_parens] at hphrase
  rcases expression.parens_or_operators_lt value.balanced hphrase with hparens | hless
  · exact hparens
  · rw [value.operators_phrase, htree] at hless
    omega

theorem Expression.false_of_parens {expression value : Expression} {rest rest' : Phrase}
    (hphrase : expression.phrase ++ rest = (Expression.parens value).phrase ++ rest')
    (htree : expression.tree = value.tree) (hother : ∀ value', expression ≠ .parens value') :
    False := by
  obtain ⟨value', hparens, _⟩ := eq_parens hphrase htree
  exact hother value' hparens

/-- Of what is written in this way, tokens that it begins determine it together
with its tree, and so where its tokens end. -/
def Determined {ω α : Type} (outline : ω → Outline) (tree : ω → α) : Prop :=
  ∀ first second rest rest',
    (outline first).phrase ++ rest = (outline second).phrase ++ rest' →
      tree first = tree second → first = second ∧ rest = rest'

theorem Path.determined : Determined Path.outline Path.tree := by
  rintro ⟨first, others⟩ ⟨first', others'⟩ rest rest' hphrase htree
  obtain ⟨rfl, rfl⟩ := List.cons.inj htree
  exact ⟨rfl, List.append_cancel_left hphrase⟩

/-- A comma is where it is, if none comes after it. -/
theorem eq_of_comma {comma comma' : Bool} {rest rest' : Phrase}
    (hrest : rest.head? ≠ some (.separator .comma))
    (hrest' : rest'.head? ≠ some (.separator .comma))
    (h : (if comma then [.separator .comma] else []) ++ rest =
      (if comma' then [.separator .comma] else []) ++ rest') : comma = comma' ∧ rest = rest' := by
  cases comma with
  | true =>
      cases comma' with
      | true => exact ⟨rfl, List.append_cancel_left h⟩
      | false =>
          obtain rfl : .separator .comma :: rest = rest' := h
          exact absurd rfl hrest'
  | false =>
      cases comma' with
      | true =>
          obtain rfl : rest = .separator .comma :: rest' := h
          exact absurd rfl hrest
      | false => exact ⟨rfl, h⟩

theorem Arguments.head?_ne_comma (arguments : Arguments) (rest : Phrase) :
    (arguments.outline.phrase ++ .separator .closeParen :: rest).head? ≠
      some (.separator .comma) := by
  cases arguments with
  | nil => simp [Arguments.outline]
  | cons first comma others =>
      obtain ⟨kind, more, hfirst, hkind⟩ := first.exists_outline_eq
      rw [Arguments.outline, listed, hfirst]
      rintro ⟨⟩
      exact hkind

theorem inParens_inj {first second : Outline} {rest rest' : Phrase}
    (h : phrase (inParens first) ++ rest = phrase (inParens second) ++ rest') :
    phrase first ++ .separator .closeParen :: rest =
      phrase second ++ .separator .closeParen :: rest' := by
  simpa [Phrase.inParens] using h

mutual

theorem Expression.determined : Determined Expression.outline Expression.tree
  | .parens value, second, rest, rest', hphrase, htree => by
      obtain ⟨value', rfl, hvalue, rfl⟩ := Expression.eq_parens hphrase.symm htree.symm
      obtain ⟨rfl, _⟩ :=
        Expression.determined value value' [] [] (congrArg (· ++ []) hvalue.symm) htree
      exact ⟨rfl, rfl⟩
  | .literal value, second, rest, rest', hphrase, htree => by
      cases second with
      | parens value' => exact (Expression.false_of_parens hphrase htree nofun).elim
      | literal value' =>
          cases htree
          exact ⟨rfl, List.append_cancel_left hphrase⟩
      | reference _ | new _ _ | call _ _ | assignment _ _ | binary _ _ _ => cases htree
  | .reference path, second, rest, rest', hphrase, htree => by
      cases second with
      | parens value' => exact (Expression.false_of_parens hphrase htree nofun).elim
      | reference path' =>
          obtain ⟨rfl, rfl⟩ := Path.determined path path' rest rest' hphrase
            (ClassLang.Expression.reference.inj htree)
          exact ⟨rfl, rfl⟩
      | literal _ | new _ _ | call _ _ | assignment _ _ | binary _ _ _ => cases htree
  | .new className arguments, second, rest, rest', hphrase, htree => by
      cases second with
      | parens value' => exact (Expression.false_of_parens hphrase htree nofun).elim
      | new className' arguments' =>
          obtain ⟨rfl, hlist⟩ := ClassLang.Expression.new.inj htree
          have hbehind := (List.cons.inj (List.cons.inj hphrase).2).2
          obtain ⟨rfl, rfl⟩ :=
            Arguments.determined arguments arguments' rest rest' (inParens_inj hbehind) hlist
          exact ⟨rfl, rfl⟩
      | literal _ | reference _ | call _ _ | assignment _ _ | binary _ _ _ => cases htree
  | .call path arguments, second, rest, rest', hphrase, htree => by
      cases second with
      | parens value' => exact (Expression.false_of_parens hphrase htree nofun).elim
      | call path' arguments' =>
          obtain ⟨hpath, hlist⟩ := ClassLang.Expression.call.inj htree
          simp only [Expression.outline, phrase_append, List.append_assoc] at hphrase
          obtain ⟨rfl, hbehind⟩ := Path.determined path path' _ _ hphrase hpath
          obtain ⟨rfl, rfl⟩ :=
            Arguments.determined arguments arguments' rest rest' (inParens_inj hbehind) hlist
          exact ⟨rfl, rfl⟩
      | literal _ | reference _ | new _ _ | assignment _ _ | binary _ _ _ => cases htree
  | .assignment path value, second, rest, rest', hphrase, htree => by
      cases second with
      | parens value' => exact (Expression.false_of_parens hphrase htree nofun).elim
      | assignment path' value' =>
          obtain ⟨hpath, hvalue⟩ := ClassLang.Expression.assignment.inj htree
          simp only [Expression.outline, phrase_append, List.append_assoc] at hphrase
          obtain ⟨rfl, hbehind⟩ := Path.determined path path' _ _ hphrase hpath
          obtain ⟨rfl, rfl⟩ :=
            Expression.determined value value' rest rest' (List.cons.inj hbehind).2 hvalue
          exact ⟨rfl, rfl⟩
      | literal _ | reference _ | new _ _ | call _ _ | binary _ _ _ => cases htree
  | .binary symbol left right, second, rest, rest', hphrase, htree => by
      cases second with
      | parens value' => exact (Expression.false_of_parens hphrase htree nofun).elim
      | binary symbol' left' right' =>
          obtain ⟨rfl, hleft, hright⟩ := ClassLang.Expression.binary.inj htree
          simp only [Expression.outline, phrase_append, List.append_assoc] at hphrase
          obtain ⟨rfl, hbehind⟩ := Expression.determined left left' _ _ hphrase hleft
          obtain ⟨rfl, rfl⟩ :=
            Expression.determined right right' rest rest' (List.cons.inj hbehind).2 hright
          exact ⟨rfl, rfl⟩
      | literal _ | reference _ | new _ _ | call _ _ | assignment _ _ => cases htree

theorem Arguments.determined :
    (first second : Arguments) → (rest rest' : Phrase) →
      first.outline.phrase ++ .separator .closeParen :: rest =
        second.outline.phrase ++ .separator .closeParen :: rest' →
      first.tree = second.tree → first = second ∧ rest = rest'
  | .nil, second, rest, rest', hphrase, htree => by
      cases second with
      | nil => exact ⟨rfl, (List.cons.inj hphrase).2⟩
      | cons _ _ _ => cases htree
  | .cons first comma others, second, rest, rest', hphrase, htree => by
      cases second with
      | nil => cases htree
      | cons first' comma' others' =>
          obtain ⟨hfirst, hothers⟩ := List.cons.inj htree
          rw [Arguments.outline, Arguments.outline, phrase_listed, phrase_listed] at hphrase
          simp only [List.append_assoc] at hphrase
          obtain ⟨rfl, hbehind⟩ := Expression.determined first first' _ _ hphrase hfirst
          obtain ⟨rfl, hlist⟩ := eq_of_comma (others.head?_ne_comma rest)
            (others'.head?_ne_comma rest') hbehind
          obtain ⟨rfl, rfl⟩ := Arguments.determined others others' rest rest' hlist hothers
          exact ⟨rfl, rfl⟩

end

/-- Types differ if their tokens do. -/
theorem TypeText.eq_of_phrase {type type' : TypeText} {rest rest' : Phrase}
    (h : type.outline.phrase ++ rest = type'.outline.phrase ++ rest') :
    type = type' ∧ rest = rest' := by
  cases type <;> cases type' <;> cases h <;> exact ⟨rfl, rfl⟩

theorem initializer_determined {initial initial' : Option Expression} {rest rest' : Phrase}
    (hphrase : (initializerOutline initial).phrase ++ rest =
      (initializerOutline initial').phrase ++ rest')
    (htree : initial.map Expression.tree = initial'.map Expression.tree) :
    initial = initial' ∧ rest = rest' := by
  cases initial with
  | none =>
      cases initial' with
      | none => exact ⟨rfl, hphrase⟩
      | some _ => cases htree
  | some value =>
      cases initial' with
      | none => cases htree
      | some value' =>
          obtain ⟨rfl, rfl⟩ := Expression.determined value value' rest rest'
            (List.cons.inj hphrase).2 (Option.some.inj htree)
          exact ⟨rfl, rfl⟩

theorem Binding.eq_of_phrase {binding binding' : Binding} {rest rest' : Phrase}
    (hphrase : binding.outline.phrase ++ rest = binding'.outline.phrase ++ rest')
    (htree : binding.value.map Expression.tree = binding'.value.map Expression.tree) :
    binding = binding' ∧ rest = rest' := by
  obtain ⟨type, name, initial⟩ := binding
  obtain ⟨type', name', initial'⟩ := binding'
  simp only [Binding.outline, phrase_append, List.append_assoc] at hphrase
  obtain ⟨rfl, hname⟩ := TypeText.eq_of_phrase hphrase
  obtain ⟨hsame, hinitial⟩ := List.cons.inj hname
  obtain rfl := TokenKind.identifier.inj hsame
  obtain ⟨rfl, hclose⟩ := initializer_determined hinitial htree
  exact ⟨rfl, List.append_cancel_left hclose⟩

/-- A condition and what comes behind it. -/
theorem condition_determined {test test' : Expression} {rest rest' : Phrase}
    (hphrase : phrase (inParens test.outline) ++ rest = phrase (inParens test'.outline) ++ rest')
    (htree : test.tree = test'.tree) : test = test' ∧ rest = rest' := by
  obtain ⟨rfl, hclose⟩ := Expression.determined test test' _ _ (inParens_inj hphrase) htree
  exact ⟨rfl, (List.cons.inj hclose).2⟩

theorem returned_determined {value value' : Option Expression} {rest rest' : Phrase}
    (hphrase : (Statement.returnStmt value).outline.phrase ++ rest =
      (Statement.returnStmt value').outline.phrase ++ rest')
    (htree : value.map Expression.tree = value'.map Expression.tree) :
    Statement.returnStmt value = .returnStmt value' ∧ rest = rest' := by
  cases value with
  | none =>
      cases value' with
      | none => exact ⟨rfl, List.append_cancel_left hphrase⟩
      | some _ => cases htree
  | some answer =>
      cases value' with
      | none => cases htree
      | some answer' =>
          simp only [Statement.outline, phrase_append, List.append_assoc] at hphrase
          obtain ⟨rfl, hclose⟩ := Expression.determined answer answer' _ _
            (List.cons.inj hphrase).2 (Option.some.inj htree)
          exact ⟨rfl, List.append_cancel_left hclose⟩

theorem inBraces_inj {first second : Outline} {rest rest' : Phrase}
    (h : phrase (inBraces first) ++ rest = phrase (inBraces second) ++ rest') :
    phrase first ++ .separator .closeBrace :: rest =
      phrase second ++ .separator .closeBrace :: rest' := by
  simpa [Phrase.inBraces] using h

mutual

theorem Statement.determined : Determined Statement.outline Statement.tree
  | .block statements, second, rest, rest', hphrase, htree => by
      cases second with
      | block statements' =>
          obtain ⟨rfl, hclose⟩ := Statement.determined_list statements statements' _ _
            (inBraces_inj hphrase) (ClassLang.Statement.block.inj htree)
          exact ⟨rfl, (List.cons.inj hclose).2⟩
      | ifThen _ _ | ifElse _ _ _ | whileLoop _ _ | returnStmt _ | breakStmt | declaration _
      | expression _ | empty => cases htree
  | .ifThen condition onTrue, second, rest, rest', hphrase, htree => by
      cases second with
      | ifThen condition' onTrue' =>
          obtain ⟨hcondition, honTrue⟩ := ClassLang.Statement.ifThen.inj htree
          simp only [Statement.outline, phrase_append, List.append_assoc] at hphrase
          obtain ⟨rfl, hbehind⟩ := condition_determined (List.cons.inj hphrase).2 hcondition
          obtain ⟨rfl, rfl⟩ := Statement.determined onTrue onTrue' rest rest' hbehind honTrue
          exact ⟨rfl, rfl⟩
      | block _ | ifElse _ _ _ | whileLoop _ _ | returnStmt _ | breakStmt | declaration _
      | expression _ | empty => cases htree
  | .ifElse condition onTrue onFalse, second, rest, rest', hphrase, htree => by
      cases second with
      | ifElse condition' onTrue' onFalse' =>
          obtain ⟨hcondition, honTrue, honFalse⟩ := ClassLang.Statement.ifElse.inj htree
          simp only [Statement.outline, phrase_append, List.append_assoc] at hphrase
          obtain ⟨rfl, hbehind⟩ := condition_determined (List.cons.inj hphrase).2 hcondition
          obtain ⟨rfl, helse⟩ := Statement.determined onTrue onTrue' _ _ hbehind honTrue
          obtain ⟨rfl, rfl⟩ := Statement.determined onFalse onFalse' rest rest'
            (List.cons.inj helse).2 honFalse
          exact ⟨rfl, rfl⟩
      | block _ | ifThen _ _ | whileLoop _ _ | returnStmt _ | breakStmt | declaration _
      | expression _ | empty => cases htree
  | .whileLoop condition body, second, rest, rest', hphrase, htree => by
      cases second with
      | whileLoop condition' body' =>
          obtain ⟨hcondition, hbody⟩ := ClassLang.Statement.whileLoop.inj htree
          simp only [Statement.outline, phrase_append, List.append_assoc] at hphrase
          obtain ⟨rfl, hbehind⟩ := condition_determined (List.cons.inj hphrase).2 hcondition
          obtain ⟨rfl, rfl⟩ := Statement.determined body body' rest rest' hbehind hbody
          exact ⟨rfl, rfl⟩
      | block _ | ifThen _ _ | ifElse _ _ _ | returnStmt _ | breakStmt | declaration _
      | expression _ | empty => cases htree
  | .returnStmt value, second, rest, rest', hphrase, htree => by
      cases second with
      | returnStmt value' =>
          exact returned_determined hphrase (ClassLang.Statement.returnStmt.inj htree)
      | block _ | ifThen _ _ | ifElse _ _ _ | whileLoop _ _ | breakStmt | declaration _
      | expression _ | empty => cases htree
  | .breakStmt, second, rest, rest', hphrase, htree => by
      cases second with
      | breakStmt => exact ⟨rfl, List.append_cancel_left hphrase⟩
      | block _ | ifThen _ _ | ifElse _ _ _ | whileLoop _ _ | returnStmt _ | declaration _
      | expression _ | empty => cases htree
  | .declaration binding, second, rest, rest', hphrase, htree => by
      cases second with
      | declaration binding' =>
          obtain ⟨_, _, hvalue⟩ := ClassLang.Statement.declaration.inj htree
          obtain ⟨rfl, rfl⟩ := Binding.eq_of_phrase hphrase hvalue
          exact ⟨rfl, rfl⟩
      | block _ | ifThen _ _ | ifElse _ _ _ | whileLoop _ _ | returnStmt _ | breakStmt
      | expression _ | empty => cases htree
  | .expression value, second, rest, rest', hphrase, htree => by
      cases second with
      | expression value' =>
          simp only [Statement.outline, phrase_append, List.append_assoc] at hphrase
          obtain ⟨rfl, hclose⟩ := Expression.determined value value' _ _ hphrase
            (ClassLang.Statement.expression.inj htree)
          exact ⟨rfl, List.append_cancel_left hclose⟩
      | block _ | ifThen _ _ | ifElse _ _ _ | whileLoop _ _ | returnStmt _ | breakStmt
      | declaration _ | empty => cases htree
  | .empty, second, rest, rest', hphrase, htree => by
      cases second with
      | empty => exact ⟨rfl, List.append_cancel_left hphrase⟩
      | block _ | ifThen _ _ | ifElse _ _ _ | whileLoop _ _ | returnStmt _ | breakStmt
      | declaration _ | expression _ => cases htree

theorem Statement.determined_list : Determined Statement.outlines Statement.trees
  | [], second, rest, rest', hphrase, htree => by
      cases second with
      | nil => exact ⟨rfl, hphrase⟩
      | cons _ _ => cases htree
  | first :: others, second, rest, rest', hphrase, htree => by
      cases second with
      | nil => cases htree
      | cons first' others' =>
          obtain ⟨hfirst, hothers⟩ := List.cons.inj htree
          simp only [Statement.outlines, phrase_append, List.append_assoc] at hphrase
          obtain ⟨rfl, hbehind⟩ := Statement.determined first first' _ _ hphrase hfirst
          obtain ⟨rfl, rfl⟩ :=
            Statement.determined_list others others' rest rest' hbehind hothers
          exact ⟨rfl, rfl⟩

end

theorem Params.head?_ne_comma (params : Params) (rest : Phrase) :
    (params.outline.phrase ++ .separator .closeParen :: rest).head? ≠
      some (.separator .comma) := by
  cases params with
  | nil => simp [Params.outline]
  | cons first others =>
      obtain ⟨⟨type, name⟩, comma⟩ := first
      cases type <;> rintro ⟨⟩

theorem Param.eq_of_phrase {param param' : Param} {rest rest' : Phrase}
    (h : param.outline.phrase ++ rest = param'.outline.phrase ++ rest') :
    param = param' ∧ rest = rest' := by
  obtain ⟨type, name⟩ := param
  obtain ⟨type', name'⟩ := param'
  simp only [Param.outline, phrase_append, List.append_assoc] at h
  obtain ⟨rfl, hname⟩ := TypeText.eq_of_phrase h
  obtain ⟨hsame, hrest⟩ := List.cons.inj hname
  obtain rfl := TokenKind.identifier.inj hsame
  exact ⟨rfl, hrest⟩

theorem Params.determined (first second : Params) (rest rest' : Phrase)
    (hphrase : first.outline.phrase ++ .separator .closeParen :: rest =
      second.outline.phrase ++ .separator .closeParen :: rest')
    (htree : first.tree = second.tree) : first = second ∧ rest = rest' := by
  induction first generalizing second with
  | nil =>
      cases second with
      | nil => exact ⟨rfl, (List.cons.inj hphrase).2⟩
      | cons _ _ => cases htree
  | cons first others ih =>
      obtain ⟨param, comma⟩ := first
      cases second with
      | nil => cases htree
      | cons first' others' =>
          obtain ⟨param', comma'⟩ := first'
          simp only [Params.outline, phrase_listed, List.append_assoc] at hphrase
          obtain ⟨rfl, hbehind⟩ := Param.eq_of_phrase hphrase
          obtain ⟨rfl, hlist⟩ := eq_of_comma (Params.head?_ne_comma others rest)
            (Params.head?_ne_comma others' rest') hbehind
          obtain ⟨rfl, rfl⟩ := ih others' hlist (List.cons.inj htree).2
          exact ⟨rfl, rfl⟩

/-- Parameters in parentheses and a body in braces. -/
theorem body_determined {params params' : Params} {body body' : List Statement}
    {rest rest' : Phrase}
    (hphrase : phrase (inParens params.outline) ++
        (phrase (inBraces (Statement.outlines body)) ++ rest) =
      phrase (inParens params'.outline) ++
        (phrase (inBraces (Statement.outlines body')) ++ rest'))
    (hparams : params.tree = params'.tree) (hbody : Statement.trees body = Statement.trees body') :
    params = params' ∧ body = body' ∧ rest = rest' := by
  obtain ⟨rfl, hbehind⟩ := Params.determined params params' _ _ (inParens_inj hphrase) hparams
  obtain ⟨rfl, hclose⟩ := Statement.determined_list body body' _ _ (inBraces_inj hbehind) hbody
  exact ⟨rfl, rfl, (List.cons.inj hclose).2⟩

theorem Member.determined : Determined Member.outline Member.tree := by
  intro first second rest rest' hphrase htree
  cases first with
  | field binding =>
      cases second with
      | field binding' =>
          obtain ⟨_, _, hvalue⟩ := ClassLang.Member.field.inj htree
          obtain ⟨rfl, rfl⟩ := Binding.eq_of_phrase hphrase hvalue
          exact ⟨rfl, rfl⟩
      | method _ _ _ _ | constructor _ _ _ => cases htree
  | method returnType name params body =>
      cases second with
      | method returnType' name' params' body' =>
          obtain ⟨_, rfl, hparams, hbody⟩ := ClassLang.Member.method.inj htree
          simp only [Member.outline, phrase_append, List.append_assoc] at hphrase
          obtain ⟨rfl, hname⟩ := TypeText.eq_of_phrase hphrase
          obtain ⟨rfl, rfl, rfl⟩ := body_determined (List.cons.inj hname).2 hparams hbody
          exact ⟨rfl, rfl⟩
      | field _ | constructor _ _ _ => cases htree
  | constructor name params body =>
      cases second with
      | constructor name' params' body' =>
          obtain ⟨rfl, hparams, hbody⟩ := ClassLang.Member.constructor.inj htree
          simp only [Member.outline, phrase_append, List.append_assoc] at hphrase
          obtain ⟨rfl, rfl, rfl⟩ := body_determined (List.cons.inj hphrase).2 hparams hbody
          exact ⟨rfl, rfl⟩
      | field _ | method _ _ _ _ => cases htree

theorem determined_flatMap {ω α : Type} {outline : ω → Outline} {tree : ω → α}
    (h : Determined outline tree) :
    Determined (List.flatMap outline) (List.map tree) := by
  intro first second rest rest' hphrase htree
  induction first generalizing second with
  | nil =>
      cases second with
      | nil => exact ⟨rfl, hphrase⟩
      | cons _ _ => cases htree
  | cons first others ih =>
      cases second with
      | nil => cases htree
      | cons first' others' =>
          obtain ⟨hfirst, hothers⟩ := List.cons.inj htree
          simp only [List.flatMap_cons, phrase_append, List.append_assoc] at hphrase
          obtain ⟨rfl, hbehind⟩ := h first first' _ _ hphrase hfirst
          obtain ⟨rfl, rfl⟩ := ih others' hbehind hothers
          exact ⟨rfl, rfl⟩

theorem ClassDecl.determined : Determined ClassDecl.outline ClassDecl.tree := by
  rintro ⟨name, parent, members⟩ ⟨name', parent', members'⟩ rest rest' hphrase htree
  obtain ⟨rfl, rfl, hmembers⟩ := ClassLang.ClassDecl.mk.inj htree
  simp only [ClassDecl.outline, phrase_append, List.append_assoc] at hphrase
  have hbehind := List.append_cancel_left hphrase
  obtain ⟨rfl, hclose⟩ :=
    determined_flatMap Member.determined members members' _ _ (inBraces_inj hbehind) hmembers
  exact ⟨rfl, (List.cons.inj hclose).2⟩

/-- Programs of the same tokens and the same tree are written in the same way. -/
theorem Program.eq_of_phrase {first second : Program} (hphrase : first.phrase = second.phrase)
    (htree : first.tree = second.tree) : first = second := by
  obtain ⟨classes⟩ := first
  obtain ⟨classes'⟩ := second
  obtain ⟨rfl, _⟩ := determined_flatMap ClassDecl.determined classes classes' [] []
    (congrArg (· ++ []) hphrase) (ClassLang.Program.mk.inj htree)
  rfl

end Written

end ClassLang
