import ClassLang.Proofs.Acceptance

/-!
Brackets match in whatever is parsed. Where the brackets of a phrase match, it
leaves as many open as were open before it, so phrases that follow one another
match if each of them does. Braces that enclose a class are open from the first
of them to the last; only behind that may another class begin, and nothing else
may.
-/

namespace ClassLang

inductive Bracket where
  | brace
  | paren
deriving DecidableEq

/-- The brackets that are open behind a token, the innermost first. A bracket
that closes any other than the innermost one fails. -/
def TokenKind.openAfter (stack : List Bracket) : TokenKind → Option (List Bracket)
  | .separator .openBrace => some (.brace :: stack)
  | .separator .openParen => some (.paren :: stack)
  | .separator .closeBrace => if stack.head? = some .brace then some stack.tail else none
  | .separator .closeParen => if stack.head? = some .paren then some stack.tail else none
  | _ => some stack

/-- What was open further out makes no difference. -/
theorem TokenKind.openAfter_below {stack stack' : List Bracket} {kind : TokenKind}
    (below : List Bracket) (h : kind.openAfter stack = some stack') :
    kind.openAfter (stack ++ below) = some (stack' ++ below) := by
  have hclose (bracket : Bracket)
      (h : (if stack.head? = some bracket then some stack.tail else none) = some stack') :
      (if (stack ++ below).head? = some bracket then some (stack ++ below).tail else none) =
        some (stack' ++ below) := by
    cases stack with
    | nil => cases h
    | cons top stack =>
        split at h
        · next htop =>
            obtain rfl := Option.some.inj h
            exact if_pos htop
        · cases h
  have hsame (h : some stack = some stack') : some (stack ++ below) = some (stack' ++ below) := by
    rw [Option.some.inj h]
  cases kind with
  | separator mark =>
      cases mark with
      | closeBrace => exact hclose .brace h
      | closeParen => exact hclose .paren h
      | openBrace | openParen =>
          obtain rfl := Option.some.inj h
          rfl
      | dot | comma | semicolon | assign => exact hsame h
  | identifier _ | keyword _ | literal _ | typeName _ | operator _ => exact hsame h

namespace Phrase

def openAfter (stack : List Bracket) (phrase : Phrase) : Option (List Bracket) :=
  phrase.foldlM TokenKind.openAfter stack

/-- Each closing bracket closes the innermost one that is open, and is of its
kind; at the end none is open. -/
def Balanced (phrase : Phrase) : Prop := phrase.openAfter [] = some []

instance (phrase : Phrase) : Decidable phrase.Balanced :=
  inferInstanceAs (Decidable (phrase.openAfter [] = some []))

variable {stack stack' : List Bracket} {kind : TokenKind} {phrase first second : Phrase}

/-- A place in two phrases one after the other is in one of them. -/
theorem exists_of_append_eq {kind : TokenKind} {before after : Phrase}
    (h : first ++ second = before ++ kind :: after) :
    (∃ more, first = before ++ kind :: more ∧ after = more ++ second) ∨
      ∃ front, before = first ++ front ∧ second = front ++ kind :: after := by
  rcases List.append_eq_append_iff.mp h with ⟨front, rfl, hsecond⟩ | ⟨tail, rfl, htail⟩
  · exact .inr ⟨front, rfl, hsecond⟩
  · cases tail with
    | nil => exact .inr ⟨[], by simp, by simpa using htail.symm⟩
    | cons kind' more =>
        obtain ⟨rfl, hafter⟩ := List.cons.inj htail
        exact .inl ⟨more, rfl, hafter⟩

@[simp] theorem openAfter_nil : openAfter stack [] = some stack := rfl

theorem openAfter_cons :
    openAfter stack (kind :: phrase) =
      (kind.openAfter stack).bind fun middle => openAfter middle phrase :=
  List.foldlM_cons

theorem openAfter_append :
    openAfter stack (first ++ second) =
      (openAfter stack first).bind fun middle => openAfter middle second :=
  List.foldlM_append

theorem openAfter_below (below : List Bracket) (h : openAfter stack phrase = some stack') :
    openAfter (stack ++ below) phrase = some (stack' ++ below) := by
  induction phrase generalizing stack with
  | nil =>
      obtain rfl := Option.some.inj h
      rfl
  | cons kind phrase ih =>
      rw [openAfter_cons, Option.bind_eq_some_iff] at h
      obtain ⟨middle, hkind, hphrase⟩ := h
      rw [openAfter_cons, TokenKind.openAfter_below below hkind]
      exact ih hphrase

theorem Balanced.openAfter_eq (h : phrase.Balanced) (stack : List Bracket) :
    openAfter stack phrase = some stack :=
  openAfter_below stack h

theorem Balanced.append (hfirst : first.Balanced) (hsecond : second.Balanced) :
    (first ++ second).Balanced := by
  unfold Balanced
  rw [openAfter_append, hfirst]
  exact hsecond

theorem Balanced.of_append (hfirst : first.Balanced) (h : (first ++ second).Balanced) :
    second.Balanced := by
  unfold Balanced at h
  rwa [openAfter_append, hfirst] at h

/-- In front of a phrase, a token that is no bracket. -/
theorem Balanced.cons (h : phrase.Balanced) (hkind : kind.openAfter [] = some []) :
    Balanced (kind :: phrase) := by
  have hone : Balanced [kind] := by
    rw [Balanced, openAfter_cons, hkind]
    rfl
  exact hone.append h

theorem Balanced.inParens (h : phrase.Balanced) : phrase.inParens.Balanced := by
  unfold Balanced Phrase.inParens
  rw [List.cons_append, openAfter_cons]
  change openAfter [.paren] (phrase ++ [.separator .closeParen]) = _
  rw [openAfter_append, h.openAfter_eq]
  rfl

theorem Balanced.inBraces (h : phrase.Balanced) : phrase.inBraces.Balanced := by
  unfold Balanced Phrase.inBraces
  rw [List.cons_append, openAfter_cons]
  change openAfter [.brace] (phrase ++ [.separator .closeBrace]) = _
  rw [openAfter_append, h.openAfter_eq]
  rfl

end Phrase

namespace Grammar

open Phrase

theorem IsType.balanced {phrase : Phrase} {type : String} (h : IsType phrase type) :
    phrase.Balanced := by
  cases h with
  | builtIn name => rfl
  | className name => rfl

theorem IsPath.balanced {names : Phrase} {path : List String} (h : IsPath names path) :
    names.Balanced := by
  induction h with
  | name name => rfl
  | dot name others ih => exact (ih.cons rfl).cons rfl

theorem IsComma.balanced {comma : Phrase} (h : IsComma comma) : comma.Balanced := by
  cases h with
  | absent => rfl
  | present => rfl

theorem IsSequence.balanced {α : Type} {element : Phrase → α → Prop} {phrase : Phrase}
    {values : List α} (helement : ∀ phrase value, element phrase value → phrase.Balanced)
    (h : IsSequence element phrase values) : phrase.Balanced := by
  induction h with
  | nil => rfl
  | cons head tail ih => exact (helement _ _ head).append ih

mutual

theorem IsExpression.balanced {phrase : Phrase} {value : Expression} :
    IsExpression phrase value → phrase.Balanced
  | .literal value => rfl
  | .reference hpath => hpath.balanced
  | .new className hlist => (hlist.balanced.inParens.cons rfl).cons rfl
  | .call hpath hlist => hpath.balanced.append hlist.balanced.inParens
  | .assignment hpath hvalue => hpath.balanced.append (hvalue.balanced.cons rfl)
  | .binary symbol hleft hright => hleft.balanced.append (hright.balanced.cons rfl)
  | .parens hvalue => hvalue.balanced.inParens

theorem IsArguments.balanced {list : Phrase} {values : List Expression} :
    IsArguments list values → list.Balanced
  | .nil => rfl
  | .cons hfirst hcomma hrest =>
      (hfirst.balanced.append hcomma.balanced).append hrest.balanced

end

theorem IsInitializer.balanced {start : Phrase} {value : Option Expression}
    (h : IsInitializer start value) : start.Balanced := by
  cases h with
  | absent => rfl
  | present hvalue => exact hvalue.balanced.cons rfl

/-- A phrase and the semicolon behind it. -/
theorem balanced_semicolon {phrase : Phrase} (h : phrase.Balanced) :
    Balanced (phrase ++ [.separator .semicolon]) :=
  h.append rfl

/-- The phrase that fields and declarations share. -/
theorem balanced_variable {phrase start : Phrase} {type : String} {value : Option Expression}
    (name : String) (htype : IsType phrase type) (hstart : IsInitializer start value) :
    Balanced (phrase ++ .identifier name :: start ++ [.separator .semicolon]) :=
  balanced_semicolon (htype.balanced.append (hstart.balanced.cons rfl))

mutual

theorem IsStatement.balanced {phrase : Phrase} {statement : Statement} :
    IsStatement phrase statement → phrase.Balanced
  | .block hinner => hinner.balanced.inBraces
  | .ifThen htest hfirst => (htest.balanced.inParens.append hfirst.balanced).cons rfl
  | .ifElse htest hfirst hsecond =>
      ((htest.balanced.inParens.append hfirst.balanced).cons rfl).append
        (hsecond.balanced.cons rfl)
  | .whileLoop htest hinner => (htest.balanced.inParens.append hinner.balanced).cons rfl
  | .returnNothing => rfl
  | .returnValue hvalue => balanced_semicolon (hvalue.balanced.cons rfl)
  | .breakStmt => rfl
  | .declaration name htype hstart => balanced_variable name htype hstart
  | .expression hvalue => balanced_semicolon hvalue.balanced
  | .empty => rfl

theorem IsStatements.balanced {phrase : Phrase} {statements : List Statement} :
    IsStatements phrase statements → phrase.Balanced
  | .nil => rfl
  | .cons hfirst hrest => hfirst.balanced.append hrest.balanced

end

theorem IsParam.balanced {phrase : Phrase} {param : Param} (h : IsParam phrase param) :
    phrase.Balanced := by
  cases h with
  | param name htype hcomma => exact htype.balanced.append (hcomma.balanced.cons rfl)

theorem IsParams.balanced {list : Phrase} {params : List Param} (h : IsParams list params) :
    list.Balanced :=
  IsSequence.balanced (fun _ _ => IsParam.balanced) h

theorem IsMember.balanced {phrase : Phrase} {member : Member} (h : IsMember phrase member) :
    phrase.Balanced := by
  cases h with
  | field name htype hstart => exact balanced_variable name htype hstart
  | method name htype hlist hinner =>
      have hlist := hlist.balanced.inParens
      exact (htype.balanced.append (hlist.cons rfl)).append hinner.balanced.inBraces
  | constructor name hlist hinner =>
      exact (hlist.balanced.inParens.cons rfl).append hinner.balanced.inBraces

theorem IsParent.balanced {above : Phrase} {parent : Option String} (h : IsParent above parent) :
    above.Balanced := by
  cases h with
  | absent => rfl
  | present name => rfl

theorem IsClass.balanced {phrase : Phrase} {classDecl : ClassDecl} (h : IsClass phrase classDecl) :
    phrase.Balanced := by
  cases h with
  | classDecl name hparent hinner =>
      have hinner : Balanced _ := IsSequence.balanced (fun _ _ => IsMember.balanced) hinner
      exact ((hparent.balanced.append hinner.inBraces).cons rfl).cons rfl

theorem IsProgram.balanced {phrase : Phrase} {program : Program} (h : IsProgram phrase program) :
    phrase.Balanced := by
  cases h with
  | program hclasses hsome => exact IsSequence.balanced (fun _ _ => IsClass.balanced) hclasses

/-- Inside braces, from the first of them on, a brace is open. -/
theorem not_balanced_in_braces {inner before after : Phrase} (hinner : inner.Balanced)
    (h : inner = before ++ after) : ¬ Balanced (.separator .openBrace :: before) := by
  subst h
  unfold Phrase.Balanced at hinner
  rw [openAfter_append, Option.bind_eq_some_iff] at hinner
  obtain ⟨stack, hbefore, _⟩ := hinner
  intro hopen
  have hbrace : openAfter [.brace] before = some [] := hopen
  have hbelow := openAfter_below [.brace] hbefore
  rw [List.nil_append, hbrace, Option.some.injEq] at hbelow
  simp at hbelow

/-- Brackets do not match at a closing brace inside a class, before its last. -/
theorem IsClass.eq_nil_of_balanced {before after : Phrase} {classDecl : ClassDecl}
    (h : IsClass (before ++ after) classDecl) (hbefore : before.Balanced)
    (hclose : .separator .closeBrace ∈ before) : after = [] := by
  generalize hphrase : before ++ after = phrase at h
  cases h with
  | @classDecl name above inner parent members hparent hinner =>
      have hheader : Balanced (.keyword .classKw :: .identifier name :: above) :=
        (hparent.balanced.cons rfl).cons rfl
      have hnone :
          .separator .closeBrace ∉ TokenKind.keyword .classKw :: .identifier name :: above := by
        cases hparent <;> simp
      generalize TokenKind.keyword .classKw :: .identifier name :: above = header at *
      have hbody : inner.Balanced := IsSequence.balanced (fun _ _ => IsMember.balanced) hinner
      rcases List.eq_nil_or_concat after with hnil | ⟨front, last, rfl⟩
      · exact hnil
      exfalso
      rw [List.concat_eq_append, inBraces, ← List.append_assoc, ← List.append_assoc] at hphrase
      obtain ⟨hfront, _⟩ := List.append_inj' hphrase rfl
      rcases List.append_eq_append_iff.mp hfront with ⟨rest, rfl, _⟩ | ⟨opened, rfl, hopened⟩
      · exact hnone (List.mem_append_left _ hclose)
      · cases opened with
        | nil => exact hnone (by simpa using hclose)
        | cons kind more =>
            obtain ⟨rfl, hinner⟩ := List.cons_eq_cons.mp hopened
            exact not_balanced_in_braces hbody hinner (hheader.of_append hbefore)

/-- Where brackets match behind a closing brace, a class has just ended. So if
anything comes, it is another class. -/
theorem IsSequence.eq_classKw_of_balanced {phrase before after : Phrase} {kind : TokenKind}
    {classes : List ClassDecl} (h : IsSequence IsClass phrase classes)
    (hphrase : phrase = before ++ kind :: after) (hbefore : before.Balanced)
    (hclose : before.getLast? = some (.separator .closeBrace)) : kind = .keyword .classKw := by
  induction h generalizing before with
  | nil => simp at hphrase
  | @cons first rest value values head tail ih =>
      have hnext (hrest : rest = kind :: after) : kind = .keyword .classKw := by
        cases tail with
        | nil => cases hrest
        | cons next others =>
            cases next
            exact (List.cons.inj hrest).1.symm
      rcases List.append_eq_append_iff.mp hphrase with ⟨later, rfl, hrest⟩ | ⟨left, rfl, hleft⟩
      · rcases List.eq_nil_or_concat later with rfl | ⟨front, last, rfl⟩
        · exact hnext hrest
        · refine ih hrest (head.balanced.of_append hbefore) ?_
          simpa [List.getLast?_append] using hclose
      · obtain rfl := head.eq_nil_of_balanced hbefore (List.mem_of_getLast? hclose)
        exact hnext hleft.symm

end Grammar

/-- Brackets match in every list of tokens that is parsed. A list in which they
do not is rejected, and so is one that goes on behind a class, where they match
again, with anything but another class. -/
theorem balanced_of_parse (tokens : List Token) :
    (∀ program, parse tokens = .ok program → Phrase.Balanced (kinds tokens)) ∧
      (¬ Phrase.Balanced (kinds tokens) → ∃ error, parse tokens = .error error) ∧
      ∀ before token after, tokens = before ++ token :: after →
        Phrase.Balanced (kinds before) →
        (kinds before).getLast? = some (.separator .closeBrace) →
        token.kind ≠ .keyword .classKw → ∃ error, parse tokens = .error error := by
  have herror (hnot : ∀ program, parse tokens ≠ .ok program) :
      ∃ error, parse tokens = .error error := by
    cases hparse : parse tokens with
    | ok program => exact absurd hparse (hnot program)
    | error error => exact ⟨error, rfl⟩
  have hbalanced (program : Program) (hparse : parse tokens = .ok program) :
      Phrase.Balanced (kinds tokens) :=
    (isProgram_of_parse hparse).balanced
  refine ⟨hbalanced, fun hnot => herror fun program hparse => hnot (hbalanced program hparse), ?_⟩
  rintro before token after rfl hbefore hclose hkind
  apply herror
  intro program hparse
  cases isProgram_of_parse hparse with
  | program hclasses _ =>
      exact hkind (hclasses.eq_classKw_of_balanced (kinds_append _ _) hbefore hclose)

/-- `class C { C ( { ) } }`, where a parenthesis and a brace cross, and
`class C { C ( ) { } } ;`, which goes on behind the class. -/
theorem balanced_of_parse_crossed :
    let tokens (words : Phrase) : List Token := words.map fun kind => ⟨kind, 0⟩
    let header : Phrase :=
      [.keyword .classKw, .identifier "C", .separator .openBrace, .identifier "C",
        .separator .openParen]
    let crossed : Phrase :=
      header ++ [.separator .openBrace, .separator .closeParen, .separator .closeBrace,
        .separator .closeBrace]
    let whole : Phrase :=
      header ++ [.separator .closeParen, .separator .openBrace, .separator .closeBrace,
        .separator .closeBrace]
    (¬ crossed.Balanced ∧ ∃ error, parse (tokens crossed) = .error error) ∧
      (∃ program, parse (tokens whole) = .ok program) ∧ whole.Balanced ∧
      ∃ error, parse (tokens whole ++ [⟨.separator .semicolon, 0⟩]) = .error error := by
  intro tokens header crossed whole
  have hcrossed : ¬ crossed.Balanced := by decide
  have hwhole : parse (tokens whole) = .ok ⟨[⟨"C", none, [.constructor "C" [] []]⟩]⟩ := rfl
  have hbalanced : whole.Balanced := (balanced_of_parse (tokens whole)).1 _ hwhole
  refine ⟨⟨hcrossed, (balanced_of_parse (tokens crossed)).2.1 hcrossed⟩, ⟨_, hwhole⟩, hbalanced, ?_⟩
  exact (balanced_of_parse _).2.2 (tokens whole) _ [] rfl hbalanced rfl (by decide)

end ClassLang
