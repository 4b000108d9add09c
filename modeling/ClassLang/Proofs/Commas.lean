import ClassLang.Proofs.Brackets
import ClassLang.Proofs.Edits.Class
import ClassLang.Proofs.Written.Unique

/-!
Commas are decoration. Behind each element of a list one may stand, and behind
the last element it may be left out; the program is the same. Nowhere else does
a comma stand in what is parsed: inside the innermost parenthesis that is open
there is a list, so a name comes in front of that, and in front of the comma
there is an element.
-/

namespace ClassLang

namespace Phrase

/-- Behind this phrase one is directly inside a list: of the brackets that are
open the innermost is a parenthesis behind a name. -/
def InList (before : Phrase) : Prop :=
  ∃ (outer : Phrase) (name : String) (inner : Phrase),
    before = outer ++ .identifier name :: .separator .openParen :: inner ∧ inner.Balanced

/-- Something stands between this place and the parenthesis or the comma before
it. -/
def EndsElement (before : Phrase) : Prop :=
  before.getLast? ≠ some (.separator .openParen) ∧ before.getLast? ≠ some (.separator .comma)

/-- Each comma is directly inside a list, and behind an element. -/
def CommasInLists (phrase : Phrase) : Prop :=
  ∀ before after : Phrase, phrase = before ++ .separator .comma :: after →
    before.InList ∧ before.EndsElement

variable {first second before phrase : Phrase}

theorem InList.ne_nil (h : before.InList) : before ≠ [] := by
  obtain ⟨outer, name, inner, rfl, _⟩ := h
  simp

theorem InList.append (first : Phrase) (h : second.InList) : (first ++ second).InList := by
  obtain ⟨outer, name, inner, rfl, hinner⟩ := h
  exact ⟨first ++ outer, name, inner, by rw [List.append_assoc], hinner⟩

theorem EndsElement.append (first : Phrase) (hne : second ≠ []) (h : second.EndsElement) :
    (first ++ second).EndsElement := by
  unfold EndsElement
  rwa [List.getLast?_append, List.getLast?_eq_some_getLast hne, Option.some_or,
    ← List.getLast?_eq_some_getLast hne]

theorem commasInLists_of_not_mem (h : .separator .comma ∉ phrase) : phrase.CommasInLists := by
  rintro before after rfl
  simp at h

theorem CommasInLists.append (hfirst : first.CommasInLists) (hsecond : second.CommasInLists) :
    (first ++ second).CommasInLists := by
  intro before after h
  rcases exists_of_append_eq h with ⟨more, hmore, _⟩ | ⟨front, rfl, hfront⟩
  · exact hfirst before more hmore
  · obtain ⟨hlist, hends⟩ := hsecond front after hfront
    exact ⟨hlist.append first, hends.append first hlist.ne_nil⟩

theorem CommasInLists.cons {kind : TokenKind} (hkind : kind ≠ .separator .comma)
    (h : phrase.CommasInLists) : CommasInLists (kind :: phrase) := by
  have hone : CommasInLists [kind] := commasInLists_of_not_mem (by simpa using hkind.symm)
  exact hone.append h

/-- Directly inside a list, a parenthesis is open. -/
theorem InList.not_balanced (h : before.InList) : ¬ before.Balanced := by
  obtain ⟨outer, name, inner, rfl, hinner⟩ := h
  unfold Balanced
  rw [openAfter_append]
  cases hstack : openAfter [] outer with
  | none => exact nofun
  | some stack =>
      change openAfter (.paren :: stack) inner ≠ some []
      rw [hinner.openAfter_eq]
      exact nofun

theorem Balanced.exists_of_concat {kind : TokenKind} (h : Balanced (phrase ++ [kind])) :
    ∃ stack, openAfter [] phrase = some stack ∧ kind.openAfter stack = some [] := by
  unfold Balanced at h
  rw [openAfter_append, Option.bind_eq_some_iff] at h
  obtain ⟨stack, hstack, hkind⟩ := h
  exact ⟨stack, hstack, by simpa [openAfter_cons] using hkind⟩

/-- Where brackets match and all commas are in lists, the phrase ends in no
comma and no open parenthesis. -/
theorem CommasInLists.endsElement (h : phrase.CommasInLists) (hbalanced : phrase.Balanced) :
    phrase.EndsElement := by
  constructor
  · intro hlast
    obtain ⟨front, rfl⟩ := List.getLast?_eq_some_iff.mp hlast
    obtain ⟨stack, _, hopen⟩ := hbalanced.exists_of_concat
    cases hopen
  · intro hlast
    obtain ⟨front, rfl⟩ := List.getLast?_eq_some_iff.mp hlast
    obtain ⟨stack, hfront, hcomma⟩ := hbalanced.exists_of_concat
    obtain rfl := Option.some.inj hcomma
    exact (h front [] rfl).1.not_balanced hfront

/-- Each comma is inside a list further in, or stands behind an element of this
one. -/
def ListsCommas (list : Phrase) : Prop :=
  ∀ before after : Phrase, list = before ++ .separator .comma :: after →
    before.EndsElement ∧ before ≠ [] ∧ (before.InList ∨ before.Balanced)

theorem listsCommas_nil : ListsCommas [] := by
  intro before after h
  simp at h

theorem ListsCommas.cons {comma list : Phrase} (hne : first ≠ []) (hfirst : first.CommasInLists)
    (hbalanced : first.Balanced) (hcomma : Grammar.IsComma comma) (hlist : list.ListsCommas) :
    ListsCommas (first ++ comma ++ list) := by
  have hfront : (first ++ comma).Balanced := hbalanced.append hcomma.balanced
  intro before after h
  rcases exists_of_append_eq h with ⟨more, hmore, _⟩ | ⟨front, rfl, hfront'⟩
  · rcases exists_of_append_eq hmore with ⟨more', hmore', _⟩ | ⟨front, rfl, hcomma'⟩
    · obtain ⟨hinner, hends⟩ := hfirst before more' hmore'
      exact ⟨hends, hinner.ne_nil, .inl hinner⟩
    · obtain rfl : front = [] := by
        cases hcomma with
        | absent => simp at hcomma'
        | present => exact (by simpa [List.singleton_eq_append_iff] using hcomma' : _ ∧ _).1
      rw [List.append_nil]
      exact ⟨hfirst.endsElement hbalanced, hne, .inr hbalanced⟩
  · obtain ⟨hends, hne', hinner⟩ := hlist front after hfront'
    refine ⟨hends.append _ hne', by simp [hne'], ?_⟩
    rcases hinner with hinner | hinner
    · exact .inl (hinner.append _)
    · exact .inr (hfront.append hinner)

/-- A list in parentheses behind a name. -/
theorem ListsCommas.inParens {list : Phrase} (name : String) (h : list.ListsCommas) :
    CommasInLists (.identifier name :: list.inParens) := by
  intro before after hphrase
  have hopen : CommasInLists [.identifier name, .separator .openParen] :=
    commasInLists_of_not_mem (by simp)
  have hclose : CommasInLists [.separator .closeParen] := commasInLists_of_not_mem (by simp)
  have hsplit : [TokenKind.identifier name, .separator .openParen] ++
      (list ++ [.separator .closeParen]) = before ++ .separator .comma :: after := hphrase
  rcases exists_of_append_eq hsplit with ⟨more, hmore, _⟩ | ⟨front, rfl, hfront⟩
  · exact hopen before more hmore
  · rcases exists_of_append_eq hfront with ⟨more, hmore, _⟩ | ⟨front', rfl, hfront'⟩
    · obtain ⟨hends, hne, hinner⟩ := h front more hmore
      refine ⟨?_, hends.append _ hne⟩
      rcases hinner with hinner | hinner
      · exact hinner.append _
      · exact ⟨[], name, front, rfl, hinner⟩
    · exact absurd (hclose front' after hfront').1 (by
        cases front' <;> simp at hfront')

end Phrase

namespace Grammar

open Phrase

theorem IsType.commasInLists {phrase : Phrase} {type : String} (h : IsType phrase type) :
    phrase.CommasInLists := by
  cases h with
  | builtIn name => exact commasInLists_of_not_mem (by simp)
  | className name => exact commasInLists_of_not_mem (by simp)

theorem IsPath.commasInLists {names : Phrase} {path : List String} (h : IsPath names path) :
    names.CommasInLists := by
  induction h with
  | name name => exact commasInLists_of_not_mem (by simp)
  | dot name others ih => exact (ih.cons (by simp)).cons (by simp)

/-- A list in parentheses behind a path. -/
theorem IsPath.commasInLists_call {names list : Phrase} {path : List String}
    (h : IsPath names path) (hlist : list.ListsCommas) :
    (names ++ inParens list).CommasInLists := by
  induction h with
  | name name => exact hlist.inParens name
  | dot name others ih => exact (ih.cons (by simp)).cons (by simp)

mutual

theorem IsExpression.commasInLists {phrase : Phrase} {value : Expression} :
    IsExpression phrase value → phrase.CommasInLists
  | .literal value => commasInLists_of_not_mem (by simp)
  | .reference hpath => hpath.commasInLists
  | .new className hlist => (hlist.listsCommas.inParens className).cons (by simp)
  | .call hpath hlist => hpath.commasInLists_call hlist.listsCommas
  | .assignment hpath hvalue => hpath.commasInLists.append (hvalue.commasInLists.cons (by simp))
  | .binary symbol hleft hright =>
      hleft.commasInLists.append (hright.commasInLists.cons (by simp))
  | .parens hvalue =>
      (hvalue.commasInLists.cons (by simp)).append (commasInLists_of_not_mem (by simp))

theorem IsArguments.listsCommas {list : Phrase} {values : List Expression} :
    IsArguments list values → list.ListsCommas
  | .nil => listsCommas_nil
  | .cons hfirst hcomma hrest =>
      .cons hfirst.ne_nil hfirst.commasInLists hfirst.balanced hcomma hrest.listsCommas

end

theorem IsInitializer.commasInLists {start : Phrase} {value : Option Expression}
    (h : IsInitializer start value) : start.CommasInLists := by
  cases h with
  | absent => exact commasInLists_of_not_mem (by simp)
  | present hvalue => exact hvalue.commasInLists.cons (by simp)

/-- A phrase in front of one token that is no comma. -/
theorem commasInLists_concat {phrase : Phrase} {kind : TokenKind} (h : phrase.CommasInLists)
    (hkind : kind ≠ .separator .comma) : (phrase ++ [kind]).CommasInLists :=
  h.append (commasInLists_of_not_mem (by simpa using hkind.symm))

theorem commasInLists_inParens {phrase : Phrase} (h : phrase.CommasInLists) :
    (inParens phrase).CommasInLists :=
  commasInLists_concat (h.cons (by simp)) (by simp)

theorem commasInLists_inBraces {phrase : Phrase} (h : phrase.CommasInLists) :
    (inBraces phrase).CommasInLists :=
  commasInLists_concat (h.cons (by simp)) (by simp)

/-- The phrase that fields and declarations share. -/
theorem commasInLists_variable {phrase start : Phrase} {type : String} {value : Option Expression}
    (name : String) (htype : IsType phrase type) (hstart : IsInitializer start value) :
    CommasInLists (phrase ++ .identifier name :: start ++ [.separator .semicolon]) :=
  commasInLists_concat (htype.commasInLists.append (hstart.commasInLists.cons (by simp)))
    (by simp)

mutual

theorem IsStatement.commasInLists {phrase : Phrase} {statement : Statement} :
    IsStatement phrase statement → phrase.CommasInLists
  | .block hinner => commasInLists_inBraces hinner.commasInLists
  | .ifThen htest hfirst =>
      ((commasInLists_inParens htest.commasInLists).append hfirst.commasInLists).cons (by simp)
  | .ifElse htest hfirst hsecond =>
      (((commasInLists_inParens htest.commasInLists).append hfirst.commasInLists).cons
        (by simp)).append (hsecond.commasInLists.cons (by simp))
  | .whileLoop htest hinner =>
      ((commasInLists_inParens htest.commasInLists).append hinner.commasInLists).cons (by simp)
  | .returnNothing => commasInLists_of_not_mem (by simp)
  | .returnValue hvalue => commasInLists_concat (hvalue.commasInLists.cons (by simp)) (by simp)
  | .breakStmt => commasInLists_of_not_mem (by simp)
  | .declaration name htype hstart => commasInLists_variable name htype hstart
  | .expression hvalue => commasInLists_concat hvalue.commasInLists (by simp)
  | .empty => commasInLists_of_not_mem (by simp)

theorem IsStatements.commasInLists {phrase : Phrase} {statements : List Statement} :
    IsStatements phrase statements → phrase.CommasInLists
  | .nil => commasInLists_of_not_mem (by simp)
  | .cons hfirst hrest => hfirst.commasInLists.append hrest.commasInLists

end

theorem IsParams.listsCommas {list : Phrase} {params : List Param} (h : IsParams list params) :
    list.ListsCommas := by
  induction h with
  | nil => exact listsCommas_nil
  | cons head tail ih =>
      cases head with
      | param name htype hcomma =>
          have hbalanced : Balanced [.identifier name] := rfl
          have hname : CommasInLists [.identifier name] := commasInLists_of_not_mem (by simp)
          have hcons := ih.cons (by simp) (htype.commasInLists.append hname)
            (htype.balanced.append hbalanced) hcomma
          simpa using hcons

theorem IsMember.commasInLists {phrase : Phrase} {member : Member} (h : IsMember phrase member) :
    phrase.CommasInLists := by
  cases h with
  | field name htype hstart => exact commasInLists_variable name htype hstart
  | method name htype hlist hinner =>
      have hparams := hlist.listsCommas.inParens name
      exact (htype.commasInLists.append hparams).append
        (commasInLists_inBraces hinner.commasInLists)
  | constructor name hlist hinner =>
      exact (hlist.listsCommas.inParens name).append (commasInLists_inBraces hinner.commasInLists)

theorem IsSequence.commasInLists {α : Type} {element : Phrase → α → Prop} {phrase : Phrase}
    {values : List α} (helement : ∀ phrase value, element phrase value → phrase.CommasInLists)
    (h : IsSequence element phrase values) : phrase.CommasInLists := by
  induction h with
  | nil => exact commasInLists_of_not_mem (by simp)
  | cons head tail ih => exact (helement _ _ head).append ih

theorem IsParent.commasInLists {above : Phrase} {parent : Option String}
    (h : IsParent above parent) : above.CommasInLists := by
  cases h with
  | absent => exact commasInLists_of_not_mem (by simp)
  | present name => exact commasInLists_of_not_mem (by simp)

theorem IsClass.commasInLists {phrase : Phrase} {classDecl : ClassDecl}
    (h : IsClass phrase classDecl) : phrase.CommasInLists := by
  cases h with
  | classDecl name hparent hinner =>
      have hmembers : CommasInLists _ :=
        IsSequence.commasInLists (fun _ _ => IsMember.commasInLists) hinner
      have hbody := hparent.commasInLists.append (commasInLists_inBraces hmembers)
      exact (hbody.cons (by simp)).cons (by simp)

theorem IsProgram.commasInLists {phrase : Phrase} {program : Program}
    (h : IsProgram phrase program) : phrase.CommasInLists := by
  cases h with
  | program hclasses hsome =>
      exact IsSequence.commasInLists (fun _ _ => IsClass.commasInLists) hclasses

end Grammar

open Outline (Edited)

/-- Commas are decoration. Tokens that are parsed have been written in one way,
and all commas among them stand behind elements of lists. Wherever one is added
behind an element, or one behind a last element is taken away, the program is the
same. Tokens with a comma anywhere else are not parsed: at the front of a list,
behind another comma, or in no list at all. -/
theorem commas_of_parse (tokens : List Token) :
    (∀ program, parse tokens = .ok program →
      ∃ written : Written.Program, written.phrase = kinds tokens ∧ written.tree = program ∧
        (∀ other : Written.Program, other.phrase = kinds tokens → other.tree = program →
          other = written) ∧
        written.outline.Unmarked ∧
        ∀ outline tokens', Edited written.outline outline → kinds tokens' = outline.phrase →
          parse tokens' = .ok program) ∧
      ∀ before comma after, tokens = before ++ comma :: after →
        comma.kind = .separator .comma →
        (kinds before).getLast? = some (.separator .openParen) ∨
          (kinds before).getLast? = some (.separator .comma) ∨ ¬ Phrase.InList (kinds before) →
        ∃ error, parse tokens = .error error := by
  refine ⟨?_, ?_⟩
  · intro program hparse
    obtain ⟨written, hphrase, htree, hedits⟩ := exists_written_of_parse hparse
    refine ⟨written, hphrase, htree, fun other hother htree' => ?_, written.unmarked, hedits⟩
    exact Written.Program.eq_of_phrase (hother.trans hphrase.symm) (htree'.trans htree.symm)
  · rintro before ⟨_, offset⟩ after rfl rfl hplace
    cases hparse : parse (before ++ ⟨.separator .comma, offset⟩ :: after) with
    | error error => exact ⟨error, rfl⟩
    | ok program =>
        have hcommas := (isProgram_of_parse hparse).commasInLists
        obtain ⟨hlist, hopen, hcomma⟩ := hcommas (kinds before) (kinds after) (kinds_append _ _)
        rcases hplace with hplace | hplace | hplace
        · exact absurd hplace hopen
        · exact absurd hplace hcomma
        · exact absurd hlist hplace

/-- `class C { C(D d int e) { f(new E(1), g(x y,)); } }`, and the same with a
comma behind `d`, `e` and `1` and behind the inner call, and with none behind
`y`; but not with one in front of `D`. -/
theorem commas_of_parse_nested :
    let written (behindD behindE behindOne behindCall behindY : Bool) : Written.Program :=
      let inner : Written.Expression :=
        .call ⟨"g", []⟩ (.cons (.reference ⟨"x", []⟩) false
          (.cons (.reference ⟨"y", []⟩) behindY .nil))
      let made : Written.Expression := .new "E" (.cons (.literal (.int 1)) behindOne .nil)
      let outer : Written.Expression :=
        .call ⟨"f", []⟩ (.cons made true (.cons inner behindCall .nil))
      let params : Written.Params :=
        [(⟨.className "D", "d"⟩, behindD), (⟨.builtIn .int, "e"⟩, behindE)]
      ⟨[⟨"C", none, [.constructor "C" params [.expression outer]]⟩]⟩
    let first := written false false false false true
    let second := written true true true true false
    let tokens (phrase : Phrase) : List Token := phrase.map fun kind => ⟨kind, 0⟩
    let header := tokens (first.phrase.take 5)
    parse (tokens first.phrase) = .ok first.tree ∧
      Edited first.outline second.outline ∧
      parse (tokens second.phrase) = .ok first.tree ∧
      ∃ error, parse (header ++ ⟨.separator .comma, 0⟩ :: tokens (first.phrase.drop 5)) =
        .error error := by
  intro written first second tokens header
  have hparse : parse (tokens first.phrase) = .ok first.tree := rfl
  have hedited : Edited first.outline second.outline := by
    repeat constructor
  obtain ⟨hedits, hcommas⟩ := commas_of_parse (tokens first.phrase)
  obtain ⟨found, _, _, hunique, _, hfound⟩ := hedits first.tree hparse
  obtain rfl : first = found := hunique first rfl rfl
  refine ⟨hparse, hedited, hfound second.outline _ hedited rfl, ?_⟩
  exact (commas_of_parse _).2 header ⟨.separator .comma, 0⟩ _ rfl rfl (.inl rfl)

end ClassLang
