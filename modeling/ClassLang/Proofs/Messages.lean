import ClassLang.Session
import Mathlib.Logic.Function.Basic

/-!
Messages read back. A message is put together from fixed words and from what it
quotes of the source, and a quoted name may hold anything, the fixed words
included. It can be taken apart from the front all the same: the words that it
begins with say of which form it is, none of the things that may be looked for
is named by the beginning of another's name, and what is quoted last ends with
the message. So two errors of one message are one error.
-/

namespace ClassLang

/-- No text of these values begins with that of another one. -/
def IsPrefixFree {α : Type} (text : α → String) (values : List α) : Prop :=
  ∀ first ∈ values, ∀ second ∈ values, (text first).toList <+: (text second).toList →
    first = second

instance {α : Type} [DecidableEq α] (text : α → String) (values : List α) :
    Decidable (IsPrefixFree text values) :=
  inferInstanceAs (Decidable (∀ first ∈ values, ∀ second ∈ values, _ → first = second))

/-- What stands behind such a text cannot be taken for a part of it. -/
theorem IsPrefixFree.append_inj {α : Type} {text : α → String} {values : List α}
    (h : IsPrefixFree text values) {first second : α} (hfirst : first ∈ values)
    (hsecond : second ∈ values) {rest rest' : String}
    (hsame : text first ++ rest = text second ++ rest') : first = second ∧ rest = rest' := by
  have hlist := congrArg String.toList hsame
  rw [String.toList_append, String.toList_append] at hlist
  have hstart : (text first).toList <+: (text second).toList ++ rest'.toList :=
    hlist ▸ List.prefix_append _ _
  obtain rfl : first = second := by
    rcases List.prefix_or_prefix_of_prefix hstart (List.prefix_append _ _) with hless | hmore
    · exact h first hfirst second hsecond hless
    · exact (h second hsecond first hfirst hmore).symm
  exact ⟨rfl, (String.append_right_inj _).mp hsame⟩

namespace Literal

theorem natRepr_inj {m n : Nat} (h : m.repr = n.repr) : m = n := by
  have hvalue (k : Nat) : LexicalRule.decimalValue k.repr.toList = k := by
    rw [Nat.toList_repr, LexicalRule.decimalValue, Nat.ofDigitChars_ten_toDigits]
  rw [← hvalue m, h, hvalue n]

theorem isDigit_of_mem_natRepr {n : Nat} {c : Char} (h : c ∈ n.repr.toList) :
    c.isDigit = true := by
  rw [Nat.toList_repr] at h
  exact Nat.isDigit_of_mem_toDigits (by decide) (by decide) h

/-- A sign is told from the digits. -/
theorem natRepr_ne_negative (m n : Nat) : m.repr ≠ "-" ++ n.repr := by
  intro hsame
  have hminus : '-' ∈ m.repr.toList := by
    rw [hsame, String.toList_append]
    exact List.mem_append_left _ (List.mem_singleton.mpr rfl)
  exact absurd (isDigit_of_mem_natRepr hminus) (by decide)

theorem intRepr_inj {m n : Int} (h : m.repr = n.repr) : m = n := by
  cases m with
  | ofNat m =>
      cases n with
      | ofNat n => rw [natRepr_inj h]
      | negSucc n => exact absurd h (natRepr_ne_negative m (n + 1))
  | negSucc m =>
      cases n with
      | ofNat n => exact absurd h.symm (natRepr_ne_negative n (m + 1))
      | negSucc n =>
          have hsucc : m + 1 = n + 1 := natRepr_inj ((String.append_right_inj "-").mp h)
          rw [Nat.succ.inj hsucc]

/-- The words of both truth values have a letter that no integer has. -/
theorem int_spelling_ne_bool (value : Int64) (truth : Bool) :
    (int value).spelling ≠ (bool truth).spelling := by
  intro hsame
  have hletter : 'e' ∈ value.toInt.repr.toList := by
    change _ ∈ (int value).spelling.toList
    rw [hsame]
    cases truth <;> decide
  cases hvalue : value.toInt with
  | ofNat n =>
      rw [hvalue] at hletter
      exact absurd (isDigit_of_mem_natRepr hletter) (by decide)
  | negSucc n =>
      rw [hvalue] at hletter
      change 'e' ∈ ("-" ++ (n + 1).repr).toList at hletter
      rw [String.toList_append] at hletter
      rcases List.mem_append.mp hletter with hminus | hdigit
      · exact absurd hminus (by decide)
      · exact absurd (isDigit_of_mem_natRepr hdigit) (by decide)

theorem spelling_inj {first second : Literal} (h : first.spelling = second.spelling) :
    first = second := by
  cases first with
  | int value =>
      cases second with
      | int value' => rw [Int64.toInt_inj.mp (intRepr_inj h)]
      | bool truth => exact absurd h (int_spelling_ne_bool value truth)
  | bool truth =>
      cases second with
      | int value => exact absurd h.symm (int_spelling_ne_bool value truth)
      | bool truth' => revert h; cases truth <;> cases truth' <;> decide

end Literal

namespace TokenKind

def classNames : List String :=
  ["identifier", "keyword", "separator", "literal", "type", "operator"]

theorem className_mem (kind : TokenKind) : kind.className ∈ classNames := by
  cases kind <;> simp [className, classNames]

theorem isPrefixFree_classNames : IsPrefixFree id classNames := by
  decide

theorem eq_of_spelling {first second : TokenKind} (hclass : first.className = second.className)
    (h : first.spelling = second.spelling) : first = second := by
  cases first <;> cases second <;> simp only [className, String.reduceEq] at hclass
  case identifier.identifier => exact congrArg identifier h
  case keyword.keyword => exact congrArg keyword (Keyword.spelling_inj h)
  case separator.separator =>
    exact congrArg separator (Separator.char_inj (String.singleton_inj.mp h))
  case literal.literal => exact congrArg literal (Literal.spelling_inj h)
  case typeName.typeName => exact congrArg typeName (TypeName.spelling_inj h)
  case operator.operator => exact congrArg operator (Operator.spelling_inj h)

theorem description_inj {first second : TokenKind} :
    first.description = second.description ↔ first = second := by
  refine ⟨fun h => ?_, congrArg description⟩
  have hdescription (kind : TokenKind) :
      kind.description = id kind.className ++ (" `" ++ kind.spelling ++ "`") := by
    simp only [description, String.append_assoc]
    rfl
  rw [hdescription, hdescription] at h
  obtain ⟨hclass, hquoted⟩ :=
    isPrefixFree_classNames.append_inj (className_mem _) (className_mem _) h
  rw [String.append_left_inj, String.append_right_inj] at hquoted
  exact eq_of_spelling hclass hquoted

end TokenKind

namespace Expectation

def all : List Expectation :=
  [.identifier, .type, .classMember, .statement, .expression] ++ Keyword.all.map .keyword ++
    Separator.all.map .separator

theorem mem_all (expected : Expectation) : expected ∈ all := by
  cases expected with
  | keyword word => simp [all, Keyword.mem_all]
  | separator mark => simp [all, Separator.mem_all]
  | identifier | type | classMember | statement | expression => simp [all]

theorem isPrefixFree_description : IsPrefixFree description all := by
  decide

end Expectation

/-- The forms that a message may have. What is not found and what is missing at
the end of the tokens begin alike. -/
inductive MessageForm where
  | expected
  | unexpectedMember
  | unexpectedExpression
  | emptyProgram
  | nestingTooDeep
  | illegalIdentifier
  | unexpectedCharacter
  | integerOutOfRange
deriving DecidableEq

namespace MessageForm

def all : List MessageForm :=
  [.expected, .unexpectedMember, .unexpectedExpression, .emptyProgram, .nestingTooDeep,
    .illegalIdentifier, .unexpectedCharacter, .integerOutOfRange]

theorem mem_all (form : MessageForm) : form ∈ all := by
  cases form <;> decide

/-- What every message of the form begins with. -/
def opening : MessageForm → String
  | .expected => "expected "
  | .unexpectedMember => "unexpected token in class member: "
  | .unexpectedExpression => "unexpected token in expression: "
  | .emptyProgram => "a program must contain at least one class"
  | .nestingTooDeep => "nesting is too deep (maximum "
  | .illegalIdentifier => "illegal identifier `"
  | .unexpectedCharacter => "unexpected character `"
  | .integerOutOfRange => "integer literal `"

theorem isPrefixFree_opening : IsPrefixFree opening all := by
  decide

end MessageForm

/-- Anything that may be wrong with a source: its syntax, or a piece of it. -/
abbrev Mistake := Fault ⊕ LexicalError

namespace Mistake

def message : Mistake → String := Sum.elim Fault.message LexicalError.message

def form : Mistake → MessageForm
  | .inl (.mismatch _ _) | .inl (.endOfTokens _) => .expected
  | .inl (.unexpectedMember _) => .unexpectedMember
  | .inl (.unexpectedExpression _) => .unexpectedExpression
  | .inl .emptyProgram => .emptyProgram
  | .inl (.nestingTooDeep _) => .nestingTooDeep
  | .inr (.illegalIdentifier _) => .illegalIdentifier
  | .inr (.unexpectedCharacter _) => .unexpectedCharacter
  | .inr (.integerOutOfRange _) => .integerOutOfRange

/-- What the message says behind its opening. -/
def remainder : Mistake → String
  | .inl (.mismatch expected found) => expected.description ++ (", found " ++ found.description)
  | .inl (.endOfTokens expected) => expected.description ++ ", reached end of tokens"
  | .inl (.unexpectedMember found) | .inl (.unexpectedExpression found) => found.description
  | .inl .emptyProgram => ""
  | .inl (.nestingTooDeep max) => max.repr ++ " levels)"
  | .inr (.illegalIdentifier text) => text ++ "`: identifiers cannot start with a digit"
  | .inr (.unexpectedCharacter c) => String.singleton c ++ "`"
  | .inr (.integerOutOfRange text) => text ++ "` is out of range"

theorem message_eq (mistake : Mistake) :
    mistake.message = mistake.form.opening ++ mistake.remainder := by
  rcases mistake with fault | error
  · cases fault with
    | mismatch expected found => exact String.append_assoc.trans String.append_assoc
    | endOfTokens expected => exact String.append_assoc
    | unexpectedMember found => rfl
    | unexpectedExpression found => rfl
    | emptyProgram => exact String.append_empty.symm
    | nestingTooDeep max => exact String.append_assoc
  · cases error with
    | illegalIdentifier text => exact String.append_assoc
    | unexpectedCharacter c => exact String.append_assoc
    | integerOutOfRange text => exact String.append_assoc

/-- Within a form, what follows the opening tells the mistakes apart. -/
theorem eq_of_remainder {first second : Mistake} (hform : first.form = second.form)
    (h : first.remainder = second.remainder) : first = second := by
  have hexpected {expected expected' : Expectation} {rest rest' : String}
      (hsame : expected.description ++ rest = expected'.description ++ rest') :
      expected = expected' ∧ rest = rest' :=
    Expectation.isPrefixFree_description.append_inj expected.mem_all expected'.mem_all hsame
  have hend (found : TokenKind) : ", found " ++ found.description ≠ ", reached end of tokens" := by
    intro hsame
    have hlist := congrArg String.toList hsame
    rw [String.toList_append] at hlist
    cases hlist
  rcases first with fault | error <;> rcases second with fault' | error'
  · cases fault <;> cases fault' <;> simp only [form, reduceCtorEq] at hform
    case mismatch.mismatch expected found expected' found' =>
      obtain ⟨rfl, hfound⟩ := hexpected h
      rw [String.append_right_inj, TokenKind.description_inj] at hfound
      rw [hfound]
    case mismatch.endOfTokens expected found expected' =>
      exact absurd (hexpected h).2 (hend found)
    case endOfTokens.mismatch expected expected' found =>
      exact absurd (hexpected h).2.symm (hend found)
    case endOfTokens.endOfTokens expected expected' => rw [(hexpected h).1]
    case unexpectedMember.unexpectedMember found found' => rw [TokenKind.description_inj.mp h]
    case unexpectedExpression.unexpectedExpression found found' =>
      rw [TokenKind.description_inj.mp h]
    case emptyProgram.emptyProgram => rfl
    case nestingTooDeep.nestingTooDeep max max' =>
      rw [Literal.natRepr_inj ((String.append_left_inj _).mp h)]
  · cases fault <;> cases error' <;> cases hform
  · cases error <;> cases fault' <;> cases hform
  · cases error <;> cases error' <;> simp only [form, reduceCtorEq] at hform
    case illegalIdentifier.illegalIdentifier text text' => rw [(String.append_left_inj _).mp h]
    case unexpectedCharacter.unexpectedCharacter c c' =>
      rw [String.singleton_inj.mp ((String.append_left_inj _).mp h)]
    case integerOutOfRange.integerOutOfRange text text' => rw [(String.append_left_inj _).mp h]

theorem message_inj {first second : Mistake} : first.message = second.message ↔ first = second := by
  refine ⟨fun h => ?_, congrArg message⟩
  rw [message_eq, message_eq] at h
  obtain ⟨hform, hremainder⟩ :=
    MessageForm.isPrefixFree_opening.append_inj first.form.mem_all second.form.mem_all h
  exact eq_of_remainder hform hremainder

end Mistake

theorem SyntaxError.toDiagnostic_injective : Function.Injective SyntaxError.toDiagnostic := by
  rintro ⟨fault, offset⟩ ⟨fault', offset'⟩ h
  obtain ⟨hmessage, rfl⟩ := Diagnostic.mk.inj h
  have hmistake : (.inl fault : Mistake) = .inl fault' := Mistake.message_inj.mp hmessage
  rw [Sum.inl.inj hmistake]

/-- A message tells which mistake it is about, lexical or of syntax, and the name
of a token tells the token, whatever the source holds that is quoted in them. So
what a parse that fails adds to a log gives its error back. -/
theorem mistake_of_message :
    (∀ first second : Mistake, first.message = second.message ↔ first = second) ∧
      (∀ first second : TokenKind, first.description = second.description ↔ first = second) ∧
      ∃ recover : Diagnostic → Option SyntaxError, ∀ (session : Session) (error : SyntaxError),
        parse session.tokens = .error error →
          (session.entries .parse).map recover = [some error] := by
  refine ⟨fun _ _ => Mistake.message_inj, fun _ _ => TokenKind.description_inj,
    Function.partialInv SyntaxError.toDiagnostic, fun session error hparse => ?_⟩
  have hentries : session.entries .parse = [error.toDiagnostic] := by
    unfold Session.entries
    rw [hparse]
  rw [hentries, List.map_singleton,
    Function.partialInv_left SyntaxError.toDiagnostic_injective error]

/-- A class without a name: what the log says gives back what was found in its
place, and where. -/
theorem mistake_of_message_unnamed :
    let session := Session.start.apply (.scan "class (")
    let error : SyntaxError := ⟨.mismatch .identifier (.separator .openParen), 6⟩
    parse session.tokens = .error error ∧
      ∃ recover : Diagnostic → Option SyntaxError,
        (session.entries .parse).map recover = [some error] := by
  intro session error
  have hparse : parse session.tokens = .error error := rfl
  obtain ⟨recover, hrecover⟩ := mistake_of_message.2.2
  exact ⟨hparse, recover, hrecover session error hparse⟩

end ClassLang
