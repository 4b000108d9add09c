import Mathlib.Data.List.Forall2
import ClassLang.Proofs.Lookahead.Steps
import ClassLang.Proofs.Taking
import ClassLang.Proofs.Written

/-!
Commas that come and go. An edit adds the comma behind an element of a list, or
takes away the one behind the last element. A rule tolerates edits if the tokens
that it takes have an outline, and on the tokens of every outline that edits
make of it the rule answers the same. What comes behind these tokens may be
edited too; then its first token is still the same, or where an element has been
read, a comma or the parenthesis that closes the list. So the property passes
through a rule from part to part, as reading does.
-/

namespace ClassLang

/-- A comma is added, or the one behind the last element is taken away. -/
inductive Mark.Edit : Mark → Mark → Prop where
  | same (mark : Mark) : Edit mark mark
  | insert (last : Bool) : Edit (.place last false) (.place last true)
  | remove : Edit (.place true true) (.place true false)

namespace Outline

/-- Any number of edits. -/
def Edited : Outline → Outline → Prop := List.Forall₂ Mark.Edit

/-- An outline that begins with a token, if it has any marks. -/
def StartsFirm (outline : Outline) : Prop := ∀ mark ∈ outline.head?, ∃ kind, mark = .token kind

variable {outline outline' first second : Outline} {kind : TokenKind}

theorem Edited.exists_append (h : Edited (first ++ second) outline') :
    ∃ first' second', outline' = first' ++ second' ∧ Edited first first' ∧
      Edited second second' := by
  induction first generalizing outline' with
  | nil => exact ⟨[], outline', rfl, .nil, h⟩
  | cons mark first ih =>
      cases h with
      | @cons _ mark' _ rest' hmark hrest =>
          obtain ⟨first', second', rfl, hfirst, hsecond⟩ := ih hrest
          exact ⟨mark' :: first', second', rfl, .cons hmark hfirst, hsecond⟩

theorem Edited.exists_cons (h : Edited (.token kind :: outline) outline') :
    ∃ rest', outline' = .token kind :: rest' ∧ Edited outline rest' := by
  cases h with
  | cons hmark hrest =>
      cases hmark
      exact ⟨_, rfl, hrest⟩

theorem StartsFirm.append (hfirst : first.StartsFirm) (hsecond : second.StartsFirm) :
    (first ++ second).StartsFirm := by
  cases first with
  | nil => exact hsecond
  | cons mark first => exact hfirst

theorem startsFirm_token (kind : TokenKind) (outline : Outline) :
    StartsFirm (.token kind :: outline) := by
  rintro mark ⟨⟩
  exact ⟨kind, rfl⟩

theorem startsFirm_nil : StartsFirm [] := by
  rintro mark ⟨⟩

theorem StartsFirm.eq_nil_or_exists (h : outline.StartsFirm) :
    outline = [] ∨ ∃ kind rest, outline = .token kind :: rest := by
  cases outline with
  | nil => exact .inl rfl
  | cons mark rest =>
      obtain ⟨kind, rfl⟩ := h mark rfl
      exact .inr ⟨kind, rest, rfl⟩

end Outline

namespace Rule

open Grammar Outline

variable {α β : Type}

/-- The phrase begins like the one before, or with one of the tokens that may
stand there as well. -/
def BeginsAlike (allowed : TokenKind → Prop) (follow follow' : Phrase) : Prop :=
  follow'.head? = follow.head? ∨ ∃ kind, follow'.head? = some kind ∧ allowed kind

/-- Nothing else may stand there. -/
def Nothing : TokenKind → Prop := fun _ => False

/-- What stands behind an element of a list, other than the next element. -/
def EndsElement : TokenKind → Prop
  | .separator .comma | .separator .closeParen => True
  | _ => False

/-- The rule answers with this value and stops at `follow`. -/
def TakesTo (rule : Rule α) (phrase : Phrase) (value : α) (follow : Phrase) : Prop :=
  ∀ (ok : α → Phrase → Prop) (failed : Fault → Prop), ok value follow →
    Takes rule phrase ok failed

/-- Behind the outline `before`, what the rule takes has an outline that goes on
to one of the value, and edits of it make no difference to the value. -/
def Tolerates (allowed : TokenKind → Prop) (relation : Outline → α → Prop) (before : Outline)
    (rule : Rule α) (tokens : List Token) : Prop :=
  rule.Outcome tokens
    (fun value rest => ∃ outline, kinds tokens = phrase outline ++ kinds rest ∧
      outline.StartsFirm ∧ relation (before ++ outline) value ∧
      ∀ outline' follow, Edited outline outline' → BeginsAlike allowed (kinds rest) follow →
        TakesTo rule (phrase outline' ++ follow) value follow)
    (fun _ _ => True)

/-- Wherever it is run, the rule takes something that has an outline. -/
def ToleratesAll (allowed : TokenKind → Prop) (relation : Outline → α → Prop) (rule : Rule α) :
    Prop :=
  ∀ tokens, Tolerates allowed relation [] rule tokens

variable {allowed : TokenKind → Prop} {relation : Outline → α → Prop} {before : Outline}
  {tokens : List Token}

theorem BeginsAlike.of_nothing {follow follow' : Phrase} (h : BeginsAlike Nothing follow follow') :
    follow'.head? = follow.head? :=
  h.resolve_right fun ⟨_, _, hnone⟩ => hnone

/-- Edits leave the first token of an outline in its place. -/
theorem BeginsAlike.append {follow follow' : Phrase} {outline outline' : Outline}
    (h : BeginsAlike allowed follow follow') (hfirm : outline.StartsFirm)
    (hedited : Edited outline outline') :
    BeginsAlike allowed (phrase outline ++ follow) (phrase outline' ++ follow') := by
  rcases hfirm.eq_nil_or_exists with rfl | ⟨kind, rest, rfl⟩
  · cases hedited
    exact h
  · obtain ⟨rest', rfl, _⟩ := hedited.exists_cons
    exact .inl rfl

/-- Where fewer tokens may stand behind, there is less to tolerate. -/
theorem ToleratesAll.strict {rule : Rule α} (h : ToleratesAll allowed relation rule) :
    ToleratesAll Nothing relation rule := by
  intro tokens
  refine (h tokens).imp ?_
  rintro value rest ⟨outline, htokens, hfirm, hvalue, hedits⟩
  refine ⟨outline, htokens, hfirm, hvalue, fun outline' follow hedited hfollow => ?_⟩
  exact hedits outline' follow hedited (.inl hfollow.of_nothing)

theorem tolerates_pure {value : α} (h : relation before value) :
    Tolerates allowed relation before (pure value) tokens := by
  refine ⟨[], rfl, startsFirm_nil, by rwa [List.append_nil], ?_⟩
  intro outline' follow hedited _ ok failed hok
  cases hedited
  exact takes_pure hok

/-- Of a fault nothing is asked. -/
theorem tolerates_of_error {rule : Rule α} {thrown : Thrown} {rest : List Token}
    (h : rule tokens = .error thrown rest) : Tolerates allowed relation before rule tokens := by
  unfold Tolerates Outcome
  rw [h]
  trivial

/-- Edits of the first part and of what comes behind it go together. -/
theorem tolerates_bind {first : Rule α} {next : α → Rule β} {relation' : Outline → β → Prop}
    (hfirst : ToleratesAll allowed relation first)
    (hnext : ∀ outline value, relation outline value →
      ∀ tokens, Tolerates allowed relation' (before ++ outline) (next value) tokens) :
    Tolerates allowed relation' before (first >>= next) tokens := by
  unfold Tolerates
  rw [outcome_bind]
  refine (hfirst tokens).imp ?_
  rintro value middle ⟨outline, htokens, hfirm, hvalue, hedits⟩
  refine (hnext outline value hvalue middle).imp ?_
  rintro answer rest ⟨others, hmiddle, hfirm', hanswer, hedits'⟩
  refine ⟨outline ++ others, ?_, hfirm.append hfirm', ?_, ?_⟩
  · rw [htokens, hmiddle, phrase_append, List.append_assoc]
  · rwa [← List.append_assoc]
  · intro outline' follow hedited hfollow ok failed hok
    obtain ⟨first', second', rfl, hfirst', hsecond'⟩ := hedited.exists_append
    rw [phrase_append, List.append_assoc]
    apply takes_bind
    apply hedits first' _ hfirst' (hmiddle ▸ hfollow.append hfirm' hsecond')
    exact hedits' second' follow hsecond' hfollow ok failed hok

/-- The last part of a rule. -/
theorem tolerates_last {rule : Rule α} {relation' : Outline → α → Prop}
    (hrule : Tolerates allowed relation [] rule tokens)
    (h : ∀ outline value, relation outline value → relation' (before ++ outline) value) :
    Tolerates allowed relation' before rule tokens := by
  refine Outcome.imp hrule ?_
  rintro value rest ⟨outline, htokens, hfirm, hvalue, hedits⟩
  exact ⟨outline, htokens, hfirm, h outline value hvalue, hedits⟩

theorem ToleratesAll.mono {rule : Rule α} {relation' : Outline → α → Prop}
    (h : ToleratesAll allowed relation rule)
    (himp : ∀ outline value, relation outline value → relation' outline value) :
    ToleratesAll allowed relation' rule :=
  fun tokens => tolerates_last (h tokens) himp

section Heads

variable {kind : TokenKind} {offset : Nat} {rest : List Token}

/-- A rule that takes the first token, whatever else follows it. -/
theorem tolerates_skip {rule next : Rule α}
    (hrule : ∀ offset more, rule (⟨kind, offset⟩ :: more) = next more)
    (h : Tolerates allowed relation (before ++ [.token kind]) next rest) :
    Tolerates allowed relation before rule (⟨kind, offset⟩ :: rest) := by
  unfold Tolerates Outcome
  rw [hrule]
  refine Outcome.imp h ?_
  rintro value left ⟨outline, htokens, _, hvalue, hedits⟩
  refine ⟨.token kind :: outline, ?_, startsFirm_token _ _, by simpa using hvalue, ?_⟩
  · rw [kinds_cons, htokens]
    rfl
  · intro outline' follow hedited hfollow ok failed hok tokens htokens
    obtain ⟨rest', rfl, hrest'⟩ := hedited.exists_cons
    obtain ⟨offset', more, rfl, hmore⟩ := kinds_eq_cons htokens
    unfold Outcome
    rw [hrule]
    exact hedits rest' follow hrest' hfollow ok failed hok more hmore

/-- A rule that goes by the first token. -/
theorem tolerates_branch {rule branch : Rule α}
    (hrule : ∀ offset more, rule (⟨kind, offset⟩ :: more) = branch (⟨kind, offset⟩ :: more))
    (hne : ∀ value, ¬ relation before value)
    (h : Tolerates allowed relation before branch (⟨kind, offset⟩ :: rest)) :
    Tolerates allowed relation before rule (⟨kind, offset⟩ :: rest) := by
  unfold Tolerates Outcome
  rw [hrule]
  refine Outcome.imp h ?_
  rintro value left ⟨outline, htokens, hfirm, hvalue, hedits⟩
  refine ⟨outline, htokens, hfirm, hvalue, ?_⟩
  intro outline' follow hedited hfollow ok failed hok tokens hphrase
  have hbranch := hedits outline' follow hedited hfollow ok failed hok tokens hphrase
  rcases hfirm.eq_nil_or_exists with rfl | ⟨kind', others, rfl⟩
  · rw [List.append_nil] at hvalue
    exact absurd hvalue (hne value)
  · obtain rfl : kind = kind' := (List.cons.inj htokens).1
    obtain ⟨rest', rfl, _⟩ := hedited.exists_cons
    obtain ⟨offset', more, rfl, _⟩ := kinds_eq_cons hphrase
    unfold Outcome
    rwa [hrule]

end Heads

section Tokens

variable {value? : TokenKind → Option α} {otherwise : Rule α} {value : α} {kind : TokenKind}

theorem takeIf_cons (hkind : value? kind = some value) (offset : Nat) (rest : List Token) :
    takeIf value? otherwise (⟨kind, offset⟩ :: rest) = .ok value rest := by
  simp only [takeIf, hkind]

theorem takeIf_of_none (h : (kinds tokens).head?.bind value? = none) :
    takeIf value? otherwise tokens = otherwise tokens := by
  cases tokens with
  | nil => rfl
  | cons token rest =>
      have hnone : value? token.kind = none := h
      simp only [takeIf, hnone]

/-- The token that was taken is taken again. -/
theorem tolerates_takeIf_cons {offset : Nat} {rest : List Token} (hkind : value? kind = some value)
    (hvalue : relation [.token kind] value) :
    Tolerates allowed relation [] (takeIf value? otherwise) (⟨kind, offset⟩ :: rest) := by
  unfold Tolerates Outcome
  rw [takeIf_cons hkind]
  refine ⟨[.token kind], rfl, startsFirm_token _ _, hvalue, ?_⟩
  intro outline' follow hedited _ ok failed hok tokens htokens
  obtain ⟨rest', rfl, hrest'⟩ := hedited.exists_cons
  cases hrest'
  obtain ⟨offset', more, rfl, rfl⟩ := kinds_eq_cons htokens
  unfold Outcome
  rw [takeIf_cons hkind]
  exact hok

theorem toleratesAll_takeIf {expected : Expectation}
    (htaken : ∀ kind value, value? kind = some value → relation [.token kind] value) :
    ToleratesAll allowed relation (takeIf value? (failExpecting expected)) := by
  intro tokens
  rcases tokens with _ | ⟨⟨kind, offset⟩, rest⟩
  · trivial
  cases hkind : value? kind with
  | some value => exact tolerates_takeIf_cons hkind (htaken kind value hkind)
  | none =>
      have hnone : (kinds (⟨kind, offset⟩ :: rest)).head?.bind value? = none := hkind
      unfold Tolerates Outcome
      rw [takeIf_of_none hnone]
      trivial

/-- If no token was taken, none of those that may stand there instead is. -/
theorem toleratesAll_takeIf_pure {other : α}
    (htaken : ∀ kind value, value? kind = some value → relation [.token kind] value)
    (hother : relation [] other) (hallowed : ∀ kind, allowed kind → value? kind = none) :
    ToleratesAll allowed relation (takeIf value? (pure other)) := by
  intro tokens
  cases hhead : (kinds tokens).head?.bind value? with
  | some value =>
      rcases tokens with _ | ⟨⟨kind, offset⟩, rest⟩
      · cases hhead
      · exact tolerates_takeIf_cons hhead (htaken kind value hhead)
  | none =>
      unfold Tolerates Outcome
      rw [takeIf_of_none hhead]
      refine ⟨[], rfl, startsFirm_nil, hother, ?_⟩
      intro outline' follow hedited hfollow ok failed hok tokens' htokens'
      cases hedited
      have hnone : follow.head?.bind value? = none := by
        rcases hfollow with hsame | ⟨kind, hkind, hmay⟩
        · rw [hsame, hhead]
        · rw [hkind]
          exact hallowed kind hmay
      obtain rfl : kinds tokens' = follow := htokens'
      unfold Outcome
      rw [takeIf_of_none hnone]
      exact hok

/-- The outline of one token. -/
def IsMark (kind : TokenKind) (outline : Outline) (_ : Unit) : Prop := outline = [.token kind]

theorem toleratesAll_accept (hkind : ¬ allowed kind) :
    ToleratesAll allowed (fun outline present => outline = if present then [.token kind] else [])
      (accept kind) := by
  rw [accept_eq_takeIf]
  refine toleratesAll_takeIf_pure ?_ rfl ?_
  · intro found value hfound
    split at hfound
    · next hsame =>
        cases hfound
        rw [hsame]
        rfl
    · cases hfound
  · intro found hfound
    exact if_neg fun (hsame : found = kind) => hkind (hsame ▸ hfound)

theorem toleratesAll_keyword (word : Keyword) :
    ToleratesAll allowed (IsMark (.keyword word)) (Rule.keyword word) := by
  rw [keyword_eq_takeIf]
  apply toleratesAll_takeIf
  intro found value hfound
  split at hfound
  · next hsame => rw [IsMark, hsame]
  · cases hfound

theorem toleratesAll_separator (mark : Separator) :
    ToleratesAll allowed (IsMark (.separator mark)) (Rule.separator mark) := by
  rw [separator_eq_takeIf]
  apply toleratesAll_takeIf
  intro found value hfound
  split at hfound
  · next hsame => rw [IsMark, hsame]
  · cases hfound

theorem toleratesAll_identifier :
    ToleratesAll allowed (fun outline name => outline = [Outline.identifier name])
      Rule.identifier := by
  rw [identifier_eq_takeIf]
  apply toleratesAll_takeIf
  intro found value hfound
  cases found with
  | identifier name =>
      cases hfound
      rfl
  | literal _ | keyword _ | typeName _ | separator _ | operator _ => cases hfound

/-- An outline of something written. -/
def IsWritten {ω : Type} (outline : ω → Outline) (tree : ω → α) (taken : Outline) (value : α) :
    Prop :=
  ∃ written, outline written = taken ∧ tree written = value

theorem toleratesAll_type :
    ToleratesAll allowed (IsWritten Written.TypeText.outline Written.TypeText.tree) Rule.type := by
  rw [type_eq_takeIf]
  apply toleratesAll_takeIf
  intro found value hfound
  cases found with
  | typeName name =>
      obtain rfl := Option.some.inj hfound
      exact ⟨.builtIn name, rfl, rfl⟩
  | identifier name =>
      obtain rfl := Option.some.inj hfound
      exact ⟨.className name, rfl, rfl⟩
  | literal _ | keyword _ | separator _ | operator _ => cases hfound

/-- The outline of an operator that may be missing. -/
def IsOperator (outline : Outline) : Option Operator → Prop
  | none => outline = []
  | some symbol => outline = [.token (.operator symbol)]

theorem toleratesAll_operatorAtLeast (floor : Nat)
    (hallowed : ∀ symbol, ¬ allowed (.operator symbol)) :
    ToleratesAll allowed IsOperator (operatorAtLeast floor) := by
  rw [operatorAtLeast_eq_takeIf]
  refine toleratesAll_takeIf_pure ?_ rfl ?_
  · intro found value hfound
    cases found with
    | operator symbol =>
        rw [operatorAtLeast?] at hfound
        split at hfound
        · cases hfound
          rfl
        · cases hfound
    | literal _ | identifier _ | keyword _ | typeName _ | separator _ => cases hfound
  · intro found hfound
    cases found with
    | operator symbol => exact absurd hfound (hallowed symbol)
    | literal _ | identifier _ | keyword _ | typeName _ | separator _ => rfl

end Tokens

end Rule

end ClassLang
