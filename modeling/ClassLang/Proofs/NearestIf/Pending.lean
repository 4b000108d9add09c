import ClassLang.Proofs.Brackets
import ClassLang.Proofs.RoundTrip.Statement

/-!
How many `if`s wait for an `else`. Outside of brackets each `if` counts for one
and each `else` against one. A statement never has fewer `if`s than `else`s. One
in which each `else` goes where it goes when it is read, and that does not end in
an open `if`, has no more of them either, nor has any part at its end. So no part
at its end is an `if` that could take a further `else`.
-/

namespace ClassLang

/-- What a token adds to the number of `if`s that wait for an `else`. -/
@[simp] def TokenKind.pendingIfs : TokenKind → Int
  | .keyword .ifKw => 1
  | .keyword .elseKw => -1
  | _ => 0

namespace Phrase

/-- The `if`s of a phrase less its `else`s. Inside of brackets none of them
counts; `stack` are the brackets that are open in front of the phrase. -/
def pendingIfs (stack : List Bracket) : Phrase → Int
  | [] => 0
  | kind :: rest =>
      (if stack = [] then kind.pendingIfs else 0) +
        pendingIfs ((kind.openAfter stack).getD []) rest

/-- There is neither an `if` nor an `else`. -/
def Plain (phrase : Phrase) : Prop := ∀ kind ∈ phrase, kind.pendingIfs = 0

/-- No part at the end in which brackets match has an `if` left. -/
def Settled (phrase : Phrase) : Prop :=
  ∀ front part : Phrase, phrase = front ++ part → part.Balanced → part.pendingIfs [] ≤ 0

variable {stack stack' below : List Bracket} {kind : TokenKind} {phrase first second : Phrase}

theorem pendingIfs_append (h : openAfter stack first = some stack') :
    pendingIfs stack (first ++ second) = pendingIfs stack first + pendingIfs stack' second := by
  induction first generalizing stack with
  | nil =>
      obtain rfl := Option.some.inj h
      exact (Int.zero_add _).symm
  | cons kind first ih =>
      rw [openAfter_cons, Option.bind_eq_some_iff] at h
      obtain ⟨middle, hkind, hfirst⟩ := h
      rw [List.cons_append, pendingIfs, pendingIfs, hkind, Option.getD_some, ih hfirst,
        Int.add_assoc]

theorem Balanced.pendingIfs_append (h : first.Balanced) :
    pendingIfs [] (first ++ second) = pendingIfs [] first + pendingIfs [] second :=
  Phrase.pendingIfs_append h

theorem pendingIfs_below (hbelow : below ≠ []) (h : openAfter stack phrase = some stack') :
    pendingIfs (stack ++ below) phrase = 0 := by
  induction phrase generalizing stack with
  | nil => rfl
  | cons kind phrase ih =>
      rw [openAfter_cons, Option.bind_eq_some_iff] at h
      obtain ⟨middle, hkind, hphrase⟩ := h
      have hopen : stack ++ below ≠ [] := List.append_ne_nil_of_right_ne_nil stack hbelow
      rw [pendingIfs, if_neg hopen, TokenKind.openAfter_below below hkind, Option.getD_some,
        ih hphrase, Int.add_zero]

theorem Balanced.pendingIfs_inBraces (h : phrase.Balanced) : pendingIfs [] phrase.inBraces = 0 := by
  have hinner : pendingIfs [.brace] phrase = 0 := pendingIfs_below (by simp) h
  change 0 + pendingIfs [.brace] (phrase ++ [.separator .closeBrace]) = 0
  rw [Phrase.pendingIfs_append (h.openAfter_eq [.brace]), hinner]
  rfl

@[simp] theorem plain_nil : Plain [] := nofun

@[simp] theorem plain_cons : Plain (kind :: phrase) ↔ kind.pendingIfs = 0 ∧ phrase.Plain :=
  List.forall_mem_cons

@[simp] theorem plain_append : Plain (first ++ second) ↔ first.Plain ∧ second.Plain :=
  List.forall_mem_append

@[simp] theorem plain_inParens : phrase.inParens.Plain ↔ phrase.Plain := by
  simp [Phrase.inParens]

theorem Plain.pendingIfs_eq (h : phrase.Plain) (stack : List Bracket) :
    phrase.pendingIfs stack = 0 := by
  induction phrase generalizing stack with
  | nil => rfl
  | cons kind phrase ih =>
      obtain ⟨hkind, hphrase⟩ := plain_cons.mp h
      rw [pendingIfs, ih hphrase, hkind, ite_self, Int.add_zero]

theorem Plain.else_not_mem (h : phrase.Plain) : .keyword .elseKw ∉ phrase := by
  intro helse
  cases h _ helse

theorem Plain.settled (h : phrase.Plain) : phrase.Settled := by
  rintro front part rfl _
  exact Int.le_of_eq ((plain_append.mp h).2.pendingIfs_eq [])

/-- Brackets that match in a phrase, and match in one that starts at its end,
match in what the two of them share. -/
theorem Balanced.of_overlap {front part more : Phrase} (hfirst : (front ++ part).Balanced)
    (hsecond : (part ++ more).Balanced) : part.Balanced ∧ more.Balanced := by
  unfold Balanced at hfirst hsecond
  rw [openAfter_append, Option.bind_eq_some_iff] at hfirst hsecond
  obtain ⟨stack, _, hpart⟩ := hfirst
  obtain ⟨middle, hpart', hmore⟩ := hsecond
  have hboth := openAfter_below stack hpart'
  rw [List.nil_append, hpart, Option.some.injEq, List.nil_eq, List.append_eq_nil_iff] at hboth
  obtain ⟨rfl, rfl⟩ := hboth
  exact ⟨hpart, hmore⟩

theorem Settled.pendingIfs_le (h : phrase.Settled) (hbalanced : phrase.Balanced) :
    pendingIfs [] phrase ≤ 0 :=
  h [] phrase rfl hbalanced

theorem Settled.append (hfirst : first.Settled) (hbalanced : first.Balanced)
    (hsecond : second.Settled) : (first ++ second).Settled := by
  intro front part h hpart
  rcases List.append_eq_append_iff.mp h with ⟨more, rfl, hmore⟩ | ⟨tail, rfl, rfl⟩
  · exact hsecond more part hmore hpart
  · -- The part reaches back into the first phrase.
    obtain ⟨htail, hrest⟩ := hbalanced.of_overlap hpart
    have hends := hfirst front tail rfl htail
    have hbehind := hsecond.pendingIfs_le hrest
    rw [htail.pendingIfs_append]
    omega

theorem Settled.cons (hwhole : pendingIfs [] (kind :: phrase) ≤ 0) (h : phrase.Settled) :
    Settled (kind :: phrase) := by
  intro front part hphrase hpart
  cases front with
  | nil =>
      obtain rfl : kind :: phrase = part := hphrase
      exact hwhole
  | cons other front => exact h front part (List.cons.inj hphrase).2 hpart

/-- Inside of braces it does not matter which `if`s are left. -/
theorem Balanced.settled_inBraces (h : phrase.Balanced) : phrase.inBraces.Settled := by
  apply Settled.cons (Int.le_of_eq h.pendingIfs_inBraces)
  intro front part hphrase hpart
  rcases List.append_eq_append_iff.mp hphrase with ⟨more, rfl, hmore⟩ | ⟨tail, rfl, rfl⟩
  · have hclose : Plain [.separator .closeBrace] := by simp
    exact hclose.settled more part hmore hpart
  · cases (h.of_overlap hpart).2

end Phrase

namespace Grammar

open Phrase

theorem IsType.plain {phrase : Phrase} {type : String} (h : IsType phrase type) :
    phrase.Plain := by
  cases h <;> simp

theorem IsPath.plain {names : Phrase} {path : List String} (h : IsPath names path) :
    names.Plain := by
  induction h with
  | name name => simp
  | dot name others ih => simpa using ih

theorem IsComma.plain {comma : Phrase} (h : IsComma comma) : comma.Plain := by
  cases h <;> simp

mutual

theorem IsExpression.plain {phrase : Phrase} {value : Expression} :
    IsExpression phrase value → phrase.Plain
  | .literal value => by simp
  | .reference hpath => hpath.plain
  | .new className hlist => by simpa using hlist.plain
  | .call hpath hlist => by simp [hpath.plain, hlist.plain]
  | .assignment hpath hvalue => by simp [hpath.plain, hvalue.plain]
  | .binary symbol hleft hright => by simp [hleft.plain, hright.plain]
  | .parens hvalue => plain_inParens.mpr hvalue.plain

theorem IsArguments.plain {list : Phrase} {values : List Expression} :
    IsArguments list values → list.Plain
  | .nil => plain_nil
  | .cons hfirst hcomma hrest => by simp [hfirst.plain, hcomma.plain, hrest.plain]

end

theorem IsInitializer.plain {start : Phrase} {value : Option Expression}
    (h : IsInitializer start value) : start.Plain := by
  cases h with
  | absent => exact plain_nil
  | present hvalue => simpa using hvalue.plain

/-- The phrase that fields and declarations share. -/
theorem plain_variable {phrase start : Phrase} {type : String} {value : Option Expression}
    (name : String) (htype : IsType phrase type) (hstart : IsInitializer start value) :
    Plain (phrase ++ .identifier name :: start ++ [.separator .semicolon]) := by
  simp [htype.plain, hstart.plain]

variable {phrase head test first second : Phrase} {condition : Expression}
  {onTrue : Statement}

theorem pendingIfs_plain_append (hplain : head.Plain) (hbalanced : head.Balanced) :
    pendingIfs [] (head ++ phrase) = pendingIfs [] phrase := by
  rw [hbalanced.pendingIfs_append, hplain.pendingIfs_eq, Int.zero_add]

theorem pendingIfs_ifThen (htest : IsExpression test condition) :
    pendingIfs [] (.keyword .ifKw :: inParens test ++ first) = 1 + pendingIfs [] first := by
  change 1 + pendingIfs [] (inParens test ++ first) = _
  rw [pendingIfs_plain_append (plain_inParens.mpr htest.plain) htest.balanced.inParens]

theorem pendingIfs_else :
    pendingIfs [] (.keyword .elseKw :: second) = -1 + pendingIfs [] second :=
  rfl

theorem pendingIfs_ifElse (htest : IsExpression test condition) (hfirst : first.Balanced) :
    pendingIfs [] (.keyword .ifKw :: inParens test ++ first ++ .keyword .elseKw :: second) =
      pendingIfs [] first + pendingIfs [] second := by
  rw [List.append_assoc, pendingIfs_ifThen htest, hfirst.pendingIfs_append, pendingIfs_else]
  omega

theorem pendingIfs_whileLoop (htest : IsExpression test condition) :
    pendingIfs [] (.keyword .whileKw :: inParens test ++ first) = pendingIfs [] first :=
  pendingIfs_plain_append (by simpa using htest.plain) (htest.balanced.inParens.cons rfl)

/-- Each `else` of a statement has an `if` before it. -/
theorem IsStatement.pendingIfs_nonneg {phrase : Phrase} {statement : Statement} :
    IsStatement phrase statement → 0 ≤ pendingIfs [] phrase
  | .block hinner => Int.le_of_eq hinner.balanced.pendingIfs_inBraces.symm
  | .ifThen htest hfirst => by
      have hfirst := hfirst.pendingIfs_nonneg
      rw [pendingIfs_ifThen htest]
      omega
  | .ifElse htest hfirst hsecond => by
      have hfirst' := hfirst.pendingIfs_nonneg
      have hsecond' := hsecond.pendingIfs_nonneg
      rw [pendingIfs_ifElse htest hfirst.balanced]
      omega
  | .whileLoop htest hinner => by
      rw [pendingIfs_whileLoop htest]
      exact hinner.pendingIfs_nonneg
  | .returnNothing | .breakStmt | .empty => Int.le_refl 0
  | .returnValue hvalue | .expression hvalue =>
      Int.le_of_eq (Plain.pendingIfs_eq (by simpa using hvalue.plain) []).symm
  | .declaration name htype hstart =>
      Int.le_of_eq ((plain_variable name htype hstart).pendingIfs_eq []).symm

/-- One that could take an `else` has an `if` left. -/
theorem IsStatement.pendingIfs_pos (h : IsStatement phrase (.ifThen condition onTrue)) :
    0 < pendingIfs [] phrase := by
  cases h with
  | ifThen htest hfirst =>
      have hfirst := hfirst.pendingIfs_nonneg
      rw [pendingIfs_ifThen htest]
      omega

/-- A statement behind a test. -/
theorem settled_behind_test (htest : IsExpression test condition) (hfirst : first.Settled) :
    (inParens test ++ first).Settled :=
  (plain_inParens.mpr htest.plain).settled.append htest.balanced.inParens hfirst

/-- Where each `else` goes where it goes when it is read, and no `if` is open at
the end, none is left. -/
theorem IsStatement.settled {phrase : Phrase} {statement : Statement}
    (h : IsStatement phrase statement) (helses : statement.elsesBound = true)
    (hopen : statement.endsOpen = false) : phrase.Settled := by
  cases h with
  | block hinner => exact hinner.balanced.settled_inBraces
  | ifThen htest hfirst => cases hopen
  | ifElse htest hfirst hsecond =>
      simp only [Statement.elsesBound, Bool.and_eq_true, Bool.not_eq_true'] at helses
      obtain ⟨⟨hclosed, helses⟩, helses'⟩ := helses
      have hfirst' := hfirst.settled helses hclosed
      have hsecond' := hsecond.settled helses' hopen
      -- The two statements have no `if` left, so the `else` uses up the one in front.
      have hless := hfirst'.pendingIfs_le hfirst.balanced
      have hless' := hsecond'.pendingIfs_le hsecond.balanced
      have helse := hsecond'.cons (by rw [pendingIfs_else]; omega)
      have hbehind := (settled_behind_test htest hfirst').append
        (htest.balanced.inParens.append hfirst.balanced) helse
      refine hbehind.cons (Int.le_trans (Int.le_of_eq (pendingIfs_ifElse htest hfirst.balanced)) ?_)
      omega
  | whileLoop htest hinner =>
      have hinner' := hinner.settled helses hopen
      refine (settled_behind_test htest hinner').cons ?_
      exact Int.le_trans (Int.le_of_eq (pendingIfs_whileLoop htest))
        (hinner'.pendingIfs_le hinner.balanced)
  | returnNothing | breakStmt | empty => exact Plain.settled (by simp)
  | returnValue hvalue | expression hvalue => exact Plain.settled (by simpa using hvalue.plain)
  | declaration name htype hstart => exact (plain_variable name htype hstart).settled

end Grammar

end ClassLang
