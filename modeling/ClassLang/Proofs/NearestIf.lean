import ClassLang.Proofs.Edits.Class
import ClassLang.Proofs.NearestIf.Binding
import ClassLang.Proofs.NearestIf.Held
import ClassLang.Proofs.Written.Unique

/-!
Each `else` belongs to the nearest `if`: of all those whose first statement ends
right before it, to the one that starts last. The statement between the two ends
in no open `if`, so no part at its end is an `if` that could take the `else`.
-/

namespace ClassLang

open Grammar Phrase

/-- Behind `front` stands an `if` whose first statement ends with `before`, and
none that starts later does, whichever way it is read. -/
def Phrase.LastIf (front before : Phrase) : Prop :=
  (∃ phrase condition onTrue,
    before = front ++ phrase ∧ IsStatement phrase (.ifThen condition onTrue)) ∧
  ∀ front' phrase condition onTrue,
    before = front' ++ phrase → IsStatement phrase (.ifThen condition onTrue) →
      front'.length ≤ front.length

theorem lastIf_of_closed {condition : Written.Expression} {onTrue : Written.Statement}
    (helses : onTrue.tree.elsesBound = true) (hclosed : onTrue.tree.endsOpen = false)
    (front : Phrase) :
    LastIf front (front ++ (Written.Statement.ifThen condition onTrue).phrase) := by
  refine ⟨⟨_, _, _, rfl, (Written.Statement.ifThen condition onTrue).isStatement⟩, ?_⟩
  intro front' phrase condition' onTrue' h hphrase
  rw [Written.Statement.phrase_ifThen] at h
  rcases List.append_eq_append_iff.mp h with ⟨more, rfl, hmore⟩ | ⟨tail, rfl, _⟩
  · -- What starts later is a part at the end of the test and the statement.
    cases more with
    | nil => simp
    | cons kind more =>
        have hsettled : (condition.phrase.inParens ++ onTrue.phrase).Settled :=
          settled_behind_test condition.isExpression
            (onTrue.isStatement.settled helses hclosed)
        have hnone := hsettled more phrase (List.cons.inj hmore).2 hphrase.balanced
        have hsome := hphrase.pendingIfs_pos
        omega
  · simp

/-- In a program that was parsed each `else` goes where it goes when it is read.
The tokens have been written in one way, and there each `else` stands between the
two statements of an `if`, which is the last one that could have taken it. -/
theorem nearest_if_of_parse (tokens : List Token) (program : Program)
    (h : parse tokens = .ok program) :
    program.elsesBound = true ∧
      ∃ written : Written.Program, written.phrase = kinds tokens ∧ written.tree = program ∧
        (∀ other : Written.Program, other.phrase = kinds tokens → other.tree = program →
          other = written) ∧
        ∀ before after, kinds tokens = before ++ .keyword .elseKw :: after →
          ∃ front condition onTrue onFalse back,
            written.Holds front (.ifElse condition onTrue onFalse) ∧
              before = front ++ (Written.Statement.ifThen condition onTrue).phrase ∧
              after = onFalse.phrase ++ back ∧ LastIf front before := by
  have helses : program.elsesBound = true := elsesBound_of_parse h
  obtain ⟨written, hphrase, rfl, _⟩ := exists_written_of_parse h
  refine ⟨helses, written, hphrase, rfl, ?_, ?_⟩
  · intro other hother htree
    exact Written.Program.eq_of_phrase (hother.trans hphrase.symm) htree
  · intro before after hsplit
    obtain ⟨front, condition, onTrue, onFalse, back, hheld, rfl, hafter⟩ :=
      written.elsesHeld before after (hphrase.trans hsplit)
    have howner : (Written.Statement.ifElse condition onTrue onFalse).tree.elsesBound = true :=
      hheld.elsesBound helses
    simp only [Written.Statement.tree, Statement.elsesBound, Bool.and_eq_true,
      Bool.not_eq_true'] at howner
    obtain ⟨⟨hclosed, honTrue⟩, _⟩ := howner
    exact ⟨front, condition, onTrue, onFalse, back, hheld, rfl, hafter,
      lastIf_of_closed honTrue hclosed front⟩

/-- In `if (a) while (b) if (c) ; else ;` the `else` belongs to the second `if`. -/
theorem nearest_if_of_parse_loop :
    let test (word : Keyword) (name : String) : Phrase :=
      .keyword word :: inParens [.identifier name]
    let header : Phrase :=
      [.keyword .classKw, .identifier "C", .separator .openBrace, .identifier "C",
        .separator .openParen, .separator .closeParen, .separator .openBrace]
    let front : Phrase := header ++ test .ifKw "a" ++ test .whileKw "b"
    let second : Phrase := test .ifKw "c" ++ [.separator .semicolon]
    let after : Phrase :=
      [.separator .semicolon, .separator .closeBrace, .separator .closeBrace]
    let tokens : List Token :=
      (front ++ second ++ .keyword .elseKw :: after).map fun kind => ⟨kind, 0⟩
    ∃ program, parse tokens = .ok program ∧ program.elsesBound = true ∧
      ∃ written : Written.Program, written.tree = program ∧
        ∃ front' condition onTrue onFalse,
          written.Holds front' (.ifElse condition onTrue onFalse) ∧
            front ++ second = front' ++ (Written.Statement.ifThen condition onTrue).phrase ∧
            front.length ≤ front'.length := by
  intro test header front second after tokens
  let reference (name : String) : Expression := .reference [name]
  let body : Statement :=
    .ifThen (reference "a") (.whileLoop (reference "b") (.ifElse (reference "c") .empty .empty))
  have hparse : parse tokens = .ok ⟨[⟨"C", none, [.constructor "C" [] [body]]⟩]⟩ := rfl
  have hsecond : IsStatement second (.ifThen (reference "c") .empty) :=
    .ifThen (.reference (.name "c")) .empty
  obtain ⟨helses, written, _, htree, _, howners⟩ := nearest_if_of_parse tokens _ hparse
  obtain ⟨front', condition, onTrue, onFalse, _, hheld, hbefore, _, hlast⟩ :=
    howners (front ++ second) after rfl
  exact ⟨_, hparse, helses, written, htree, front', condition, onTrue, onFalse, hheld, hbefore,
    hlast.2 front second _ _ rfl hsecond⟩

end ClassLang
