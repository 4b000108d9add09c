import ClassLang.Proofs.RoundTrip.Class
import ClassLang.Reader

/-!
A program is parsed back from its phrase, into the very same tree. Where it
fails, its nesting is to blame, so `levels` counts what the parser counts.
-/

namespace ClassLang

open Phrase

/-- The tokens may stand at any offsets. Each path has to have a name, since an
empty one leaves no phrase, and each `else` has to be written where it goes
when it is read. -/
theorem parse_program_phrase (program : Program) (tokens : List Token)
    (htokens : kinds tokens = program.phrase) (hsome : program.classes ≠ [])
    (hnamed : program.pathsNamed = true) (helses : program.elsesBound = true)
    (hlevels : program.levels ≤ Rule.maxNesting) : parse tokens = .ok program := by
  have hrun := Rule.takesNested_programWithin Rule.maxNesting hsome hnamed helses
    (fun answer _ => answer = program) (fun _ => False) (fun _ => rfl)
    (fun hdeep => by omega) tokens htokens
  cases hparse : parse tokens with
  | ok answer =>
      obtain ⟨rest, hanswer⟩ := parse_ok hparse
      rw [hrun.of_ok hanswer]
  | error error =>
      obtain ⟨thrown, rest, hanswer, _⟩ := parse_error hparse
      exact (hrun.of_error hanswer).elim

/-- `class C extends B { int x = (a = 1) || (b || c) && d; C(D e, int f) { if (x) { if (y) ; }
else while (g.h()) return; } }`, where all three kinds of parentheses are written. -/
theorem parse_program_phrase_parens :
    let bothOr : Expression := .binary .or (.reference ["b"]) (.reference ["c"])
    let start : Expression :=
      .binary .or (.assignment ["a"] (.literal (.int 1)))
        (.binary .and bothOr (.reference ["d"]))
    let inner : Statement := .ifThen (.reference ["y"]) .empty
    let body : Statement :=
      .ifElse (.reference ["x"]) (.block [inner])
        (.whileLoop (.call ["g", "h"] []) (.returnStmt none))
    let program : Program :=
      ⟨[⟨"C", some "B",
        [.field "int" "x" (some start),
          .constructor "C" [⟨"D", "e"⟩, ⟨"int", "f"⟩] [body]]⟩]⟩
    let tokens := program.phrase.map fun kind => (⟨kind, 0⟩ : Token)
    program.levels = 4 ∧ parse tokens = .ok program := by
  intro bothOr start inner body program tokens
  have hlevels : program.levels = 4 := by decide
  refine ⟨hlevels, parse_program_phrase program tokens ?_ ?_ ?_ ?_ ?_⟩
  · simp [tokens, kinds, Function.comp_def]
  · simp [program]
  · rfl
  · rfl
  · rw [hlevels]
    decide

/-- Such a program that has more levels is not parsed. -/
theorem parse_error_of_levels (program : Program) (tokens : List Token)
    (htokens : kinds tokens = program.phrase) (hsome : program.classes ≠ [])
    (hnamed : program.pathsNamed = true) (helses : program.elsesBound = true)
    (hlevels : Rule.maxNesting < program.levels) :
    ∃ offset, parse tokens = .error ⟨.nestingTooDeep Rule.maxNesting, offset⟩ := by
  have hrun := Rule.takesNested_programWithin Rule.maxNesting hsome hnamed helses
    (fun _ _ => False) (fun fault => fault = .nestingTooDeep Rule.maxNesting)
    (fun hless => by omega) (fun _ => rfl) tokens htokens
  cases hparse : parse tokens with
  | ok answer =>
      obtain ⟨rest, hanswer⟩ := parse_ok hparse
      exact (hrun.of_ok hanswer).elim
  | error error =>
      obtain ⟨⟨fault, place⟩, rest, hanswer, rfl⟩ := parse_error hparse
      obtain rfl : fault = .nestingTooDeep Rule.maxNesting := hrun.of_error hanswer
      exact ⟨_, rfl⟩

end ClassLang
