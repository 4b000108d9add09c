import ClassLang.Proofs.Acceptance.Class
import ClassLang.Reader

/-!
The parser accepts the grammar, neither more nor less, wherever it does not
give up because of nesting. None of the choices it makes early rejects a list
of tokens that some derivation covers: two tokens of lookahead are enough to
tell members and declarations, and to take an `else` or a parenthesis as soon
as it comes only changes which derivation is found.
-/

namespace ClassLang

open Grammar

theorem isProgram_of_parse {tokens : List Token} {program : Program}
    (h : parse tokens = .ok program) : IsProgram (kinds tokens) program := by
  obtain ⟨rest, hrun⟩ := parse_ok h
  have hclass := Rule.reads_classOf (Rule.reads_memberWithin Rule.maxNesting)
  obtain rfl : rest = [] := Rule.programOf_rest hclass hrun
  obtain ⟨taken, rfl, hprogram⟩ := (Rule.reads_programWithin Rule.maxNesting).taken hrun
  rwa [List.append_nil]

/-- A list of tokens that is derivable is accepted, or nested too deep. -/
theorem tooDeep_of_parse_error {tokens : List Token} {program : Program} {error : SyntaxError}
    (hprogram : IsProgram (kinds tokens) program) (h : parse tokens = .error error) :
    Rule.TooDeep error.fault := by
  obtain ⟨thrown, rest, hrun, rfl⟩ := parse_error h
  exact (Rule.takes_programWithin Rule.maxNesting hprogram tokens rfl).of_error hrun

/-- Unless its nesting is too deep, a list of tokens is parsed exactly if it is
derivable, and then into the tree of one of its derivations. -/
theorem parse_ok_iff_derivable (tokens : List Token)
    (hdepth : ∀ max offset, parse tokens ≠ .error ⟨.nestingTooDeep max, offset⟩) :
    ((∃ program, parse tokens = .ok program) ↔ ∃ program, IsProgram (kinds tokens) program) ∧
      ∀ program, parse tokens = .ok program → IsProgram (kinds tokens) program := by
  refine ⟨⟨?_, ?_⟩, fun program => isProgram_of_parse⟩
  · rintro ⟨program, hparse⟩
    exact ⟨program, isProgram_of_parse hparse⟩
  · rintro ⟨program, hprogram⟩
    cases hparse : parse tokens with
    | ok answer => exact ⟨answer, rfl⟩
    | error error =>
        obtain ⟨max, hfault⟩ := tooDeep_of_parse_error hprogram hparse
        obtain ⟨fault, offset⟩ := error
        subst hfault
        exact absurd hparse (hdepth max offset)

/-- `class C { C ( ) { if ( a ( b c ( ) ( d ) ) ) if ( e ) ; else ; } }`: no
commas between the arguments, the second of which is a call, and an `else` with
two conditions in front of it. -/
theorem parse_ok_iff_derivable_commaless :
    let words : Phrase :=
      [.keyword .classKw, .identifier "C", .separator .openBrace, .identifier "C",
        .separator .openParen, .separator .closeParen, .separator .openBrace, .keyword .ifKw,
        .separator .openParen, .identifier "a", .separator .openParen, .identifier "b",
        .identifier "c", .separator .openParen, .separator .closeParen, .separator .openParen,
        .identifier "d", .separator .closeParen, .separator .closeParen, .separator .closeParen,
        .keyword .ifKw, .separator .openParen, .identifier "e", .separator .closeParen,
        .separator .semicolon, .keyword .elseKw, .separator .semicolon, .separator .closeBrace,
        .separator .closeBrace]
    let tokens := words.map fun kind => (⟨kind, 0⟩ : Token)
    let test : Expression :=
      .call ["a"] [.reference ["b"], .call ["c"] [], .reference ["d"]]
    let body : Statement := .ifThen test (.ifElse (.reference ["e"]) .empty .empty)
    (∀ max offset, parse tokens ≠ .error ⟨.nestingTooDeep max, offset⟩) ∧
      IsProgram words ⟨[⟨"C", none, [.constructor "C" [] [body]]⟩]⟩ := by
  intro words tokens test body
  have hparse : parse tokens = .ok ⟨[⟨"C", none, [.constructor "C" [] [body]]⟩]⟩ := rfl
  have hdepth (max offset : Nat) : parse tokens ≠ .error ⟨.nestingTooDeep max, offset⟩ := by
    rw [hparse]
    simp
  exact ⟨hdepth, (parse_ok_iff_derivable tokens hdepth).2 _ hparse⟩

end ClassLang
