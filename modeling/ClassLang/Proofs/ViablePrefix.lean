import ClassLang.Proofs.Soundness.Class
import ClassLang.Reader

/-!
A syntax error is found no later than the grammar allows. The tokens in front
of the place where reading stopped always begin some program, so they hold no
mistake; nesting that is too deep is no exception, since it is noticed before
anything of the inner phrase is taken.
-/

namespace ClassLang

open Grammar

theorem Reader.stoppedAt_position {tokens taken rest : List Token} (h : tokens = taken ++ rest) :
    ((Reader.ofTokens tokens).stoppedAt rest).position = taken.length := by
  rw [h, Reader.stoppedAt_append]

/-- A fault that fits is reported at the token where reading stopped, if there
is one. -/
theorem Reader.place_of_fits {reader : Reader} {thrown : Thrown} {token : Token}
    {rest : List Token} (hfits : thrown.Fits (token :: rest)) :
    (reader.place thrown).offset = token.offset := by
  rw [hfits.eq_before hfits.ne_emptyProgram, place_before]
  rfl

/-- What was taken before an error begins a program. So the error is reported
at the first token that no program goes on with, or before it, and where it is
that the tokens have ended, all of them begin a program. -/
theorem viable_of_program_error (tokens : List Token) (error : SyntaxError) (after : Reader)
    (h : (Reader.ofTokens tokens).program = (.error error, after)) :
    Viable IsProgram (kinds (tokens.take after.position)) ∧
      (∀ token, tokens[after.position]? = some token → error.offset = token.offset) ∧
      (∀ index, ¬ Viable IsProgram (kinds (tokens.take (index + 1))) →
        after.position ≤ index) ∧
      (∀ expected, error.fault = .endOfTokens expected → Viable IsProgram (kinds tokens)) := by
  obtain ⟨thrown, rest, hrun, rfl, rfl⟩ := Reader.run_error h
  obtain ⟨hfits, taken, htokens, hviable⟩ :=
    (Rule.reads_programWithin Rule.maxNesting _).of_error hrun
  replace htokens : tokens = taken ++ rest := htokens
  rw [Reader.stoppedAt_position htokens]
  have htake : tokens.take taken.length = taken := by rw [htokens, List.take_left]
  refine ⟨by rwa [htake], ?_, ?_, ?_⟩
  · intro token htoken
    rw [htokens, List.getElem?_append_right (Nat.le_refl _), Nat.sub_self] at htoken
    cases rest with
    | nil => simp at htoken
    | cons first rest =>
        obtain rfl : first = token := by simpa using htoken
        exact Reader.place_of_fits hfits
  · intro index hdead
    apply Nat.le_of_not_lt
    intro hlate
    apply hdead
    have hshort : index + 1 ≤ taken.length := by omega
    have hsame : tokens.take (index + 1) = taken.take (index + 1) := by
      rw [htokens, List.take_append_of_le_length hshort]
    have hsplit : taken.take (index + 1) ++ taken.drop (index + 1) = taken :=
      List.take_append_drop _ _
    rw [← hsplit, kinds_append, List.nil_append] at hviable
    rw [hsame]
    exact hviable.of_append
  · intro expected hexpected
    have hnil : rest = [] := by
      have hfault := hfits.fault
      change thrown.fault = _ at hexpected
      rwa [hexpected] at hfault
    rw [htokens, hnil, List.append_nil]
    exact hviable

/-- `class C { int f ( ) { x = f ( 1`, which ends inside an argument list. -/
theorem viable_of_program_error_open_call :
    let tokens : List Token :=
      [⟨.keyword .classKw, 0⟩, ⟨.identifier "C", 6⟩, ⟨.separator .openBrace, 8⟩,
        ⟨.typeName .int, 10⟩, ⟨.identifier "f", 14⟩, ⟨.separator .openParen, 15⟩,
        ⟨.separator .closeParen, 16⟩, ⟨.separator .openBrace, 18⟩, ⟨.identifier "x", 20⟩,
        ⟨.separator .assign, 22⟩, ⟨.identifier "f", 24⟩, ⟨.separator .openParen, 25⟩,
        ⟨.literal (.int 1), 26⟩]
    (Reader.ofTokens tokens).program =
        (.error ⟨.endOfTokens .expression, 26⟩, ⟨tokens, 13⟩) ∧
      Viable IsProgram (kinds tokens) := by
  intro tokens
  have hrun : (Reader.ofTokens tokens).program =
      (.error ⟨.endOfTokens .expression, 26⟩, ⟨tokens, 13⟩) := rfl
  exact ⟨hrun, (viable_of_program_error tokens _ _ hrun).2.2.2 .expression rfl⟩

end ClassLang
