import ClassLang.Proofs.Lookahead

/-!
A program of which the last tokens are missing. Where they are cut off behind a
class, what is left is a program of fewer classes. Anywhere else the parser
fails, and not before it can have noticed that something is missing: the tokens
in front of the cut are the same as they were, and a decision that sees no
further than these goes the same way as before.
-/

namespace ClassLang

open Rule (ReadInTurn classWithin maxNesting)

/-- The classes of the program up to one of them are read from the first `count`
tokens, and those after it from the others. -/
def IsClassEnd (tokens : List Token) (program : Program) (count : Nat) : Prop :=
  ∃ earlier later, program.classes = earlier ++ later ∧ earlier ≠ [] ∧
    ReadInTurn (classWithin maxNesting) tokens earlier (tokens.drop count) ∧
    ReadInTurn (classWithin maxNesting) (tokens.drop count) later []

/-- What was read of the first tokens is read of them alone. -/
theorem Rule.ReadInTurn.take {α : Type} {least ahead count : Nat} {rule : Rule α}
    {tokens : List Token} {values : List α} (hrule : Sees least 0 ahead rule)
    (h : ReadInTurn rule tokens values (tokens.drop count)) :
    ReadInTurn rule (tokens.take count) values [] := by
  obtain ⟨taken, hdrop, hlength, hsame⟩ := h.exists_count hrule
  have hcount : taken = min count tokens.length := by
    have hlengths := congrArg List.length hdrop
    rw [List.length_drop, List.length_drop] at hlengths
    omega
  have halike : (tokens.take count).take taken = tokens.take taken := by
    rw [List.take_take, Nat.min_eq_left (by omega)]
  have hread := hsame (tokens.take count) (.of_take halike)
  rwa [List.drop_eq_nil_of_le (by rw [List.length_take]; omega)] at hread

variable {tokens : List Token} {program : Program} {count : Nat}

theorem isClassEnd_of_parse_take (h : parse tokens = .ok program) {shorter : Program}
    (hshorter : parse (tokens.take count) = .ok shorter) : IsClassEnd tokens program count := by
  obtain ⟨_, hall⟩ := parse_ok_iff.mp h
  obtain ⟨hsome, hread⟩ := parse_ok_iff.mp hshorter
  have hearlier := hread.of_kinds (Rule.sees_classWithin maxNesting) rfl (tokens.drop count)
  rw [List.take_append_drop] at hearlier
  obtain ⟨later, hlater, hrest⟩ :=
    hearlier.exists_later (Rule.advances_class (Rule.reads_classWithin maxNesting)) hall
  exact ⟨shorter.classes, later, hlater, hsome, hearlier, hrest⟩

theorem parse_take_of_isClassEnd (h : IsClassEnd tokens program count) :
    ∃ shorter, parse (tokens.take count) = .ok shorter := by
  obtain ⟨earlier, _, _, hsome, hread, _⟩ := h
  have htake := hread.take (Rule.sees_classWithin maxNesting)
  exact ⟨⟨earlier⟩, parse_ok_iff.mpr ⟨hsome, htake⟩⟩

/-- A run that stops well in front of the cut does not know of it. -/
theorem le_position_of_take_error (h : parse tokens = .ok program) {error : SyntaxError}
    {after : Reader}
    (hrun : (Reader.ofTokens (tokens.take count)).program = (.error error, after)) :
    count ≤ after.position + Rule.maxLookahead := by
  apply Nat.le_of_not_lt
  intro hearly
  have hsame : (tokens.take count).take (after.position + (Rule.maxLookahead + 1)) =
      tokens.take (after.position + (Rule.maxLookahead + 1)) := by
    rw [List.take_take, Nat.min_eq_left (by omega)]
  have hwhole : (Reader.ofTokens tokens).program = (.error error, ⟨tokens, after.position⟩) :=
    Reader.run_eq_of_looksAhead (Rule.looksAhead_programWithin maxNesting)
      (Rule.reads_programWithin maxNesting) hrun hsame
  unfold parse at h
  rw [hwhole] at h
  cases h

theorem position_le_of_error {error : SyntaxError} {after : Reader}
    (hrun : (Reader.ofTokens tokens).program = (.error error, after)) :
    after.position ≤ tokens.length := by
  obtain ⟨_, rest, _, rfl, _⟩ := Reader.run_error hrun
  exact Nat.sub_le _ _

/-- If the first tokens of a program are a program again, then a class ends with
them; and if none does, parsing them fails at one of the last two of them or
behind the last. -/
theorem parse_take (tokens : List Token) (program : Program) (count : Nat)
    (h : parse tokens = .ok program) :
    ((∃ shorter, parse (tokens.take count) = .ok shorter) ↔ IsClassEnd tokens program count) ∧
      (¬ IsClassEnd tokens program count →
        ∃ error after, (Reader.ofTokens (tokens.take count)).program = (.error error, after) ∧
          count ≤ after.position + 2 ∧ after.position ≤ count) := by
  have haccepted : (∃ shorter, parse (tokens.take count) = .ok shorter) ↔
      IsClassEnd tokens program count :=
    ⟨fun ⟨_, hshorter⟩ => isClassEnd_of_parse_take h hshorter, parse_take_of_isClassEnd⟩
  refine ⟨haccepted, fun hend => ?_⟩
  cases hrun : (Reader.ofTokens (tokens.take count)).program with
  | mk outcome after =>
      cases outcome with
      | ok shorter =>
          have hshorter : parse (tokens.take count) = .ok shorter := congrArg Prod.fst hrun
          exact absurd (haccepted.mp ⟨shorter, hshorter⟩) hend
      | error error =>
          have hbefore := position_le_of_error hrun
          rw [List.length_take] at hbefore
          exact ⟨error, after, rfl, le_position_of_take_error h hrun,
            Nat.le_trans hbefore (Nat.min_le_left _ _)⟩

/-- `class A { } class B { x y ; }`: behind the first class the tokens may be
cut off. In front of the last `;` they may not, which shows at `x`. -/
theorem parse_take_member :
    let words : Phrase :=
      [.keyword .classKw, .identifier "A", .separator .openBrace, .separator .closeBrace,
        .keyword .classKw, .identifier "B", .separator .openBrace, .identifier "x",
        .identifier "y", .separator .semicolon, .separator .closeBrace]
    let tokens := words.map fun kind => (⟨kind, 0⟩ : Token)
    let program : Program := ⟨[⟨"A", none, []⟩, ⟨"B", none, [.field "x" "y" none]⟩]⟩
    parse tokens = .ok program ∧ IsClassEnd tokens program 4 ∧ ¬ IsClassEnd tokens program 9 ∧
      (Reader.ofTokens (tokens.take 9)).program =
        (.error ⟨.unexpectedMember (.identifier "x"), 0⟩, ⟨tokens.take 9, 7⟩) := by
  intro words tokens program
  have hparse : parse tokens = .ok program := rfl
  have hrun : (Reader.ofTokens (tokens.take 9)).program =
      (.error ⟨.unexpectedMember (.identifier "x"), 0⟩, ⟨tokens.take 9, 7⟩) := rfl
  refine ⟨hparse, (parse_take tokens program 4 hparse).1.mp ⟨_, rfl⟩, fun hend => ?_, hrun⟩
  obtain ⟨shorter, hshorter⟩ := (parse_take tokens program 9 hparse).1.mpr hend
  unfold parse at hshorter
  rw [hrun] at hshorter
  cases hshorter

end ClassLang
