import ClassLang.Proofs.Lookahead.Rules
import ClassLang.Reader

/-!
A program is read class after class. What a class is read as hangs on its own
tokens alone, so classes that were read stay as they are whatever comes behind
them; and what comes behind them is read as if they were not there, except that
it need not have a class in it.
-/

namespace ClassLang

namespace Rule

open Grammar (IsClass)

variable {α : Type} {least ahead : Nat}

/-- Run again and again, the rule answers with these values, and the second
tokens are left of the first. -/
inductive ReadInTurn (rule : Rule α) : List Token → List α → List Token → Prop where
  | nil (tokens : List Token) : ReadInTurn rule tokens [] tokens
  | cons {tokens middle rest : List Token} {value : α} {values : List α}
      (head : rule tokens = .ok value middle) (tail : ReadInTurn rule middle values rest) :
      ReadInTurn rule tokens (value :: values) rest

namespace ReadInTurn

variable {rule : Rule α} {tokens middle rest : List Token} {values others : List α}

theorem append (h : ReadInTurn rule tokens values middle)
    (hothers : ReadInTurn rule middle others rest) :
    ReadInTurn rule tokens (values ++ others) rest := by
  induction h with
  | nil => exact hothers
  | cons head _ ih => exact .cons head (ih hothers)

/-- There is only one way to go on, so what is read to the end begins with
whatever is read. -/
theorem exists_later (hadvances : Advances rule) (h : ReadInTurn rule tokens values middle)
    {all : List α} (hall : ReadInTurn rule tokens all []) :
    ∃ later, all = values ++ later ∧ ReadInTurn rule middle later [] := by
  induction h generalizing all with
  | nil => exact ⟨all, rfl, hall⟩
  | cons head _ ih =>
      cases hall with
      | nil => exact absurd (hadvances _ _ _ head) (Nat.not_lt_zero _)
      | cons head' tail =>
          rw [head] at head'
          cases head'
          obtain ⟨later, rfl, hlater⟩ := ih tail
          exact ⟨later, rfl, hlater⟩

theorem exists_count (hrule : Sees least 0 ahead rule) (h : ReadInTurn rule tokens values rest) :
    ∃ count, rest = tokens.drop count ∧ count ≤ tokens.length ∧
      ∀ tokens', AlikeFor count tokens tokens' →
        ReadInTurn rule tokens' values (tokens'.drop count) := by
  induction h with
  | nil tokens => exact ⟨0, rfl, Nat.zero_le _, fun tokens' _ => .nil tokens'⟩
  | cons head _ ih =>
      obtain ⟨count, rfl, _, hlength, hhead⟩ := (hrule _).of_ok head
      obtain ⟨count', rfl, hlength', htail⟩ := ih
      rw [List.length_drop] at hlength'
      refine ⟨count + count', List.drop_drop, by omega, fun tokens' halike => ?_⟩
      rw [← List.drop_drop]
      exact .cons (hhead tokens' (halike.mono (by omega))) (htail _ halike.drop)

/-- A rule that does not look past its phrase reads the same from tokens of the
same kinds, and with any others behind them. -/
theorem of_kinds (hrule : Sees least 0 ahead rule) (h : ReadInTurn rule tokens values [])
    {tokens' : List Token} (hkinds : kinds tokens' = kinds tokens) (more : List Token) :
    ReadInTurn rule (tokens' ++ more) values more := by
  obtain ⟨count, hnil, hlength, hsame⟩ := h.exists_count hrule
  have hcount : count = (kinds tokens').length := by
    rw [hkinds, kinds, List.length_map]
    exact Nat.le_antisymm hlength (List.drop_eq_nil_iff.mp hnil.symm)
  have halike : AlikeFor count tokens (tokens' ++ more) := by
    unfold AlikeFor
    rw [kinds_append, hcount, List.take_left, ← hkinds, List.take_length]
  have hmore := hsame (tokens' ++ more) halike
  rwa [hcount, kinds, List.length_map, List.drop_left] at hmore

end ReadInTurn

section Classes

variable {classDecl : Rule ClassDecl} {tokens rest : List Token} {classes : List ClassDecl}

theorem sees_classStep (h : Sees least 0 ahead classDecl) :
    Sees 0 1 ahead (classStep classDecl) := by
  intro tokens
  refine seesAt_get_bind 1 (by omega) ?_ fun tokens' halike => ?_
  · split
    · exact sees_pure none _
    · exact seesAt_bind 0 (h tokens) (by omega) fun value => sees_pure (some value)
  · cases tokens with
    | nil => rw [halike.eq_nil]
    | cons token rest =>
        obtain ⟨offset, rest', rfl, _⟩ := halike.exists_cons
        rfl

variable (hreads : Reads IsClass classDecl)

include hreads

/-- As long as there are tokens, there is a class to be read. -/
theorem collect_classStep_of_ne_nil (hne : tokens ≠ []) :
    collect (classStep classDecl) tokens =
      (do
        let first ← classDecl
        let others ← collect (classStep classDecl)
        return first :: others : Rule (List ClassDecl)) tokens := by
  obtain ⟨token, rest, rfl⟩ := List.exists_cons_of_ne_nil hne
  rw [collect_eq (stepAdvances_classStep hreads)]
  change ((classDecl >>= fun value => pure (some value)) >>= _) (token :: rest) = _
  simp

theorem advances_class : Advances classDecl := by
  apply hreads.advances
  rintro value ⟨⟩

/-- The loop goes on behind classes that were read as if it began there. -/
theorem ReadInTurn.collect_eq (h : ReadInTurn classDecl tokens classes rest) :
    collect (classStep classDecl) tokens =
      match collect (classStep classDecl) rest with
      | .ok others left => .ok (classes ++ others) left
      | .error thrown left => .error thrown left := by
  induction h with
  | nil tokens => cases collect (classStep classDecl) tokens <;> rfl
  | @cons tokens middle rest first classes head _ ih =>
      have hne : tokens ≠ [] := by
        rintro rfl
        exact Nat.not_lt_zero _ (advances_class hreads _ _ _ head)
      rw [collect_classStep_of_ne_nil hreads hne, bind_apply, head]
      dsimp only
      rw [bind_apply, ih]
      cases collect (classStep classDecl) rest <;> rfl

theorem readInTurn_of_collect (h : collect (classStep classDecl) tokens = .ok classes rest) :
    ReadInTurn classDecl tokens classes [] := by
  generalize hsize : tokens.length = size
  induction size using Nat.strongRecOn generalizing tokens classes with
  | ind size ih =>
      by_cases hne : tokens = []
      · subst hne
        cases h
        exact .nil []
      · rw [collect_classStep_of_ne_nil hreads hne, bind_apply] at h
        cases hfirst : classDecl tokens with
        | error thrown left =>
            rw [hfirst] at h
            cases h
        | ok first middle =>
            rw [hfirst] at h
            dsimp only at h
            rw [bind_apply] at h
            cases hothers : collect (classStep classDecl) middle with
            | error thrown left =>
                rw [hothers] at h
                cases h
            | ok others left =>
                rw [hothers] at h
                cases h
                have hless := advances_class hreads _ _ _ hfirst
                exact .cons hfirst (ih middle.length (hsize ▸ hless) hothers rfl)

theorem collect_of_readInTurn (h : ReadInTurn classDecl tokens classes []) :
    collect (classStep classDecl) tokens = .ok classes [] := by
  have hend : collect (classStep classDecl) [] = .ok [] [] := rfl
  rw [h.collect_eq hreads, hend]
  dsimp only
  rw [List.append_nil]

/-- Where there are tokens, a program is what its classes are. -/
theorem programOf_of_ne_nil (hne : tokens ≠ []) :
    programOf classDecl tokens =
      (do return ⟨← collect (classStep classDecl)⟩ : Rule Program) tokens := by
  change (collect (classStep classDecl) >>= _) tokens = _
  rw [bind_apply, bind_apply]
  cases hrun : collect (classStep classDecl) tokens with
  | error thrown rest => rfl
  | ok classes rest =>
      cases readInTurn_of_collect hreads hrun with
      | nil => exact absurd rfl hne
      | cons => rfl

theorem readInTurn_of_programOf {program : Program}
    (h : programOf classDecl tokens = .ok program rest) :
    program.classes ≠ [] ∧ ReadInTurn classDecl tokens program.classes [] := by
  change (collect (classStep classDecl) >>= _) tokens = _ at h
  rw [bind_apply] at h
  cases hrun : collect (classStep classDecl) tokens with
  | error thrown left =>
      rw [hrun] at h
      cases h
  | ok classes left =>
      rw [hrun] at h
      cases classes with
      | nil => cases h
      | cons first others =>
          cases h
          exact ⟨List.cons_ne_nil first others, readInTurn_of_collect hreads hrun⟩

theorem programOf_of_readInTurn (hsome : classes ≠ [])
    (h : ReadInTurn classDecl tokens classes []) :
    programOf classDecl tokens = .ok ⟨classes⟩ [] := by
  have hne : tokens ≠ [] := by
    rintro rfl
    cases h with
    | nil => exact hsome rfl
    | cons head _ => exact Nat.not_lt_zero _ (advances_class hreads _ _ _ head)
  rw [programOf_of_ne_nil hreads hne, bind_apply, collect_of_readInTurn hreads h]
  rfl

/-- What is wrong behind classes that were read is wrong in the same way
without them. -/
theorem ReadInTurn.programOf_error (h : ReadInTurn classDecl tokens classes rest) (hne : rest ≠ [])
    {thrown : Thrown} {left : List Token}
    (hrest : programOf classDecl rest = .error thrown left) :
    programOf classDecl tokens = .error thrown left := by
  rw [programOf_of_ne_nil hreads hne, bind_apply] at hrest
  change (collect (classStep classDecl) >>= _) tokens = _
  rw [bind_apply, h.collect_eq hreads]
  cases hrun : collect (classStep classDecl) rest with
  | error _ _ =>
      rw [hrun] at hrest
      exact hrest
  | ok _ _ =>
      rw [hrun] at hrest
      cases hrest

end Classes

section Programs

variable {tokens : List Token} (limit : Nat)

theorem seesAt_programWithin (hne : tokens ≠ []) :
    SeesAt 0 1 maxLookahead (programWithin limit) tokens := by
  have hreads := reads_classWithin limit
  have hclasses : Sees 0 1 maxLookahead (collect (classStep (classWithin limit))) :=
    sees_collect (sees_classStep (sees_classWithin limit)) (stepAdvances_classStep hreads)
  refine seesAt_of_alike 1 (seesAt_bind 0 (hclasses tokens) (by omega) fun classes => sees_pure _)
    (by omega) fun tokens' halike => programOf_of_ne_nil hreads ?_
  obtain ⟨token, rest, rfl⟩ := List.exists_cons_of_ne_nil hne
  obtain ⟨offset, rest', rfl, _⟩ := halike.exists_cons
  exact List.cons_ne_nil _ _

theorem looksAhead_programWithin : LooksAhead maxLookahead (programWithin limit) := by
  intro tokens
  by_cases hne : tokens = []
  · subst hne
    refine ⟨[], rfl, fun rest halike => ?_⟩
    rw [BeginAlike.eq_nil halike]
    rfl
  · exact (seesAt_programWithin limit hne).exists_taken (by decide)

theorem looksAhead_expressionAt (levels floor : Nat) :
    LooksAhead 0 (expressionAt limit levels floor) :=
  (sees_expressionAt limit levels floor 0).looksAhead (Nat.le_refl 1)

end Programs

end Rule

open Rule (ReadInTurn classWithin maxNesting)

theorem parse_eq (tokens : List Token) :
    parse tokens =
      match Rule.program tokens with
      | .ok program _ => .ok program
      | .error thrown _ => .error ((Reader.ofTokens tokens).place thrown) := by
  have hunread : (Reader.ofTokens tokens).unread = tokens := rfl
  unfold parse Reader.program Reader.run
  rw [hunread]
  cases Rule.program tokens <;> rfl

theorem parse_ok_iff {tokens : List Token} {program : Program} :
    parse tokens = .ok program ↔
      program.classes ≠ [] ∧ ReadInTurn (classWithin maxNesting) tokens program.classes [] := by
  have hreads := Rule.reads_classWithin maxNesting
  constructor
  · intro h
    obtain ⟨rest, hrun⟩ := parse_ok h
    exact Rule.readInTurn_of_programOf hreads hrun
  · rintro ⟨hsome, hread⟩
    have hrun : Rule.program tokens = .ok program [] :=
      Rule.programOf_of_readInTurn hreads hsome hread
    rw [parse_eq, hrun]

/-- Tokens that were not taken yet, or all of them, are what an error is
reported at: the next of them, else the last. -/
theorem Reader.place_drop_append {before tokens : List Token} (fault : Fault) {count : Nat}
    {token : Token} (htoken : tokens[min count (tokens.length - 1)]? = some token) :
    (ofTokens (before ++ tokens)).place (fault.before (tokens.drop count)) =
      ⟨fault, token.offset⟩ := by
  have hplace : ((tokens.drop count).head? <|> (before ++ tokens).getLast?) = some token := by
    rw [List.head?_drop]
    by_cases hcount : count < tokens.length
    · rw [Nat.min_eq_left (by omega)] at htoken
      rw [htoken]
      rfl
    · rw [Nat.min_eq_right (by omega), ← List.getLast?_eq_getElem?] at htoken
      rw [List.getElem?_eq_none (by omega), List.getLast?_append, htoken]
      rfl
  rw [place_before, ofTokens, hplace]
  rfl

section Behind

variable {before tokens tokens' : List Token} {classes : List ClassDecl}

/-- A program behind classes that were read: tokens of the same kinds make the
same classes there. -/
theorem parse_append_ok (hbefore : ReadInTurn (classWithin maxNesting) before classes [])
    (hkinds : kinds tokens' = kinds tokens) {program : Program} (h : parse tokens = .ok program) :
    parse (before ++ tokens') = .ok ⟨classes ++ program.classes⟩ := by
  obtain ⟨hsome, hread⟩ := parse_ok_iff.mp h
  have hsees := Rule.sees_classWithin maxNesting
  have hbehind := hread.of_kinds hsees hkinds []
  rw [List.append_nil] at hbehind
  refine parse_ok_iff.mpr ⟨?_, (hbefore.of_kinds hsees rfl tokens').append hbehind⟩
  exact fun hnil => hsome (List.append_eq_nil_iff.mp hnil).2

/-- An error behind classes that were read: tokens of the same kinds make the
same fault there, and it is reported at the token that takes the place of the
other. -/
theorem parse_append_error (hbefore : ReadInTurn (classWithin maxNesting) before classes [])
    (hkinds : kinds tokens' = kinds tokens) (hne : tokens ≠ []) {error : SyntaxError}
    (h : parse tokens = .error error) :
    ∃ token token', (token, token') ∈ tokens.zip tokens' ∧ error.offset = token.offset ∧
      parse (before ++ tokens') = .error ⟨error.fault, token'.offset⟩ := by
  have hlength : tokens'.length = tokens.length := by
    have hlengths := congrArg List.length hkinds
    rwa [kinds, kinds, List.length_map, List.length_map] at hlengths
  have hpos := List.length_pos_iff.mpr hne
  obtain ⟨thrown, rest, hrun, rfl⟩ := parse_error h
  obtain ⟨_, count, rfl, _, hsame⟩ :=
    (Rule.seesAt_programWithin maxNesting hne).of_error hrun
  have hthrown : thrown = thrown.fault.before (tokens.drop count) := by
    have hself : Rule.program tokens = _ := hsame tokens (.refl tokens)
    rw [hrun] at hself
    exact (EStateM.Result.error.inj hself).1
  have hbehind : Rule.program (before ++ tokens') =
      .error (thrown.fault.before (tokens'.drop count)) (tokens'.drop count) := by
    refine (hbefore.of_kinds (Rule.sees_classWithin maxNesting) rfl tokens').programOf_error
      (Rule.reads_classWithin maxNesting) ?_ (hsame tokens' (.of_kinds hkinds))
    exact List.ne_nil_of_length_pos (hlength ▸ hpos)
  obtain ⟨token, htoken⟩ : ∃ token, tokens[min count (tokens.length - 1)]? = some token :=
    ⟨_, List.getElem?_eq_getElem (by omega)⟩
  obtain ⟨token', htoken'⟩ : ∃ token', tokens'[min count (tokens'.length - 1)]? = some token' :=
    ⟨_, List.getElem?_eq_getElem (by omega)⟩
  refine ⟨token, token', ?_, ?_, ?_⟩
  · rw [← hlength] at htoken
    exact List.mem_of_getElem? (List.getElem?_zip_eq_some.mpr ⟨htoken, htoken'⟩)
  · rw [hthrown]
    exact congrArg SyntaxError.offset (@Reader.place_drop_append [] tokens _ count _ htoken)
  · rw [parse_eq, hbehind]
    dsimp only
    rw [Reader.place_drop_append _ htoken']
    rfl

end Behind

end ClassLang
