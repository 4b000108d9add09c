import ClassLang.Proofs.Grouping.Reading
import ClassLang.Reader
import Mathlib.Tactic.FinCases

/-!
Precedence. A chain of operands is read into the one tree that has them in
order and respects how tightly the operators bind, and each operand as it is
read by itself. However long the chain is, it takes at most three levels more
than its operands take alone, the level of an expression counted in both.
-/

namespace ClassLang

open Grammar Phrase

namespace Rule

/-- With so many levels, the phrase is read by itself, up to its end. -/
def ReadsAlone (levels : Nat) (phrase : Phrase) (value : Expression) : Prop :=
  ∃ tokens, kinds tokens = phrase ∧ expressionAt maxNesting levels 0 tokens = .ok value []

theorem readsAlone_iff {phrase : Phrase} {needs levels : Nat} {value value' : Expression}
    (h : TakesNested maxNesting levels (expressionAt maxNesting levels 0) phrase needs value []) :
    ReadsAlone levels phrase value' ↔ value' = value ∧ needs ≤ levels := by
  constructor
  · rintro ⟨tokens, htokens, hrun⟩
    have hends := h (fun answer _ => answer = value ∧ needs ≤ levels) (fun _ => True)
      (fun hlevels => ⟨rfl, hlevels⟩) (fun _ => trivial) tokens htokens
    exact hends.of_ok hrun
  · rintro ⟨rfl, hlevels⟩
    have hkinds : kinds (phrase.map fun kind => ⟨kind, 0⟩) = phrase := by
      simp [kinds, Function.comp_def]
    have hends := h (fun answer rest => answer = value' ∧ rest = []) (fun _ => False)
      (fun _ => ⟨rfl, rfl⟩) (fun hdeep => by omega) _ hkinds
    refine ⟨_, hkinds, ?_⟩
    cases hrun : expressionAt maxNesting levels 0 (phrase.map fun kind => ⟨kind, 0⟩) with
    | error thrown rest => exact (hends.of_error hrun).elim
    | ok answer rest =>
        obtain ⟨rfl, hrest⟩ := hends.of_ok hrun
        rw [List.map_eq_nil_iff.mp hrest]

/-- What follows the levels of an operand when nothing follows it. -/
theorem takesNested_alone {phrase : Phrase} {needs : Nat} {value : Expression} (hpos : 0 < needs)
    (h : ∀ limit levels, TakesNested limit (levels + 1) (primary (expressionAt limit levels 0))
      phrase needs value []) (limit levels : Nat) :
    TakesNested limit levels (expressionAt limit levels 0) phrase needs value [] := by
  cases levels with
  | zero => exact .of_zero hpos
  | succ levels =>
      intro ok failed hok hfailed
      change Takes (climb (expressionAt limit levels) 0) phrase ok failed
      rw [climb_eq_climbFrom]
      apply takes_bind
      apply h limit levels
      · intro hlevels
        apply takes_climbFrom_of_stopsAt (reads_expressionAt limit levels) _ (hok hlevels)
        rintro symbol ⟨⟩
      · exact hfailed

theorem ReadsOperand.readsAlone_iff {phrase : Phrase} {needs levels : Nat}
    {value value' : Expression} (h : ReadsOperand phrase needs value) :
    ReadsAlone levels phrase value' ↔ value' = value ∧ needs ≤ levels := by
  apply Rule.readsAlone_iff
  apply takesNested_alone h.1
  intro limit levels
  have hends : Fits phrase [] := ⟨fun _ => ⟨by simp, by simp, by simp⟩, .inr (by simp)⟩
  simpa only [List.append_nil] using h.2 limit levels [] hends

/-- Behind the `=` of an assignment stands a whole expression. -/
theorem readsAlone_assignment {names rest : Phrase} {path : List String} {assigned : Expression}
    (hpath : IsPath names path) (hrest : IsExpression rest assigned) (levels : Nat)
    (value : Expression) :
    ReadsAlone (levels + 1) (names ++ .separator .assign :: rest) value ↔
      ∃ value', value = .assignment path value' ∧ ReadsAlone levels rest value' := by
  obtain ⟨needs, expected, hwhole⟩ := exists_readsWhole hrest
  have hstops : Stops rest [] := ⟨by simp, fun _ => ⟨by simp, by simp, by simp⟩⟩
  have hassigned : ∀ value',
      ReadsAlone levels rest value' ↔ value' = expected ∧ needs ≤ levels := by
    intro value'
    apply readsAlone_iff
    simpa only [List.append_nil] using hwhole.2 maxNesting levels [] hstops
  have hassignment : ReadsAlone (levels + 1) (names ++ .separator .assign :: rest) value ↔
      value = .assignment path expected ∧ needs + 1 ≤ levels + 1 := by
    apply readsAlone_iff
    apply takesNested_alone (Nat.succ_pos _)
    intro limit levels
    simpa only [List.append_nil] using takesNested_assignment hpath hwhole hstops
  rw [hassignment, Nat.add_le_add_iff_right]
  constructor
  · rintro ⟨rfl, hlevels⟩
    exact ⟨expected, rfl, (hassigned expected).mpr ⟨rfl, hlevels⟩⟩
  · rintro ⟨value', rfl, halone⟩
    obtain ⟨rfl, hlevels⟩ := (hassigned value').mp halone
    exact ⟨rfl, hlevels⟩

end Rule

open Rule

/-- A reader that takes a phrase ends behind it. -/
theorem Reader.run_of_takes {reader : Reader} {rule : Rule Expression} {value : Expression}
    {phrase follow : Phrase} (hne : phrase ≠ []) (hkinds : kinds reader.unread = phrase ++ follow)
    (h : Takes rule (phrase ++ follow) (fun answer rest => answer = value ∧ rest = follow)
      (fun _ => False)) :
    reader.run rule = (.ok value, { reader with position := reader.position + phrase.length }) := by
  have hends := h reader.unread hkinds
  have hlength : reader.tokens.length - reader.position = phrase.length + follow.length := by
    rw [← List.length_append, ← hkinds, kinds, List.length_map, unread, List.length_drop]
  have hpos := List.length_pos_iff.mpr hne
  unfold run
  cases hrun : rule reader.unread with
  | error thrown rest => exact (hends.of_error hrun).elim
  | ok answer rest =>
      obtain ⟨rfl, hrest⟩ := hends.of_ok hrun
      have hfollow : rest.length = follow.length := by rw [← hrest, kinds, List.length_map]
      have hposition : reader.tokens.length - rest.length = reader.position + phrase.length := by
        omega
      simp only [stoppedAt, hposition]

theorem Reader.run_of_takes_error {reader : Reader} {rule : Rule Expression} {fault : Fault}
    {phrase : Phrase} (hkinds : kinds reader.unread = phrase)
    (h : Takes rule phrase (fun _ _ => False) (fun found => found = fault)) :
    ∃ offset, (reader.run rule).1 = .error ⟨fault, offset⟩ := by
  have hends := h reader.unread hkinds
  unfold run
  cases hrun : rule reader.unread with
  | ok answer rest => exact (hends.of_ok hrun).elim
  | error thrown rest =>
      obtain ⟨found, place⟩ := thrown
      obtain rfl : found = fault := hends.of_error hrun
      exact ⟨_, rfl⟩

section Chains

variable {first follow : Phrase} {others : List (Operator × Phrase)}

/-- If each operand is read by itself on the levels that are left for it, then
the chain is read into its grouping. -/
theorem takes_chain_of_readsAlone {value : Phrase → Expression}
    (hoperands : AreOperands (first :: others.map Prod.snd))
    (hstops : Stops (chainPhrase first others) follow)
    (halone : ∀ leaf ∈ (Grouping.ofChain first others).leaves,
      ReadsAlone (maxNesting - leaf.1) leaf.2 (value leaf.2)) :
    Takes Rule.expression (chainPhrase first others ++ follow)
      (fun answer rest =>
        answer = (Grouping.ofChain first others).toExpression value ∧ rest = follow)
      (fun _ => False) := by
  have hdepth := (Grouping.isGrouped_ofChain first others).depth_le
  have hmax : maxNesting = 128 := rfl
  obtain ⟨needs, value', hleaves⟩ :=
    exists_readsLeaves hoperands fun _ _ _ hvalue => exists_readsWhole hvalue
  have hboth : ∀ leaf ∈ (Grouping.ofChain first others).leaves,
      value leaf.2 = value' leaf.2 ∧ needs leaf.2 ≤ maxNesting - leaf.1 :=
    fun leaf hleaf => (hleaves leaf hleaf).readsAlone_iff.mp (halone leaf hleaf)
  have hreads : ∀ leaf ∈ (Grouping.ofChain first others).leaves,
      ReadsOperand leaf.2 (needs leaf.2) (value leaf.2) := by
    intro leaf hleaf
    rw [(hboth leaf hleaf).1]
    exact hleaves leaf hleaf
  have hlevels : (Grouping.ofChain first others).levels needs ≤ maxNesting := by
    rw [Grouping.levels_le_iff]
    intro leaf hleaf
    have hneeds := (hboth leaf hleaf).2
    have hless := hdepth leaf hleaf
    omega
  exact takesNested_chain hoperands hreads hstops maxNesting maxNesting _ _
    (fun _ => ⟨rfl, rfl⟩) (fun hdeep => absurd hlevels (Nat.not_le.mpr hdeep))

/-- If an operand is not, then the chain is too deep. -/
theorem takes_chain_of_not_readsAlone (hoperands : AreOperands (first :: others.map Prod.snd))
    (hstops : Stops (chainPhrase first others) follow)
    (halone : ∃ leaf ∈ (Grouping.ofChain first others).leaves,
      ∀ value, ¬ ReadsAlone (maxNesting - leaf.1) leaf.2 value) :
    Takes Rule.expression (chainPhrase first others ++ follow) (fun _ _ => False)
      (fun fault => fault = .nestingTooDeep maxNesting) := by
  obtain ⟨leaf, hleaf, hdeep⟩ := halone
  obtain ⟨needs, value, hleaves⟩ :=
    exists_readsLeaves hoperands fun _ _ _ hvalue => exists_readsWhole hvalue
  have hneeds : ¬ needs leaf.2 ≤ maxNesting - leaf.1 := fun hfits =>
    hdeep _ ((hleaves leaf hleaf).readsAlone_iff.mpr ⟨rfl, hfits⟩)
  have hlevels : ¬ (Grouping.ofChain first others).levels needs ≤ maxNesting := by
    intro hfits
    have hleafFits := Grouping.levels_le_iff.mp hfits leaf hleaf
    omega
  exact takesNested_chain hoperands hleaves hstops maxNesting maxNesting _ _
    (fun hfits => hlevels hfits) (fun _ => rfl)

end Chains

/-- Operands with operators between them, in front of anything else, are read
into the one tree that has them in this order and respects how tightly the
operators bind. The chain takes at most three levels more than its operands take
alone: each is read as it is by itself, with at most so many levels less. If one
of them is too deep for that, so is the whole. What the last operand assigns is a
whole expression. -/
theorem expression_of_chain (first : Phrase) (others : List (Operator × Phrase)) (follow : Phrase)
    (hoperands : AreOperands (first :: others.map Prod.snd))
    (hstops : Stops (chainPhrase first others) follow) :
    let grouping := Grouping.ofChain first others
    (grouping.inOrder = (first, others) ∧ grouping.IsGrouped ∧
        ∀ other : Grouping Phrase, other.inOrder = (first, others) → other.IsGrouped →
          other = grouping) ∧
      (∀ leaf ∈ grouping.leaves, leaf.1 ≤ 3) ∧
      (∀ reader : Reader, kinds reader.unread = chainPhrase first others ++ follow →
        (∀ value : Phrase → Expression,
          (∀ leaf ∈ grouping.leaves, ReadsAlone (maxNesting - leaf.1) leaf.2 (value leaf.2)) →
          reader.expression = (.ok (grouping.toExpression value),
            { reader with position := reader.position + (chainPhrase first others).length })) ∧
        ((∃ leaf ∈ grouping.leaves, ∀ value, ¬ ReadsAlone (maxNesting - leaf.1) leaf.2 value) →
          ∃ offset, reader.expression.1 = .error ⟨.nestingTooDeep maxNesting, offset⟩)) ∧
      ∀ names path rest assigned, IsPath names path → IsExpression rest assigned →
        ∀ levels value, ReadsAlone (levels + 1) (names ++ .separator .assign :: rest) value ↔
          ∃ value', value = .assignment path value' ∧ ReadsAlone levels rest value' := by
  intro grouping
  have hgrouped : grouping.IsGrouped := Grouping.isGrouped_ofChain first others
  have hinOrder : grouping.inOrder = (first, others) := Grouping.inOrder_ofChain first others
  refine ⟨⟨hinOrder, hgrouped, ?_⟩, hgrouped.depth_le, ?_, fun _ _ _ _ => readsAlone_assignment⟩
  · intro other hother hgrouped'
    rw [← hgrouped'.ofChain_inOrder, hother]
  · intro reader hkinds
    constructor
    · intro value halone
      have hne : chainPhrase first others ≠ [] :=
        List.append_ne_nil_of_left_ne_nil
          ((hoperands.leaf first List.mem_cons_self).elim IsOperand.ne_nil IsAssignment.ne_nil) _
      exact Reader.run_of_takes hne hkinds (takes_chain_of_readsAlone hoperands hstops halone)
    · intro halone
      exact Reader.run_of_takes_error hkinds
        (takes_chain_of_not_readsAlone hoperands hstops halone)

/-- `1 || b && (c) < d = e || 2` in front of a closing parenthesis. -/
theorem expression_of_chain_assignment :
    let phrase : Phrase :=
      [.literal (.int 1), .operator .or, .identifier "b", .operator .and,
        .separator .openParen, .identifier "c", .separator .closeParen, .operator .less,
        .identifier "d", .separator .assign, .identifier "e", .operator .or, .literal (.int 2)]
    let reader := Reader.ofTokens ((phrase ++ [TokenKind.separator .closeParen]).map (⟨·, 0⟩))
    reader.expression =
      (.ok (.binary .or (.literal (.int 1)) (.binary .and (.reference ["b"])
          (.binary .less (.reference ["c"])
            (.assignment ["d"] (.binary .or (.reference ["e"]) (.literal (.int 2))))))),
        { reader with position := 13 }) := by
  let others : List (Operator × Phrase) :=
    [(.or, [.identifier "b"]), (.and, [.separator .openParen, .identifier "c",
      .separator .closeParen]), (.less, [.identifier "d", .separator .assign, .identifier "e",
        .operator .or, .literal (.int 2)])]
  let readings : List (Phrase × Expression) :=
    [([.literal (.int 1)], .literal (.int 1)), ([.identifier "b"], .reference ["b"]),
      ([.separator .openParen, .identifier "c", .separator .closeParen], .reference ["c"])]
  let value (phrase : Phrase) : Expression :=
    (readings.lookup phrase).getD
      (.assignment ["d"] (.binary .or (.reference ["e"]) (.literal (.int 2))))
  have hlast : IsAssignment [.identifier "d", .separator .assign, .identifier "e", .operator .or,
      .literal (.int 2)] :=
    .assignment (.name "d") (.binary .or (.reference (.name "e")) (.literal (.int 2)))
  have hoperands : AreOperands ([.literal (.int 1)] :: others.map Prod.snd) := by
    have hc : IsExpression [.identifier "c"] (.reference ["c"]) := .reference (.name "c")
    have hend : AreOperands [[.identifier "d", .separator .assign, .identifier "e", .operator .or,
      .literal (.int 2)]] := ⟨by simp, by simpa using .inr hlast⟩
    exact ((hend.cons (.parens hc)).cons (.reference (.name "b"))).cons (.literal (.int 1))
  have hstops : Stops (chainPhrase [.literal (.int 1)] others) [.separator .closeParen] :=
    stops_separator rfl
  have hleaves : ∀ leaf ∈ (Grouping.ofChain [.literal (.int 1)] others).leaves,
      ReadsAlone (maxNesting - leaf.1) leaf.2 (value leaf.2) := by
    have halone (depth : Nat) (phrase : Phrase)
        (h : expressionAt maxNesting (maxNesting - depth) 0 (phrase.map (⟨·, 0⟩)) =
          .ok (value phrase) []) : ReadsAlone (maxNesting - depth) phrase (value phrase) :=
      ⟨_, by simp [kinds, Function.comp_def], h⟩
    intro leaf hleaf
    fin_cases hleaf
    · exact halone 0 _ rfl
    · exact halone 1 _ rfl
    · exact halone 2 _ rfl
    · exact halone 3 _ rfl
  exact ((expression_of_chain _ others _ hoperands hstops).2.2.1 (Reader.ofTokens _) rfl).1 value
    hleaves

end ClassLang
