import ClassLang.Proofs.Grouping.Chain
import ClassLang.Proofs.Levels
import Mathlib.Tactic.Choose

/-!
Expressions are read as they are grouped. Reading goes down the left operands
of the grouping: what stands in front of an operator is put together when the
operator comes, and its right operand is read with one level less. So each
operand is read by itself, with a level less for each turn to the right that
leads to it.
-/

namespace ClassLang

open Grammar Phrase

namespace Grouping

/-- An operator that follows does not bind more tightly than the topmost. -/
def StopsTop : Grouping Phrase → Phrase → Prop
  | .operand _, _ => True
  | .binary symbol _ _, follow => Rule.StopsAt (symbol.precedence + 1) follow

theorem StopsTop.of_topAtLeast {grouping : Grouping Phrase} {floor : Nat} {follow : Phrase}
    (htop : grouping.TopAtLeast floor) (hstops : Rule.StopsAt (floor + 1) follow) :
    grouping.StopsTop follow := by
  cases grouping with
  | operand phrase => trivial
  | binary symbol left right => exact hstops.mono (Nat.succ_le_succ htop)

end Grouping

namespace Rule

/-- The expression is read as this value with so many levels, whatever stops it. -/
def ReadsWhole (phrase : Phrase) (needs : Nat) (value : Expression) : Prop :=
  0 < needs ∧ ∀ limit levels follow, Stops phrase follow →
    TakesNested limit levels (expressionAt limit levels 0) (phrase ++ follow) needs value follow

/-- The operand is read as this value with so many levels, its own included. -/
def ReadsOperand (phrase : Phrase) (needs : Nat) (value : Expression) : Prop :=
  0 < needs ∧ ∀ limit levels follow, Fits phrase follow →
    TakesNested limit (levels + 1) (primary (expressionAt limit levels 0)) (phrase ++ follow)
      needs value follow

section Groupings

variable {value : Phrase → Expression} {needs : Phrase → Nat}

/-- Where the loop of operators goes on behind a grouping, it has put this
grouping together. -/
def ReadsLeft (value : Phrase → Expression) (needs : Phrase → Nat) (grouping : Grouping Phrase) :
    Prop :=
  ∀ (limit levels floor : Nat) (follow : Phrase) (ok : Expression → Phrase → Prop)
    (failed : Fault → Prop), grouping.FollowedBy follow → grouping.TopAtLeast floor →
    grouping.StopsTop follow →
    (grouping.levels needs ≤ levels + 1 →
      Takes (climbFrom (expressionAt limit levels) floor (grouping.toExpression value)) follow ok
        failed) →
    (levels + 1 < grouping.levels needs → failed (.nestingTooDeep limit)) →
    Takes (climb (expressionAt limit levels) floor) (grouping.phrase ++ follow) ok failed

/-- A grouping is read as a right operand, or as a whole. -/
theorem ReadsLeft.takesNested {grouping : Grouping Phrase}
    (h : ReadsLeft value needs grouping) (hpos : 0 < grouping.levels needs)
    {limit levels floor : Nat} {follow : Phrase} (hfollow : grouping.FollowedBy follow)
    (htop : grouping.TopAtLeast floor) (hstops : StopsAt floor follow) :
    TakesNested limit levels (expressionAt limit levels floor) (grouping.phrase ++ follow)
      (grouping.levels needs) (grouping.toExpression value) follow := by
  cases levels with
  | zero => exact TakesNested.of_zero hpos
  | succ levels =>
      intro ok failed hok hfailed
      have hstopsTop : grouping.StopsTop follow :=
        .of_topAtLeast htop (hstops.mono (Nat.le_succ floor))
      refine h limit levels floor follow ok failed hfollow htop hstopsTop ?_ hfailed
      intro hlevels
      exact takes_climbFrom_of_stopsAt (reads_expressionAt limit levels) hstops (hok hlevels)

theorem readsLeft (grouping : Grouping Phrase) (hgrouped : grouping.IsGrouped)
    (hleaves : ∀ leaf ∈ grouping.leaves, ReadsOperand leaf.2 (needs leaf.2) (value leaf.2)) :
    ReadsLeft value needs grouping := by
  induction grouping with
  | operand phrase =>
      obtain ⟨_, hreads⟩ := hleaves _ (List.mem_singleton_self _)
      intro limit levels floor follow ok failed hfollow _ _ hok hfailed
      rw [climb_eq_climbFrom]
      apply takes_bind
      exact hreads limit levels follow hfollow _ failed hok hfailed
  | binary symbol left right ihleft ihright =>
      obtain ⟨hleft, hright, hleftTop, hrightTop⟩ := hgrouped
      rw [Grouping.leaves, List.forall_mem_append, List.forall_mem_map] at hleaves
      have hpos : 0 < right.levels needs := Grouping.levels_pos fun leaf hleaf =>
        (hleaves.2 leaf hleaf).1
      intro limit levels floor follow ok failed hfollow htop hstops hok hfailed
      -- The left operand is put together in the same loop, on the same level. The
      -- loop then goes on with the operator, and the right operand is another loop.
      rw [Grouping.levels] at hok hfailed
      rw [Grouping.phrase, List.append_assoc, List.cons_append]
      have hoperator : StopsAt (symbol.precedence + 1)
          (.operator symbol :: (right.phrase ++ follow)) := by
        rintro _ ⟨⟩
        omega
      refine ihleft hleft hleaves.1 limit levels floor _ ok failed (hfollow.1 _)
        (hleftTop.mono htop) (.of_topAtLeast hleftTop hoperator) ?_ ?_
      · intro hlevels
        apply takes_climbFrom (reads_expressionAt limit levels) htop
        apply (ihright hright hleaves.2).takesNested hpos hfollow.2 hrightTop hstops
        · intro hlevels'
          exact hok (by omega)
        · intro hdeep
          exact hfailed (by omega)
      · intro hdeep
        exact hfailed (by omega)

/-- A grouping as a whole. -/
theorem takesNested_grouping {grouping : Grouping Phrase} (hgrouped : grouping.IsGrouped)
    (hleaves : ∀ leaf ∈ grouping.leaves, ReadsOperand leaf.2 (needs leaf.2) (value leaf.2))
    {limit levels : Nat} {follow : Phrase} (hfollow : grouping.FollowedBy follow)
    (hstops : StopsAt 0 follow) :
    TakesNested limit levels (expressionAt limit levels 0) (grouping.phrase ++ follow)
      (grouping.levels needs) (grouping.toExpression value) follow := by
  have hpos : 0 < grouping.levels needs :=
    Grouping.levels_pos fun leaf hleaf => (hleaves leaf hleaf).1
  have htop : grouping.TopAtLeast 0 := by
    cases grouping with
    | operand phrase => trivial
    | binary symbol left right => exact Nat.zero_le _
  exact (readsLeft grouping hgrouped hleaves).takesNested hpos hfollow htop hstops

end Groupings

section Operands

variable {bound : Nat}

/-- All expressions with phrases shorter than this are read as some value. -/
def ReadsShorter (bound : Nat) : Prop :=
  ∀ phrase value, phrase.length < bound → IsExpression phrase value →
    ∃ needs value', ReadsWhole phrase needs value'

theorem exists_takesNested_arguments (hshorter : ReadsShorter bound) {list : Phrase}
    {values : List Expression} (hlist : IsArguments list values) (hlength : list.length < bound) :
    ∃ needs values', ∀ limit levels follow,
      TakesNested limit levels (listed (expressionAt limit levels 0))
        (list ++ .separator .closeParen :: follow) needs values' follow := by
  have hstep (limit levels : Nat) : StepAdvances (listedStep (expressionAt limit levels 0)) :=
    stepAdvances_listedStep (reads_expressionAt limit levels 0)
  generalize hsize : list.length = size
  induction size using Nat.strongRecOn generalizing list values with
  | ind size ih =>
      subst hsize
      cases hlist.isListChain with
      | nil =>
          refine ⟨0, [], ?_⟩
          intro limit levels follow ok failed hok _
          exact takes_listed_nil (hstep limit levels) (hok (Nat.zero_le _))
      | @cons first comma rest value values hfirst hcomma hrest hends =>
          have hne := List.length_pos_iff.mpr hfirst.ne_nil
          simp only [List.length_append] at hlength ih
          obtain ⟨needs, value', _, hvalue⟩ := hshorter first value (by omega) hfirst
          obtain ⟨needs', values', hvalues⟩ :=
            ih rest.length (by omega) hrest (by omega) rfl
          refine ⟨max needs needs', value' :: values', ?_⟩
          intro limit levels follow ok failed hok hfailed
          rw [List.append_assoc, List.append_assoc]
          apply takes_listed_cons (hstep limit levels)
          · obtain ⟨kind, more, rfl, hstarts⟩ := hfirst.exists_cons
            rintro ⟨⟩
            exact hstarts
          apply hvalue limit levels _ (stops_element hcomma hrest hends)
          · intro hfits
            have hothers := hvalues limit levels follow
              (fun others => ok (value' :: others)) failed
              (fun hfits' => hok (by omega)) (fun hdeep => hfailed (by omega))
            cases hcomma with
            | present => exact takes_accept hothers
            | absent =>
                apply takes_accept_of_ne _ hothers
                intro hcomma
                rcases head?_arguments hrest hcomma with hstarts | hclose
                · exact hstarts
                · cases hclose
          · intro hdeep
            exact hfailed (by omega)

theorem exists_readsOperand (hshorter : ReadsShorter bound) {phrase : Phrase}
    (hoperand : IsOperand phrase) (hlength : phrase.length ≤ bound) :
    ∃ needs value, ReadsOperand phrase needs value := by
  cases hoperand with
  | literal value =>
      refine ⟨1, .literal value, Nat.one_pos, ?_⟩
      intro limit levels follow _ ok failed hok _
      exact takes_primary_literal (hok (by omega))
  | @reference _ path hpath =>
      refine ⟨1, .reference path, Nat.one_pos, ?_⟩
      intro limit levels follow hfits ok failed hok _
      exact takes_primary_reference hpath (hfits.1 hpath.endsInName) (hok (by omega))
  | @new className list arguments hlist =>
      simp only [inParens, List.length_cons, List.length_append, List.length_nil] at hlength
      obtain ⟨needs, values, htakes⟩ :=
        exists_takesNested_arguments hshorter hlist (by omega)
      refine ⟨needs + 1, .new className values, Nat.succ_pos _, ?_⟩
      intro limit levels follow _ ok failed hok hfailed
      simp only [inParens, List.cons_append, List.append_assoc, List.nil_append]
      apply takes_primary_new
      exact (htakes limit levels follow).succ _ failed hok hfailed
  | @call names list path arguments hpath hlist =>
      simp only [inParens, List.length_cons, List.length_append, List.length_nil] at hlength
      obtain ⟨needs, values, htakes⟩ :=
        exists_takesNested_arguments hshorter hlist (by omega)
      refine ⟨needs + 1, .call path values, Nat.succ_pos _, ?_⟩
      intro limit levels follow _ ok failed hok hfailed
      simp only [inParens, List.cons_append, List.append_assoc, List.nil_append]
      apply takes_primary_call hpath
      exact (htakes limit levels follow).succ _ failed hok hfailed
  | @parens inner value hvalue =>
      simp only [inParens, List.length_cons, List.length_append, List.length_nil] at hlength
      obtain ⟨needs, value', _, htakes⟩ := hshorter inner value (by omega) hvalue
      refine ⟨needs + 1, value', Nat.succ_pos _, ?_⟩
      intro limit levels follow _ ok failed hok hfailed
      simp only [inParens, List.cons_append, List.append_assoc, List.nil_append]
      apply takes_primary_parens
      apply (htakes limit levels _ (stops_separator rfl)).succ
      · intro hfits
        exact takes_separator (hok hfits)
      · exact hfailed

theorem takesNested_assignment {names rest follow : Phrase} {path : List String}
    {needs limit levels : Nat} {value : Expression} (hpath : IsPath names path)
    (h : ReadsWhole rest needs value) (hstops : Stops rest follow) :
    TakesNested limit (levels + 1) (primary (expressionAt limit levels 0))
      (names ++ .separator .assign :: rest ++ follow) (needs + 1) (.assignment path value)
      follow := by
  intro ok failed hok hfailed
  rw [List.append_assoc]
  apply takes_primary_assignment hpath
  exact (h.2 limit levels follow hstops).succ _ failed hok hfailed

theorem exists_readsOperand_of_leaf (hshorter : ReadsShorter bound) {phrase : Phrase}
    (hleaf : IsOperand phrase ∨ IsAssignment phrase) (hlength : phrase.length ≤ bound) :
    ∃ needs value, ReadsOperand phrase needs value := by
  by_cases hoperand : IsOperand phrase
  · exact exists_readsOperand hshorter hoperand hlength
  cases hleaf.resolve_left hoperand with
  | @assignment names rest path value hpath hrest =>
      simp only [List.length_cons, List.length_append] at hlength
      obtain ⟨needs, value', hvalue⟩ := hshorter rest value (by omega) hrest
      refine ⟨needs + 1, .assignment path value', Nat.succ_pos _, ?_⟩
      intro limit levels follow hfits
      have hends : EndsInName rest → StopsName follow :=
        fun hends => hfits.1 ((endsInName_operator hrest).mpr hends)
      exact takesNested_assignment hpath hvalue ⟨hfits.2.resolve_left hoperand, hends⟩

/-- Every operand and every assignment is read as some value, if all shorter
expressions are. -/
theorem exists_readings (hshorter : ReadsShorter bound) :
    ∃ (needs : Phrase → Nat) (value : Phrase → Expression), ∀ phrase,
      IsOperand phrase ∨ IsAssignment phrase → phrase.length ≤ bound →
        ReadsOperand phrase (needs phrase) (value phrase) := by
  have hreads (phrase : Phrase) : ∃ needs value, IsOperand phrase ∨ IsAssignment phrase →
      phrase.length ≤ bound → ReadsOperand phrase needs value := by
    by_cases hleaf : (IsOperand phrase ∨ IsAssignment phrase) ∧ phrase.length ≤ bound
    · obtain ⟨needs, value, hvalue⟩ := exists_readsOperand_of_leaf hshorter hleaf.1 hleaf.2
      exact ⟨needs, value, fun _ _ => hvalue⟩
    · exact ⟨0, .literal (.bool true), fun hkind hlength => absurd ⟨hkind, hlength⟩ hleaf⟩
  choose needs value hvalue using hreads
  exact ⟨needs, value, hvalue⟩

end Operands

section Chains

variable {first follow : Phrase} {others : List (Operator × Phrase)} {needs : Phrase → Nat}
  {value : Phrase → Expression}

/-- A leaf of the grouping of a chain is an operand of the chain. -/
theorem mem_chain_of_leaf : ∀ leaf ∈ (Grouping.ofChain first others).leaves,
    leaf.2 ∈ first :: others.map Prod.snd := by
  intro leaf hleaf
  have hmem := List.mem_map_of_mem (f := Prod.snd) hleaf
  rwa [Grouping.map_snd_leaves, Grouping.inOrder_ofChain] at hmem

/-- If all shorter expressions are read as some value, then so is every operand
of a chain. -/
theorem exists_readsLeaves (hoperands : AreOperands (first :: others.map Prod.snd))
    (hshorter : ReadsShorter (chainPhrase first others).length) :
    ∃ (needs : Phrase → Nat) (value : Phrase → Expression),
      ∀ leaf ∈ (Grouping.ofChain first others).leaves,
        ReadsOperand leaf.2 (needs leaf.2) (value leaf.2) := by
  obtain ⟨needs, value, hreads⟩ := exists_readings hshorter
  refine ⟨needs, value, ?_⟩
  intro leaf hleaf
  have hmem := mem_chain_of_leaf leaf hleaf
  exact hreads leaf.2 (hoperands.leaf _ hmem) (length_le_of_mem_chain _ hmem)

/-- A chain is read into its grouping. -/
theorem takesNested_chain (hoperands : AreOperands (first :: others.map Prod.snd))
    (hreads : ∀ leaf ∈ (Grouping.ofChain first others).leaves,
      ReadsOperand leaf.2 (needs leaf.2) (value leaf.2))
    (hstops : Stops (chainPhrase first others) follow) (limit levels : Nat) :
    TakesNested limit levels (expressionAt limit levels 0) (chainPhrase first others ++ follow)
      ((Grouping.ofChain first others).levels needs)
      ((Grouping.ofChain first others).toExpression value) follow := by
  have hinOrder := Grouping.inOrder_ofChain first others
  have hphrase : (Grouping.ofChain first others).phrase = chainPhrase first others := by
    rw [Grouping.phrase_eq_chainPhrase, hinOrder]
  rw [← hphrase] at hstops ⊢
  have hfollow : (Grouping.ofChain first others).FollowedBy follow := by
    apply Grouping.followedBy_of_stops _ hstops
    rwa [Grouping.map_snd_leaves, hinOrder]
  have hfloor : StopsAt 0 follow := fun symbol hhead => absurd hhead (hstops.1 symbol)
  exact takesNested_grouping (Grouping.isGrouped_ofChain first others) hreads hfollow hfloor

/-- Every expression is read as some value. -/
theorem exists_readsWhole {phrase : Phrase} {value : Expression} (h : IsExpression phrase value) :
    ∃ needs value', ReadsWhole phrase needs value' := by
  generalize hsize : phrase.length = size
  induction size using Nat.strongRecOn generalizing phrase value with
  | ind size ih =>
      subst hsize
      have hshorter : ReadsShorter phrase.length := fun shorter value hless hvalue =>
        ih shorter.length hless hvalue rfl
      obtain ⟨first, others, hoperands, rfl⟩ := exists_chainPhrase h
      obtain ⟨needs, values, hleaves⟩ := exists_readsLeaves hoperands hshorter
      refine ⟨(Grouping.ofChain first others).levels needs,
        (Grouping.ofChain first others).toExpression values,
        Grouping.levels_pos fun leaf hleaf => (hleaves leaf hleaf).1, ?_⟩
      intro limit levels follow hstops
      exact takesNested_chain hoperands hleaves hstops limit levels

end Chains

end Rule

end ClassLang
