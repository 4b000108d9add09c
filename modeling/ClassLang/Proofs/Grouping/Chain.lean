import ClassLang.Proofs.Acceptance.Expression
import ClassLang.Proofs.Grouping

/-!
Expressions as chains. Every expression is made of operands with operators
between them, and at its end there may be an assignment. Each grouping of a
chain has the phrase of the chain, and what follows the chain follows the last
of its operands.
-/

namespace ClassLang

open Grammar Phrase

/-- An assignment. What it assigns goes on to the end of the expression. -/
inductive IsAssignment : Phrase → Prop where
  | assignment {names rest : Phrase} {path : List String} {value : Expression}
      (hpath : IsPath names path) (hrest : IsExpression rest value) :
      IsAssignment (names ++ .separator .assign :: rest)

theorem IsOperand.ne_nil {phrase : Phrase} (h : IsOperand phrase) : phrase ≠ [] := by
  obtain ⟨kind, rest, rfl, _⟩ := h.exists_cons
  exact List.cons_ne_nil _ _

theorem IsAssignment.ne_nil {phrase : Phrase} (h : IsAssignment phrase) : phrase ≠ [] := by
  cases h
  simp

/-- All but the last are operands, and the last is one or an assignment. -/
structure AreOperands (phrases : List Phrase) : Prop where
  front : ∀ phrase ∈ phrases.dropLast, IsOperand phrase
  last : ∀ phrase, phrases.getLast? = some phrase → IsOperand phrase ∨ IsAssignment phrase

/-- Operands with the operators in front of all but the first. -/
def chainPhrase (first : Phrase) (others : List (Operator × Phrase)) : Phrase :=
  first ++ others.flatMap fun (symbol, next) => .operator symbol :: next

section Chains

theorem AreOperands.cons {first : Phrase} {phrases : List Phrase} (hfirst : IsOperand first)
    (h : AreOperands phrases) : AreOperands (first :: phrases) := by
  cases phrases with
  | nil => exact ⟨by simp, by simpa using .inl hfirst⟩
  | cons second phrases =>
      refine ⟨?_, ?_⟩
      · rw [List.dropLast_cons_cons, List.forall_mem_cons]
        exact ⟨hfirst, h.front⟩
      · rw [List.getLast?_cons_cons]
        exact h.last

theorem AreOperands.of_append {first second : List Phrase} (h : AreOperands (first ++ second))
    (hne : second ≠ []) : (∀ phrase ∈ first, IsOperand phrase) ∧ AreOperands second := by
  obtain ⟨hfront, hlast⟩ := h
  rw [List.dropLast_append_of_ne_nil hne, List.forall_mem_append] at hfront
  refine ⟨hfront.1, hfront.2, fun phrase hphrase => hlast phrase ?_⟩
  rw [List.getLast?_append, hphrase, Option.some_or]

theorem AreOperands.leaf {phrases : List Phrase} (h : AreOperands phrases) :
    ∀ phrase ∈ phrases, IsOperand phrase ∨ IsAssignment phrase := by
  intro phrase hphrase
  rcases List.eq_nil_or_concat phrases with rfl | ⟨front, last, rfl⟩
  · cases hphrase
  · rw [List.concat_eq_append] at h hphrase
    rcases List.mem_append.mp hphrase with hfront | hlast
    · exact .inl (h.front phrase (by rwa [List.dropLast_concat]))
    · rw [List.mem_singleton.mp hlast]
      exact h.last last List.getLast?_concat

theorem chainPhrase_cons (first : Phrase) (symbol : Operator) (next : Phrase)
    (others : List (Operator × Phrase)) :
    chainPhrase first ((symbol, next) :: others) =
      first ++ .operator symbol :: chainPhrase next others :=
  rfl

/-- Every expression is a chain of operands. -/
theorem exists_chainPhrase {phrase : Phrase} {value : Expression} (h : IsExpression phrase value) :
    ∃ first others, AreOperands (first :: others.map Prod.snd) ∧
      phrase = chainPhrase first others := by
  generalize hsize : phrase.length = size
  induction size using Nat.strongRecOn generalizing phrase value with
  | ind size ih =>
      subst hsize
      cases h.isChain with
      | last hoperand =>
          exact ⟨phrase, [], ⟨by simp, by simpa using .inl hoperand⟩, (List.append_nil _).symm⟩
      | @assignment names rest path value hpath hrest =>
          exact ⟨_, [], ⟨by simp, by simpa using .inr (.assignment hpath hrest)⟩,
            (List.append_nil _).symm⟩
      | @operator symbol first rest value hfirst hrest =>
          obtain ⟨next, others, hothers, rfl⟩ :=
            ih rest.length (by simp; omega) hrest rfl
          exact ⟨first, (symbol, next) :: others, hothers.cons hfirst, rfl⟩

theorem length_le_of_mem_chain {first : Phrase} {others : List (Operator × Phrase)} :
    ∀ phrase ∈ first :: others.map Prod.snd, phrase.length ≤ (chainPhrase first others).length := by
  induction others generalizing first with
  | nil => simp [chainPhrase]
  | cons pair others ih =>
      obtain ⟨symbol, next⟩ := pair
      rw [chainPhrase_cons, List.length_append, List.length_cons, List.map_cons,
        List.forall_mem_cons]
      refine ⟨Nat.le_add_right _ _, fun phrase hphrase => ?_⟩
      have hle : phrase.length ≤ (chainPhrase next others).length := ih phrase hphrase
      omega

end Chains

namespace Rule

/-- The phrase ends in front of `follow`: a name at its end cannot go on, and an
assignment cannot take more operators. An operand takes none. -/
def Fits (phrase follow : Phrase) : Prop :=
  (EndsInName phrase → StopsName follow) ∧
    (IsOperand phrase ∨ ∀ symbol, follow.head? ≠ some (.operator symbol))

end Rule

namespace Grouping

/-- The phrase that is grouped. -/
def phrase : Grouping Phrase → Phrase
  | .operand phrase => phrase
  | .binary symbol left right => left.phrase ++ .operator symbol :: right.phrase

/-- Every operand fits in front of what comes behind it. -/
def FollowedBy : Grouping Phrase → Phrase → Prop
  | .operand phrase, follow => Rule.Fits phrase follow
  | .binary symbol left right, follow =>
      (∀ rest, left.FollowedBy (.operator symbol :: rest)) ∧ right.FollowedBy follow

theorem chainPhrase_append (first : Phrase) (others : List (Operator × Phrase))
    (symbol : Operator) (next : Phrase) (more : List (Operator × Phrase)) :
    chainPhrase first (others ++ (symbol, next) :: more) =
      chainPhrase first others ++ .operator symbol :: chainPhrase next more := by
  simp [chainPhrase]

theorem phrase_eq_chainPhrase (grouping : Grouping Phrase) :
    grouping.phrase = chainPhrase grouping.inOrder.1 grouping.inOrder.2 := by
  induction grouping with
  | operand phrase => exact (List.append_nil phrase).symm
  | binary symbol left right ihleft ihright =>
      rw [phrase, ihleft, ihright, inOrder, chainPhrase_append]

theorem phrase_ne_nil {grouping : Grouping Phrase} (h : ∀ leaf ∈ grouping.leaves, leaf.2 ≠ []) :
    grouping.phrase ≠ [] := by
  cases grouping with
  | operand phrase => exact h _ (List.mem_singleton_self _)
  | binary symbol left right => simp [phrase]

theorem followedBy_operator {grouping : Grouping Phrase}
    (h : ∀ leaf ∈ grouping.leaves, IsOperand leaf.2) (symbol : Operator) (rest : Phrase) :
    grouping.FollowedBy (.operator symbol :: rest) := by
  induction grouping generalizing symbol rest with
  | operand phrase =>
      exact ⟨fun _ => Rule.stopsName_operator symbol rest, .inl (h _ (List.mem_singleton_self _))⟩
  | binary above left right ihleft ihright =>
      rw [leaves, List.forall_mem_append, List.forall_mem_map] at h
      exact ⟨fun rest => ihleft h.1 above rest, ihright h.2 symbol rest⟩

theorem followedBy_of_stops {grouping : Grouping Phrase} {follow : Phrase}
    (hoperands : AreOperands (grouping.leaves.map Prod.snd))
    (hstops : Rule.Stops grouping.phrase follow) : grouping.FollowedBy follow := by
  induction grouping with
  | operand phrase => exact ⟨hstops.2, .inr hstops.1⟩
  | binary symbol left right _ ih =>
      rw [map_snd_leaves_binary] at hoperands
      obtain ⟨hfront, hback⟩ := hoperands.of_append (by simp [map_snd_leaves])
      have hne : right.phrase ≠ [] := phrase_ne_nil fun leaf hleaf =>
        (hback.leaf _ (List.mem_map_of_mem hleaf)).elim IsOperand.ne_nil IsAssignment.ne_nil
      refine ⟨followedBy_operator (List.forall_mem_map.mp hfront) symbol, ih hback ⟨hstops.1, ?_⟩⟩
      intro hends
      apply hstops.2
      rwa [phrase, endsInName_append (List.cons_ne_nil _ _), endsInName_cons hne]

end Grouping

end ClassLang
