import ClassLang.Tree

/-!
Groupings. Operands with operators between them can be put together in many
ways; one of them respects how tightly the operators bind, and groups those
that bind alike to the left. It is found operand by operand: each operator
takes what stands in front of it as far as nothing there binds less tightly.
-/

namespace ClassLang

/-- Operands with operators between them, put together somehow. -/
inductive Grouping (α : Type) where
  | operand (value : α)
  | binary (symbol : Operator) (left right : Grouping α)

namespace Grouping

variable {α : Type}

/-- From left to right: the first operand, and each operator with the operand
behind it. -/
def inOrder : Grouping α → α × List (Operator × α)
  | .operand value => (value, [])
  | .binary symbol left right =>
      (left.inOrder.1, left.inOrder.2 ++ (symbol, right.inOrder.1) :: right.inOrder.2)

/-- The topmost operator, if there is one, binds at least as tightly as `floor`. -/
def TopAtLeast (floor : Nat) : Grouping α → Prop
  | .operand _ => True
  | .binary symbol _ _ => floor ≤ symbol.precedence

/-- The operator on top of a left operand binds at least as tightly as the one
above it, and the operator on top of a right operand more tightly. -/
def IsGrouped : Grouping α → Prop
  | .operand _ => True
  | .binary symbol left right =>
      left.IsGrouped ∧ right.IsGrouped ∧ left.TopAtLeast symbol.precedence ∧
        right.TopAtLeast (symbol.precedence + 1)

theorem TopAtLeast.mono {floor floor' : Nat} {grouping : Grouping α}
    (h : grouping.TopAtLeast floor') (hfloor : floor ≤ floor') : grouping.TopAtLeast floor := by
  cases grouping with
  | operand value => trivial
  | binary symbol left right => exact Nat.le_trans hfloor h

/-- Put an operator and an operand behind all others. -/
def push (symbol : Operator) (value : α) : Grouping α → Grouping α
  | .operand first => .binary symbol (.operand first) (.operand value)
  | .binary above left right =>
      if symbol.precedence ≤ above.precedence then
        .binary symbol (.binary above left right) (.operand value)
      else .binary above left (right.push symbol value)

def pushAll (grouping : Grouping α) (others : List (Operator × α)) : Grouping α :=
  others.foldl (fun grouping (symbol, value) => grouping.push symbol value) grouping

/-- The grouping of a first operand and of operators with operands behind them. -/
def ofChain (first : α) (others : List (Operator × α)) : Grouping α :=
  (operand first).pushAll others

section InOrder

theorem inOrder_push (symbol : Operator) (value : α) (grouping : Grouping α) :
    (grouping.push symbol value).inOrder =
      (grouping.inOrder.1, grouping.inOrder.2 ++ [(symbol, value)]) := by
  induction grouping with
  | operand first => rfl
  | binary above left right _ ih =>
      unfold push
      split
      · rfl
      · rw [inOrder, ih, inOrder]
        simp only [List.append_assoc, List.cons_append]

theorem inOrder_pushAll (grouping : Grouping α) (others : List (Operator × α)) :
    (grouping.pushAll others).inOrder = (grouping.inOrder.1, grouping.inOrder.2 ++ others) := by
  induction others generalizing grouping with
  | nil => simp [pushAll]
  | cons pair others ih =>
      obtain ⟨symbol, value⟩ := pair
      change ((grouping.push symbol value).pushAll others).inOrder = _
      rw [ih, inOrder_push]
      simp only [List.append_assoc, List.cons_append, List.nil_append]

theorem inOrder_ofChain (first : α) (others : List (Operator × α)) :
    (ofChain first others).inOrder = (first, others) :=
  inOrder_pushAll (operand first) others

end InOrder

section Grouped

variable {floor : Nat} {symbol : Operator} {value : α} {grouping left right : Grouping α}

theorem TopAtLeast.push (h : grouping.TopAtLeast floor) (hsymbol : floor ≤ symbol.precedence) :
    (grouping.push symbol value).TopAtLeast floor := by
  cases grouping with
  | operand first => exact hsymbol
  | binary above left right =>
      unfold Grouping.push
      split
      · exact hsymbol
      · exact h

theorem IsGrouped.push (h : grouping.IsGrouped) : (grouping.push symbol value).IsGrouped := by
  induction grouping with
  | operand first => exact ⟨trivial, trivial, trivial, trivial⟩
  | binary above left right _ ih =>
      unfold Grouping.push
      split
      · next htight => exact ⟨h, trivial, htight, trivial⟩
      · next hloose =>
          obtain ⟨hleft, hright, hleftTop, hrightTop⟩ := h
          exact ⟨hleft, ih hright, hleftTop, hrightTop.push (by omega)⟩

theorem IsGrouped.pushAll (h : grouping.IsGrouped) (others : List (Operator × α)) :
    (grouping.pushAll others).IsGrouped := by
  induction others generalizing grouping with
  | nil => exact h
  | cons pair others ih => exact ih h.push

theorem isGrouped_ofChain (first : α) (others : List (Operator × α)) :
    (ofChain first others).IsGrouped :=
  have hfirst : (operand first).IsGrouped := trivial
  hfirst.pushAll others

/-- All operators bind at least as tightly as the topmost. -/
theorem IsGrouped.le_precedence (h : grouping.IsGrouped) (htop : grouping.TopAtLeast floor) :
    ∀ pair ∈ grouping.inOrder.2, floor ≤ pair.1.precedence := by
  induction grouping generalizing floor with
  | operand value => simp [inOrder]
  | binary symbol left right ihleft ihright =>
      obtain ⟨hleft, hright, hleftTop, hrightTop⟩ := h
      have hfloor : floor ≤ symbol.precedence := htop
      rw [inOrder, List.forall_mem_append, List.forall_mem_cons]
      exact ⟨ihleft hleft (hleftTop.mono hfloor), hfloor,
        ihright hright (hrightTop.mono (by omega))⟩

theorem push_of_topAtLeast (h : grouping.TopAtLeast symbol.precedence) :
    grouping.push symbol value = .binary symbol grouping (.operand value) := by
  cases grouping with
  | operand first => rfl
  | binary above left right => exact if_pos h

/-- What binds more tightly than the topmost operator goes to its right. -/
theorem pushAll_binary {others : List (Operator × α)}
    (h : ∀ pair ∈ others, symbol.precedence + 1 ≤ pair.1.precedence) :
    (binary symbol left right).pushAll others = .binary symbol left (right.pushAll others) := by
  induction others generalizing right with
  | nil => rfl
  | cons pair others ih =>
      obtain ⟨next, value⟩ := pair
      obtain ⟨hnext, hothers⟩ := List.forall_mem_cons.mp h
      have hpush : (binary symbol left right).push next value =
          .binary symbol left (right.push next value) := by
        apply if_neg
        have hnext' : symbol.precedence + 1 ≤ next.precedence := hnext
        omega
      change ((binary symbol left right).push next value).pushAll others = _
      rw [hpush]
      exact ih hothers

theorem pushAll_append (grouping : Grouping α) (others more : List (Operator × α)) :
    grouping.pushAll (others ++ more) = (grouping.pushAll others).pushAll more :=
  List.foldl_append

/-- There is no other way to group what a grouping has in order. -/
theorem IsGrouped.ofChain_inOrder (h : grouping.IsGrouped) :
    ofChain grouping.inOrder.1 grouping.inOrder.2 = grouping := by
  induction grouping with
  | operand value => rfl
  | binary symbol left right ihleft ihright =>
      obtain ⟨hleft, hright, hleftTop, hrightTop⟩ := h
      have hpush : left.push symbol right.inOrder.1 =
          .binary symbol left (.operand right.inOrder.1) := push_of_topAtLeast hleftTop
      calc ofChain left.inOrder.1 (left.inOrder.2 ++ (symbol, right.inOrder.1) :: right.inOrder.2)
          = (left.push symbol right.inOrder.1).pushAll right.inOrder.2 := by
            rw [ofChain, pushAll_append, ← ofChain, ihleft hleft]
            rfl
        _ = .binary symbol left (ofChain right.inOrder.1 right.inOrder.2) := by
            rw [hpush, pushAll_binary (hright.le_precedence hrightTop), ofChain]
        _ = .binary symbol left right := by rw [ihright hright]

end Grouped

section Depth

/-- The operands with how often the way down to them turns right. -/
def leaves : Grouping α → List (Nat × α)
  | .operand value => [(0, value)]
  | .binary _ left right =>
      left.leaves ++ right.leaves.map fun (depth, value) => (depth + 1, value)

theorem map_snd_leaves_binary (symbol : Operator) (left right : Grouping α) :
    (binary symbol left right).leaves.map Prod.snd =
      left.leaves.map Prod.snd ++ right.leaves.map Prod.snd := by
  rw [leaves, List.map_append, List.map_map]
  rfl

theorem map_snd_leaves (grouping : Grouping α) :
    grouping.leaves.map Prod.snd = grouping.inOrder.1 :: grouping.inOrder.2.map Prod.snd := by
  induction grouping with
  | operand value => rfl
  | binary symbol left right ihleft ihright =>
      rw [map_snd_leaves_binary, ihleft, ihright, inOrder, List.map_append]
      rfl

theorem precedence_bounds (symbol : Operator) :
    1 ≤ symbol.precedence ∧ symbol.precedence ≤ 3 := by
  cases symbol <;> decide

/-- Each turn to the right leads to operators that bind more tightly. -/
theorem IsGrouped.depth_add_le {floor : Nat} {grouping : Grouping α} (h : grouping.IsGrouped)
    (htop : grouping.TopAtLeast floor) (hfloor : floor ≤ 4) :
    ∀ leaf ∈ grouping.leaves, leaf.1 + floor ≤ 4 := by
  induction grouping generalizing floor with
  | operand value => simpa [leaves] using hfloor
  | binary symbol left right ihleft ihright =>
      obtain ⟨hleft, hright, hleftTop, hrightTop⟩ := h
      have hsymbol := (precedence_bounds symbol).2
      have hfloor' : floor ≤ symbol.precedence := htop
      rw [leaves, List.forall_mem_append, List.forall_mem_map]
      refine ⟨ihleft hleft (hleftTop.mono hfloor') hfloor, ?_⟩
      intro leaf hleaf
      have hdepth := ihright hright hrightTop (by omega) leaf hleaf
      simp only
      omega

theorem IsGrouped.depth_le {grouping : Grouping α} (h : grouping.IsGrouped) :
    ∀ leaf ∈ grouping.leaves, leaf.1 ≤ 3 := by
  have htop : grouping.TopAtLeast 1 := by
    cases grouping with
    | operand value => trivial
    | binary symbol left right => exact (precedence_bounds symbol).1
  intro leaf hleaf
  have hdepth := h.depth_add_le htop (by decide) leaf hleaf
  omega

end Depth

section Folds

/-- The tree, with a tree for each operand. -/
def toExpression (value : α → Expression) : Grouping α → Expression
  | .operand leaf => value leaf
  | .binary symbol left right => .binary symbol (left.toExpression value) (right.toExpression value)

/-- The levels for all operands, where each right operand takes one more. -/
def levels (needs : α → Nat) : Grouping α → Nat
  | .operand leaf => needs leaf
  | .binary _ left right => max (left.levels needs) (right.levels needs + 1)

theorem levels_add_le_iff {needs : α → Nat} {grouping : Grouping α} {above bound : Nat} :
    grouping.levels needs + above ≤ bound ↔
      ∀ leaf ∈ grouping.leaves, needs leaf.2 + leaf.1 + above ≤ bound := by
  induction grouping generalizing above with
  | operand value => simp [levels, leaves]
  | binary symbol left right ihleft ihright =>
      have hright : right.levels needs + 1 + above ≤ bound ↔
          ∀ leaf ∈ right.leaves, needs leaf.2 + (leaf.1 + 1) + above ≤ bound := by
        simp only [Nat.add_assoc, Nat.add_comm 1 above]
        simpa only [Nat.add_assoc] using ihright
      rw [leaves, List.forall_mem_append, List.forall_mem_map, ← ihleft, ← hright, levels]
      omega

theorem levels_le_iff {needs : α → Nat} {grouping : Grouping α} {bound : Nat} :
    grouping.levels needs ≤ bound ↔ ∀ leaf ∈ grouping.leaves, needs leaf.2 + leaf.1 ≤ bound := by
  have hnone : grouping.levels needs + 0 ≤ bound ↔ _ := levels_add_le_iff
  exact hnone

theorem levels_pos {needs : α → Nat} {grouping : Grouping α}
    (h : ∀ leaf ∈ grouping.leaves, 0 < needs leaf.2) : 0 < grouping.levels needs := by
  cases grouping with
  | operand value => exact h _ (List.mem_singleton_self _)
  | binary symbol left right => exact Nat.lt_of_lt_of_le (Nat.succ_pos _) (Nat.le_max_right _ _)

end Folds

end Grouping

end ClassLang
