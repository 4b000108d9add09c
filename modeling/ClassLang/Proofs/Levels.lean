import ClassLang.Proofs.Printing
import ClassLang.Proofs.Taking

/-!
How deep a tree is nested in the way that the rules count it, parentheses of
its phrase included. A statement takes one level more than what is inside it,
and so does an expression; only the operators of a chain, which are read one
after the other, share the level of their first operand.
-/

namespace ClassLang

open Grammar Phrase

namespace Expression

mutual

def levels : Expression → Nat
  | .literal _ | .reference _ => 1
  | .new _ arguments | .call _ arguments => maxLevels arguments + 1
  | .assignment _ value => levels value + 1
  | .binary symbol left right =>
      max (if left.needsParens symbol.precedence then levels left + 1 else levels left)
        ((if right.needsParens (symbol.precedence + 1) then levels right + 1 else levels right) + 1)

def maxLevels : List Expression → Nat
  | [] => 0
  | first :: rest => max (levels first) (maxLevels rest)

end

/-- The phrase of an operand where operators bind at least as tightly as
`floor`. -/
def operandPhrase (floor : Nat) (value : Expression) : Phrase :=
  if value.needsParens floor then inParens value.phrase else value.phrase

def operandLevels (floor : Nat) (value : Expression) : Nat :=
  if value.needsParens floor then value.levels + 1 else value.levels

theorem levels_binary (symbol : Operator) (left right : Expression) :
    (binary symbol left right).levels =
      max (left.operandLevels symbol.precedence)
        (right.operandLevels (symbol.precedence + 1) + 1) := by
  rw [levels]
  rfl

theorem phrase_binary_operands (symbol : Operator) (left right : Expression) :
    (binary symbol left right).phrase =
      left.operandPhrase symbol.precedence ++
        .operator symbol :: right.operandPhrase (symbol.precedence + 1) :=
  phrase_binary symbol left right

theorem levels_pos (value : Expression) : 0 < value.levels := by
  cases value with
  | binary symbol left right =>
      rw [levels_binary]
      omega
  | literal _ | reference _ | new _ _ | call _ _ | assignment _ _ =>
      rw [levels]
      omega

theorem operandLevels_pos (floor : Nat) (value : Expression) : 0 < value.operandLevels floor := by
  have hpos := value.levels_pos
  unfold operandLevels
  split <;> omega

end Expression

/-- The levels of an optional initial value. -/
def initializerLevels (value : Option Expression) : Nat := value.elim 0 Expression.levels

namespace Statement

mutual

def levels : Statement → Nat
  | .block statements => maxLevels statements + 1
  | .ifThen condition onTrue => max condition.levels (levels onTrue) + 1
  | .ifElse condition onTrue onFalse =>
      max condition.levels (max (levels onTrue) (levels onFalse)) + 1
  | .whileLoop condition body => max condition.levels (levels body) + 1
  | .returnStmt value | .declaration _ _ value => initializerLevels value + 1
  | .expression value => value.levels + 1
  | .breakStmt | .empty => 1

def maxLevels : List Statement → Nat
  | [] => 0
  | first :: rest => max (levels first) (maxLevels rest)

end

theorem maxLevels_eq_foldr (statements : List Statement) :
    maxLevels statements = (statements.map levels).foldr max 0 := by
  induction statements with
  | nil => rfl
  | cons first rest ih =>
      rw [maxLevels, ih]
      rfl

theorem levels_pos (statement : Statement) : 0 < statement.levels := by
  cases statement <;> rw [levels] <;> omega

end Statement

/-- A member takes no level itself: the levels of its value or of its body. -/
def Member.levels : Member → Nat
  | .field _ _ value => initializerLevels value
  | .method _ _ _ body | .constructor _ _ body => Statement.maxLevels body

def ClassDecl.levels (classDecl : ClassDecl) : Nat :=
  (classDecl.members.map Member.levels).foldr max 0

def Program.levels (program : Program) : Nat :=
  (program.classes.map ClassDecl.levels).foldr max 0

namespace Rule

variable {α : Type}

/-- On this phrase the rule takes the value and stops at `follow`, if the
levels are as many as the value needs. If they are fewer, nesting is found to
be too deep. -/
def TakesNested (limit levels : Nat) (rule : Rule α) (phrase : Phrase) (needs : Nat) (value : α)
    (follow : Phrase) : Prop :=
  ∀ (ok : α → Phrase → Prop) (failed : Fault → Prop), (needs ≤ levels → ok value follow) →
    (levels < needs → failed (.nestingTooDeep limit)) → Takes rule phrase ok failed

theorem TakesNested.of_zero {limit needs : Nat} {phrase follow : Phrase} {value : α}
    (hneeds : 0 < needs) :
    TakesNested limit 0 (fail (.nestingTooDeep limit)) phrase needs value follow := by
  intro ok failed _ hfailed
  exact takes_fail (hfailed hneeds)

/-- A level more for what takes a level more. -/
theorem TakesNested.succ {limit levels needs : Nat} {rule : Rule α} {phrase follow : Phrase}
    {value : α} (h : TakesNested limit levels rule phrase needs value follow) :
    TakesNested limit (levels + 1) rule phrase (needs + 1) value follow := by
  intro ok failed hok hfailed
  apply h
  · intro hneeds
    exact hok (by omega)
  · intro hneeds
    exact hfailed (by omega)

/-- Elements that are read back one by one are read back as a list. What may
come behind an element is said by `fits`: the next element does, and so does the
closing mark. -/
theorem takesNested_untilClose {limit levels : Nat} {element : Rule α} {close : Separator}
    (hstep : StepAdvances (untilStep close element)) {phrase : α → Phrase} {needs : α → Nat}
    (fits : Phrase → Prop) {follow : Phrase} (hclose : fits (.separator close :: follow))
    (values : List α)
    (hstart : ∀ value ∈ values, ∃ kind rest, phrase value = kind :: rest ∧
      kind ≠ .separator close ∧ ∀ more, fits (kind :: more))
    (hvalue : ∀ value ∈ values, ∀ rest, fits rest →
      TakesNested limit levels element (phrase value ++ rest) (needs value) value rest) :
    TakesNested limit levels (untilClose close element)
      (values.flatMap phrase ++ .separator close :: follow) ((values.map needs).foldr max 0)
      values follow := by
  induction values with
  | nil =>
      intro ok failed hok _
      exact takes_untilClose_nil hstep (hok (Nat.zero_le _))
  | cons first others ih =>
      intro ok failed hok hfailed
      obtain ⟨⟨kind, more, hphrase, hkind, _⟩, hothers⟩ := List.forall_mem_cons.mp hstart
      obtain ⟨hfirst, hvalues⟩ := List.forall_mem_cons.mp hvalue
      rw [List.map_cons, List.foldr_cons] at hok hfailed
      rw [List.flatMap_cons, List.append_assoc]
      have hfits : fits (others.flatMap phrase ++ .separator close :: follow) := by
        cases others with
        | nil => exact hclose
        | cons second others =>
            obtain ⟨kind, more, hsecond, _, hfits⟩ := hothers second List.mem_cons_self
            rw [List.flatMap_cons, hsecond]
            exact hfits _
      apply takes_untilClose_cons hstep
      · rw [hphrase]
        exact List.cons_ne_nil _ _
      · rw [hphrase]
        simpa using hkind
      apply hfirst _ hfits
      · intro hlevels
        apply ih hothers hvalues
        · intro hlevels'
          exact hok (by omega)
        · intro hlevels'
          exact hfailed (by omega)
      · intro hlevels
        exact hfailed (by omega)

end Rule

end ClassLang
