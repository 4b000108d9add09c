import ClassLang.Proofs.Interpretation
import ClassLang.Proofs.Soundness.Class

/-!
Rules as scripts. A script keeps apart what a rule reads by itself and where it
begins a statement or an expression, which is all that nesting is about. What is
begun is run by rules that are given. The script of a rule is its shape, so with
the rules for the levels that are left it is that rule.
-/

namespace ClassLang

namespace Rule

theorem Reads.forward {α : Type} {relation : Phrase → α → Prop} {rule : Rule α}
    (h : Reads relation rule) : rule.Forward where
  suffix tokens := by
    refine (h tokens).mono ?_ ?_
    · rintro value rest ⟨taken, rfl, _⟩
      exact List.suffix_append taken rest
    · rintro thrown rest ⟨_, taken, rfl, _⟩
      exact List.suffix_append taken rest

instance : Forward path := reads_path.forward
instance : Forward params := reads_params.forward
instance : Forward parent := reads_parent.forward

instance (limit : Nat) : Forward (expressionWithin limit) :=
  (reads_expressionAt limit limit 0).forward

instance (limit : Nat) : Forward (programWithin limit) := (reads_programWithin limit).forward

end Rule

/-- What a rule does: it reads by itself, it goes on with what it has read, and
it begins a statement or an expression. -/
inductive Script : Type → Type 1 where
  | read {α : Type} (rule : Rule α) [rule.Forward] : Script α
  | andThen {α β : Type} (first : Script α) (next : α → Script β) : Script β
  | statement : Script Statement
  | expression (floor : Nat) : Script Expression

/-- Rules for the statements and expressions that scripts begin. -/
structure InnerRules (m : Type → Type) where
  statement : m Statement
  expression : Nat → m Expression

/-- Steps that keep no log, where a rule that answers without reading is an
answer. -/
class ReadsQuietly (m : Type → Type) [Monad m] [ReadsTokens m] : Prop where
  read_pure {α : Type} (value : α) : (read (pure value : Rule α) : m α) = pure value
  note {α : Type} (event : Event) (next : m α) : note event next = next

instance : ReadsQuietly Rule := ⟨fun _ => rfl, fun _ _ => rfl⟩

namespace Script

instance : Monad Script where
  pure value := read (pure value)
  bind := andThen

instance : ReadsTokens Script where
  read := read
  note _ next := next

@[simp] theorem read_eq {α : Type} (rule : Rule α) [rule.Forward] :
    (ReadsTokens.read rule : Script α) = read rule :=
  rfl

section Run

variable {m : Type → Type} [Monad m] [ReadsTokens m]

def run (inner : InnerRules m) {α : Type} : Script α → m α
  | read rule => ReadsTokens.read rule
  | andThen first next => do (next (← first.run inner)).run inner
  | statement => inner.statement
  | expression floor => inner.expression floor

theorem interprets [ReadsQuietly m] (inner : InnerRules m) :
    Interprets fun {α} (script : Script α) => script.run inner where
  pure value := ReadsQuietly.read_pure value
  bind _ _ := rfl
  read _ := rfl
  note event next := (ReadsQuietly.note event (next.run inner)).symm

end Run

export Shape (collectOnce collectWithin collect untilStep untilClose listedStep listed
  operandStep classStep)

/-! The scripts of the rules: their shapes, where what is inside is begun. -/

def primary : Script Expression :=
  Shape.primary (read Rule.path) (read Rule.identifier) (expression 0)
    (listed (expression 0))

def climb (floor : Nat) : Script Expression := Shape.climb primary expression floor

def initializer : Script (Option Expression) := Shape.initializer (expression 0)

def block : Script (List Statement) := Shape.block (untilClose .closeBrace statement)

def condition : Script Expression := Shape.condition (expression 0)

def declaration : Script Statement := Shape.declaration (read Rule.identifier) initializer

def expressionStatement : Script Statement := Shape.expressionStatement (expression 0)

def ifStatement : Script Statement := Shape.ifStatement condition statement

def whileStatement : Script Statement := Shape.whileStatement condition statement

def returnStatement : Script Statement := Shape.returnStatement (expression 0)

/-- A statement from its first token on. -/
def statementBody : Script Statement :=
  Shape.statement block ifStatement whileStatement returnStatement declaration expressionStatement

def field : Script Member := Shape.field (read Rule.identifier) initializer

def method : Script Member := Shape.method (read Rule.identifier) (read Rule.params) block

def constructor : Script Member :=
  Shape.constructor (read Rule.identifier) (read Rule.params) block

def member : Script Member := Shape.member field method constructor

def classDecl : Script ClassDecl :=
  Shape.classDecl (read Rule.identifier) (read Rule.parent)
    (untilClose .closeBrace member)

def program : Script Program := Shape.program classDecl

section Rules

/-! Run with rules for what is inside, a script is the rule that is given them. -/

variable (inner : InnerRules Rule)

theorem run_primary : primary.run inner = Rule.primary (inner.expression 0) := by
  unfold primary Rule.primary
  rw [(interprets inner).primary, (interprets inner).listed]
  rfl

theorem run_climb (floor : Nat) :
    (climb floor).run inner = Rule.climb inner.expression floor := by
  unfold climb Rule.climb
  rw [(interprets inner).climb, run_primary]
  rfl

theorem run_initializer : initializer.run inner = Rule.initializer (inner.expression 0) :=
  (interprets inner).initializer _

theorem run_block : block.run inner = Rule.block inner.statement := by
  unfold block Rule.block
  rw [(interprets inner).block, (interprets inner).untilClose]
  rfl

theorem run_condition : condition.run inner = Rule.condition (inner.expression 0) :=
  (interprets inner).condition _

theorem run_statementBody :
    statementBody.run inner = Rule.statementOf inner.statement (inner.expression 0) := by
  have hif : ifStatement.run inner = Rule.ifStatement inner.statement (inner.expression 0) := by
    unfold ifStatement Rule.ifStatement
    rw [(interprets inner).ifStatement, run_condition]
    rfl
  have hwhile :
      whileStatement.run inner = Rule.whileStatement inner.statement (inner.expression 0) := by
    unfold whileStatement Rule.whileStatement
    rw [(interprets inner).whileStatement, run_condition]
    rfl
  have hreturn : returnStatement.run inner = Rule.returnStatement (inner.expression 0) :=
    (interprets inner).returnStatement _
  have hdeclaration : declaration.run inner = Rule.declaration (inner.expression 0) := by
    unfold declaration Rule.declaration
    rw [(interprets inner).declaration, run_initializer]
    rfl
  have hexpression :
      expressionStatement.run inner = Rule.expressionStatement (inner.expression 0) :=
    (interprets inner).expressionStatement _
  unfold statementBody Rule.statementOf
  rw [(interprets inner).statement, run_block, hif, hwhile, hreturn, hdeclaration, hexpression]

theorem run_member :
    member.run inner = Rule.memberOf inner.statement (inner.expression 0) := by
  have hfield : field.run inner = Rule.field (inner.expression 0) := by
    unfold field Rule.field
    rw [(interprets inner).field, run_initializer]
    rfl
  have hmethod : method.run inner = Rule.method inner.statement := by
    unfold method Rule.method
    rw [(interprets inner).method, run_block]
    rfl
  have hconstructor : constructor.run inner = Rule.constructor inner.statement := by
    unfold constructor Rule.constructor
    rw [(interprets inner).constructor, run_block]
    rfl
  unfold member Rule.memberOf
  rw [(interprets inner).member, hfield, hmethod, hconstructor]

theorem run_classDecl :
    classDecl.run inner =
      Rule.classOf (Rule.memberOf inner.statement (inner.expression 0)) := by
  unfold classDecl Rule.classOf
  rw [(interprets inner).classDecl, (interprets inner).untilClose, run_member]
  rfl

theorem run_program :
    program.run inner =
      Rule.programOf (Rule.classOf (Rule.memberOf inner.statement (inner.expression 0))) := by
  unfold program Rule.programOf
  rw [(interprets inner).program, run_classDecl]

end Rules

end Script

end ClassLang
