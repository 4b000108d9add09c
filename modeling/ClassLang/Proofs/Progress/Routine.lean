import ClassLang.Proofs.Nesting.Tally

/-!
The rules as routines that call each other. A routine reads tokens by itself and
calls other routines, and each call is written down as such: a statement calls
a block, which calls a list of statements, which calls a statement for each
element. A routine has the shape of its rule, so run with the rules for what it
calls it is that rule, and everything that is shown of the calls is about the
rules.
-/

namespace ClassLang

/-- The routines of the grammar. The loops for lists are apart from what is
around them, and `expression` and `climb` are known with the precedence that
their operators have to reach. -/
inductive Routine where
  | program
  | classDecl
  | members
  | member
  | field
  | method
  | constructor
  | params
  | paramList
  | param
  | block
  | statements
  | statement
  | statementBody
  | ifStatement
  | whileStatement
  | returnStatement
  | declaration
  | expressionStatement
  | condition
  | initializer
  | expression (floor : Nat)
  | climb (floor : Nat)
  | primary
  | arguments
  | path
  | identifier
deriving DecidableEq

namespace Rule

instance : param.Forward := reads_param.forward
instance : (listed param).Forward := (reads_listed reads_param).forward

end Rule

namespace Routine

abbrev Answer : Routine → Type
  | .program => Program
  | .classDecl => ClassDecl
  | .members => List Member
  | .member | .field | .method | .constructor => Member
  | .params | .paramList => List Param
  | .param => Param
  | .block | .statements => List Statement
  | .statement | .statementBody | .ifStatement | .whileStatement | .returnStatement
  | .declaration | .expressionStatement => Statement
  | .condition | .expression _ | .climb _ | .primary => Expression
  | .initializer => Option Expression
  | .arguments => List Expression
  | .path => List String
  | .identifier => String

def script : (routine : Routine) → Script routine.Answer
  | .program => Script.program
  | .classDecl => Script.classDecl
  | .members => Script.untilClose .closeBrace Script.member
  | .member => Script.member
  | .field => Script.field
  | .method => Script.method
  | .constructor => Script.constructor
  | .params => .read Rule.params
  | .paramList => .read (Rule.listed Rule.param)
  | .param => .read Rule.param
  | .block => Script.block
  | .statements => Script.untilClose .closeBrace Script.statement
  | .statement => Script.statement
  | .statementBody => Script.statementBody
  | .ifStatement => Script.ifStatement
  | .whileStatement => Script.whileStatement
  | .returnStatement => Script.returnStatement
  | .declaration => Script.declaration
  | .expressionStatement => Script.expressionStatement
  | .condition => Script.condition
  | .initializer => Script.initializer
  | .expression floor => Script.expression floor
  | .climb floor => Script.climb floor
  | .primary => Script.primary
  | .arguments => Script.listed (Script.expression 0)
  | .path => .read Rule.path
  | .identifier => .read Rule.identifier

/-- The rule of the routine, with a count of what is under way. -/
def run (limit : Option Nat) (routine : Routine) : Tallied routine.Answer :=
  routine.script.run (Tallied.inner limit)

/-- Whether a call of the routine counts as a level of nesting. -/
def isLevel : Routine → Bool
  | .statement | .expression _ => true
  | _ => false

end Routine

/-- What a routine does: it reads by itself, it goes on with what it has read,
and it calls a routine. -/
inductive Plan : Type → Type 1 where
  | read {α : Type} (rule : Rule α) [rule.Forward] : Plan α
  | andThen {α β : Type} (first : Plan α) (next : α → Plan β) : Plan β
  | call (routine : Routine) : Plan routine.Answer

namespace Plan

instance : Monad Plan where
  pure value := read (pure value)
  bind := andThen

instance : ReadsTokens Plan where
  read := read
  note _ next := next

/-- Run a plan with these rules for what it calls. -/
def runWith (calls : (routine : Routine) → Tallied routine.Answer) {α : Type} :
    Plan α → Tallied α
  | read rule => Tallied.reading rule
  | andThen first next => do (next (← first.runWith calls)).runWith calls
  | call routine => calls routine

/-- Run a plan where what it calls are the rules themselves. -/
def run (limit : Option Nat) {α : Type} (plan : Plan α) : Tallied α :=
  plan.runWith (Routine.run limit)

theorem interprets (limit : Option Nat) : Interprets fun {α} (plan : Plan α) => plan.run limit where
  pure _ := rfl
  bind _ _ := rfl
  read _ := rfl
  note _ _ := rfl

end Plan

/-- The loops of the grammar. -/
inductive Loop where
  | classes
  | members
  | statements
  | params
  | arguments
  | path
  | operands (floor : Nat)

namespace Loop

open Plan

abbrev Element : Loop → Type
  | .classes => ClassDecl
  | .members => Member
  | .statements => Statement
  | .params => Param
  | .arguments => Expression
  | .path => String
  | .operands _ => Operator × Expression

/-- One round of the loop; the loop ends with the first that answers `none`. -/
def step : (loop : Loop) → Plan (Option loop.Element)
  | .classes => Shape.classStep (call .classDecl)
  | .members => Shape.untilStep .closeBrace (call .member)
  | .statements => Shape.untilStep .closeBrace (call .statement)
  | .params => Shape.listedStep (call .param)
  | .arguments => Shape.listedStep (call (.expression 0))
  | .path => Shape.separatedStep .dot (call .identifier)
  | .operands floor => Shape.operandStep (fun floor => call (.expression floor)) floor

/-- The loop as a whole, as the routine around it runs it. -/
def plan (loop : Loop) : Plan (List loop.Element) := Shape.collect loop.step

end Loop

namespace Routine

open Plan

/-- What a routine does where it is called, one level deeper if it is a level of
nesting: its shape, where all that it is made of is called. -/
def body : (routine : Routine) → Plan routine.Answer
  | .program => Shape.program (call .classDecl)
  | .classDecl => Shape.classDecl (call .identifier) (read Rule.parent) (call .members)
  | .members => Shape.untilClose .closeBrace (call .member)
  | .member => Shape.member (call .field) (call .method) (call .constructor)
  | .field => Shape.field (call .identifier) (call .initializer)
  | .method => Shape.method (call .identifier) (call .params) (call .block)
  | .constructor => Shape.constructor (call .identifier) (call .params) (call .block)
  | .params => Shape.params (call .paramList)
  | .paramList => Shape.listed (call .param)
  | .param => Shape.param (call .identifier)
  | .block => Shape.block (call .statements)
  | .statements => Shape.untilClose .closeBrace (call .statement)
  | .statement => call .statementBody
  | .statementBody =>
      Shape.statement (call .block) (call .ifStatement) (call .whileStatement)
        (call .returnStatement) (call .declaration) (call .expressionStatement)
  | .ifStatement => Shape.ifStatement (call .condition) (call .statement)
  | .whileStatement => Shape.whileStatement (call .condition) (call .statement)
  | .returnStatement => Shape.returnStatement (call (.expression 0))
  | .declaration => Shape.declaration (call .identifier) (call .initializer)
  | .expressionStatement => Shape.expressionStatement (call (.expression 0))
  | .condition => Shape.condition (call (.expression 0))
  | .initializer => Shape.initializer (call (.expression 0))
  | .expression floor => call (.climb floor)
  | .climb floor => Shape.climb (call .primary) (fun floor => call (.expression floor)) floor
  | .primary =>
      Shape.primary (call .path) (call .identifier) (call (.expression 0)) (call .arguments)
  | .arguments => Shape.listed (call (.expression 0))
  | .path => Shape.separatedBy .dot (call .identifier)
  | .identifier => read Rule.identifier

end Routine

section Rules

/-! What a routine does, run with the rules for what it calls, is its own rule. -/

open Tallied

namespace Tallied

theorem reading_bind {α β : Type} (first : Rule α) (next : α → Rule β) :
    reading (first >>= next) = reading first >>= fun value => reading (next value) := by
  funext tally
  rw [bind_apply]
  unfold reading
  rw [bind_apply]
  cases first tally.unread <;> rfl

theorem interprets_reading : Interprets fun {α} (rule : Rule α) => reading rule where
  pure _ := rfl
  bind := reading_bind
  read _ := rfl
  note _ _ := rfl

end Tallied

namespace Routine

/-- What a routine that is no level does is its rule. What is called is run by the
script of what is called, so both sides are one shape of the same parts. -/
theorem run_body (limit : Option Nat) (routine : Routine) (h : routine.isLevel = false) :
    routine.body.run limit = routine.run limit := by
  have hplan := Plan.interprets limit
  have hscript := Script.interprets (inner limit)
  cases routine with
  | statement => cases h
  | expression floor => cases h
  | identifier => rfl
  | program => exact (hplan.program _).trans (hscript.program _).symm
  | classDecl =>
      exact (hplan.classDecl _ _ _).trans (hscript.classDecl _ (.read Rule.parent) _).symm
  | members => exact (hplan.untilClose _ _).trans (hscript.untilClose _ _).symm
  | member => exact (hplan.member _ _ _).trans (hscript.member _ _ _).symm
  | field => exact (hplan.field _ _).trans (hscript.field _ _).symm
  | method => exact (hplan.method _ _ _).trans (hscript.method _ _ _).symm
  | constructor => exact (hplan.constructor _ _ _).trans (hscript.constructor _ _ _).symm
  | params => exact (hplan.params _).trans (interprets_reading.params _).symm
  | paramList => exact (hplan.listed _).trans (interprets_reading.listed _).symm
  | param => exact (hplan.param _).trans (interprets_reading.param _).symm
  | block => exact (hplan.block _).trans (hscript.block _).symm
  | statements => exact (hplan.untilClose _ _).trans (hscript.untilClose _ _).symm
  | statementBody =>
      exact (hplan.statement _ _ _ _ _ _).trans (hscript.statement _ _ _ _ _ _).symm
  | ifStatement => exact (hplan.ifStatement _ _).trans (hscript.ifStatement _ _).symm
  | whileStatement => exact (hplan.whileStatement _ _).trans (hscript.whileStatement _ _).symm
  | returnStatement => exact (hplan.returnStatement _).trans (hscript.returnStatement _).symm
  | declaration => exact (hplan.declaration _ _).trans (hscript.declaration _ _).symm
  | expressionStatement =>
      exact (hplan.expressionStatement _).trans (hscript.expressionStatement _).symm
  | condition => exact (hplan.condition _).trans (hscript.condition _).symm
  | initializer => exact (hplan.initializer _).trans (hscript.initializer _).symm
  | climb floor => exact (hplan.climb _ _ _).trans (hscript.climb _ _ _).symm
  | primary => exact (hplan.primary _ _ _ _).trans (hscript.primary _ _ _ _).symm
  | arguments => exact (hplan.listed _).trans (hscript.listed _).symm
  | path => exact (hplan.separatedBy _ _).trans (interprets_reading.separatedBy _ _).symm

/-- Run what a routine does as a level of nesting, if it is one. -/
def level (limit : Option Nat) (routine : Routine) {α : Type} (rule : Tallied α) : Tallied α :=
  if routine.isLevel then nested limit rule else rule

/-- Every rule is what its routine does, one level deeper if it is a level. -/
theorem run_eq (limit : Option Nat) (routine : Routine) :
    routine.run limit = routine.level limit (routine.body.run limit) := by
  cases h : routine.isLevel with
  | false => rw [level, h, if_neg Bool.false_ne_true, run_body limit routine h]
  | true =>
      cases routine with
      | statement => exact inner_statement limit
      | expression floor => exact inner_expression limit floor
      | _ => cases h

end Routine

end Rules

end ClassLang
