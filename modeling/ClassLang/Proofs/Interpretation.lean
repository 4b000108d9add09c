import ClassLang.Rule.Class

/-!
Shapes carried over. What is put together from steps in one way can be carried
out in another, if this is done step by step: then a shape becomes the same shape
of what its parts become. So whatever writes out what a rule does, the rule it
comes to is known from the parts alone, and no rule has to be written out twice.
-/

namespace ClassLang

universe u v

/-- Carried out by `run`, a step is the same step, and two steps in sequence are
what both come to in sequence. -/
structure Interprets {m : Type → Type u} {n : Type → Type v} [Monad m] [ReadsTokens m] [Monad n]
    [ReadsTokens n] (run : {α : Type} → m α → n α) : Prop where
  pure {α : Type} (value : α) : run (pure value) = pure value
  bind {α β : Type} (first : m α) (next : α → m β) :
    run (first >>= next) = run first >>= fun value => run (next value)
  read {α : Type} (rule : Rule α) [rule.Forward] : run (read rule) = read rule
  note {α : Type} (event : Event) (next : m α) : run (note event next) = note event (run next)

namespace Interprets

variable {m : Type → Type u} {n : Type → Type v} [Monad m] [ReadsTokens m] [Monad n]
  [ReadsTokens n] {run : {α : Type} → m α → n α} {α β : Type}

theorem bind_eq (h : Interprets @run) {first : m α} {next : α → m β} {first' : n α}
    {next' : α → n β} (hfirst : run first = first')
    (hnext : ∀ value, run (next value) = next' value) : run (first >>= next) = first' >>= next' := by
  rw [h.bind, hfirst, funext hnext]

/-- A last step that only puts the value together. -/
theorem map_eq (h : Interprets @run) {first : m α} {next : α → β} {first' : n α}
    (hfirst : run first = first') :
    run (first >>= fun value => Pure.pure (next value)) =
      first' >>= fun value => Pure.pure (next value) :=
  h.bind_eq hfirst fun value => h.pure (next value)

/-- A rule that is read, and what comes behind it. -/
theorem read_bind (h : Interprets @run) {rule : Rule α} [rule.Forward] {next : α → m β}
    {next' : α → n β} (hnext : ∀ value, run (next value) = next' value) :
    run (ReadsTokens.read rule >>= next) = ReadsTokens.read rule >>= next' :=
  h.bind_eq (h.read rule) hnext

section Loops

variable (h : Interprets @run)

include h

theorem collectOnce (step : m (Option α)) (more : m (List α)) :
    run (Shape.collectOnce step more) = Shape.collectOnce (run step) (run more) := by
  apply h.bind_eq rfl
  intro answer
  cases answer with
  | none => exact h.pure []
  | some first => exact h.map_eq rfl

theorem collectWithin (step : m (Option α)) (budget : List Token) :
    run (Shape.collectWithin step budget) = Shape.collectWithin (run step) budget := by
  induction budget with
  | nil =>
      unfold Shape.collectWithin
      rw [h.collectOnce, h.pure]
  | cons _ budget ih =>
      unfold Shape.collectWithin
      rw [h.collectOnce, ih]

theorem collect (step : m (Option α)) :
    run (Shape.collect step) = Shape.collect (run step) :=
  h.read_bind (h.collectWithin step)

theorem untilStep (close : Separator) (element : m α) :
    run (Shape.untilStep close element) = Shape.untilStep close (run element) := by
  apply h.read_bind
  intro tokens
  split
  · exact h.pure none
  · exact h.map_eq rfl

theorem untilClose (close : Separator) (element : m α) :
    run (Shape.untilClose close element) = Shape.untilClose close (run element) := by
  apply h.bind_eq (by rw [h.collect, h.untilStep])
  intro elements
  exact h.read_bind fun _ => h.pure elements

theorem separatedStep (mark : Separator) (element : m α) :
    run (Shape.separatedStep mark element) = Shape.separatedStep mark (run element) := by
  apply h.read_bind
  intro present
  cases present with
  | true => exact h.map_eq rfl
  | false => exact h.pure none

theorem separatedBy (mark : Separator) (element : m α) :
    run (Shape.separatedBy mark element) = Shape.separatedBy mark (run element) := by
  apply h.bind_eq rfl
  intro first
  exact h.map_eq (by rw [h.collect, h.separatedStep])

theorem listedStep (element : m α) :
    run (Shape.listedStep element) = Shape.listedStep (run element) := by
  apply h.read_bind
  intro tokens
  split
  · exact h.pure none
  · apply h.bind_eq rfl
    intro value
    exact h.read_bind fun _ => h.pure (some value)

theorem listed (element : m α) : run (Shape.listed element) = Shape.listed (run element) := by
  apply h.bind_eq (by rw [h.collect, h.listedStep])
  intro elements
  exact h.read_bind fun _ => h.pure elements

end Loops

section Expressions

variable (h : Interprets @run)

include h

theorem primary (path : m (List String)) (identifier : m String) (inner : m Expression)
    (arguments : m (List Expression)) :
    run (Shape.primary path identifier inner arguments) =
      Shape.primary (run path) (run identifier) (run inner) (run arguments) := by
  apply h.read_bind
  rintro (_ | ⟨⟨kind, offset⟩, rest⟩)
  · exact h.read _
  cases kind with
  | literal value => exact h.read_bind fun _ => h.pure _
  | identifier name =>
      refine h.bind_eq rfl fun names => h.read_bind fun assigned => ?_
      cases assigned with
      | true => exact h.map_eq rfl
      | false =>
          refine h.read_bind fun called => ?_
          cases called with
          | true => exact h.map_eq rfl
          | false => exact h.pure _
  | keyword word =>
      cases word with
      | newKw =>
          refine h.read_bind fun _ => h.bind_eq rfl fun className => h.read_bind fun _ => ?_
          exact h.map_eq rfl
      | classKw | breakKw | extendsKw | ifKw | elseKw | whileKw | returnKw => exact h.read _
  | separator mark =>
      cases mark with
      | openParen =>
          refine h.read_bind fun _ => h.bind_eq rfl fun value => ?_
          exact h.read_bind fun _ => h.pure value
      | dot | openBrace | closeBrace | closeParen | comma | semicolon | assign => exact h.read _
  | typeName name => exact h.read _
  | operator symbol => exact h.read _

theorem operandStep (operand : Nat → m Expression) (floor : Nat) :
    run (Shape.operandStep operand floor) =
      Shape.operandStep (fun floor => run (operand floor)) floor := by
  apply h.read_bind
  intro answer
  cases answer with
  | none => exact h.pure none
  | some symbol => exact h.map_eq rfl

theorem climb (primary : m Expression) (operand : Nat → m Expression) (floor : Nat) :
    run (Shape.climb primary operand floor) =
      Shape.climb (run primary) (fun floor => run (operand floor)) floor := by
  apply h.bind_eq rfl
  intro first
  exact h.map_eq (by rw [h.collect, h.operandStep])

end Expressions

section Statements

variable (h : Interprets @run)

include h

theorem initializer (value : m Expression) :
    run (Shape.initializer value) = Shape.initializer (run value) := by
  apply h.read_bind
  intro present
  cases present with
  | true => exact h.map_eq rfl
  | false => exact h.pure none

theorem block (statements : m (List Statement)) :
    run (Shape.block statements) = Shape.block (run statements) :=
  h.read_bind fun _ => rfl

theorem condition (value : m Expression) :
    run (Shape.condition value) = Shape.condition (run value) := by
  refine h.read_bind fun _ => h.bind_eq rfl fun answer => ?_
  exact h.read_bind fun _ => h.pure answer

theorem declaration (identifier : m String) (initializer : m (Option Expression)) :
    run (Shape.declaration identifier initializer) =
      Shape.declaration (run identifier) (run initializer) := by
  refine h.read_bind fun type => h.bind_eq rfl fun name => h.bind_eq rfl fun value => ?_
  exact h.read_bind fun _ => h.pure _

theorem expressionStatement (value : m Expression) :
    run (Shape.expressionStatement value) = Shape.expressionStatement (run value) := by
  refine h.bind_eq rfl fun value => ?_
  exact h.read_bind fun _ => h.pure _

theorem ifStatement (condition : m Expression) (statement : m Statement) :
    run (Shape.ifStatement condition statement) =
      Shape.ifStatement (run condition) (run statement) := by
  refine h.bind_eq rfl fun test => h.bind_eq rfl fun onTrue => h.read_bind fun present => ?_
  cases present with
  | true => exact h.map_eq rfl
  | false => exact h.pure _

theorem whileStatement (condition : m Expression) (statement : m Statement) :
    run (Shape.whileStatement condition statement) =
      Shape.whileStatement (run condition) (run statement) :=
  h.bind_eq rfl fun _ => h.map_eq rfl

theorem returnStatement (value : m Expression) :
    run (Shape.returnStatement value) = Shape.returnStatement (run value) := by
  apply h.read_bind
  intro tokens
  split
  · exact h.read_bind fun _ => h.pure _
  · refine h.bind_eq rfl fun value => ?_
    exact h.read_bind fun _ => h.pure _

theorem statement (block : m (List Statement)) (ifStatement whileStatement returnStatement
    declaration expressionStatement : m Statement) :
    run (Shape.statement block ifStatement whileStatement returnStatement declaration
      expressionStatement) =
        Shape.statement (run block) (run ifStatement) (run whileStatement) (run returnStatement)
          (run declaration) (run expressionStatement) := by
  apply h.read_bind
  rintro (_ | ⟨⟨kind, offset⟩, rest⟩)
  · exact h.read _
  have hother :
      run (if Rule.isDeclaration (⟨kind, offset⟩ :: rest) then declaration
        else expressionStatement) =
      if Rule.isDeclaration (⟨kind, offset⟩ :: rest) then run declaration
        else run expressionStatement :=
    apply_ite _ _ _ _
  cases kind with
  | separator mark =>
      cases mark with
      | semicolon => exact h.read_bind fun _ => h.pure _
      | openBrace => exact h.map_eq rfl
      | dot | openParen | closeBrace | closeParen | comma | assign => exact hother
  | keyword word =>
      cases word with
      | ifKw | whileKw | returnKw => exact h.read_bind fun _ => rfl
      | breakKw => exact h.read_bind fun _ => h.read_bind fun _ => h.pure _
      | newKw | classKw | extendsKw | elseKw => exact hother
  | identifier name => exact hother
  | literal value => exact hother
  | typeName name => exact hother
  | operator symbol => exact hother

end Statements

section Classes

variable (h : Interprets @run)

include h

theorem field (identifier : m String) (initializer : m (Option Expression)) :
    run (Shape.field identifier initializer) = Shape.field (run identifier) (run initializer) := by
  refine h.read_bind fun type => h.bind_eq rfl fun name => h.bind_eq rfl fun value => ?_
  exact h.read_bind fun _ => h.pure _

theorem param (identifier : m String) :
    run (Shape.param identifier) = Shape.param (run identifier) :=
  h.read_bind fun _ => h.map_eq rfl

theorem params (paramList : m (List Param)) :
    run (Shape.params paramList) = Shape.params (run paramList) :=
  h.read_bind fun _ => rfl

theorem method (identifier : m String) (params : m (List Param)) (block : m (List Statement)) :
    run (Shape.method identifier params block) =
      Shape.method (run identifier) (run params) (run block) :=
  h.read_bind fun _ => h.bind_eq rfl fun _ => h.bind_eq rfl fun _ => h.map_eq rfl

theorem constructor (identifier : m String) (params : m (List Param))
    (block : m (List Statement)) :
    run (Shape.constructor identifier params block) =
      Shape.constructor (run identifier) (run params) (run block) :=
  h.bind_eq rfl fun _ => h.bind_eq rfl fun _ => h.map_eq rfl

theorem member (field method constructor : m Member) :
    run (Shape.member field method constructor) =
      Shape.member (run field) (run method) (run constructor) := by
  apply h.read_bind
  rintro (_ | ⟨first, rest⟩)
  · exact h.read _
  dsimp only
  cases MemberForm.ofTokens? (first :: rest) with
  | none => exact h.read _
  | some form => cases form <;> exact h.note _ _

theorem classDecl (identifier : m String) (parent : m (Option String))
    (members : m (List Member)) :
    run (Shape.classDecl identifier parent members) =
      Shape.classDecl (run identifier) (run parent) (run members) := by
  refine h.read_bind fun _ => h.bind_eq rfl fun name => h.bind_eq rfl fun parent => ?_
  rw [h.note]
  exact congrArg _ (h.read_bind fun _ => h.map_eq rfl)

theorem classStep (classDecl : m ClassDecl) :
    run (Shape.classStep classDecl) = Shape.classStep (run classDecl) := by
  apply h.read_bind
  intro tokens
  split
  · exact h.pure none
  · exact h.map_eq rfl

theorem program (classDecl : m ClassDecl) :
    run (Shape.program classDecl) = Shape.program (run classDecl) := by
  apply h.bind_eq (by rw [h.collect, h.classStep])
  intro classes
  split
  · exact h.read _
  · exact h.pure _

end Classes

end Interprets

end ClassLang
