import ClassLang.Proofs.Answers
import ClassLang.Proofs.RoundTrip.Class
import ClassLang.Reader

/-!
How high trees grow. Reading a statement, or an expression with a floor of its
own, takes a level for it and for what is inside; but the operators of a chain
are read in a loop, and each of them encloses those in front of it. So the
levels bound a tree only where steps to left operands do not count, and its
depth exceeds them by no more than these steps. The trees of programs that parse
have no bound.
-/

namespace ClassLang

namespace Expression

mutual

/-- The highest way down to a leaf, where an expression counts `step`, and one
with a left operand below it on the way counts `left`. -/
def height (step left : Nat) : Expression → Nat
  | .literal _ | .reference _ => step
  | .new _ arguments | .call _ arguments => maxHeight step left arguments + step
  | .assignment _ value => height step left value + step
  | .binary _ first second => max (height step left first + left) (height step left second + step)

def maxHeight (step left : Nat) : List Expression → Nat
  | [] => 0
  | first :: rest => max (height step left first) (maxHeight step left rest)

end

theorem maxHeight_le_iff {step left bound : Nat} {values : List Expression} :
    maxHeight step left values ≤ bound ↔ ∀ value ∈ values, height step left value ≤ bound := by
  induction values with
  | nil => simp [maxHeight]
  | cons first rest ih => rw [maxHeight, Nat.max_le, ih, List.forall_mem_cons]

end Expression

def initializerHeight (step left : Nat) (value : Option Expression) : Nat :=
  value.elim 0 (Expression.height step left)

namespace Statement

mutual

/-- The same for statements, each of which counts `step`. -/
def height (step left : Nat) : Statement → Nat
  | .block statements => maxHeight step left statements + step
  | .ifThen condition onTrue =>
      max (condition.height step left) (height step left onTrue) + step
  | .ifElse condition onTrue onFalse =>
      max (condition.height step left)
        (max (height step left onTrue) (height step left onFalse)) + step
  | .whileLoop condition body => max (condition.height step left) (height step left body) + step
  | .returnStmt value | .declaration _ _ value => initializerHeight step left value + step
  | .expression value => value.height step left + step
  | .breakStmt | .empty => step

def maxHeight (step left : Nat) : List Statement → Nat
  | [] => 0
  | first :: rest => max (height step left first) (maxHeight step left rest)

end

theorem maxHeight_le_iff {step left bound : Nat} {statements : List Statement} :
    maxHeight step left statements ≤ bound ↔
      ∀ statement ∈ statements, height step left statement ≤ bound := by
  induction statements with
  | nil => simp [maxHeight]
  | cons first rest ih => rw [maxHeight, Nat.max_le, ih, List.forall_mem_cons]

end Statement

def Member.height (step left : Nat) : Member → Nat
  | .field _ _ value => initializerHeight step left value
  | .method _ _ _ body | .constructor _ _ body => Statement.maxHeight step left body

def ClassDecl.height (step left : Nat) (classDecl : ClassDecl) : Nat :=
  (classDecl.members.map (Member.height step left)).foldr max 0

namespace Program

def height (step left : Nat) (program : Program) : Nat :=
  (program.classes.map (ClassDecl.height step left)).foldr max 0

/-- The most statements and expressions that enclose one another. -/
def depth (program : Program) : Nat := program.height 1 1

/-- The same where a left operand shares the level of its operator. -/
def nesting (program : Program) : Nat := program.height 1 0

/-- The most steps from operators to left operands on one way down. -/
def leftSteps (program : Program) : Nat := program.height 0 1

end Program

section Steps

/-- A depth is no more than the nesting and the steps to the left together, and
more than these steps alone unless there is nothing at all. -/
def Splits (depth nesting leftSteps : Nat) : Prop :=
  depth ≤ nesting + leftSteps ∧ leftSteps ≤ depth - 1

theorem Splits.max {depth nesting leftSteps depth' nesting' leftSteps' : Nat}
    (h : Splits depth nesting leftSteps) (h' : Splits depth' nesting' leftSteps') :
    Splits (max depth depth') (max nesting nesting') (max leftSteps leftSteps') := by
  unfold Splits at *
  omega

theorem Splits.step {depth nesting leftSteps : Nat} (h : Splits depth nesting leftSteps) :
    Splits (depth + 1) (nesting + 1) (leftSteps + 0) := by
  unfold Splits at *
  omega

theorem splits_zero : Splits 0 0 0 := by
  unfold Splits
  omega

theorem splits_foldr {α : Type} {depth nesting leftSteps : α → Nat} {values : List α}
    (h : ∀ value ∈ values, Splits (depth value) (nesting value) (leftSteps value)) :
    Splits ((values.map depth).foldr max 0) ((values.map nesting).foldr max 0)
      ((values.map leftSteps).foldr max 0) := by
  induction values with
  | nil => exact splits_zero
  | cons first rest ih =>
      obtain ⟨hfirst, hrest⟩ := List.forall_mem_cons.mp h
      exact hfirst.max (ih hrest)

theorem Expression.height_pos (value : Expression) (left : Nat) : 0 < value.height 1 left := by
  cases value <;> rw [height] <;> omega

mutual

theorem Expression.splits : (value : Expression) →
    Splits (value.height 1 1) (value.height 1 0) (value.height 0 1)
  | .literal _ | .reference _ => splits_zero.step
  | .new _ arguments | .call _ arguments => (splits_maxHeight arguments).step
  | .assignment _ value => (splits value).step
  | .binary symbol first second => by
      have hfirst := splits first
      have hsecond := splits second
      have hpos := first.height_pos 1
      unfold Splits at *
      simp only [height]
      omega

theorem Expression.splits_maxHeight : (values : List Expression) →
    Splits (maxHeight 1 1 values) (maxHeight 1 0 values) (maxHeight 0 1 values)
  | [] => splits_zero
  | first :: rest => (splits first).max (splits_maxHeight rest)

end

theorem splits_initializer (value : Option Expression) :
    Splits (initializerHeight 1 1 value) (initializerHeight 1 0 value)
      (initializerHeight 0 1 value) := by
  cases value with
  | none => exact splits_zero
  | some value => exact value.splits

mutual

theorem Statement.splits : (statement : Statement) →
    Splits (statement.height 1 1) (statement.height 1 0) (statement.height 0 1)
  | .block statements => (splits_maxHeight statements).step
  | .ifThen condition onTrue => (condition.splits.max (splits onTrue)).step
  | .ifElse condition onTrue onFalse =>
      (condition.splits.max ((splits onTrue).max (splits onFalse))).step
  | .whileLoop condition body => (condition.splits.max (splits body)).step
  | .returnStmt value | .declaration _ _ value => (splits_initializer value).step
  | .expression value => value.splits.step
  | .breakStmt | .empty => splits_zero.step

theorem Statement.splits_maxHeight : (statements : List Statement) →
    Splits (maxHeight 1 1 statements) (maxHeight 1 0 statements) (maxHeight 0 1 statements)
  | [] => splits_zero
  | first :: rest => (splits first).max (splits_maxHeight rest)

end

theorem Member.splits (member : Member) :
    Splits (member.height 1 1) (member.height 1 0) (member.height 0 1) := by
  cases member with
  | field type name value => exact splits_initializer value
  | method returnType name params body => exact Statement.splits_maxHeight body
  | constructor name params body => exact Statement.splits_maxHeight body

theorem Program.splits (program : Program) :
    Splits program.depth program.nesting program.leftSteps :=
  splits_foldr fun _ _ => splits_foldr fun member _ => member.splits

end Steps

theorem foldr_max_le_iff {α : Type} {measure : α → Nat} {values : List α} {bound : Nat} :
    (values.map measure).foldr max 0 ≤ bound ↔ ∀ value ∈ values, measure value ≤ bound := by
  induction values with
  | nil => simp
  | cons first rest ih =>
      rw [List.map_cons, List.foldr_cons, Nat.max_le, ih, List.forall_mem_cons]

namespace Rule

section Levels

variable {levels : Nat}

/-- The expressions that the rule answers with fit into the levels. -/
def FitsExpressions (levels : Nat) (rule : Rule Expression) : Prop :=
  Answers (fun value => value.height 1 0 ≤ levels) rule

theorem fitsExpressions_primary {inner : Rule Expression} (h : FitsExpressions levels inner) :
    FitsExpressions (levels + 1) (primary inner) := by
  have hlisted :
      Answers (fun values => Expression.maxHeight 1 0 values ≤ levels) (listed inner) := by
    simpa only [Expression.maxHeight_le_iff] using answers_listed h
  apply answers_after
  rintro (_ | ⟨⟨kind, offset⟩, rest⟩)
  · exact answers_failExpecting
  cases kind with
  | literal value =>
      apply answers_after
      exact fun _ => answers_pure (Nat.succ_le_succ (Nat.zero_le _))
  | identifier name =>
      apply answers_after
      intro names
      apply answers_after
      rintro (_ | _)
      · apply answers_after
        rintro (_ | _)
        · exact answers_pure (Nat.succ_le_succ (Nat.zero_le _))
        · apply answers_bind hlisted
          exact fun arguments harguments => answers_pure (Nat.succ_le_succ harguments)
      · apply answers_bind h
        exact fun value hvalue => answers_pure (Nat.succ_le_succ hvalue)
  | keyword word =>
      cases word with
      | newKw =>
          apply answers_after
          intro _
          apply answers_after
          intro className
          apply answers_after
          intro _
          apply answers_bind hlisted
          exact fun arguments harguments => answers_pure (Nat.succ_le_succ harguments)
      | classKw | breakKw | extendsKw | ifKw | elseKw | whileKw | returnKw => exact answers_fail
  | separator mark =>
      cases mark with
      | openParen =>
          apply answers_after
          intro _
          apply answers_bind h
          intro value hvalue
          exact answers_after fun _ => answers_pure (Nat.le_succ_of_le hvalue)
      | dot | openBrace | closeBrace | closeParen | comma | semicolon | assign =>
          exact answers_fail
  | typeName name => exact answers_fail
  | operator symbol => exact answers_fail

/-- A chain may be as long as it likes: its left operands share a level. -/
theorem height_foldl_le {first : Expression} {others : List (Operator × Expression)}
    (hfirst : first.height 1 0 ≤ levels + 1)
    (hothers : ∀ pair ∈ others, pair.2.height 1 0 ≤ levels) :
    (others.foldl (fun left (symbol, right) => Expression.binary symbol left right)
      first).height 1 0 ≤ levels + 1 := by
  induction others generalizing first with
  | nil => exact hfirst
  | cons pair others ih =>
      obtain ⟨hpair, hrest⟩ := List.forall_mem_cons.mp hothers
      refine ih ?_ hrest
      rw [Expression.height]
      exact Nat.max_le.mpr ⟨hfirst, Nat.succ_le_succ hpair⟩

theorem fitsExpressions_climb {operand : Nat → Rule Expression}
    (h : ∀ floor, FitsExpressions levels (operand floor)) (floor : Nat) :
    FitsExpressions (levels + 1) (climb operand floor) := by
  have hstep : Answers (fun answer => ∀ pair ∈ answer, pair.2.height 1 0 ≤ levels)
      (operandStep operand floor) := by
    apply answers_after
    rintro (_ | symbol)
    · exact answers_none
    · apply answers_bind (h _)
      intro value hvalue
      exact answers_pure (by simpa using hvalue)
  apply answers_bind (fitsExpressions_primary (h 0))
  intro first hfirst
  apply answers_bind (answers_collect hstep)
  exact fun others hothers => answers_pure (height_foldl_le hfirst hothers)

theorem fitsExpressions_expressionAt (limit levels floor : Nat) :
    FitsExpressions levels (expressionAt limit levels floor) := by
  induction levels generalizing floor with
  | zero => exact answers_fail
  | succ levels ih => exact fitsExpressions_climb ih floor

variable {statement : Rule Statement} {value : Rule Expression}

/-- The statements that the rule answers with fit into the levels. -/
def FitsStatements (levels : Nat) (rule : Rule Statement) : Prop :=
  Answers (fun value => value.height 1 0 ≤ levels) rule

theorem answers_initializer (h : FitsExpressions levels value) :
    Answers (fun initial => initializerHeight 1 0 initial ≤ levels) (initializer value) := by
  apply answers_after
  rintro (_ | _)
  · exact answers_pure (Nat.zero_le _)
  · exact answers_bind h fun _ hvalue => answers_pure hvalue

theorem answers_block (h : FitsStatements levels statement) :
    Answers (fun body => Statement.maxHeight 1 0 body ≤ levels) (block statement) := by
  apply answers_after
  intro _
  simpa only [Statement.maxHeight_le_iff] using answers_untilClose h

theorem fitsExpressions_condition (h : FitsExpressions levels value) :
    FitsExpressions levels (condition value) := by
  apply answers_after
  intro _
  apply answers_bind h
  exact fun answer hanswer => answers_after fun _ => answers_pure hanswer

theorem fitsStatements_ifStatement (hstatement : FitsStatements levels statement)
    (hvalue : FitsExpressions levels value) :
    FitsStatements (levels + 1) (ifStatement statement value) := by
  apply answers_bind (fitsExpressions_condition hvalue)
  intro test htest
  apply answers_bind hstatement
  intro onTrue honTrue
  apply answers_after
  rintro (_ | _)
  · exact answers_pure (Nat.succ_le_succ (Nat.max_le.mpr ⟨htest, honTrue⟩))
  · apply answers_bind hstatement
    intro onFalse honFalse
    exact answers_pure
      (Nat.succ_le_succ (Nat.max_le.mpr ⟨htest, Nat.max_le.mpr ⟨honTrue, honFalse⟩⟩))

theorem fitsStatements_whileStatement (hstatement : FitsStatements levels statement)
    (hvalue : FitsExpressions levels value) :
    FitsStatements (levels + 1) (whileStatement statement value) := by
  apply answers_bind (fitsExpressions_condition hvalue)
  intro test htest
  apply answers_bind hstatement
  exact fun body hbody => answers_pure (Nat.succ_le_succ (Nat.max_le.mpr ⟨htest, hbody⟩))

theorem fitsStatements_returnStatement (hvalue : FitsExpressions levels value) :
    FitsStatements (levels + 1) (returnStatement value) := by
  apply answers_after
  intro tokens
  split
  · exact answers_after fun _ => answers_pure (Nat.succ_le_succ (Nat.zero_le _))
  · apply answers_bind hvalue
    exact fun answer hanswer => answers_after fun _ => answers_pure (Nat.succ_le_succ hanswer)

theorem fitsStatements_declaration (hvalue : FitsExpressions levels value) :
    FitsStatements (levels + 1) (declaration value) := by
  apply answers_after
  intro type
  apply answers_after
  intro name
  apply answers_bind (answers_initializer hvalue)
  exact fun initial hinitial => answers_after fun _ => answers_pure (Nat.succ_le_succ hinitial)

theorem fitsStatements_expressionStatement (hvalue : FitsExpressions levels value) :
    FitsStatements (levels + 1) (expressionStatement value) := by
  apply answers_bind hvalue
  exact fun answer hanswer => answers_after fun _ => answers_pure (Nat.succ_le_succ hanswer)

theorem fitsStatements_statementOf (hstatement : FitsStatements levels statement)
    (hvalue : FitsExpressions levels value) :
    FitsStatements (levels + 1) (statementOf statement value) := by
  have hother (tokens : List Token) : FitsStatements (levels + 1)
      (if isDeclaration tokens then declaration value else expressionStatement value) := by
    split
    · exact fitsStatements_declaration hvalue
    · exact fitsStatements_expressionStatement hvalue
  have hone : 1 ≤ levels + 1 := Nat.succ_le_succ (Nat.zero_le _)
  apply answers_after
  rintro (_ | ⟨⟨kind, offset⟩, rest⟩)
  · exact answers_failExpecting
  cases kind with
  | separator mark =>
      cases mark with
      | semicolon => exact answers_after fun _ => answers_pure hone
      | openBrace =>
          apply answers_bind (answers_block hstatement)
          exact fun body hbody => answers_pure (Nat.succ_le_succ hbody)
      | dot | openParen | closeBrace | closeParen | comma | assign => exact hother _
  | keyword word =>
      cases word with
      | ifKw => exact answers_after fun _ => fitsStatements_ifStatement hstatement hvalue
      | whileKw => exact answers_after fun _ => fitsStatements_whileStatement hstatement hvalue
      | returnKw => exact answers_after fun _ => fitsStatements_returnStatement hvalue
      | breakKw => exact answers_after fun _ => answers_after fun _ => answers_pure hone
      | newKw | classKw | extendsKw | elseKw => exact hother _
  | identifier name => exact hother _
  | literal value => exact hother _
  | typeName name => exact hother _
  | operator symbol => exact hother _

theorem fitsStatements_statementAt (limit levels : Nat) :
    FitsStatements levels (statementAt limit levels) := by
  induction levels with
  | zero => exact answers_fail
  | succ levels ih =>
      exact fitsStatements_statementOf ih (fitsExpressions_expressionAt limit levels 0)

theorem answers_memberOf (hstatement : FitsStatements levels statement)
    (hvalue : FitsExpressions levels value) :
    Answers (fun member => member.height 1 0 ≤ levels) (memberOf statement value) := by
  have hfield : Answers (fun member => member.height 1 0 ≤ levels) (field value) := by
    apply answers_after
    intro type
    apply answers_after
    intro name
    apply answers_bind (answers_initializer hvalue)
    exact fun initial hinitial => answers_after fun _ => answers_pure hinitial
  have hmethod : Answers (fun member => member.height 1 0 ≤ levels) (method statement) := by
    apply answers_after
    intro type
    apply answers_after
    intro name
    apply answers_after
    intro params
    exact answers_bind (answers_block hstatement) fun body hbody => answers_pure hbody
  have hconstructor : Answers (fun member => member.height 1 0 ≤ levels)
      (constructor statement) := by
    apply answers_after
    intro name
    apply answers_after
    intro params
    exact answers_bind (answers_block hstatement) fun body hbody => answers_pure hbody
  apply answers_after
  rintro (_ | ⟨first, rest⟩)
  · exact answers_failExpecting
  dsimp only
  split
  · exact hfield
  · exact hmethod
  · exact hconstructor
  · exact answers_fail

theorem answers_classOf {member : Rule Member}
    (h : Answers (fun member => member.height 1 0 ≤ levels) member) :
    Answers (fun classDecl => classDecl.height 1 0 ≤ levels) (classOf member) := by
  apply answers_after
  intro _
  apply answers_after
  intro name
  apply answers_after
  intro parent
  apply answers_after
  intro _
  apply answers_bind (answers_untilClose h)
  exact fun members hmembers => answers_pure (foldr_max_le_iff.mpr hmembers)

theorem answers_programOf {classDecl : Rule ClassDecl}
    (h : Answers (fun classDecl => classDecl.height 1 0 ≤ levels) classDecl) :
    Answers (fun program => program.nesting ≤ levels) (programOf classDecl) := by
  have hstep : Answers (fun answer => ∀ value ∈ answer, value.height 1 0 ≤ levels)
      (classStep classDecl) := by
    apply answers_after
    intro tokens
    split
    · exact answers_none
    · exact answers_some h
  apply answers_bind (answers_collect hstep)
  intro classes hclasses
  split
  · exact answers_throw
  · exact answers_pure (foldr_max_le_iff.mpr hclasses)

theorem answers_program : Answers (fun program => program.nesting ≤ maxNesting) program :=
  answers_programOf (answers_classOf (answers_memberOf
    (fitsStatements_statementAt maxNesting maxNesting)
    (fitsExpressions_expressionAt maxNesting maxNesting 0)))

end Levels

end Rule

section Chains

/-- A chain of so many comparisons. -/
def Expression.chain : Nat → Expression
  | 0 => .literal (.int 1)
  | length + 1 => .binary .less (chain length) (.literal (.int 1))

namespace Expression

theorem height_chain (length : Nat) : (chain length).height 1 1 = length + 1 := by
  induction length with
  | zero => rfl
  | succ length ih =>
      rw [chain, height, ih, height]
      omega

theorem operandLevels_chain (length : Nat) :
    (chain length).operandLevels Operator.less.precedence = (chain length).levels := by
  cases length <;> rfl

/-- Two levels are enough for a chain of any length. -/
theorem levels_chain (length : Nat) : (chain length).levels ≤ 2 := by
  induction length with
  | zero => decide
  | succ length ih =>
      rw [chain, levels_binary, operandLevels_chain]
      exact Nat.max_le.mpr ⟨ih, by decide⟩

theorem pathsNamed_chain (length : Nat) : (chain length).pathsNamed = true := by
  induction length with
  | zero => rfl
  | succ length ih =>
      rw [chain, pathsNamed, ih]
      rfl

end Expression

namespace Program

/-- A class with one field, and a chain for its value. -/
def ofChain (length : Nat) : Program :=
  ⟨[⟨"C", none, [.field "int" "x" (some (.chain length))]⟩]⟩

def tokensOfChain (length : Nat) : List Token := (ofChain length).phrase.map (⟨·, 0⟩)

theorem depth_ofChain (length : Nat) : (ofChain length).depth = length + 1 := by
  have hvalue : (ofChain length).depth = (Expression.chain length).height 1 1 := by
    simp [ofChain, depth, height, ClassDecl.height, Member.height, initializerHeight]
  rw [hvalue, Expression.height_chain]

theorem parse_ofChain (length : Nat) : parse (tokensOfChain length) = .ok (ofChain length) := by
  have hlevels : (ofChain length).levels = (Expression.chain length).levels := by
    simp [ofChain, levels, ClassDecl.levels, Member.levels, initializerLevels]
  have hnamed : (ofChain length).pathsNamed = true := by
    simp [ofChain, pathsNamed, ClassDecl.pathsNamed, Member.pathsNamed,
      Expression.pathsNamed_chain]
  have hkinds : kinds (tokensOfChain length) = (ofChain length).phrase := by
    simp [tokensOfChain, kinds, Function.comp_def]
  have hfew := Expression.levels_chain length
  have hrun := Rule.takesNested_programWithin Rule.maxNesting (by simp [ofChain]) hnamed rfl
    (fun answer _ => answer = ofChain length) (fun _ => False) (fun _ => rfl)
    (fun hmany => by
      rw [hlevels, Rule.maxNesting] at hmany
      omega)
    (tokensOfChain length) hkinds
  cases hparse : parse (tokensOfChain length) with
  | ok answer =>
      obtain ⟨rest, hanswer⟩ := parse_ok hparse
      rw [hrun.of_ok hanswer]
  | error error =>
      obtain ⟨thrown, rest, hanswer, _⟩ := parse_error hparse
      exact (hrun.of_error hanswer).elim

end Program

end Chains

/-- What is left of operators apart, the statements and expressions of a program
that parses enclose one another within the limit. So the limit holds as long as
there are levels to spare for the steps to left operands, and it does not hold
where these alone are as many. -/
theorem nesting_of_parse (tokens : List Token) (program : Program)
    (h : parse tokens = .ok program) :
    program.nesting ≤ Rule.maxNesting ∧
      (program.nesting + program.leftSteps ≤ Rule.maxNesting →
        program.depth ≤ Rule.maxNesting) ∧
      (Rule.maxNesting ≤ program.leftSteps → Rule.maxNesting < program.depth) := by
  obtain ⟨rest, hanswer⟩ := parse_ok h
  obtain ⟨habove, hbelow⟩ := program.splits
  have hpos : 0 < Rule.maxNesting := by decide
  refine ⟨(Rule.answers_program tokens).of_ok hanswer, ?_, ?_⟩
  · intro hspare
    exact Nat.le_trans habove hspare
  · intro hmany
    omega

/-- In `class C { int x = 1 < 1 < ... < 1; }` with 128 comparisons, 129 expressions
enclose one another. -/
theorem depth_exceeds_limit :
    parse (Program.tokensOfChain 128) = .ok (Program.ofChain 128) ∧
      Rule.maxNesting < (Program.ofChain 128).depth := by
  refine ⟨Program.parse_ofChain 128, ?_⟩
  rw [Program.depth_ofChain]
  decide

/-- With three comparisons, there are three steps to left operands and two levels. -/
theorem nesting_of_parse_chain :
    parse (Program.tokensOfChain 3) = .ok (Program.ofChain 3) ∧
      (Program.ofChain 3).nesting = 2 ∧ (Program.ofChain 3).leftSteps = 3 ∧
      (Program.ofChain 3).depth ≤ Rule.maxNesting := by
  have hparse := Program.parse_ofChain 3
  exact ⟨hparse, by decide, by decide, (nesting_of_parse _ _ hparse).2.1 (by decide)⟩

end ClassLang
