import ClassLang.Proofs.Lookahead.Steps
import ClassLang.Proofs.Taking.Class

/-!
How far each rule of the grammar looks. Expressions are told apart by the next
token, whatever they are made of; only where a statement or a member begins do
two more have a part in what it is. A phrase that a mark closes ends there for
the rule as well: a class hangs on its own tokens alone. Where only the grammar
tells the end, as in an expression or behind an `if` without `else`, the rule
looks at the next token.
-/

namespace ClassLang

namespace Rule

variable {ahead : Nat} {tokens tokens' : List Token}

/-! The two decisions that look further than the next token. -/

theorem isDeclaration_of_alike (h : AlikeFor (maxLookahead + 1) tokens tokens') :
    isDeclaration tokens' = isDeclaration tokens := by
  rcases tokens with _ | ⟨first, rest⟩
  · rw [h.eq_nil]
  obtain ⟨_, rest', rfl, hrest⟩ := h.exists_cons
  rcases rest with _ | ⟨⟨kind, offset⟩, more⟩
  · rw [hrest.eq_nil]
    rfl
  obtain ⟨_, more', rfl, hmore⟩ := hrest.exists_cons
  rcases more with _ | ⟨⟨kind', offset'⟩, others⟩
  · rw [hmore.eq_nil]
    cases kind <;> rfl
  obtain ⟨_, others', rfl, _⟩ := hmore.exists_cons
  cases kind <;> cases kind' <;> rfl

theorem memberForm_of_alike (h : AlikeFor (maxLookahead + 1) tokens tokens') :
    MemberForm.ofTokens? tokens' = MemberForm.ofTokens? tokens := by
  rcases tokens with _ | ⟨first, rest⟩
  · rw [h.eq_nil]
  obtain ⟨_, rest', rfl, hrest⟩ := h.exists_cons
  rcases rest with _ | ⟨second, more⟩
  · rw [hrest.eq_nil]
    rfl
  obtain ⟨_, more', rfl, hmore⟩ := hrest.exists_cons
  rcases more with _ | ⟨third, others⟩
  · rw [hmore.eq_nil]
    rfl
  obtain ⟨_, others', rfl, _⟩ := hmore.exists_cons
  rfl

theorem sees_path : Sees 1 1 ahead path := by
  have hstep : Sees 0 1 ahead pathStep := by
    refine sees_bind 0 (sees_accept _) (by omega) fun present => ?_
    cases present with
    | false => exact sees_pure none
    | true => exact sees_bind 0 sees_identifier (by omega) fun name => sees_pure (some name)
  refine sees_bind 0 sees_identifier (by omega) fun first => ?_
  exact sees_bind 0 (sees_collect hstep stepAdvances_pathStep) (by omega) fun others =>
    sees_pure (first :: others)

theorem sees_params : Sees 2 0 ahead params := by
  have hparam : Sees 1 1 ahead param := by
    refine sees_bind 1 sees_type (by omega) fun type => ?_
    exact sees_bind 0 sees_identifier (by omega) fun name => sees_pure _
  exact sees_bind 1 (sees_separator _) (by omega) fun _ =>
    sees_listed hparam stepAdvances_listedStep_param

theorem sees_parent : Sees 0 1 ahead parent := by
  refine sees_bind 0 (sees_accept _) (by omega) fun present => ?_
  cases present with
  | false => exact sees_pure none
  | true => exact sees_bind 0 sees_identifier (by omega) fun name => sees_pure (some name)

end Rule

namespace Script

open Rule (sees_failExpecting sees_fail seesAt_skip sees_accept sees_separator sees_identifier
  sees_type sees_path)
open Grammar

variable {α β : Type} {least behind ahead : Nat} {inner : InnerRules Rule} {tokens : List Token}

/-- How far a script sees that is run with these rules for what is inside. -/
def Sees (inner : InnerRules Rule) (least behind ahead : Nat) (script : Script α) : Prop :=
  Rule.Sees least behind ahead (script.run inner)

theorem sees_read {rule : Rule α} [rule.Forward] (h : rule.Sees least behind ahead) :
    Sees inner least behind ahead (read rule) :=
  h

theorem sees_pure (value : α) : Sees inner 0 behind ahead (pure value) :=
  Rule.sees_pure value

theorem sees_bind {least₁ behind₁ : Nat} (least₂ : Nat) {first : Script α} {next : α → Script β}
    (hfirst : Sees inner least₁ behind₁ ahead first)
    (hfits : least ≤ least₁ + least₂ ∧ behind₁ ≤ least₂ + behind ∧ behind₁ ≤ ahead + 1)
    (hnext : ∀ value, Sees inner least₂ behind ahead (next value)) :
    Sees inner least behind ahead (first >>= next) :=
  Rule.sees_bind least₂ hfirst hfits hnext

/-- Read something, and go on. -/
theorem sees_read_bind {least₁ behind₁ : Nat} (least₂ : Nat) {rule : Rule α} [rule.Forward]
    {next : α → Script β} (hrule : rule.Sees least₁ behind₁ ahead)
    (hfits : least ≤ least₁ + least₂ ∧ behind₁ ≤ least₂ + behind ∧ behind₁ ≤ ahead + 1)
    (hnext : ∀ value, Sees inner least₂ behind ahead (next value)) :
    Sees inner least behind ahead (read rule >>= next) :=
  Rule.sees_bind least₂ hrule hfits hnext

/-- How far a script sees on these tokens. -/
def SeesAt (inner : InnerRules Rule) (least behind ahead : Nat) (script : Script α)
    (tokens : List Token) : Prop :=
  Rule.SeesAt least behind ahead (script.run inner) tokens

theorem Sees.seesAt {script : Script α} (h : Sees inner least behind ahead script) :
    SeesAt inner least behind ahead script tokens :=
  h tokens

/-- Take the token that is there, and go on. -/
theorem seesAt_skip_bind {next : Unit → Script β} (token : Token) (rest : List Token)
    (hnext : Sees inner least behind ahead (next ())) :
    SeesAt inner (least + 1) behind ahead (read Rule.skip >>= next) (token :: rest) :=
  Rule.seesAt_bind least (seesAt_skip token rest) (by omega) fun _ => hnext

theorem seesAt_get_bind (seen : Nat) {next : List Token → Script α}
    (hseen : seen ≤ least + behind ∧ seen ≤ ahead + 1)
    (hnext : SeesAt inner least behind ahead (next tokens) tokens)
    (hsame : ∀ tokens', AlikeFor seen tokens tokens' → next tokens' = next tokens) :
    SeesAt inner least behind ahead (read get >>= next) tokens :=
  Rule.seesAt_get_bind seen hseen hnext fun tokens' halike =>
    congrArg (run inner) (hsame tokens' halike)

/-- The choice by whether there is a next token. -/
theorem seesAt_get_bind_nil {next : List Token → Script α}
    (hnext : Sees inner (least + 1) behind ahead (next [])) :
    SeesAt inner least behind ahead (read get >>= next) [] := by
  have hmore : SeesAt inner (least + 1) behind ahead (read get >>= next) [] :=
    seesAt_get_bind 1 (by omega) (hnext []) fun tokens' halike => by rw [halike.eq_nil]
  exact Rule.SeesAt.mono hmore (by omega)

/-- The choice by the kind of the next token. -/
theorem seesAt_get_bind_cons {next : List Token → Script α} {kind : TokenKind} {offset : Nat}
    {rest : List Token}
    (hnext : SeesAt inner (least + 1) behind ahead (next (⟨kind, offset⟩ :: rest))
      (⟨kind, offset⟩ :: rest))
    (hsame : ∀ offset' rest', next (⟨kind, offset'⟩ :: rest') = next (⟨kind, offset⟩ :: rest)) :
    SeesAt inner (least + 1) behind ahead (read get >>= next) (⟨kind, offset⟩ :: rest) := by
  refine seesAt_get_bind 1 (by omega) hnext fun tokens' halike => ?_
  obtain ⟨offset', rest', rfl, _⟩ := halike.exists_cons
  exact hsame offset' rest'

theorem sees_untilClose {close : Separator} {element : Script α}
    (h : Sees inner 1 1 ahead element)
    (hadvances : Rule.StepAdvances (Rule.untilStep close (element.run inner))) :
    Sees inner 1 0 ahead (untilClose close element) := by
  unfold Sees
  rw [(interprets inner).untilClose]
  exact Rule.sees_untilClose close h hadvances

section Expressions

variable (hexpression : ∀ floor, Sees inner 1 1 ahead (expression floor))
  (hreads : ∀ floor, Rule.Reads IsExpression (inner.expression floor))

include hexpression hreads

theorem sees_arguments : Sees inner 1 0 ahead (listed (expression 0)) := by
  unfold Sees
  rw [(interprets inner).listed]
  exact Rule.sees_listed (hexpression 0) (Rule.stepAdvances_listedStep (hreads 0))

theorem sees_primary : Sees inner 1 1 ahead primary := by
  rintro (_ | ⟨⟨kind, offset⟩, rest⟩)
  · exact seesAt_get_bind_nil (sees_read (sees_failExpecting _))
  have harguments := sees_arguments hexpression hreads
  have hother (found : TokenKind) :
      SeesAt inner 1 1 ahead (read (Rule.fail (.unexpectedExpression found)) : Script Expression)
        (⟨kind, offset⟩ :: rest) :=
    sees_fail (by simp) _
  cases kind with
  | literal value =>
      exact seesAt_get_bind_cons (seesAt_skip_bind _ _ (sees_pure _)) fun _ _ => rfl
  | identifier name =>
      refine seesAt_get_bind_cons (Sees.seesAt ?_) fun _ _ => rfl
      refine sees_read_bind 0 sees_path (by omega) fun names => ?_
      refine sees_read_bind 0 (sees_accept _) (by omega) fun assigned => ?_
      cases assigned with
      | true => exact sees_bind 0 (hexpression 0) (by omega) fun value => sees_pure _
      | false =>
          refine sees_read_bind 0 (sees_accept _) (by omega) fun called => ?_
          cases called with
          | true => exact sees_bind 0 harguments (by omega) fun arguments => sees_pure _
          | false => exact sees_pure _
  | keyword word =>
      cases word with
      | newKw =>
          refine seesAt_get_bind_cons (seesAt_skip_bind _ _ ?_) fun _ _ => rfl
          refine sees_read_bind 0 sees_identifier (by omega) fun className => ?_
          refine sees_read_bind 0 (sees_separator _) (by omega) fun _ => ?_
          exact sees_bind 0 harguments (by omega) fun arguments => sees_pure _
      | classKw | breakKw | extendsKw | ifKw | elseKw | whileKw | returnKw =>
          exact seesAt_get_bind_cons (hother _) fun _ _ => rfl
  | separator mark =>
      cases mark with
      | openParen =>
          refine seesAt_get_bind_cons (seesAt_skip_bind _ _ ?_) fun _ _ => rfl
          refine sees_bind 1 (hexpression 0) (by omega) fun value => ?_
          exact sees_read_bind 0 (sees_separator _) (by omega) fun _ => sees_pure value
      | dot | openBrace | closeBrace | closeParen | comma | semicolon | assign =>
          exact seesAt_get_bind_cons (hother _) fun _ _ => rfl
  | typeName name => exact seesAt_get_bind_cons (hother _) fun _ _ => rfl
  | operator symbol => exact seesAt_get_bind_cons (hother _) fun _ _ => rfl

theorem sees_climb (floor : Nat) : Sees inner 1 1 ahead (climb floor) := by
  have hstep : Sees inner 0 1 ahead (operandStep expression floor) := by
    refine sees_read_bind 0 (Rule.sees_operatorAtLeast floor) (by omega) fun answer => ?_
    cases answer with
    | none => exact sees_pure none
    | some symbol =>
        exact sees_bind 0 (hexpression (symbol.precedence + 1)) (by omega) fun right => sees_pure _
  have hadvances : Rule.StepAdvances ((operandStep expression floor).run inner) := by
    rw [(interprets inner).operandStep]
    exact Rule.stepAdvances_operandStep hreads
  have hloop : Sees inner 0 1 ahead (collect (operandStep expression floor)) := by
    unfold Sees
    rw [(interprets inner).collect]
    exact Rule.sees_collect hstep hadvances
  refine sees_bind 0 (sees_primary hexpression hreads) (by omega) fun first => ?_
  exact sees_bind 0 hloop (by omega) fun others => sees_pure _

end Expressions

/-- What is inside of statements and members looks no further ahead than they
may themselves. -/
structure InnerSees (inner : InnerRules Rule) : Prop where
  statement : Sees inner 1 1 Rule.maxLookahead Script.statement
  expression : ∀ floor, Sees inner 1 1 Rule.maxLookahead (Script.expression floor)
  readsStatement : Rule.Reads IsStatement inner.statement
  readsExpression : ∀ floor, Rule.Reads IsExpression (inner.expression floor)

section Statements

variable (h : InnerSees inner)

include h

theorem sees_initializer : Sees inner 0 1 Rule.maxLookahead initializer := by
  refine sees_read_bind 0 (sees_accept _) (by omega) fun present => ?_
  cases present with
  | false => exact sees_pure none
  | true => exact sees_bind 0 (h.expression 0) (by omega) fun value => sees_pure (some value)

theorem sees_block : Sees inner 2 0 Rule.maxLookahead block :=
  sees_read_bind 1 (sees_separator _) (by omega) fun _ =>
    sees_untilClose h.statement (Rule.stepAdvances_untilStep_statement h.readsStatement _)

theorem sees_condition : Sees inner 3 0 Rule.maxLookahead condition := by
  refine sees_read_bind 2 (sees_separator _) (by omega) fun _ => ?_
  refine sees_bind 1 (h.expression 0) (by omega) fun answer => ?_
  exact sees_read_bind 0 (sees_separator _) (by omega) fun _ => sees_pure answer

theorem sees_declaration : Sees inner 3 0 Rule.maxLookahead declaration := by
  refine sees_read_bind 2 sees_type (by omega) fun type => ?_
  refine sees_read_bind 1 sees_identifier (by omega) fun name => ?_
  refine sees_bind 1 (sees_initializer h) (by omega) fun value => ?_
  exact sees_read_bind 0 (sees_separator _) (by omega) fun _ => sees_pure _

theorem sees_expressionStatement : Sees inner 2 0 Rule.maxLookahead expressionStatement := by
  refine sees_bind 1 (h.expression 0) (by omega) fun value => ?_
  exact sees_read_bind 0 (sees_separator _) (by omega) fun _ => sees_pure _

theorem sees_ifStatement : Sees inner 0 1 Rule.maxLookahead ifStatement := by
  refine sees_bind 0 (sees_condition h) (by omega) fun test => ?_
  refine sees_bind 0 h.statement (by omega) fun onTrue => ?_
  refine sees_read_bind 0 (sees_accept _) (by omega) fun present => ?_
  cases present with
  | true => exact sees_bind 0 h.statement (by omega) fun onFalse => sees_pure _
  | false => exact sees_pure _

theorem sees_whileStatement : Sees inner 0 1 Rule.maxLookahead whileStatement := by
  refine sees_bind 0 (sees_condition h) (by omega) fun test => ?_
  exact sees_bind 0 h.statement (by omega) fun body => sees_pure _

theorem sees_returnStatement : Sees inner 0 1 Rule.maxLookahead returnStatement := by
  intro tokens
  refine seesAt_get_bind 1 (by omega) ?_ fun tokens' halike => ?_
  · apply Sees.seesAt
    split
    · exact sees_read_bind 0 (sees_separator _) (by omega) fun _ => sees_pure _
    · refine sees_bind 0 (h.expression 0) (by omega) fun value => ?_
      exact sees_read_bind 0 (sees_separator _) (by omega) fun _ => sees_pure _
  · cases tokens with
    | nil => rw [halike.eq_nil]
    | cons token rest =>
        obtain ⟨offset, rest', rfl, _⟩ := halike.exists_cons
        rfl

/-- A declaration is known by its first three tokens. What is none has two at
least, and may look at the one behind them. -/
theorem seesAt_declarationOrExpression {next : List Token → Script Statement} {kind : TokenKind}
    {offset : Nat} {rest : List Token}
    (hnext : ∀ offset' rest', next (⟨kind, offset'⟩ :: rest') =
      if Rule.isDeclaration (⟨kind, offset'⟩ :: rest') then declaration
      else expressionStatement) :
    SeesAt inner 1 1 Rule.maxLookahead (read get >>= next) (⟨kind, offset⟩ :: rest) := by
  have hchosen : Sees inner 2 1 Rule.maxLookahead (next (⟨kind, offset⟩ :: rest)) := by
    rw [hnext]
    split
    · exact Rule.Sees.mono (sees_declaration h) (by omega)
    · exact Rule.Sees.mono (sees_expressionStatement h) (by omega)
  have hstatement : SeesAt inner 2 1 Rule.maxLookahead (read get >>= next)
      (⟨kind, offset⟩ :: rest) := by
    refine seesAt_get_bind (Rule.maxLookahead + 1) ⟨Nat.le_refl _, Nat.le_refl _⟩
      hchosen.seesAt fun tokens' halike => ?_
    obtain ⟨offset', rest', rfl, _⟩ := halike.exists_cons
    rw [hnext, hnext, Rule.isDeclaration_of_alike halike]
  exact Rule.SeesAt.mono hstatement (by omega)

theorem sees_statementBody : Sees inner 1 1 Rule.maxLookahead statementBody := by
  rintro (_ | ⟨⟨kind, offset⟩, rest⟩)
  · exact seesAt_get_bind_nil (sees_read (sees_failExpecting _))
  cases kind with
  | separator mark =>
      cases mark with
      | semicolon => exact seesAt_get_bind_cons (seesAt_skip_bind _ _ (sees_pure _)) fun _ _ => rfl
      | openBrace =>
          refine seesAt_get_bind_cons (Sees.seesAt ?_) fun _ _ => rfl
          exact sees_bind 0 (sees_block h) (by omega) fun body => sees_pure _
      | dot | openParen | closeBrace | closeParen | comma | assign =>
          exact seesAt_declarationOrExpression h fun _ _ => rfl
  | keyword word =>
      cases word with
      | ifKw =>
          exact seesAt_get_bind_cons (seesAt_skip_bind _ _ (sees_ifStatement h)) fun _ _ => rfl
      | whileKw =>
          exact seesAt_get_bind_cons (seesAt_skip_bind _ _ (sees_whileStatement h)) fun _ _ => rfl
      | returnKw =>
          exact seesAt_get_bind_cons (seesAt_skip_bind _ _ (sees_returnStatement h)) fun _ _ => rfl
      | breakKw =>
          refine seesAt_get_bind_cons (seesAt_skip_bind _ _ ?_) fun _ _ => rfl
          exact sees_read_bind 0 (sees_separator _) (by omega) fun _ => sees_pure _
      | newKw | classKw | extendsKw | elseKw =>
          exact seesAt_declarationOrExpression h fun _ _ => rfl
  | identifier name => exact seesAt_declarationOrExpression h fun _ _ => rfl
  | literal value => exact seesAt_declarationOrExpression h fun _ _ => rfl
  | typeName name => exact seesAt_declarationOrExpression h fun _ _ => rfl
  | operator symbol => exact seesAt_declarationOrExpression h fun _ _ => rfl

theorem sees_field : Sees inner 3 0 Rule.maxLookahead field := by
  refine sees_read_bind 2 sees_type (by omega) fun type => ?_
  refine sees_read_bind 1 sees_identifier (by omega) fun name => ?_
  refine sees_bind 1 (sees_initializer h) (by omega) fun value => ?_
  exact sees_read_bind 0 (sees_separator _) (by omega) fun _ => sees_pure _

theorem sees_method : Sees inner 3 0 Rule.maxLookahead method := by
  refine sees_read_bind 2 sees_type (by omega) fun returnType => ?_
  refine sees_read_bind 1 sees_identifier (by omega) fun name => ?_
  refine sees_read_bind 0 Rule.sees_params (by omega) fun params => ?_
  exact sees_bind 0 (sees_block h) (by omega) fun body => sees_pure _

theorem sees_constructor : Sees inner 3 0 Rule.maxLookahead constructor := by
  refine sees_read_bind 2 sees_identifier (by omega) fun name => ?_
  refine sees_read_bind 0 Rule.sees_params (by omega) fun params => ?_
  exact sees_bind 0 (sees_block h) (by omega) fun body => sees_pure _

/-- The form of a member is known from its first three tokens, and none has
fewer. -/
theorem sees_member : Sees inner 3 0 Rule.maxLookahead member := by
  rintro (_ | ⟨first, rest⟩)
  · exact seesAt_get_bind_nil (sees_read (sees_failExpecting _))
  refine seesAt_get_bind (Rule.maxLookahead + 1) ⟨Nat.le_refl _, Nat.le_refl _⟩ ?_
    fun tokens' halike => ?_
  · apply Sees.seesAt
    dsimp only
    split
    · exact sees_field h
    · exact sees_method h
    · exact sees_constructor h
    · exact sees_read (sees_fail (by simp))
  · have hform := Rule.memberForm_of_alike halike
    obtain ⟨offset, rest', rfl, _⟩ := halike.exists_cons
    dsimp only
    rw [hform]
    split <;> rfl

theorem reads_member : Rule.Reads IsMember (member.run inner) := by
  rw [run_member]
  exact Rule.reads_memberOf h.readsStatement (h.readsExpression 0)

/-- A class ends with its own brace, and nothing behind that has a part in it. -/
theorem sees_classDecl : Sees inner 4 0 Rule.maxLookahead classDecl := by
  refine sees_read_bind 3 (Rule.sees_keyword _) (by omega) fun _ => ?_
  refine sees_read_bind 2 sees_identifier (by omega) fun name => ?_
  refine sees_read_bind 2 Rule.sees_parent (by omega) fun parent => ?_
  refine sees_read_bind 1 (sees_separator _) (by omega) fun _ => ?_
  have hmembers : Sees inner 1 0 Rule.maxLookahead (untilClose .closeBrace member) :=
    sees_untilClose (Rule.Sees.mono (sees_member h) (by omega))
      (Rule.stepAdvances_untilStep_member (reads_member h) _)
  exact sees_bind 0 hmembers (by omega) fun members => sees_pure _

end Statements

end Script

namespace Rule

open Grammar (IsClass)

theorem sees_expressionAt (limit levels floor ahead : Nat) :
    Sees 1 1 ahead (expressionAt limit levels floor) := by
  induction levels generalizing floor with
  | zero => exact sees_fail (by simp)
  | succ levels ih =>
      let inner : InnerRules Rule := ⟨statementAt limit levels, expressionAt limit levels⟩
      have hclimb := @Script.sees_climb ahead inner ih (reads_expressionAt limit levels) floor
      rwa [Script.Sees, Script.run_climb] at hclimb

/-- Statements look further ahead than the expressions inside them. -/
theorem innerSees (limit levels : Nat) (h : Sees 1 1 maxLookahead (statementAt limit levels)) :
    Script.InnerSees ⟨statementAt limit levels, expressionAt limit levels⟩ where
  statement := h
  expression floor := sees_expressionAt limit levels floor maxLookahead
  readsStatement := reads_statementAt limit levels
  readsExpression := reads_expressionAt limit levels

theorem sees_statementAt (limit levels : Nat) :
    Sees 1 1 maxLookahead (statementAt limit levels) := by
  induction levels with
  | zero => exact sees_fail (by simp)
  | succ levels ih =>
      have hbody := Script.sees_statementBody (innerSees limit levels ih)
      rwa [Script.Sees, Script.run_statementBody] at hbody

/-- The rule for classes in the rule for programs. -/
def classWithin (limit : Nat) : Rule ClassDecl := classOf (memberWithin limit)

theorem reads_classWithin (limit : Nat) : Reads IsClass (classWithin limit) :=
  reads_classOf (reads_memberWithin limit)

theorem sees_classWithin (limit : Nat) : Sees 4 0 maxLookahead (classWithin limit) := by
  have hclass := Script.sees_classDecl (innerSees limit limit (sees_statementAt limit limit))
  rwa [Script.Sees, Script.run_classDecl] at hclass

end Rule

end ClassLang
