import ClassLang.Proofs.Nesting.Script

/-!
How far a rule looks. Two runs of it are compared: one as it is, and one on
other tokens. As long as these are of the same kinds where the first run took
tokens, and a little further, the second run has to end as the first did, and
after as many tokens. What counts behind the tokens taken is not the same for
both ways to end: a rule that answers has mostly seen the end of its phrase and
does not look past it, or only at the next token, while a fault may come from a
decision that looked as far ahead as any may.
-/

namespace ClassLang

/-- As far as `ahead` tokens past the next one, the second tokens are the same
as the first; if those end before, so do these. -/
def BeginAlike (ahead : Nat) (tokens tokens' : List Token) : Prop :=
  tokens'.take (ahead + 1) = tokens.take (ahead + 1)

namespace BeginAlike

variable {ahead : Nat} {tokens tokens' : List Token}

theorem eq_nil (h : BeginAlike ahead [] tokens') : tokens' = [] :=
  (List.take_eq_nil_iff.mp h).resolve_left (Nat.succ_ne_zero ahead)

theorem exists_cons {token : Token} {rest : List Token}
    (h : BeginAlike ahead (token :: rest) tokens') : ∃ rest', tokens' = token :: rest' := by
  cases tokens' with
  | nil => cases h
  | cons token' rest' =>
      obtain ⟨rfl, _⟩ := List.cons.inj h
      exact ⟨rest', rfl⟩

/-- What is thrown in front of the one is thrown in front of the other. -/
theorem before_eq (h : BeginAlike ahead tokens tokens') (fault : Fault) :
    fault.before tokens' = fault.before tokens := by
  cases tokens with
  | nil => rw [h.eq_nil]
  | cons token rest =>
      obtain ⟨rest', rfl⟩ := h.exists_cons
      rfl

end BeginAlike

/-- The first `count` tokens of both are of the same kinds; if the first tokens
end before, so do the second. -/
def AlikeFor (count : Nat) (tokens tokens' : List Token) : Prop :=
  (kinds tokens').take count = (kinds tokens).take count

namespace AlikeFor

variable {count more : Nat} {tokens tokens' : List Token}

theorem of_kinds (h : kinds tokens' = kinds tokens) : AlikeFor count tokens tokens' :=
  congrArg (List.take count) h

theorem refl (tokens : List Token) : AlikeFor count tokens tokens := rfl

theorem mono (h : AlikeFor more tokens tokens') (hle : count ≤ more) :
    AlikeFor count tokens tokens' := by
  unfold AlikeFor at h ⊢
  rw [← Nat.min_eq_left hle, ← List.take_take, h, List.take_take]

theorem drop {taken : Nat} (h : AlikeFor (taken + count) tokens tokens') :
    AlikeFor count (tokens.drop taken) (tokens'.drop taken) := by
  have hdrop := congrArg (List.drop taken) h
  rw [List.drop_take, List.drop_take, Nat.add_sub_cancel_left] at hdrop
  unfold AlikeFor
  rwa [kinds, kinds, List.map_drop, List.map_drop]

theorem eq_nil (h : AlikeFor (count + 1) [] tokens') : tokens' = [] := by
  have hnil := (List.take_eq_nil_iff.mp h).resolve_left (Nat.succ_ne_zero count)
  exact List.map_eq_nil_iff.mp hnil

theorem exists_cons {token : Token} {rest : List Token}
    (h : AlikeFor (count + 1) (token :: rest) tokens') :
    ∃ offset rest', tokens' = ⟨token.kind, offset⟩ :: rest' ∧ AlikeFor count rest rest' := by
  cases tokens' with
  | nil => cases h
  | cons token' rest' =>
      obtain ⟨kind, offset⟩ := token'
      obtain ⟨rfl, hrest⟩ := List.cons.inj h
      exact ⟨offset, rest', rfl, hrest⟩

/-- The very same tokens, as far as they go. -/
theorem of_take (h : tokens'.take count = tokens.take count) : AlikeFor count tokens tokens' := by
  unfold AlikeFor
  rw [kinds, kinds, ← List.map_take, ← List.map_take, h]

end AlikeFor

namespace Rule

variable {α β : Type} {least behind ahead : Nat} {tokens : List Token}

/-- The tokens that a run leaves unread, whether it answers or fails. -/
def unreadAfter : EStateM.Result Thrown (List Token) α → List Token
  | .ok _ rest | .error _ rest => rest

/-- The same answer or fault, with other tokens left unread. -/
def leaving (rest : List Token) :
    EStateM.Result Thrown (List Token) α → EStateM.Result Thrown (List Token) α
  | .ok value _ => .ok value rest
  | .error thrown _ => .error thrown rest

/-- What a rule does hangs on the tokens that it takes, on the next one and on
no more than `ahead` others behind that. -/
def LooksAhead (ahead : Nat) (rule : Rule α) : Prop :=
  ∀ tokens, ∃ taken, tokens = taken ++ unreadAfter (rule tokens) ∧
    ∀ rest, BeginAlike ahead (unreadAfter (rule tokens)) rest →
      rule (taken ++ rest) = leaving rest (rule tokens)

/-- What the outcome on these tokens hangs on. An answer takes `least` tokens or
more, and hangs on their kinds and on those of `behind` tokens behind them. A
fault hangs on the kinds of the tokens taken, of the next one and of `ahead`
others behind that, and is thrown in front of the next one, whichever that is;
that a program is empty is no fault of what is inside it. -/
def SeesAt (least behind ahead : Nat) (rule : Rule α) (tokens : List Token) : Prop :=
  rule.Outcome tokens
    (fun value rest => ∃ count, rest = tokens.drop count ∧ least ≤ count ∧
      count ≤ tokens.length ∧ ∀ tokens', AlikeFor (count + behind) tokens tokens' →
        rule tokens' = .ok value (tokens'.drop count))
    (fun thrown rest => thrown.fault ≠ .emptyProgram ∧ ∃ count, rest = tokens.drop count ∧
      count ≤ tokens.length ∧ ∀ tokens', AlikeFor (count + (ahead + 1)) tokens tokens' →
        rule tokens' = .error (thrown.fault.before (tokens'.drop count)) (tokens'.drop count))

def Sees (least behind ahead : Nat) (rule : Rule α) : Prop :=
  ∀ tokens, SeesAt least behind ahead rule tokens

theorem SeesAt.mono {least' behind' : Nat} {rule : Rule α}
    (h : SeesAt least behind ahead rule tokens) (hle : least' ≤ least ∧ behind ≤ behind') :
    SeesAt least' behind' ahead rule tokens := by
  refine Outcome.mono h ?_ ?_
  · rintro value rest ⟨count, hrest, hcount, hlength, hsame⟩
    exact ⟨count, hrest, Nat.le_trans hle.1 hcount, hlength, fun tokens' halike =>
      hsame tokens' (halike.mono (by omega))⟩
  · exact fun _ _ hfailed => hfailed

theorem Sees.mono {least' behind' : Nat} {rule : Rule α} (h : Sees least behind ahead rule)
    (hle : least' ≤ least ∧ behind ≤ behind') : Sees least' behind' ahead rule :=
  fun tokens => (h tokens).mono hle

theorem sees_pure (value : α) : Sees 0 behind ahead (pure value) :=
  fun _ => ⟨0, rfl, Nat.le_refl _, Nat.zero_le _, fun _ _ => rfl⟩

theorem sees_fail {fault : Fault} (h : fault ≠ .emptyProgram) :
    Sees least behind ahead (fail fault : Rule α) :=
  fun _ => ⟨h, 0, rfl, Nat.zero_le _, fun _ _ => rfl⟩

theorem seesAt_skip (token : Token) (rest : List Token) :
    SeesAt 1 0 ahead skip (token :: rest) := by
  refine ⟨1, rfl, Nat.le_refl _, by simp, fun tokens' halike => ?_⟩
  obtain ⟨offset, rest', rfl, _⟩ := halike.exists_cons
  rfl

/-- What the first rule saw behind its phrase has to lie within what the second
one takes or sees. So a rule that looks at the next token and one that takes it
make up a rule that does not look past its phrase. -/
theorem seesAt_bind {least₁ behind₁ : Nat} (least₂ : Nat) {first : Rule α} {next : α → Rule β}
    (hfirst : SeesAt least₁ behind₁ ahead first tokens)
    (hfits : least ≤ least₁ + least₂ ∧ behind₁ ≤ least₂ + behind ∧ behind₁ ≤ ahead + 1)
    (hnext : ∀ value, Sees least₂ behind ahead (next value)) :
    SeesAt least behind ahead (first >>= next) tokens := by
  unfold SeesAt Outcome
  rw [bind_apply]
  cases hrun : first tokens with
  | error thrown rest =>
      obtain ⟨hfault, count, rfl, hlength, hsame⟩ := hfirst.of_error hrun
      refine ⟨hfault, count, rfl, hlength, fun tokens' halike => ?_⟩
      rw [bind_apply, hsame tokens' halike]
  | ok value middle =>
      obtain ⟨count, rfl, hcount, hlength, hsame⟩ := hfirst.of_ok hrun
      have hmiddle := hnext value (tokens.drop count)
      have hdrop : (tokens.drop count).length = tokens.length - count := List.length_drop
      dsimp only
      cases hrun' : next value (tokens.drop count) with
      | ok value' rest =>
          obtain ⟨count', rfl, hcount', hlength', hsame'⟩ := hmiddle.of_ok hrun'
          refine ⟨count + count', List.drop_drop, by omega, by omega, fun tokens' halike => ?_⟩
          rw [Nat.add_assoc] at halike
          rw [bind_apply, hsame tokens' (halike.mono (by omega))]
          dsimp only
          rw [hsame' _ halike.drop, List.drop_drop]
      | error thrown rest =>
          obtain ⟨hfault, count', rfl, hlength', hsame'⟩ := hmiddle.of_error hrun'
          refine ⟨hfault, count + count', List.drop_drop, by omega, fun tokens' halike => ?_⟩
          rw [Nat.add_assoc] at halike
          rw [bind_apply, hsame tokens' (halike.mono (by omega))]
          dsimp only
          rw [hsame' _ halike.drop, List.drop_drop]

theorem sees_bind {least₁ behind₁ : Nat} (least₂ : Nat) {first : Rule α} {next : α → Rule β}
    (hfirst : Sees least₁ behind₁ ahead first)
    (hfits : least ≤ least₁ + least₂ ∧ behind₁ ≤ least₂ + behind ∧ behind₁ ≤ ahead + 1)
    (hnext : ∀ value, Sees least₂ behind ahead (next value)) :
    Sees least behind ahead (first >>= next) :=
  fun tokens => seesAt_bind least₂ (hfirst tokens) hfits hnext

/-- A rule may choose by the kinds of the first tokens, as many as it sees
however it goes on. -/
theorem seesAt_of_alike (seen : Nat) {rule chosen : Rule α}
    (hchosen : SeesAt least behind ahead chosen tokens)
    (hseen : seen ≤ least + behind ∧ seen ≤ ahead + 1)
    (hrule : ∀ tokens', AlikeFor seen tokens tokens' → rule tokens' = chosen tokens') :
    SeesAt least behind ahead rule tokens := by
  unfold SeesAt Outcome
  rw [hrule tokens (.refl tokens)]
  refine Outcome.mono hchosen ?_ ?_
  · rintro value rest ⟨count, hrest, hcount, hlength, hsame⟩
    refine ⟨count, hrest, hcount, hlength, fun tokens' halike => ?_⟩
    rw [hrule tokens' (halike.mono (by omega)), hsame tokens' halike]
  · rintro thrown rest ⟨hfault, count, hrest, hlength, hsame⟩
    refine ⟨hfault, count, hrest, hlength, fun tokens' halike => ?_⟩
    rw [hrule tokens' (halike.mono (by omega)), hsame tokens' halike]

theorem seesAt_get_bind (seen : Nat) {next : List Token → Rule α}
    (hseen : seen ≤ least + behind ∧ seen ≤ ahead + 1)
    (hnext : SeesAt least behind ahead (next tokens) tokens)
    (hsame : ∀ tokens', AlikeFor seen tokens tokens' → next tokens' = next tokens) :
    SeesAt least behind ahead (get >>= next) tokens := by
  refine seesAt_of_alike seen hnext hseen fun tokens' halike => ?_
  change next tokens' tokens' = next tokens tokens'
  rw [hsame tokens' halike]

section Tokens

theorem sees_failExpecting (expected : Expectation) :
    Sees least behind ahead (failExpecting expected : Rule α) := by
  intro tokens
  cases tokens with
  | nil =>
      refine ⟨Fault.noConfusion, 0, rfl, Nat.zero_le _, fun tokens' halike => ?_⟩
      rw [AlikeFor.eq_nil halike]
      rfl
  | cons token rest =>
      refine ⟨Fault.noConfusion, 0, rfl, Nat.zero_le _, fun tokens' halike => ?_⟩
      obtain ⟨offset, rest', rfl, _⟩ := AlikeFor.exists_cons halike
      rfl

/-- Take the next token if it stands for a value, and run another rule if it
does not or if there is none. -/
def takeIf (value? : TokenKind → Option α) (otherwise : Rule α) : Rule α
  | [] => otherwise []
  | token :: rest =>
      match value? token.kind with
      | some value => .ok value rest
      | none => otherwise (token :: rest)

theorem sees_takeIf {value? : TokenKind → Option α} {otherwise : Rule α}
    (hother : Sees least behind ahead otherwise) (hseen : least ≤ 1 ∧ 1 ≤ least + behind) :
    Sees least behind ahead (takeIf value? otherwise) := by
  intro tokens
  cases tokens with
  | nil =>
      refine seesAt_of_alike 1 (hother []) (by omega) fun tokens' halike => ?_
      rw [halike.eq_nil]
      rfl
  | cons token rest =>
      cases hvalue : value? token.kind with
      | none =>
          refine seesAt_of_alike 1 (hother _) (by omega) fun tokens' halike => ?_
          obtain ⟨offset, rest', rfl, _⟩ := halike.exists_cons
          simp only [takeIf, hvalue]
      | some value =>
          have htake : SeesAt 1 0 ahead (skip >>= fun _ => pure value) (token :: rest) :=
            seesAt_bind 0 (seesAt_skip token rest) (by omega) fun _ => sees_pure value
          refine seesAt_of_alike 1 (htake.mono (by omega)) (by omega) fun tokens' halike => ?_
          obtain ⟨offset, rest', rfl, _⟩ := halike.exists_cons
          simp only [takeIf, hvalue]
          rfl

theorem accept_eq_takeIf (kind : TokenKind) :
    accept kind = takeIf (fun found => if found = kind then some true else none) (pure false) := by
  funext tokens
  cases tokens with
  | nil => rfl
  | cons token rest =>
      simp only [accept, takeIf]
      split <;> rfl

theorem keyword_eq_takeIf (word : Keyword) :
    keyword word =
      takeIf (fun found => if found = .keyword word then some () else none)
        (failExpecting (.keyword word)) := by
  funext tokens
  rw [keyword_eq]
  cases tokens with
  | nil => rfl
  | cons token rest => by_cases h : token.kind = .keyword word <;> simp [nextIs, takeIf, h]

theorem separator_eq_takeIf (mark : Separator) :
    separator mark =
      takeIf (fun found => if found = .separator mark then some () else none)
        (failExpecting (.separator mark)) := by
  funext tokens
  rw [separator_eq]
  cases tokens with
  | nil => rfl
  | cons token rest => by_cases h : token.kind = .separator mark <;> simp [nextIs, takeIf, h]

/-- The name that a token is, if it is one. -/
def name? : TokenKind → Option String
  | .identifier name => some name
  | _ => none

/-- The type that a token names. -/
def typeText? : TokenKind → Option String
  | .typeName name => some name.spelling
  | .identifier name => some name
  | _ => none

/-- The operator that a token is, if it binds tightly enough. -/
def operatorAtLeast? (floor : Nat) : TokenKind → Option (Option Operator)
  | .operator symbol => if floor ≤ symbol.precedence then some (some symbol) else none
  | _ => none

theorem identifier_eq_takeIf : identifier = takeIf name? (failExpecting .identifier) := by
  funext tokens
  rcases tokens with _ | ⟨⟨kind, offset⟩, rest⟩
  · rfl
  · cases kind <;> rfl

theorem type_eq_takeIf : type = takeIf typeText? (failExpecting .type) := by
  funext tokens
  rcases tokens with _ | ⟨⟨kind, offset⟩, rest⟩
  · rfl
  · cases kind <;> rfl

theorem operatorAtLeast_eq_takeIf (floor : Nat) :
    operatorAtLeast floor = takeIf (operatorAtLeast? floor) (pure none) := by
  funext tokens
  rcases tokens with _ | ⟨⟨kind, offset⟩, rest⟩
  · rfl
  · cases kind with
    | operator symbol =>
        simp only [operatorAtLeast, takeIf, operatorAtLeast?]
        split <;> rfl
    | literal _ | identifier _ | keyword _ | typeName _ | separator _ => rfl

theorem sees_accept (kind : TokenKind) : Sees 0 1 ahead (accept kind) := by
  rw [accept_eq_takeIf]
  exact sees_takeIf (sees_pure false) (by omega)

theorem sees_keyword (word : Keyword) : Sees 1 0 ahead (keyword word) := by
  rw [keyword_eq_takeIf]
  exact sees_takeIf (sees_failExpecting _) (by omega)

theorem sees_separator (mark : Separator) : Sees 1 0 ahead (separator mark) := by
  rw [separator_eq_takeIf]
  exact sees_takeIf (sees_failExpecting _) (by omega)

theorem sees_identifier : Sees 1 0 ahead identifier := by
  rw [identifier_eq_takeIf]
  exact sees_takeIf (sees_failExpecting _) (by omega)

theorem sees_type : Sees 1 0 ahead type := by
  rw [type_eq_takeIf]
  exact sees_takeIf (sees_failExpecting _) (by omega)

theorem sees_operatorAtLeast (floor : Nat) : Sees 0 1 ahead (operatorAtLeast floor) := by
  rw [operatorAtLeast_eq_takeIf]
  exact sees_takeIf (sees_pure none) (by omega)

end Tokens

section LooksAhead

variable {rule : Rule α} {count : Nat}

/-- Tokens that go on alike behind the first `count` are alike so much longer. -/
theorem alikeFor_take_append {rest : List Token} {seen : Nat} (hlength : count ≤ tokens.length)
    (h : BeginAlike ahead (tokens.drop count) rest) (hseen : seen ≤ count + (ahead + 1)) :
    AlikeFor seen tokens (tokens.take count ++ rest) := by
  have htaken : (tokens.take count).length = count := List.length_take_of_le hlength
  have htake : (tokens.take count ++ rest).take (count + (ahead + 1)) =
      tokens.take (count + (ahead + 1)) := by
    rw [List.take_append, htaken, Nat.add_sub_cancel_left, h, List.take_take,
      Nat.min_eq_right (Nat.le_add_right _ _), ← List.take_add]
  exact (AlikeFor.of_take htake).mono hseen

theorem SeesAt.exists_taken (h : SeesAt least behind ahead rule tokens)
    (hbehind : behind ≤ ahead + 1) :
    ∃ taken, tokens = taken ++ unreadAfter (rule tokens) ∧
      ∀ rest, BeginAlike ahead (unreadAfter (rule tokens)) rest →
        rule (taken ++ rest) = leaving rest (rule tokens) := by
  cases hrun : rule tokens with
  | ok value rest =>
      obtain ⟨count, rfl, _, hlength, hsame⟩ := h.of_ok hrun
      refine ⟨tokens.take count, (List.take_append_drop count tokens).symm, fun rest halike => ?_⟩
      rw [hsame _ (alikeFor_take_append hlength halike (by omega)),
        List.drop_left' (List.length_take_of_le hlength)]
      rfl
  | error thrown rest =>
      obtain ⟨_, count, rfl, hlength, hsame⟩ := h.of_error hrun
      have hthrown : thrown = thrown.fault.before (tokens.drop count) := by
        have hself := hsame tokens (.refl tokens)
        rw [hrun] at hself
        exact (EStateM.Result.error.inj hself).1
      refine ⟨tokens.take count, (List.take_append_drop count tokens).symm, fun rest halike => ?_⟩
      replace halike : BeginAlike ahead (tokens.drop count) rest := halike
      rw [hsame _ (alikeFor_take_append hlength halike (Nat.le_refl _)),
        List.drop_left' (List.length_take_of_le hlength), halike.before_eq, ← hthrown]
      rfl

theorem Sees.looksAhead (h : Sees least behind ahead rule)
    (hbehind : behind ≤ ahead + 1) : LooksAhead ahead rule :=
  fun tokens => (h tokens).exists_taken hbehind

end LooksAhead

section Loops

variable {step : Rule (Option α)} {element : Rule α}

theorem sees_collectOnce {more : Rule (List α)} (hstep : Sees 0 1 ahead step)
    (hmore : Sees 0 1 ahead more) : Sees 0 1 ahead (collectOnce step more) := by
  refine sees_bind 0 hstep (by omega) fun answer => ?_
  cases answer with
  | none => exact sees_pure []
  | some first => exact sees_bind 0 hmore (by omega) fun others => sees_pure (first :: others)

theorem sees_collectWithin (hstep : Sees 0 1 ahead step) (budget : List Token) :
    Sees 0 1 ahead (collectWithin step budget) := by
  induction budget with
  | nil => exact sees_collectOnce hstep (sees_pure [])
  | cons _ budget ih => exact sees_collectOnce hstep ih

/-- The budget of a loop is all that is unread, which is more than it may look
at. But a loop that advances does not depend on it: any budget will do that is
enough for both runs. -/
theorem sees_collect (hstep : Sees 0 1 ahead step) (hadvances : StepAdvances step) :
    Sees 0 1 ahead (collect step) := by
  have hbudget {tokens : List Token} (budget : List Token)
      (hle : tokens.length ≤ budget.length) :
      collectWithin step budget tokens = collect step tokens :=
    collectWithin_congr hadvances budget tokens hle (Nat.le_refl _)
  have hcounts {tokens : List Token} {count count' : Nat} (hlength : count ≤ tokens.length)
      (hlength' : count' ≤ tokens.length) (hdrop : tokens.drop count = tokens.drop count') :
      count = count' := by
    have hleft := congrArg List.length hdrop
    rw [List.length_drop, List.length_drop] at hleft
    omega
  intro tokens
  have htokens := sees_collectWithin hstep tokens tokens
  unfold SeesAt Outcome
  cases hrun : collect step tokens with
  | ok value rest =>
      obtain ⟨count, rfl, hcount, hlength, _⟩ := htokens.of_ok hrun
      refine ⟨count, rfl, hcount, hlength, fun tokens' halike => ?_⟩
      have hboth := sees_collectWithin hstep (tokens ++ tokens') tokens
      obtain ⟨count', hdrop, _, hlength', hsame⟩ :=
        hboth.of_ok ((hbudget _ (by simp)).trans hrun)
      obtain rfl := hcounts hlength hlength' hdrop
      rw [← hbudget (tokens ++ tokens') (by simp)]
      exact hsame tokens' halike
  | error thrown rest =>
      obtain ⟨hfault, count, rfl, hlength, _⟩ := htokens.of_error hrun
      refine ⟨hfault, count, rfl, hlength, fun tokens' halike => ?_⟩
      have hboth := sees_collectWithin hstep (tokens ++ tokens') tokens
      obtain ⟨_, count', hdrop, hlength', hsame⟩ :=
        hboth.of_error ((hbudget _ (by simp)).trans hrun)
      obtain rfl := hcounts hlength hlength' hdrop
      rw [← hbudget (tokens ++ tokens') (by simp)]
      exact hsame tokens' halike

theorem sees_untilStep (close : Separator) (h : Sees 1 1 ahead element) :
    Sees 0 1 ahead (untilStep close element) := by
  intro tokens
  refine seesAt_get_bind 1 (by omega) ?_ fun tokens' halike => ?_
  · split
    · exact sees_pure none _
    · exact seesAt_bind 0 (h tokens) (by omega) fun value => sees_pure (some value)
  · cases tokens with
    | nil => rw [halike.eq_nil]
    | cons token rest =>
        obtain ⟨offset, rest', rfl, _⟩ := halike.exists_cons
        rfl

/-- What closes the elements is the last that is seen of them. -/
theorem sees_untilClose (close : Separator) (h : Sees 1 1 ahead element)
    (hadvances : StepAdvances (untilStep close element)) :
    Sees 1 0 ahead (untilClose close element) := by
  refine sees_bind 1 (sees_collect (sees_untilStep close h) hadvances) (by omega) fun elements => ?_
  exact sees_bind 0 (sees_separator close) (by omega) fun _ => sees_pure elements

theorem sees_listedStep (h : Sees 1 1 ahead element) : Sees 0 1 ahead (listedStep element) := by
  intro tokens
  refine seesAt_get_bind 1 (by omega) ?_ fun tokens' halike => ?_
  · split
    · exact sees_pure none _
    · refine seesAt_bind 0 (h tokens) (by omega) fun value => ?_
      exact sees_bind 0 (sees_accept _) (by omega) fun _ => sees_pure (some value)
  · cases tokens with
    | nil => rw [halike.eq_nil]
    | cons token rest =>
        obtain ⟨offset, rest', rfl, _⟩ := halike.exists_cons
        rfl

theorem sees_listed (h : Sees 1 1 ahead element) (hadvances : StepAdvances (listedStep element)) :
    Sees 1 0 ahead (listed element) := by
  refine sees_bind 1 (sees_collect (sees_listedStep h) hadvances) (by omega) fun elements => ?_
  exact sees_bind 0 (sees_separator .closeParen) (by omega) fun _ => sees_pure elements

end Loops

end Rule

end ClassLang
