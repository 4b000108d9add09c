import ClassLang.Grammar
import ClassLang.Proofs.Outcome

/-!
What it is for a rule to read the phrases of a relation: if it answers, the
tokens it took are a phrase of the value; if it fails, they begin some phrase,
and the fault fits the tokens that come next. The second half needs no
assumption on what the rest of a rule could read. A rule that is run on no
tokens at all takes none, so whatever it answers there, or fails with, shows
that the phrase read so far can be completed.
-/

namespace ClassLang

/-- The phrase that tokens spell. -/
def kinds (tokens : List Token) : Phrase := tokens.map Token.kind

@[simp] theorem kinds_nil : kinds [] = [] := rfl

@[simp] theorem kinds_cons (token : Token) (rest : List Token) :
    kinds (token :: rest) = token.kind :: kinds rest := rfl

@[simp] theorem kinds_append (first second : List Token) :
    kinds (first ++ second) = kinds first ++ kinds second :=
  List.map_append

/-- Whether a token is what was looked for. -/
def Expectation.Accepts : Expectation → TokenKind → Prop
  | .identifier, kind => ∃ name, kind = .identifier name
  | .type, kind => kind.isTypeLike = true
  | .keyword word, kind => kind = .keyword word
  | .separator mark, kind => kind = .separator mark
  | .classMember, _ | .statement, _ | .expression, _ => True

/-- Whether a fault is true of the tokens left unread. -/
def Fault.Fits : Fault → List Token → Prop
  | .mismatch expected found, rest =>
      (rest.head?.map Token.kind = some found) ∧ ¬ expected.Accepts found
  | .endOfTokens _, rest => rest = []
  | .unexpectedMember found, rest => rest.head?.map Token.kind = some found
  | .unexpectedExpression found, rest => rest.head?.map Token.kind = some found
  | .emptyProgram, rest => rest = []
  | .nestingTooDeep _, _ => True

/-- Whether what was thrown tells the truth about the tokens left unread: the
fault is true of them and was thrown in front of them. That there is no class is
reported at the start, wherever that is found. -/
structure Thrown.Fits (thrown : Thrown) (rest : List Token) : Prop where
  fault : thrown.fault.Fits rest
  eq_before : thrown.fault ≠ .emptyProgram → thrown = thrown.fault.before rest

/-- Where there are tokens, no program is found to be empty. -/
theorem Thrown.Fits.ne_emptyProgram {thrown : Thrown} {token : Token} {rest : List Token}
    (h : thrown.Fits (token :: rest)) : thrown.fault ≠ .emptyProgram := by
  intro hempty
  have hnil := h.fault
  rw [hempty] at hnil
  cases hnil

theorem Fault.fits_before {fault : Fault} {rest : List Token} (h : fault.Fits rest) :
    (fault.before rest).Fits rest :=
  ⟨h, fun _ => rfl⟩

variable {α β : Type}

/-- Some phrase of the relation begins like this. -/
def Viable (relation : Phrase → α → Prop) (phrase : Phrase) : Prop :=
  ∃ more value, relation (phrase ++ more) value

theorem Viable.of_append {relation : Phrase → α → Prop} {first second : Phrase}
    (h : Viable relation (first ++ second)) : Viable relation first := by
  obtain ⟨more, value, hvalue⟩ := h
  exact ⟨second ++ more, value, by rwa [← List.append_assoc]⟩

namespace Rule

/-- Behind the phrase `before`, the rule reads the rest of a phrase of the
relation. -/
def Continues (relation : Phrase → α → Prop) (before : Phrase) (rule : Rule α)
    (tokens : List Token) : Prop :=
  rule.Outcome tokens
    (fun value rest => ∃ taken, tokens = taken ++ rest ∧ relation (before ++ kinds taken) value)
    (fun thrown rest => thrown.Fits rest ∧
      ∃ taken, tokens = taken ++ rest ∧ Viable relation (before ++ kinds taken))

/-- The rule reads phrases of the relation. -/
def Reads (relation : Phrase → α → Prop) (rule : Rule α) : Prop :=
  ∀ tokens, Continues relation [] rule tokens

variable {relation : Phrase → α → Prop} {before : Phrase} {tokens : List Token}

theorem Reads.taken {rule : Rule α} (h : Reads relation rule) {value : α} {rest : List Token}
    (hrun : rule tokens = .ok value rest) :
    ∃ taken, tokens = taken ++ rest ∧ relation (kinds taken) value :=
  (h tokens).of_ok hrun

theorem Reads.fits {rule : Rule α} (h : Reads relation rule) {thrown : Thrown}
    {rest : List Token} (hrun : rule tokens = .error thrown rest) : thrown.Fits rest :=
  ((h tokens).of_error hrun).1

theorem Reads.shortens {rule : Rule α} (h : Reads relation rule) {value : α} {rest : List Token}
    (hrun : rule tokens = .ok value rest) (hnil : ¬ relation [] value) :
    rest.length < tokens.length := by
  obtain ⟨taken, rfl, hvalue⟩ := h.taken hrun
  have htaken : taken ≠ [] := by
    rintro rfl
    exact hnil hvalue
  have hpos := List.length_pos_iff.mpr htaken
  rw [List.length_append]
  omega

theorem Reads.advances {rule : Rule α} (h : Reads relation rule)
    (hnil : ∀ value, ¬ relation [] value) : Advances rule :=
  fun _ value _ hrun => h.shortens hrun (hnil value)

theorem Reads.stepAdvances {relation : Phrase → Option α → Prop} {step : Rule (Option α)}
    (h : Reads relation step) (hnil : ∀ value, ¬ relation [] (some value)) : StepAdvances step :=
  fun _ value _ hrun => h.shortens hrun (hnil value)

theorem Reads.mono {rule : Rule α} {relation' : Phrase → α → Prop} (h : Reads relation rule)
    (himp : ∀ phrase value, relation phrase value → relation' phrase value) :
    Reads relation' rule := by
  intro tokens
  refine (h tokens).mono ?_ ?_
  · rintro value rest ⟨taken, htokens, hvalue⟩
    exact ⟨taken, htokens, himp _ _ hvalue⟩
  · rintro thrown rest ⟨hfits, taken, htokens, more, value, hvalue⟩
    exact ⟨hfits, taken, htokens, more, value, himp _ _ hvalue⟩

/-- A phrase behind which some rule goes on reading can be completed: run the
rule where there are no tokens. -/
theorem Continues.viable {rule : Rule α} (h : Continues relation before rule []) :
    Viable relation before := by
  unfold Continues Outcome at h
  cases hrun : rule [] with
  | ok value rest =>
      rw [hrun] at h
      obtain ⟨taken, htokens, hvalue⟩ := h
      obtain ⟨rfl, rfl⟩ := List.append_eq_nil_iff.mp htokens.symm
      exact ⟨[], value, by simpa using hvalue⟩
  | error thrown rest =>
      rw [hrun] at h
      obtain ⟨_, taken, htokens, hviable⟩ := h
      obtain ⟨rfl, rfl⟩ := List.append_eq_nil_iff.mp htokens.symm
      simpa using hviable

theorem continues_pure {value : α} (h : relation before value) :
    Continues relation before (pure value) tokens :=
  ⟨[], rfl, by simpa using h⟩

theorem continues_fail {fault : Fault} (hfits : fault.Fits tokens)
    (h : Viable relation before) : Continues relation before (fail fault) tokens :=
  ⟨Fault.fits_before hfits, [], rfl, by simpa using h⟩

/-- The central step: a rule that goes on with `next` goes on reading if `next`
does, whatever phrase the first rule may have read. -/
theorem continues_bind {first : Rule α} {next : α → Rule β} {relation' : Phrase → β → Prop}
    (hfirst : Reads relation first)
    (hnext : ∀ phrase value, relation phrase value →
      ∀ tokens, Continues relation' (before ++ phrase) (next value) tokens) :
    Continues relation' before (first >>= next) tokens := by
  unfold Continues
  rw [outcome_bind]
  refine (hfirst tokens).mono ?_ ?_
  · rintro value middle ⟨taken, rfl, hvalue⟩
    refine (hnext _ value hvalue middle).mono ?_ ?_
    · rintro value' rest ⟨taken', rfl, hvalue'⟩
      exact ⟨taken ++ taken', by simp, by simpa using hvalue'⟩
    · rintro thrown rest ⟨hfits, taken', rfl, hviable⟩
      exact ⟨hfits, taken ++ taken', by simp, by simpa using hviable⟩
  · rintro thrown rest ⟨hfits, taken, rfl, more, value, hvalue⟩
    refine ⟨hfits, taken, rfl, ?_⟩
    have hviable := (hnext _ value hvalue []).viable
    rw [List.nil_append, ← List.append_assoc] at hviable
    exact hviable.of_append

theorem continues_get_bind {next : List Token → Rule α}
    (h : Continues relation before (next tokens) tokens) :
    Continues relation before (read get >>= next) tokens :=
  h

theorem continues_skip_bind {token : Token} {rest : List Token} {next : Unit → Rule α}
    (h : Continues relation (before ++ [token.kind]) (next ()) rest) :
    Continues relation before (read skip >>= next) (token :: rest) := by
  unfold Continues
  rw [outcome_skip_bind, List.tail_cons]
  refine Outcome.mono h ?_ ?_
  · rintro value left ⟨taken, rfl, hvalue⟩
    exact ⟨token :: taken, rfl, by simpa using hvalue⟩
  · rintro thrown left ⟨hfits, taken, rfl, hviable⟩
    exact ⟨hfits, token :: taken, rfl, by simpa using hviable⟩

/-- Reading on to the end of the rule at hand. -/
theorem continues_last {rule : Rule α} {relation' : Phrase → α → Prop} (hrule : Reads relation rule)
    (h : ∀ phrase value, relation phrase value → relation' (before ++ phrase) value) :
    Continues relation' before rule tokens := by
  refine (hrule tokens).mono ?_ ?_
  · rintro value rest ⟨taken, htokens, hvalue⟩
    exact ⟨taken, htokens, h _ _ hvalue⟩
  · rintro thrown rest ⟨hfits, taken, htokens, more, value, hvalue⟩
    refine ⟨hfits, taken, htokens, more, value, ?_⟩
    simpa using h _ _ hvalue

theorem continues_failExpecting {expected : Expectation}
    (hfits : ∀ token rest, tokens = token :: rest → ¬ expected.Accepts token.kind)
    (h : Viable relation before) :
    Continues relation before (failExpecting expected) tokens := by
  cases tokens with
  | nil => exact continues_fail rfl h
  | cons token rest => exact continues_fail ⟨rfl, hfits token rest rfl⟩ h

/-- The phrase of one token. -/
def IsToken (kind : TokenKind) (phrase : Phrase) (_ : Unit) : Prop := phrase = [kind]

/-- The phrase of one token that may be absent; the value says whether it is
there. -/
def IsOptional (kind : TokenKind) (phrase : Phrase) (present : Bool) : Prop :=
  phrase = if present then [kind] else []

def IsName (phrase : Phrase) (name : String) : Prop := phrase = [.identifier name]

theorem nextIs_eq_true_iff {kind : TokenKind} :
    nextIs kind tokens = true ↔ ∃ token rest, tokens = token :: rest ∧ token.kind = kind := by
  cases tokens with
  | nil => simp [nextIs]
  | cons token rest => simp [nextIs]

theorem reads_accept (kind : TokenKind) : Reads (IsOptional kind) (accept kind) := by
  intro tokens
  unfold Continues Outcome
  rw [accept_eq]
  by_cases hnext : nextIs kind tokens = true
  · rw [if_pos hnext]
    obtain ⟨token, rest, rfl, rfl⟩ := nextIs_eq_true_iff.mp hnext
    exact ⟨[token], rfl, rfl⟩
  · rw [if_neg hnext]
    exact ⟨[], rfl, rfl⟩

theorem reads_keyword (word : Keyword) : Reads (IsToken (.keyword word)) (keyword word) := by
  intro tokens
  unfold Continues Outcome
  rw [keyword_eq]
  by_cases hnext : nextIs (.keyword word) tokens = true
  · rw [if_pos hnext]
    obtain ⟨token, rest, rfl, hkind⟩ := nextIs_eq_true_iff.mp hnext
    exact ⟨[token], rfl, by simp [IsToken, hkind]⟩
  · rw [if_neg hnext]
    apply continues_failExpecting
    · rintro token rest rfl hkind
      exact hnext (nextIs_eq_true_iff.mpr ⟨token, rest, rfl, hkind⟩)
    · exact ⟨[.keyword word], ⟨⟩, rfl⟩

theorem reads_separator (mark : Separator) :
    Reads (IsToken (.separator mark)) (separator mark) := by
  intro tokens
  unfold Continues Outcome
  rw [separator_eq]
  by_cases hnext : nextIs (.separator mark) tokens = true
  · rw [if_pos hnext]
    obtain ⟨token, rest, rfl, hkind⟩ := nextIs_eq_true_iff.mp hnext
    exact ⟨[token], rfl, by simp [IsToken, hkind]⟩
  · rw [if_neg hnext]
    apply continues_failExpecting
    · rintro token rest rfl hkind
      exact hnext (nextIs_eq_true_iff.mpr ⟨token, rest, rfl, hkind⟩)
    · exact ⟨[.separator mark], ⟨⟩, rfl⟩

theorem reads_identifier : Reads IsName identifier := by
  intro tokens
  unfold Continues Outcome
  fun_cases identifier tokens
  · next name offset rest => exact ⟨[⟨.identifier name, offset⟩], rfl, rfl⟩
  · next hnot =>
      apply continues_failExpecting
      · rintro ⟨kind, offset⟩ rest rfl ⟨name, hname⟩
        subst hname
        exact hnot name offset rest rfl
      · exact ⟨[.identifier ""], "", rfl⟩

theorem reads_type : Reads Grammar.IsType type := by
  intro tokens
  unfold Continues Outcome
  fun_cases type tokens
  · next name offset rest => exact ⟨[⟨.typeName name, offset⟩], rfl, .builtIn name⟩
  · next name offset rest => exact ⟨[⟨.identifier name, offset⟩], rfl, .className name⟩
  · next hbuiltIn hclass =>
      apply continues_failExpecting
      · rintro ⟨kind, offset⟩ rest rfl htype
        cases kind with
        | typeName name => exact hbuiltIn name offset rest rfl
        | identifier name => exact hclass name offset rest rfl
        | keyword word => cases htype
        | separator mark => cases htype
        | literal value => cases htype
        | operator symbol => cases htype
      · exact ⟨[.identifier ""], "", .className ""⟩

/-- A step of a loop: nothing, or a phrase of the element. -/
def IsStep (element : Phrase → α → Prop) (phrase : Phrase) : Option α → Prop
  | none => phrase = []
  | some value => element phrase value

theorem reads_collectOnce {element : Phrase → α → Prop} {step : Rule (Option α)}
    {more : Rule (List α)} (hstep : Reads (IsStep element) step)
    (hmore : Reads (Grammar.IsSequence element) more) :
    Reads (Grammar.IsSequence element) (collectOnce step more) := by
  intro tokens
  apply continues_bind hstep
  intro phrase answer hphrase tokens
  cases answer with
  | none =>
      cases hphrase
      exact continues_pure .nil
  | some first =>
      apply continues_bind hmore
      intro phrase' others hothers tokens
      exact continues_pure (.cons hphrase hothers)

/-- The steps of a loop read a sequence, whatever the budget. -/
theorem reads_collectWithin {element : Phrase → α → Prop} {step : Rule (Option α)}
    (hstep : Reads (IsStep element) step) (budget : List Token) :
    Reads (Grammar.IsSequence element) (collectWithin step budget) := by
  induction budget with
  | nil => exact reads_collectOnce hstep fun _ => continues_pure .nil
  | cons _ budget ih => exact reads_collectOnce hstep ih

theorem reads_collect {element : Phrase → α → Prop} {step : Rule (Option α)}
    (hstep : Reads (IsStep element) step) :
    Reads (Grammar.IsSequence element) (collect step) :=
  fun tokens => reads_collectWithin hstep tokens tokens

/-- A phrase and the separator that closes it. -/
def IsClosed (close : Separator) (inner : Phrase → α → Prop) (phrase : Phrase) (value : α) :
    Prop :=
  ∃ start, phrase = start ++ [.separator close] ∧ inner start value

/-- An element and the comma that may follow it. -/
def IsListed (element : Phrase → α → Prop) (phrase : Phrase) (value : α) : Prop :=
  ∃ first comma, phrase = first ++ comma ∧ element first value ∧ Grammar.IsComma comma

section Loops

variable {element : Phrase → α → Prop} {rule : Rule α}

theorem reads_untilStep (close : Separator) (hrule : Reads element rule) :
    Reads (IsStep element) (untilStep close rule) := by
  intro tokens
  apply continues_get_bind
  split
  · exact continues_pure rfl
  · apply continues_bind hrule
    intro phrase value hvalue tokens
    exact continues_pure hvalue

theorem reads_untilClose (close : Separator) (hrule : Reads element rule) :
    Reads (IsClosed close (Grammar.IsSequence element)) (untilClose close rule) := by
  intro tokens
  apply continues_bind (reads_collect (reads_untilStep close hrule))
  intro inner values hvalues tokens
  apply continues_bind (reads_separator close)
  rintro _ ⟨⟩ rfl tokens
  exact continues_pure ⟨inner, rfl, hvalues⟩

theorem reads_listedStep (hrule : Reads element rule) :
    Reads (IsStep (IsListed element)) (listedStep rule) := by
  intro tokens
  apply continues_get_bind
  split
  · exact continues_pure rfl
  · apply continues_bind hrule
    intro first value hvalue tokens
    apply continues_bind (reads_accept _)
    intro comma present hcomma tokens
    refine continues_pure ⟨first, comma, rfl, hvalue, ?_⟩
    cases present with
    | true => exact hcomma ▸ .present
    | false => exact hcomma ▸ .absent

theorem reads_listed (hrule : Reads element rule) :
    Reads (IsClosed .closeParen (Grammar.IsSequence (IsListed element))) (listed rule) := by
  intro tokens
  apply continues_bind (reads_collect (reads_listedStep hrule))
  intro inner values hvalues tokens
  apply continues_bind (reads_separator .closeParen)
  rintro _ ⟨⟩ rfl tokens
  exact continues_pure ⟨inner, rfl, hvalues⟩

end Loops

end Rule

end ClassLang
