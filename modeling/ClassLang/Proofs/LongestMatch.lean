import ClassLang.Proofs.Spelling

/-!
The order of the rules and the length of what they take. Each rule is described
by the texts that it accepts, with what comes behind them in sight. Two rules
that accept the beginning of one text begin with characters of one class, which
leaves few pairs to compare: in each of them the rule that is tried first takes
more, unless the one is for reserved words and the other for names. So trying
the rules in their order finds the longest match, whatever the order in which
a search for the longest goes through them, and a tie goes to the reserved word.
-/

namespace ClassLang

open LexicalRule Text

/-- Of a list in which each element is related to those behind it, the first
that is found is related to all others that could have been. -/
theorem eq_or_rel_of_find? {α : Type} {relation : α → α → Prop} {test : α → Bool} {list : List α}
    {first other : α} (hpairs : list.Pairwise relation) (hfirst : list.find? test = some first)
    (hother : other ∈ list) (htest : test other = true) : other = first ∨ relation first other := by
  obtain ⟨_, before, after, rfl, hbefore⟩ := List.find?_eq_some_iff_append.mp hfirst
  rcases List.mem_append.mp hother with hmem | hmem
  · have hfails := hbefore other hmem
    rw [htest] at hfails
    cases hfails
  · rcases List.mem_cons.mp hmem with rfl | hmem
    · exact .inl rfl
    · have hbehind := (List.pairwise_append.mp hpairs).2.1
      exact .inr ((List.pairwise_cons.mp hbehind).1 other hmem)

/-- The rule for tokens of this kind. -/
def TokenKind.rule : TokenKind → LexicalRule
  | .identifier _ => .identifier
  | .keyword _ => .keyword
  | .separator _ => .separator
  | .literal (.int _) => .integer
  | .literal (.bool _) => .boolean
  | .typeName _ => .typeName
  | .operator _ => .operator

namespace LexicalRule

/-- A word ends where this is what comes behind it. -/
def EndsWord (after : List Char) : Prop := ∀ c, after.head? = some c → isWordChar c = false

/-- Whether the rule is for reserved words. -/
def isForReserved : LexicalRule → Bool
  | .keyword | .typeName | .boolean => true
  | _ => false

/-- Whether the rule takes whole words only. -/
def takesWords : LexicalRule → Bool
  | .illegalIdentifier | .keyword | .typeName | .boolean | .integer => true
  | .blank | .operator | .separator | .identifier => false

/-- What the rule by itself accepts with `after` behind it. -/
def Accepts (rule : LexicalRule) (run after : List Char) : Prop :=
  match rule with
  | .blank => IsRun isBlank [] run after
  | .illegalIdentifier => IsIllegalIdentifier run after
  | .keyword | .typeName | .boolean =>
      (∃ kind : TokenKind, kind.rule = rule ∧ run = kind.spelling.toList) ∧
        EndsWord after
  | .integer => run ≠ [] ∧ (∀ c ∈ run, c.isDigit = true) ∧ EndsWord after
  | .operator =>
      ∃ symbol : Operator, run = symbol.spelling.toList ∧
        ∀ other : Operator, other.spelling.toList <+: run ++ after →
          other.spelling.toList.length ≤ run.length
  | .separator => ∃ mark : Separator, run = [mark.char]
  | .identifier =>
      (∃ first rest, run = first :: rest ∧ first.isAlpha = true ∧
        ∀ c ∈ rest, c.isAlphanum = true) ∧
        ∀ c, after.head? = some c → c.isAlphanum = false

/-- The rule by itself accepts this much of the beginning of the text. -/
def Matches (rule : LexicalRule) (text run : List Char) : Prop :=
  ∃ after, text = run ++ after ∧ rule.Accepts run after

/-- The first rule that takes anything of the text. -/
def taken? (text : List Char) : Option LexicalRule :=
  all.find? fun rule => (rule.piece? text).isSome

theorem mem_all (rule : LexicalRule) : rule ∈ all := by
  cases rule <;> decide

section Accepts

variable {text run after : List Char} {piece : Piece}

theorem word_matches (text : List Char) :
    text = word text ++ text.dropWhile isWordChar ∧ EndsWord (text.dropWhile isWordChar) :=
  ⟨List.takeWhile_append_dropWhile.symm, fun _ hc => head?_dropWhile hc⟩

theorem isReservedWord_of_rule {rule : LexicalRule} {kind : TokenKind} (h : kind.rule = rule)
    (hrule : rule.isForReserved = true) : kind.isReservedWord = true := by
  cases kind with
  | literal value => cases value <;> cases h <;> first | rfl | cases hrule
  | keyword _ | typeName _ => rfl
  | identifier _ | separator _ | operator _ => cases h; cases hrule

/-- What a wrong word goes on with behind its digits is no digit. -/
theorem isDigit_of_startsLetters {c : Char} (h : c.isAlpha = true ∨ c = '_') :
    c.isDigit = false := by
  rcases h with halpha | rfl
  · exact isDigit_of_isAlpha halpha
  · rfl

theorem piece?_of_reserved {kind : TokenKind} (hkind : kind.isReservedWord = true)
    (hword : word text = kind.spelling.toList) :
    kind.rule.piece? text = some ⟨kind.spelling.toList, .token kind⟩ := by
  have hlookup {lookup : String → Option TokenKind} (hfound : lookup kind.spelling = some kind) :
      reservedWord? lookup text = some ⟨kind.spelling.toList, .token kind⟩ := by
    rw [reservedWord?, hword, String.ofList_toList, hfound]
    rfl
  cases kind with
  | keyword word =>
      rw [TokenKind.rule, piece?, keyword?]
      apply hlookup
      rw [TokenKind.spelling, Keyword.ofWord?_spelling]
      rfl
  | typeName name =>
      rw [TokenKind.rule, piece?, typeName?]
      apply hlookup
      rw [TokenKind.spelling, TypeName.ofWord?_spelling]
      rfl
  | literal value =>
      cases value with
      | bool value =>
          rw [TokenKind.rule, piece?, boolean?]
          apply hlookup
          rw [TokenKind.spelling, Literal.boolOfWord?_eq_some_iff.mpr rfl]
          rfl
      | int _ => cases hkind
  | identifier _ | separator _ | operator _ => cases hkind

theorem exists_reserved_of_piece? {rule : LexicalRule} (hrule : rule.isForReserved = true)
    (h : rule.piece? text = some piece) :
    ∃ kind : TokenKind, kind.rule = rule ∧ word text = kind.spelling.toList ∧
      piece.text = word text := by
  have hspelled {kind : TokenKind} (hspelling : kind.spelling = String.ofList (word text)) :
      word text = kind.spelling.toList := by
    rw [hspelling, String.toList_ofList]
  cases rule with
  | keyword =>
      obtain ⟨_, hkind, rfl⟩ := Option.map_eq_some_iff.mp h
      obtain ⟨keyword, hfound, rfl⟩ := Option.map_eq_some_iff.mp hkind
      exact ⟨.keyword keyword, rfl, hspelled (Keyword.ofWord?_eq_some_iff.mp hfound), rfl⟩
  | typeName =>
      obtain ⟨_, hkind, rfl⟩ := Option.map_eq_some_iff.mp h
      obtain ⟨name, hfound, rfl⟩ := Option.map_eq_some_iff.mp hkind
      exact ⟨.typeName name, rfl, hspelled (TypeName.ofWord?_eq_some_iff.mp hfound), rfl⟩
  | boolean =>
      obtain ⟨_, hkind, rfl⟩ := Option.map_eq_some_iff.mp h
      obtain ⟨value, hfound, rfl⟩ := Option.map_eq_some_iff.mp hkind
      exact ⟨.literal (.bool value), rfl, hspelled (Literal.boolOfWord?_eq_some_iff.mp hfound), rfl⟩
  | blank | illegalIdentifier | integer | operator | separator | identifier => cases hrule

/-- The operators are tried in an order in which none begins one behind it. -/
theorem pairwise_operators :
    Operator.all.Pairwise fun first second =>
      ¬ first.spelling.toList <+: second.spelling.toList := by
  decide

/-- So the operator that is found is the longest that the text begins with. -/
theorem find?_operator_iff {symbol : Operator} :
    Operator.all.find? (·.spelling.toList.isPrefixOf text) = some symbol ↔
      symbol.spelling.toList <+: text ∧ ∀ other : Operator, other.spelling.toList <+: text →
        other.spelling.toList.length ≤ symbol.spelling.toList.length := by
  have hlongest {found : Operator}
      (hfound : Operator.all.find? (·.spelling.toList.isPrefixOf text) = some found) :
      found.spelling.toList <+: text ∧ ∀ other : Operator, other.spelling.toList <+: text →
        other.spelling.toList.length ≤ found.spelling.toList.length := by
    have htest := List.find?_some hfound
    have hstart := List.isPrefixOf_iff_prefix.mp htest
    refine ⟨hstart, fun other hother => ?_⟩
    rcases eq_or_rel_of_find? pairwise_operators hfound other.mem_all
      (List.isPrefixOf_iff_prefix.mpr hother) with rfl | hnot
    · exact Nat.le_refl _
    · apply Nat.le_of_not_lt
      intro hlonger
      exact hnot (List.prefix_of_prefix_length_le hstart hother (Nat.le_of_lt hlonger))
  refine ⟨hlongest, fun ⟨hstart, hmax⟩ => ?_⟩
  cases hfound : Operator.all.find? (·.spelling.toList.isPrefixOf text) with
  | none =>
      have hnone := List.find?_eq_none.mp hfound symbol symbol.mem_all
      exact absurd (List.isPrefixOf_iff_prefix.mpr hstart) hnone
  | some found =>
      obtain ⟨hfoundStart, hfoundMax⟩ := hlongest hfound
      have hbegins := List.prefix_of_prefix_length_le hfoundStart hstart (hmax found hfoundStart)
      have hsame := hbegins.eq_of_length_le (hfoundMax symbol hstart)
      rw [Operator.spelling_inj (String.toList_injective hsame)]

/-- What a rule takes by itself is what it accepts. -/
theorem matches_of_piece? {rule : LexicalRule} (h : rule.piece? text = some piece) :
    rule.Matches text piece.text := by
  obtain ⟨hword, hends⟩ := word_matches text
  cases rule with
  | blank =>
      change blank? text = some piece at h
      unfold blank? at h
      split at h
      · cases h
      · next hne =>
          cases h
          refine ⟨text.dropWhile isBlank, List.takeWhile_append_dropWhile.symm, hne,
            fun _ hc => mem_takeWhile hc, fun c hc => ?_, fun _ hc => head?_dropWhile hc⟩
          cases hc
  | illegalIdentifier =>
      obtain ⟨after, htext, hfits, _⟩ := @isCut_illegalIdentifier? [] text piece h
      refine ⟨after, htext, ?_⟩
      change illegalIdentifier? text = some piece at h
      unfold illegalIdentifier? at h
      split at h
      · cases h
      · split at h
        · cases h
          exact hfits.2
        · cases h
  | keyword | typeName | boolean =>
      obtain ⟨kind, hkind, hspelling, hpiece⟩ := exists_reserved_of_piece? rfl h
      exact ⟨_, hpiece ▸ hword, ⟨kind, hkind, hpiece.trans hspelling⟩, hends⟩
  | integer =>
      change integer? text = some piece at h
      unfold integer? at h
      split at h
      · cases h
      · next hne =>
          split at h
          · next hdigits =>
              have hpiece : piece.text = word text := by
                dsimp only at h
                split at h <;> cases h <;> rfl
              refine ⟨_, hpiece ▸ hword, ?_⟩
              rw [hpiece]
              exact ⟨hne, List.all_eq_true.mp hdigits, hends⟩
          · cases h
  | operator =>
      obtain ⟨symbol, hfound, rfl⟩ := Option.map_eq_some_iff.mp h
      obtain ⟨⟨after, hafter⟩, hlongest⟩ := find?_operator_iff.mp hfound
      exact ⟨after, hafter.symm, symbol, rfl, fun other hother => hlongest other (hafter ▸ hother)⟩
  | separator =>
      cases text with
      | nil => cases h
      | cons c rest =>
          obtain ⟨mark, hmark, rfl⟩ := Option.map_eq_some_iff.mp h
          exact ⟨rest, rfl, mark, by rw [Separator.ofChar?_eq_some_iff.mp hmark]⟩
  | identifier =>
      cases text with
      | nil => cases h
      | cons c rest =>
          change identifier? (c :: rest) = some piece at h
          simp only [identifier?] at h
          split at h
          · next hc =>
              cases h
              refine ⟨rest.dropWhile Char.isAlphanum, ?_, ⟨c, _, rfl, hc, ?_⟩, ?_⟩
              · rw [List.cons_append, List.takeWhile_append_dropWhile]
              · exact fun _ hd => mem_takeWhile hd
              · exact fun _ hd => head?_dropWhile hd
          · cases h

theorem word_eq_of_accepts {rule : LexicalRule} (hrule : rule.takesWords = true)
    (h : rule.Accepts run after) : word (run ++ after) = run := by
  have hwhole (hrun : ∀ c ∈ run, isWordChar c = true) (hafter : EndsWord after) :
      word (run ++ after) = run := takeWhile_run_append hrun hafter
  cases rule with
  | illegalIdentifier =>
      obtain ⟨digits, first, rest, rfl, _, hdigits, hfirst, hrest, hafter⟩ := h
      refine hwhole (fun c hc => ?_) hafter
      rcases List.mem_append.mp hc with hc | hc
      · exact isWordChar_of_isAlphanum (isAlphanum_of_isDigit (hdigits c hc))
      · rcases List.mem_cons.mp hc with rfl | hc
        · rcases hfirst with halpha | rfl
          · exact isWordChar_of_isAlphanum (isAlphanum_of_isAlpha halpha)
          · rfl
        · exact hrest c hc
  | keyword | typeName | boolean =>
      obtain ⟨⟨kind, hkind, rfl⟩, hafter⟩ := h
      have hchars := TokenKind.isAlphanum_of_isReservedWord (isReservedWord_of_rule hkind rfl)
      exact hwhole (fun c hc => isWordChar_of_isAlphanum (hchars c hc)) hafter
  | integer =>
      obtain ⟨_, hdigits, hafter⟩ := h
      exact hwhole (fun c hc => isWordChar_of_isAlphanum (isAlphanum_of_isDigit (hdigits c hc)))
        hafter
  | blank | operator | separator | identifier => cases hrule

/-- And it takes whatever it accepts. -/
theorem exists_piece?_of_matches {rule : LexicalRule} (h : rule.Matches text run) :
    ∃ lexeme, rule.piece? text = some ⟨run, lexeme⟩ := by
  obtain ⟨after, rfl, haccepts⟩ := h
  cases rule with
  | blank =>
      have hrun : (run ++ after).takeWhile isBlank = run :=
        takeWhile_run_append haccepts.inside haccepts.right
      obtain ⟨c, rest, rfl⟩ := List.exists_cons_of_ne_nil haccepts.ne_nil
      exact ⟨.blank, by rw [piece?, blank?, hrun]⟩
  | illegalIdentifier =>
      have hword := word_eq_of_accepts rfl haccepts
      obtain ⟨digits, first, rest, rfl, hne, hdigits, hfirst, _⟩ := haccepts
      obtain ⟨d, more, rfl⟩ := List.exists_cons_of_ne_nil hne
      have hnot := isDigit_of_startsLetters hfirst
      exact ⟨_, illegalIdentifier?_of_word hword (hdigits d List.mem_cons_self) (by simp [hnot])⟩
  | keyword | typeName | boolean =>
      have hword := word_eq_of_accepts rfl haccepts
      obtain ⟨⟨kind, hkind, rfl⟩, _⟩ := haccepts
      exact ⟨_, hkind ▸ piece?_of_reserved (isReservedWord_of_rule hkind rfl) hword⟩
  | integer =>
      have hword := word_eq_of_accepts rfl haccepts
      obtain ⟨hne, hdigits, _⟩ := haccepts
      rcases Nat.lt_or_ge maxInteger (decimalValue run) with hlarge | hsmall
      · exact ⟨_, integer?_of_large hword hne hdigits hlarge⟩
      · exact ⟨_, integer?_of_digits hword hne hdigits hsmall⟩
  | operator =>
      obtain ⟨symbol, rfl, hlongest⟩ := haccepts
      have hfound := find?_operator_iff.mpr ⟨List.prefix_append _ after, hlongest⟩
      exact ⟨.token (.operator symbol), by rw [piece?, operator?, hfound]; rfl⟩
  | separator =>
      obtain ⟨mark, rfl⟩ := haccepts
      refine ⟨.token (.separator mark), ?_⟩
      rw [piece?, List.singleton_append, separator?, Separator.ofChar?_char]
      rfl
  | identifier =>
      obtain ⟨⟨first, rest, rfl, hfirst, hrest⟩, hafter⟩ := haccepts
      have hname : (rest ++ after).takeWhile Char.isAlphanum = rest :=
        takeWhile_run_append hrest hafter
      refine ⟨.token (.identifier (String.ofList (first :: rest))), ?_⟩
      simp only [piece?, List.cons_append, identifier?, hfirst, hname, if_true]

end Accepts

/-- The classes of characters that the rules tell apart at the beginning of a
text. -/
inductive Opening where
  | blank
  | digit
  | letter
  | mark
deriving DecidableEq

/-- The class of a character; the underscore, which begins nothing, is with the
marks. -/
def Opening.ofChar (c : Char) : Opening :=
  if isBlank c then .blank
  else if c.isDigit then .digit
  else if c.isAlpha then .letter
  else .mark

/-- What the texts begin with that the rule accepts. -/
def opening : LexicalRule → Opening
  | .blank => .blank
  | .illegalIdentifier | .integer => .digit
  | .keyword | .typeName | .boolean | .identifier => .letter
  | .operator | .separator => .mark

section Openings

variable {text run after : List Char} {c : Char}

theorem Opening.ofChar_of_isDigit (h : c.isDigit = true) : ofChar c = .digit := by
  simp [ofChar, isBlank_of_isDigit h, h]

theorem Opening.ofChar_of_isAlpha (h : c.isAlpha = true) : ofChar c = .letter := by
  simp [ofChar, isBlank_eq_false_of_isAlphanum (isAlphanum_of_isAlpha h), isDigit_of_isAlpha h, h]

theorem Opening.ofChar_of_mark (h : isBlank c = false ∧ c.isAlphanum = false) :
    ofChar c = .mark := by
  have hnone := Bool.or_eq_false_iff.mp h.2
  simp [ofChar, h.1, hnone.1, hnone.2]

theorem Accepts.opening {rule : LexicalRule} (h : rule.Accepts run after) :
    ∃ c rest, run = c :: rest ∧ Opening.ofChar c = rule.opening := by
  cases rule with
  | blank =>
      obtain ⟨c, rest, rfl⟩ := List.exists_cons_of_ne_nil h.ne_nil
      exact ⟨c, rest, rfl, if_pos (h.inside c List.mem_cons_self)⟩
  | illegalIdentifier =>
      obtain ⟨digits, first, rest, rfl, hne, hdigits, _⟩ := h
      obtain ⟨c, more, rfl⟩ := List.exists_cons_of_ne_nil hne
      exact ⟨c, _, rfl, Opening.ofChar_of_isDigit (hdigits c List.mem_cons_self)⟩
  | keyword | typeName | boolean =>
      obtain ⟨⟨kind, hkind, rfl⟩, _⟩ := h
      obtain ⟨c, rest, hspelling, hc⟩ :=
        TokenKind.exists_isAlpha_of_isReservedWord (isReservedWord_of_rule hkind rfl)
      exact ⟨c, rest, hspelling, Opening.ofChar_of_isAlpha hc⟩
  | integer =>
      obtain ⟨hne, hdigits, _⟩ := h
      obtain ⟨c, rest, rfl⟩ := List.exists_cons_of_ne_nil hne
      exact ⟨c, rest, rfl, Opening.ofChar_of_isDigit (hdigits c List.mem_cons_self)⟩
  | operator =>
      obtain ⟨symbol, rfl, _⟩ := h
      obtain ⟨c, rest, hspelling⟩ := List.exists_cons_of_ne_nil (operator_spelling_ne_nil symbol)
      have hc := operator_spelling_chars symbol c (hspelling ▸ List.mem_cons_self)
      exact ⟨c, rest, hspelling, Opening.ofChar_of_mark hc⟩
  | separator =>
      obtain ⟨mark, rfl⟩ := h
      exact ⟨mark.char, [], rfl, Opening.ofChar_of_mark (separator_char mark)⟩
  | identifier =>
      obtain ⟨⟨c, rest, rfl, hc, _⟩, _⟩ := h
      exact ⟨c, rest, rfl, Opening.ofChar_of_isAlpha hc⟩

/-- Only rules of one class come into question for a text. -/
theorem opening_eq_of_matches {rule other : LexicalRule} {run' : List Char}
    (h : rule.Matches text run) (h' : other.Matches text run') : rule.opening = other.opening := by
  obtain ⟨after, rfl, haccepts⟩ := h
  obtain ⟨after', htext, haccepts'⟩ := h'
  obtain ⟨c, rest, rfl, hc⟩ := haccepts.opening
  obtain ⟨c', rest', rfl, hc'⟩ := haccepts'.opening
  rw [List.cons_append, List.cons_append, List.cons.injEq] at htext
  rw [← hc, ← hc', htext.1]

end Openings

/-- The first rule takes more of the text than the second or, being for reserved
words, as much as the rule for names. -/
def Outdoes (text : List Char) (first second : LexicalRule) : Prop :=
  ∀ run run', first.Matches text run → second.Matches text run' →
    run'.length < run.length ∨
      (run'.length = run.length ∧ first.isForReserved = true ∧ second = .identifier)

section Pairs

variable {text : List Char}

theorem word_eq_of_matches {rule : LexicalRule} {run : List Char} (hrule : rule.takesWords = true)
    (h : rule.Matches text run) : word text = run := by
  obtain ⟨after, rfl, haccepts⟩ := h
  exact word_eq_of_accepts hrule haccepts

/-- The word of an integer has digits only, and an illegal one has not. -/
theorem outdoes_illegalIdentifier_integer : Outdoes text .illegalIdentifier .integer := by
  intro run run' hillegal hinteger
  have hword := word_eq_of_matches rfl hillegal
  rw [word_eq_of_matches rfl hinteger] at hword
  obtain ⟨_, _, digits, first, rest, hrun, _, _, hfirst, _⟩ := hillegal
  obtain ⟨_, _, _, hdigits, _⟩ := hinteger
  have hdigit := hdigits first (by rw [hword, hrun]; simp)
  rw [isDigit_of_startsLetters hfirst] at hdigit
  cases hdigit

/-- No word is reserved by two rules. -/
theorem outdoes_reserved_reserved {rule other : LexicalRule} (hrule : rule.isForReserved = true)
    (hother : other.isForReserved = true) (hne : rule ≠ other) : Outdoes text rule other := by
  have hspelled {rule : LexicalRule} {run : List Char} (hrule : rule.isForReserved = true)
      (h : rule.Matches text run) : ∃ kind : TokenKind, kind.rule = rule ∧
        kind.isReservedWord = true ∧ word text = kind.spelling.toList := by
    obtain ⟨lexeme, hpiece⟩ := exists_piece?_of_matches h
    obtain ⟨kind, hkind, hspelling, _⟩ := exists_reserved_of_piece? hrule hpiece
    exact ⟨kind, hkind, isReservedWord_of_rule hkind hrule, hspelling⟩
  intro run run' h h'
  obtain ⟨kind, rfl, hkind, hword⟩ := hspelled hrule h
  obtain ⟨kind', rfl, hkind', hword'⟩ := hspelled hother h'
  have hsame := reserved_of_spelling hkind hword
  rw [reserved_of_spelling hkind' hword'] at hsame
  have heq : kind' = kind := Lexeme.token.inj (Piece.mk.inj (Option.some.inj hsame)).2
  exact absurd (congrArg TokenKind.rule heq.symm) hne

/-- A name is part of the word that it begins. -/
theorem outdoes_reserved_identifier {rule : LexicalRule} (hrule : rule.isForReserved = true) :
    Outdoes text rule .identifier := by
  intro run run' h h'
  have hword : word text = run := by
    apply word_eq_of_matches _ h
    cases rule <;> first | rfl | cases hrule
  obtain ⟨after, rfl, ⟨c, rest, rfl, hc, hrest⟩, _⟩ := h'
  have hchars : ∀ d ∈ c :: rest, isWordChar d = true := by
    intro d hd
    rcases List.mem_cons.mp hd with rfl | hd
    · exact isWordChar_of_isAlphanum (isAlphanum_of_isAlpha hc)
    · exact isWordChar_of_isAlphanum (hrest d hd)
  have hlength := congrArg List.length hword
  rw [word, List.takeWhile_append_of_pos hchars, List.length_append] at hlength
  rcases Nat.lt_or_ge (c :: rest).length run.length with hless | hge
  · exact .inl hless
  · exact .inr ⟨by omega, hrule, rfl⟩

/-- The only separator that an operator begins with is doubled in it. -/
theorem outdoes_operator_separator : Outdoes text .operator .separator := by
  rintro _ _ ⟨after, rfl, symbol, rfl, _⟩ ⟨after', htext, mark, rfl⟩
  have hhead : symbol.spelling.toList.head? = some mark.char := by
    obtain ⟨c, rest, hspelling⟩ := List.exists_cons_of_ne_nil (operator_spelling_ne_nil symbol)
    rw [hspelling, List.cons_append, List.singleton_append, List.cons.injEq] at htext
    rw [hspelling, List.head?_cons, htext.1]
  obtain ⟨rfl, rfl⟩ := operator_head_separator hhead
  exact .inl (by decide)

/-- The pairs of rules that begin alike, the first of them tried earlier. -/
theorem pair_of_opening_eq {rule other : LexicalRule} (h : rule.opening = other.opening)
    (hbefore : all.idxOf rule < all.idxOf other) :
    (rule = .illegalIdentifier ∧ other = .integer) ∨
      (rule.isForReserved = true ∧ other.isForReserved = true ∧ rule ≠ other) ∨
      (rule.isForReserved = true ∧ other = .identifier) ∨
      (rule = .operator ∧ other = .separator) := by
  revert h hbefore
  cases rule <;> cases other <;> decide

theorem outdoes_of_before {rule other : LexicalRule}
    (hbefore : all.idxOf rule < all.idxOf other) : Outdoes text rule other := by
  intro run run' h h'
  rcases pair_of_opening_eq (opening_eq_of_matches h h') hbefore with
    ⟨rfl, rfl⟩ | ⟨hrule, hother, hne⟩ | ⟨hrule, rfl⟩ | ⟨rfl, rfl⟩
  · exact outdoes_illegalIdentifier_integer run run' h h'
  · exact outdoes_reserved_reserved hrule hother hne run run' h h'
  · exact outdoes_reserved_identifier hrule run run' h h'
  · exact outdoes_operator_separator run run' h h'

/-- Each rule outdoes those that are tried after it. -/
theorem pairwise_outdoes (text : List Char) : all.Pairwise (Outdoes text) := by
  have hbefore : all.Pairwise fun rule other => all.idxOf rule < all.idxOf other := by decide
  exact hbefore.imp outdoes_of_before

end Pairs

/-- The rule that is taken outdoes all others. -/
theorem outdoes_of_taken? {text : List Char} {rule other : LexicalRule}
    (h : taken? text = some rule) (hne : rule ≠ other) : Outdoes text rule other := by
  intro run run' hrun hrun'
  obtain ⟨lexeme, hpiece⟩ := exists_piece?_of_matches hrun'
  have htakes : (other.piece? text).isSome = true := by rw [hpiece, Option.isSome_some]
  rcases eq_or_rel_of_find? (pairwise_outdoes text) h other.mem_all htakes with heq | houtdoes
  · exact absurd heq.symm hne
  · exact houtdoes run run' hrun hrun'

theorem exists_piece?_of_taken? {text : List Char} {rule : LexicalRule}
    (h : taken? text = some rule) : ∃ piece, rule.piece? text = some piece := by
  have htakes := List.find?_some h
  exact Option.isSome_iff_exists.mp htakes

theorem exists_taken?_iff {text : List Char} :
    (∃ rule, taken? text = some rule) ↔ ∃ (rule : LexicalRule) (run : List Char),
      rule.Matches text run := by
  rw [← Option.isSome_iff_exists, taken?, List.find?_isSome]
  constructor
  · rintro ⟨rule, _, htakes⟩
    obtain ⟨piece, hpiece⟩ := Option.isSome_iff_exists.mp htakes
    exact ⟨rule, piece.text, matches_of_piece? hpiece⟩
  · rintro ⟨rule, run, hrun⟩
    obtain ⟨lexeme, hpiece⟩ := exists_piece?_of_matches hrun
    exact ⟨rule, rule.mem_all, Option.isSome_iff_exists.mpr ⟨_, hpiece⟩⟩

end LexicalRule

namespace Piece

/-- The first piece is that of the rule which is taken. -/
theorem ofRules?_eq_some_iff {text : List Char} {piece : Piece} :
    ofRules? text = some piece ↔
      ∃ rule, taken? text = some rule ∧ rule.piece? text = some piece := by
  unfold ofRules? taken?
  generalize LexicalRule.all = rules
  induction rules with
  | nil => simp
  | cons rule rules ih =>
      rw [List.findSome?_cons, List.find?_cons]
      cases hpiece : rule.piece? text with
      | none => exact ih
      | some found => simp [hpiece]

end Piece

/-- What a rule takes of a text, and the rule. -/
structure Match where
  rule : LexicalRule
  piece : Piece

namespace Match

/-- One match is preferred to another if it is longer, or if it is as long and
a reserved word. -/
def beats (one other : Match) : Bool :=
  decide (other.piece.text.length < one.piece.text.length) ||
    (other.piece.text.length == one.piece.text.length && one.rule.isForReserved)

/-- The match of one of these rules that no other is preferred to. -/
def best? (text : List Char) : List LexicalRule → Option Match
  | [] => none
  | rule :: rules =>
    match rule.piece? text, best? text rules with
    | none, best => best
    | some piece, none => some ⟨rule, piece⟩
    | some piece, some best => some (if best.beats ⟨rule, piece⟩ then best else ⟨rule, piece⟩)

end Match

/-- The longest piece that one of these rules takes. -/
def Piece.longest? (rules : List LexicalRule) (text : List Char) : Option Piece :=
  (Match.best? text rules).map Match.piece

/-- The pieces of a text, cut off one after the other by `take?`; where it takes
nothing, one character is left over. The first `skip` characters are already
part of a piece. -/
def Piece.cutBy (take? : List Char → Option Piece) (skip : Nat) : List Char → List Piece
  | [] => []
  | c :: rest =>
      match skip with
      | skip + 1 => cutBy take? skip rest
      | 0 =>
          let piece := (take? (c :: rest)).getD ⟨[c], .malformed (.unexpectedCharacter c)⟩
          piece :: cutBy take? (piece.text.length - 1) rest

/-- Scanning by the longest match instead of the first rule. -/
def Scan.byLength (rules : List LexicalRule) (source : String) : Scan :=
  .ofPlaced (PlacedPiece.layOut 0 (Piece.cutBy (Piece.longest? rules) 0 source.toList))

namespace Match

variable {text : List Char} {rules : List LexicalRule}

theorem piece?_of_best? {best : Match} (h : best? text rules = some best) :
    best.rule.piece? text = some best.piece := by
  induction rules generalizing best with
  | nil => cases h
  | cons rule rules ih =>
      unfold best? at h
      split at h
      · exact ih h
      · next piece hpiece _ =>
          cases h
          exact hpiece
      · next piece found hpiece hfound =>
          obtain rfl := Option.some.inj h
          split
          · exact ih hfound
          · exact hpiece

theorem beats_of_outdoes {rule other : LexicalRule} {piece piece' : Piece}
    (h : Outdoes text rule other) (hpiece : rule.piece? text = some piece)
    (hpiece' : other.piece? text = some piece') :
    beats ⟨rule, piece⟩ ⟨other, piece'⟩ = true ∧
      beats ⟨other, piece'⟩ ⟨rule, piece⟩ = false := by
  rcases h _ _ (matches_of_piece? hpiece) (matches_of_piece? hpiece') with
    hless | ⟨hequal, hreserved, rfl⟩
  · have hnotLess : ¬ piece.text.length < piece'.text.length := by omega
    have hne : piece.text.length ≠ piece'.text.length := by omega
    simp [beats, hless, hnotLess, hne]
  · have hname : LexicalRule.identifier.isForReserved = false := rfl
    simp [beats, hequal, hreserved, hname]

/-- The match of the rule that is taken is the one that is preferred, in
whichever order the rules are gone through. -/
theorem best?_eq_of_taken? {rule : LexicalRule} {piece : Piece} (h : taken? text = some rule)
    (hpiece : rule.piece? text = some piece) (hmem : rule ∈ rules) :
    best? text rules = some ⟨rule, piece⟩ := by
  have hbeats {other : LexicalRule} {piece' : Piece} (hne : rule ≠ other)
      (hpiece' : other.piece? text = some piece') :=
    beats_of_outdoes (outdoes_of_taken? h hne) hpiece hpiece'
  induction rules with
  | nil => cases hmem
  | cons head rules ih =>
      unfold best?
      by_cases hhead : rule = head
      · subst hhead
        rw [hpiece]
        cases hbest : best? text rules with
        | none => rfl
        | some best =>
            obtain ⟨other, piece'⟩ := best
            have hpiece' := piece?_of_best? hbest
            by_cases hother : rule = other
            · subst hother
              obtain rfl : piece' = piece := Option.some.inj (hpiece'.symm.trans hpiece)
              simp
            · simp [(hbeats hother hpiece').2]
      · rw [ih ((List.mem_cons.mp hmem).resolve_left hhead)]
        cases hpiece' : head.piece? text with
        | none => rfl
        | some piece' => simp [(hbeats hhead hpiece').1]

end Match

namespace Piece

theorem longest?_eq_ofRules? {rules : List LexicalRule} (hrules : ∀ rule, rule ∈ rules)
    (text : List Char) : longest? rules text = ofRules? text := by
  cases htaken : taken? text with
  | some rule =>
      obtain ⟨piece, hpiece⟩ := exists_piece?_of_taken? htaken
      rw [ofRules?_eq_some_iff.mpr ⟨rule, htaken, hpiece⟩, longest?,
        Match.best?_eq_of_taken? htaken hpiece (hrules rule)]
      rfl
  | none =>
      have hnone {rule : LexicalRule} {piece : Piece} : rule.piece? text ≠ some piece := by
        intro hpiece
        obtain ⟨taken, hsome⟩ := exists_taken?_iff.mpr ⟨rule, _, matches_of_piece? hpiece⟩
        rw [htaken] at hsome
        cases hsome
      have hbest : Match.best? text rules = none := by
        rw [Option.eq_none_iff_forall_ne_some]
        exact fun best hbest => hnone (Match.piece?_of_best? hbest)
      rw [longest?, hbest, Option.map_none, eq_comm, Option.eq_none_iff_forall_ne_some]
      intro piece hpiece
      obtain ⟨rule, _, hrule⟩ := ofRules?_eq_some_iff.mp hpiece
      exact hnone hrule

theorem cutBy_ofRules? (skip : Nat) (text : List Char) :
    cutBy ofRules? skip text = allAfter skip text := by
  induction text generalizing skip with
  | nil => rfl
  | cons c rest ih =>
      cases skip with
      | zero => simp only [cutBy, allAfter, first, ih]
      | succ skip => exact ih skip

end Piece

theorem Scan.byLength_eq {rules : List LexicalRule} (hrules : ∀ rule, rule ∈ rules)
    (source : String) : byLength rules source = scan source := by
  have hlongest : Piece.longest? rules = Piece.ofRules? :=
    funext (Piece.longest?_eq_ofRules? hrules)
  rw [byLength, hlongest, Piece.cutBy_ofRules?]
  rfl

namespace LexicalRule

variable {text : List Char} {rule other : LexicalRule} {run run' : List Char}

/-- No rule accepts more than the one that is taken. -/
theorem length_le_of_taken? {piece : Piece} (h : taken? text = some rule)
    (hpiece : rule.piece? text = some piece) (hrun : other.Matches text run) :
    run.length ≤ piece.text.length := by
  by_cases hne : rule = other
  · subst hne
    obtain ⟨lexeme, hsame⟩ := exists_piece?_of_matches hrun
    rw [hpiece] at hsame
    rw [Option.some.inj hsame]
  · rcases outdoes_of_taken? h hne _ _ (matches_of_piece? hpiece) hrun with hless | ⟨hequal, _⟩
    · exact Nat.le_of_lt hless
    · exact Nat.le_of_eq hequal

theorem tie_of_matches (hne : rule ≠ other) (hrun : rule.Matches text run)
    (hrun' : other.Matches text run') (hlength : run.length = run'.length) :
    (rule.isForReserved = true ∧ other = .identifier) ∨
      (rule = .identifier ∧ other.isForReserved = true) := by
  rcases Nat.lt_trichotomy (all.idxOf rule) (all.idxOf other) with hless | hequal | hless
  · rcases outdoes_of_before hless run run' hrun hrun' with hshort | ⟨_, hreserved, hname⟩
    · omega
    · exact .inl ⟨hreserved, hname⟩
  · exact absurd ((List.idxOf_inj rule.mem_all).mp hequal) hne
  · rcases outdoes_of_before hless run' run hrun' hrun with hshort | ⟨_, hreserved, hname⟩
    · omega
    · exact .inr ⟨hname, hreserved⟩

end LexicalRule

theorem Piece.exists_ofRules?_iff {text : List Char} :
    (∃ piece, ofRules? text = some piece) ↔
      ∃ (rule : LexicalRule) (run : List Char), rule.Matches text run := by
  rw [← exists_taken?_iff]
  constructor
  · rintro ⟨piece, hpiece⟩
    obtain ⟨rule, htaken, _⟩ := ofRules?_eq_some_iff.mp hpiece
    exact ⟨rule, htaken⟩
  · rintro ⟨rule, htaken⟩
    obtain ⟨piece, hpiece⟩ := exists_piece?_of_taken? htaken
    exact ⟨piece, ofRules?_eq_some_iff.mpr ⟨rule, htaken, hpiece⟩⟩

/-- The first rule that takes something is the one that takes most. There is one
if any rule by itself accepts the beginning of the text; two rules accept as much
only if the one is for reserved words and the other for names. So whoever looks
for the longest match, and gives a tie to the reserved word, scans alike. -/
theorem first_rule_is_longest_match (text : List Char) :
    ((∃ piece, Piece.ofRules? text = some piece) ↔
      ∃ (rule : LexicalRule) (run : List Char), rule.Matches text run) ∧
    (∀ piece, Piece.ofRules? text = some piece →
      ∃ rule, taken? text = some rule ∧ rule.piece? text = some piece ∧
        rule.Matches text piece.text ∧
        ∀ (other : LexicalRule) (run : List Char), other.Matches text run →
          run.length ≤ piece.text.length) ∧
    (∀ (rule other : LexicalRule) (run run' : List Char), rule ≠ other →
      rule.Matches text run → other.Matches text run' → run.length = run'.length →
        (rule.isForReserved = true ∧ other = .identifier) ∨
          (rule = .identifier ∧ other.isForReserved = true)) ∧
    ∀ rules : List LexicalRule, (∀ rule, rule ∈ rules) →
      Piece.longest? rules text = Piece.ofRules? text ∧
        Scan.byLength rules (String.ofList text) = scan (String.ofList text) := by
  refine ⟨Piece.exists_ofRules?_iff, fun piece hpiece => ?_, ?_, ?_⟩
  · obtain ⟨rule, htaken, hrule⟩ := Piece.ofRules?_eq_some_iff.mp hpiece
    exact ⟨rule, htaken, hrule, matches_of_piece? hrule,
      fun _ _ hrun => length_le_of_taken? htaken hrule hrun⟩
  · intro rule other run run' hne hrun hrun' hlength
    exact tie_of_matches hne hrun hrun' hlength
  · intro rules hrules
    exact ⟨Piece.longest?_eq_ofRules? hrules text, Scan.byLength_eq hrules _⟩

/-- `int;`: a tie between the name of a type and a name, searched in the other
direction. -/
theorem first_rule_is_longest_match_tie :
    LexicalRule.typeName.Matches "int;".toList "int".toList ∧
      LexicalRule.identifier.Matches "int;".toList "int".toList ∧
      ((LexicalRule.typeName.isForReserved = true ∧
          LexicalRule.identifier = LexicalRule.identifier) ∨
        (LexicalRule.typeName = LexicalRule.identifier ∧
          LexicalRule.identifier.isForReserved = true)) ∧
      (∃ rule, taken? "int;".toList = some rule ∧
        ∀ (other : LexicalRule) (run : List Char), other.Matches "int;".toList run →
          run.length ≤ "int".toList.length) ∧
      (∀ rule, rule ∈ all.reverse) ∧ Scan.byLength all.reverse "int;" = scan "int;" := by
  have htype : LexicalRule.typeName.Matches "int;".toList "int".toList :=
    @matches_of_piece? _ ⟨"int".toList, .token (.typeName .int)⟩ .typeName rfl
  have hname : LexicalRule.identifier.Matches "int;".toList "int".toList :=
    @matches_of_piece? _ ⟨"int".toList, .token (.identifier "int")⟩ .identifier rfl
  have hall (rule : LexicalRule) : rule ∈ all.reverse := List.mem_reverse.mpr rule.mem_all
  obtain ⟨_, hlongest, htie, hscan⟩ := first_rule_is_longest_match "int;".toList
  refine ⟨htype, hname, htie _ _ _ _ (by decide) htype hname rfl, ?_, hall, (hscan _ hall).2⟩
  obtain ⟨rule, htaken, _, _, hmax⟩ :=
    hlongest ⟨"int".toList, .token (.typeName .int)⟩ rfl
  exact ⟨rule, htaken, hmax⟩

end ClassLang
