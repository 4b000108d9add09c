import ClassLang.Proofs.Partition

/-!
What the first piece of a text is, as far as the characters that it begins with
tell. A word and a mark concern different rules: a rule for words takes nothing
where no word begins, and a rule for marks nothing where one does. So of the
nine rules only few are left to try in either case.
-/

namespace ClassLang

open LexicalRule Text

namespace LexicalRule

variable {text : List Char}

theorem isBlank_eq_false_of_isAlphanum {c : Char} (h : c.isAlphanum = true) : isBlank c = false :=
  isBlank_of_isWordChar (isWordChar_of_isAlphanum h)

theorem blank?_eq_none {c : Char} {rest : List Char} (h : isBlank c = false) :
    blank? (c :: rest) = none := by
  simp [blank?, h]

theorem takeWhile_run_append {ofClass : Char → Bool} {run after : List Char}
    (hrun : ∀ c ∈ run, ofClass c = true) (hafter : ∀ c, after.head? = some c → ofClass c = false) :
    (run ++ after).takeWhile ofClass = run := by
  rw [List.takeWhile_append_of_pos hrun]
  cases after with
  | nil => simp
  | cons c rest => simp [hafter c rfl]

theorem word_eq_nil {c : Char} {rest : List Char} (h : isWordChar c = false) :
    word (c :: rest) = [] := by
  simp [word, h]

theorem illegalIdentifier?_eq_none
    (h : ∀ first rest, word text = first :: rest → first.isDigit = true →
      rest.all Char.isDigit = true) : illegalIdentifier? text = none := by
  unfold illegalIdentifier?
  split
  · rfl
  · next first rest hword =>
      rw [if_neg]
      rw [Bool.and_eq_true, Bool.not_eq_true', not_and, Bool.not_eq_false]
      exact h first rest hword

theorem illegalIdentifier?_of_word {first : Char} {rest : List Char}
    (hword : word text = first :: rest) (hfirst : first.isDigit = true)
    (hrest : rest.all Char.isDigit = false) :
    illegalIdentifier? text = some ⟨first :: rest,
      .malformed (.illegalIdentifier (String.ofList (first :: rest)))⟩ := by
  simp [illegalIdentifier?, hword, hfirst, hrest]

/-- A word that no reserved word spells is taken by none of their rules. -/
theorem reserved_eq_none
    (h : ∀ kind : TokenKind, kind.isReservedWord = true →
      kind.spelling ≠ String.ofList (word text)) :
    keyword? text = none ∧ typeName? text = none ∧ boolean? text = none := by
  simp only [keyword?, typeName?, boolean?, reservedWord?, Option.map_eq_none_iff]
  simp only [Option.eq_none_iff_forall_ne_some]
  refine ⟨fun keyword hfound => ?_, fun name hfound => ?_, fun value hfound => ?_⟩
  · exact h (.keyword keyword) rfl (Keyword.ofWord?_eq_some_iff.mp hfound)
  · exact h (.typeName name) rfl (TypeName.ofWord?_eq_some_iff.mp hfound)
  · exact h (.literal (.bool value)) rfl (Literal.boolOfWord?_eq_some_iff.mp hfound)

/-- Every reserved word begins with a letter. -/
theorem reserved_eq_none_of_not_isAlpha
    (h : ∀ first rest, word text = first :: rest → first.isAlpha = false) :
    keyword? text = none ∧ typeName? text = none ∧ boolean? text = none := by
  apply reserved_eq_none
  intro kind hkind hsame
  obtain ⟨first, rest, hspelling, halpha⟩ := TokenKind.exists_isAlpha_of_isReservedWord hkind
  rw [hsame, String.toList_ofList] at hspelling
  rw [h first rest hspelling] at halpha
  cases halpha

/-- A reserved word is taken by its own rule or by none in front of it. -/
theorem reserved_of_spelling {kind : TokenKind} (hkind : kind.isReservedWord = true)
    (hword : word text = kind.spelling.toList) :
    (keyword? text).or ((typeName? text).or (boolean? text)) =
      some ⟨kind.spelling.toList, .token kind⟩ := by
  simp only [keyword?, typeName?, boolean?, reservedWord?, hword, String.ofList_toList]
  cases kind with
  | keyword word => cases word <;> rfl
  | typeName name => cases name <;> rfl
  | literal value =>
      cases value with
      | bool value => cases value <;> rfl
      | int value => cases hkind
  | identifier name => cases hkind
  | separator mark => cases hkind
  | operator symbol => cases hkind

theorem integer?_eq_none (h : ∀ first rest, word text = first :: rest → first.isDigit = false) :
    integer? text = none := by
  unfold integer?
  split
  · rfl
  · next hne =>
      obtain ⟨first, rest, hword⟩ := List.exists_cons_of_ne_nil hne
      rw [if_neg]
      simp [hword, h first rest hword]

theorem integer?_of_digits {digits : List Char} (hword : word text = digits) (hne : digits ≠ [])
    (hdigits : ∀ c ∈ digits, c.isDigit = true) (hbound : decimalValue digits ≤ maxInteger) :
    integer? text =
      some ⟨digits, .token (.literal (.int (Int64.ofNat (decimalValue digits))))⟩ := by
  unfold integer?
  split
  · next hnil => exact absurd (hword.symm.trans hnil) hne
  · rw [hword, if_pos (List.all_eq_true.mpr hdigits), if_pos hbound]

theorem integer?_of_large {digits : List Char} (hword : word text = digits) (hne : digits ≠ [])
    (hdigits : ∀ c ∈ digits, c.isDigit = true) (hlarge : maxInteger < decimalValue digits) :
    integer? text = some ⟨digits, .malformed (.integerOutOfRange (String.ofList digits))⟩ := by
  unfold integer?
  split
  · next hnil => exact absurd (hword.symm.trans hnil) hne
  · rw [hword, if_pos (List.all_eq_true.mpr hdigits), if_neg (Nat.not_le.mpr hlarge)]

theorem operator?_eq_none (h : ∀ symbol : Operator, ¬ symbol.spelling.toList <+: text) :
    operator? text = none := by
  simp only [operator?, Option.map_eq_none_iff, List.find?_eq_none]
  intro symbol _ hstart
  exact h symbol (List.isPrefixOf_iff_prefix.mp hstart)

theorem separator?_eq_none {c : Char} {rest : List Char} (h : ∀ mark : Separator, mark.char ≠ c) :
    separator? (c :: rest) = none := by
  rw [separator?, Option.map_eq_none_iff, Option.eq_none_iff_forall_ne_some]
  intro mark hmark
  exact h mark (Separator.ofChar?_eq_some_iff.mp hmark)

theorem isWordChar_separator (mark : Separator) : isWordChar mark.char = false := by
  cases mark <;> rfl

theorem isWordChar_operator (symbol : Operator) :
    ∀ c ∈ symbol.spelling.toList, isWordChar c = false := by
  have hall : symbol.spelling.toList.all (fun c => !isWordChar c) = true := by
    cases symbol <;> rfl
  intro c hc
  simpa using List.all_eq_true.mp hall c hc

/-- The only mark that an operator may begin with. -/
theorem operator_head_separator {symbol : Operator} {mark : Separator}
    (h : symbol.spelling.toList.head? = some mark.char) : symbol = .equal ∧ mark = .assign := by
  revert h
  cases symbol <;> cases mark <;> decide

/-- No mark begins with a character of words. -/
theorem mark_eq_none {c : Char} {rest : List Char} (h : isWordChar c = true) :
    operator? (c :: rest) = none ∧ separator? (c :: rest) = none := by
  constructor
  · apply operator?_eq_none
    intro symbol hstart
    obtain ⟨first, more, hcons⟩ := List.exists_cons_of_ne_nil (operator_spelling_ne_nil symbol)
    have hfirst := isWordChar_operator symbol first (hcons ▸ List.mem_cons_self)
    rw [hcons, List.cons_prefix_cons] at hstart
    rw [hstart.1, h] at hfirst
    cases hfirst
  · apply separator?_eq_none
    rintro mark rfl
    rw [isWordChar_separator mark] at h
    cases h

end LexicalRule

namespace Piece

variable {after : List Char}

/-- The rules one by one; those for reserved words are taken together. -/
theorem ofRules?_eq (text : List Char) :
    ofRules? text =
      (blank? text).or ((illegalIdentifier? text).or
        (((keyword? text).or ((typeName? text).or (boolean? text))).or ((integer? text).or
          ((operator? text).or ((separator? text).or (identifier? text)))))) := by
  have hcons (rule : LexicalRule) (rules : List LexicalRule) :
      (rule :: rules).findSome? (·.piece? text) =
        (rule.piece? text).or (rules.findSome? (·.piece? text)) := by
    rw [List.findSome?_cons]
    cases rule.piece? text <;> rfl
  simp only [ofRules?, LexicalRule.all, hcons, List.findSome?_nil, Option.or_none, Option.or_assoc]
  rfl

/-- Where neither white space nor a word begins, only the rules for marks are
left, and the one for names behind them. -/
theorem ofRules?_mark {first : Char} {rest : List Char}
    (hfirst : isBlank first = false ∧ isWordChar first = false) :
    ofRules? (first :: rest) =
      (operator? (first :: rest)).or ((separator? (first :: rest)).or
        (identifier? (first :: rest))) := by
  have hword : word (first :: rest) = [] := word_eq_nil hfirst.2
  have hnone (c : Char) (more : List Char) : word (first :: rest) ≠ c :: more := by
    rw [hword]
    exact (List.cons_ne_nil c more).symm
  obtain ⟨hkeyword, htypeName, hboolean⟩ :=
    reserved_eq_none_of_not_isAlpha fun c more hc => absurd hc (hnone c more)
  rw [ofRules?_eq, blank?_eq_none hfirst.1, hkeyword, htypeName, hboolean,
    illegalIdentifier?_eq_none fun c more hc => absurd hc (hnone c more),
    integer?_eq_none fun c more hc => absurd hc (hnone c more)]
  rfl

/-- A word of digits is left to the rule for integers. -/
theorem ofRules?_digits {digits : List Char} {piece : Piece}
    (hword : word (digits ++ after) = digits) (hne : digits ≠ [])
    (hdigits : ∀ c ∈ digits, c.isDigit = true) (hpiece : integer? (digits ++ after) = some piece) :
    ofRules? (digits ++ after) = some piece := by
  obtain ⟨first, rest, rfl⟩ := List.exists_cons_of_ne_nil hne
  have hfirst := hdigits first List.mem_cons_self
  have hillegal : illegalIdentifier? (first :: rest ++ after) = none := by
    apply illegalIdentifier?_eq_none
    intro c more hc _
    rw [hword] at hc
    exact List.all_eq_true.mpr fun d hd => hdigits d (hc ▸ List.mem_cons_of_mem c hd)
  have hstart (c : Char) (more : List Char) (hc : word (first :: rest ++ after) = c :: more) :
      c.isAlpha = false := by
    rw [hword, List.cons.injEq] at hc
    rw [← hc.1, Bool.eq_false_iff]
    intro halpha
    rw [isDigit_of_isAlpha halpha] at hfirst
    cases hfirst
  obtain ⟨hkeyword, htypeName, hboolean⟩ := reserved_eq_none_of_not_isAlpha hstart
  rw [ofRules?_eq, hillegal, hkeyword, htypeName, hboolean, hpiece, List.cons_append,
    blank?_eq_none (isBlank_of_isDigit hfirst)]
  rfl

/-- A letter is left to the rule for names if the word that it begins is not
reserved. -/
theorem ofRules?_letter {c : Char} {rest : List Char} (hc : c.isAlpha = true)
    (hreserved : ∀ kind : TokenKind, kind.isReservedWord = true →
      kind.spelling ≠ String.ofList (word (c :: rest))) :
    ofRules? (c :: rest) = identifier? (c :: rest) := by
  have halphanum := isAlphanum_of_isAlpha hc
  have hstart (first : Char) (more : List Char) (hfirst : word (c :: rest) = first :: more) :
      first.isDigit = false := by
    have hword : word (c :: rest) = c :: rest.takeWhile isWordChar :=
      List.takeWhile_cons_of_pos (isWordChar_of_isAlphanum halphanum)
    rw [hword, List.cons.injEq] at hfirst
    exact hfirst.1 ▸ isDigit_of_isAlpha hc
  have hillegal : illegalIdentifier? (c :: rest) = none := by
    apply illegalIdentifier?_eq_none
    intro first more hfirst hdigit
    rw [hstart first more hfirst] at hdigit
    cases hdigit
  obtain ⟨hkeyword, htypeName, hboolean⟩ := reserved_eq_none hreserved
  obtain ⟨hoperator, hseparator⟩ := @mark_eq_none c rest (isWordChar_of_isAlphanum halphanum)
  rw [ofRules?_eq, blank?_eq_none (isBlank_eq_false_of_isAlphanum halphanum), hillegal, hkeyword,
    htypeName, hboolean, integer?_eq_none hstart, hoperator, hseparator]
  rfl

/-- Digits with more of a word behind them are taken together with it. -/
theorem ofRules?_illegalIdentifier {text : List Char} {first : Char} {rest : List Char}
    (hword : word text = first :: rest) (hfirst : first.isDigit = true)
    (hrest : rest.all Char.isDigit = false) :
    ofRules? text = some ⟨first :: rest,
      .malformed (.illegalIdentifier (String.ofList (first :: rest)))⟩ := by
  have htext : text = first :: (rest ++ text.dropWhile isWordChar) := by
    rw [← List.cons_append, ← hword]
    exact List.takeWhile_append_dropWhile.symm
  have hblank : blank? text = none := by
    rw [htext]
    exact blank?_eq_none (isBlank_of_isDigit hfirst)
  rw [ofRules?_eq, hblank, illegalIdentifier?_of_word hword hfirst hrest]
  rfl

/-- White space is taken up to its end. -/
theorem first_blank {c : Char} {rest : List Char} (h : isBlank c = true) :
    first c rest = ⟨(c :: rest).takeWhile isBlank, .blank⟩ := by
  simp only [first, ofRules?_eq, blank?, List.takeWhile_cons_of_pos h, Option.some_or,
    Option.getD_some]

/-- An underscore begins nothing. -/
theorem first_underscore (rest : List Char) :
    first '_' rest = ⟨['_'], .malformed (.unexpectedCharacter '_')⟩ := by
  have hword : word ('_' :: rest) = '_' :: rest.takeWhile isWordChar :=
    List.takeWhile_cons_of_pos rfl
  have hstart (c : Char) (more : List Char) (hc : word ('_' :: rest) = c :: more) :
      c = '_' := by
    rw [hword, List.cons.injEq] at hc
    exact hc.1.symm
  have hillegal : illegalIdentifier? ('_' :: rest) = none := by
    apply illegalIdentifier?_eq_none
    intro c more hc hdigit
    rw [hstart c more hc] at hdigit
    cases hdigit
  have hinteger : integer? ('_' :: rest) = none :=
    integer?_eq_none fun c more hc => hstart c more hc ▸ rfl
  obtain ⟨hkeyword, htypeName, hboolean⟩ :=
    reserved_eq_none_of_not_isAlpha fun c more hc => hstart c more hc ▸ rfl
  obtain ⟨hoperator, hseparator⟩ := @mark_eq_none '_' rest rfl
  rw [first, ofRules?_eq, blank?_eq_none rfl, hillegal, hkeyword, htypeName, hboolean,
    hinteger, hoperator, hseparator]
  rfl

/-- The pieces of a text that begins with this one. -/
theorem all_append {text : List Char} {lexeme : Lexeme}
    (h : ofRules? (text ++ after) = some ⟨text, lexeme⟩) (hne : text ≠ []) :
    all (text ++ after) = ⟨text, lexeme⟩ :: all after := by
  obtain ⟨c, rest, rfl⟩ := List.exists_cons_of_ne_nil hne
  rw [List.cons_append] at h ⊢
  have hfirst : first c (rest ++ after) = ⟨c :: rest, lexeme⟩ := by
    rw [first, h, Option.getD_some]
  have htext : c :: (rest ++ after) = (first c (rest ++ after)).text ++ after := by
    rw [hfirst, List.cons_append]
  rw [all_cons htext, hfirst]

end Piece

end ClassLang
