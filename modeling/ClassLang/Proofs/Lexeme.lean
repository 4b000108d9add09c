import ClassLang.Lexeme

/-!
What a piece of a source may be. A lexeme fits a text in its place if the text
is of the form that the lexeme stands for, with what comes before and after it
taken into account: a run goes on to neither side. That no run is ever cut in
two is what one piece has to guarantee to the next.
-/

namespace ClassLang

open LexicalRule Text

/-- A run of characters of one class that goes on to neither side. -/
structure IsRun (ofClass : Char → Bool) (before run after : List Char) : Prop where
  ne_nil : run ≠ []
  inside : ∀ c ∈ run, ofClass c = true
  left : ∀ c, before.getLast? = some c → ofClass c = false
  right : ∀ c, after.head? = some c → ofClass c = false

/-- Whether the text is what is written for a token. An integer may be written
with leading zeros; all others are written in one way. -/
def TokenKind.IsWritten (before text after : List Char) : TokenKind → Prop
  | .literal (.int value) =>
      IsRun Char.isDigit before text after ∧ value.toInt = decimalValue text
  | .identifier name =>
      String.ofList text = name ∧
        ∃ first rest, text = first :: rest ∧ first.isAlpha = true ∧
          ∀ c ∈ rest, c.isAlphanum = true
  | kind => String.ofList text = kind.spelling

/-- A word that begins with digits and goes on with a letter or an underscore,
up to where the word ends. -/
def IsIllegalIdentifier (text after : List Char) : Prop :=
  ∃ digits first rest, text = digits ++ first :: rest ∧ digits ≠ [] ∧
    (∀ c ∈ digits, c.isDigit = true) ∧ (first.isAlpha = true ∨ first = '_') ∧
    (∀ c ∈ rest, isWordChar c = true) ∧ ∀ c, after.head? = some c → isWordChar c = false

/-- A character that begins neither white space nor a word nor a mark. -/
def IsUnexpected (c : Char) (after : List Char) : Prop :=
  isBlank c = false ∧ c.isAlphanum = false ∧ (∀ mark : Separator, mark.char ≠ c) ∧
    ∀ symbol : Operator, ¬ symbol.spelling.toList <+: c :: after

def LexicalError.Fits (before text after : List Char) : LexicalError → Prop
  | .illegalIdentifier found => found = String.ofList text ∧ IsIllegalIdentifier text after
  | .integerOutOfRange found =>
      found = String.ofList text ∧ IsRun Char.isDigit before text after ∧
        maxInteger < decimalValue text
  | .unexpectedCharacter c => text = [c] ∧ IsUnexpected c after

/-- Whether the text is what the lexeme says, between `before` and `after`. -/
def Lexeme.Fits (before text after : List Char) : Lexeme → Prop
  | .blank => IsRun isBlank before text after
  | .token kind => kind.IsWritten before text after
  | .malformed error => error.Fits before text after

theorem isAlpha_iff {c : Char} :
    c.isAlpha = true ↔
      (65 ≤ c.toNat ∧ c.toNat ≤ 90) ∨ (97 ≤ c.toNat ∧ c.toNat ≤ 122) := by
  change (decide (c.val ≥ 65 ∧ c.val ≤ 90) || (decide (c.val ≥ 97) && decide (c.val ≤ 122))) =
    true ↔ _
  rw [Bool.or_eq_true, Bool.and_eq_true, decide_eq_true_eq, decide_eq_true_eq, decide_eq_true_eq]
  simp only [ge_iff_le, UInt32.le_iff_toNat_le]
  exact Iff.rfl

theorem isDigit_iff {c : Char} : c.isDigit = true ↔ 48 ≤ c.toNat ∧ c.toNat ≤ 57 := by
  change (decide (c.val ≥ 48) && decide (c.val ≤ 57)) = true ↔ _
  rw [Bool.and_eq_true, decide_eq_true_eq, decide_eq_true_eq]
  simp only [ge_iff_le, UInt32.le_iff_toNat_le]
  exact Iff.rfl

theorem isBlank_of_isWordChar {c : Char} (h : isWordChar c = true) : isBlank c = false := by
  have hranges : c.toNat = 95 ∨ 65 ≤ c.toNat ∧ c.toNat ≤ 90 ∨ 97 ≤ c.toNat ∧ c.toNat ≤ 122 ∨
      48 ≤ c.toNat ∧ c.toNat ≤ 57 := by
    simp only [isWordChar, Char.isAlphanum, Bool.or_eq_true, isAlpha_iff, isDigit_iff,
      beq_iff_eq] at h
    rcases h with h | rfl
    · omega
    · exact .inl rfl
  unfold isBlank blankRanges
  simp only [List.any_cons, List.any_nil, Bool.or_false, Bool.or_eq_false_iff,
    Bool.and_eq_false_iff, decide_eq_false_iff_not]
  omega

theorem isWordChar_of_isAlphanum {c : Char} (h : c.isAlphanum = true) : isWordChar c = true := by
  unfold isWordChar
  rw [h, Bool.true_or]

theorem isAlphanum_of_isAlpha {c : Char} (h : c.isAlpha = true) : c.isAlphanum = true := by
  unfold Char.isAlphanum
  rw [h, Bool.true_or]

theorem isAlphanum_of_isDigit {c : Char} (h : c.isDigit = true) : c.isAlphanum = true := by
  unfold Char.isAlphanum
  rw [h, Bool.or_true]

/-- Neither white space nor a run of letters and digits goes on across this
place. -/
def Apart (before after : List Char) : Prop :=
  ∀ c d, before.getLast? = some c → after.head? = some d →
    ¬ (isBlank c = true ∧ isBlank d = true) ∧ ¬ (c.isAlphanum = true ∧ d.isAlphanum = true)

theorem apart_nil (after : List Char) : Apart [] after := by
  intro c d hc
  cases hc

theorem Apart.of_blank {run after : List Char} (hrun : ∀ c ∈ run, isBlank c = true)
    (hafter : ∀ c, after.head? = some c → isBlank c = false) : Apart run after := by
  intro c d hc hd
  have hblank := hrun c (List.mem_of_getLast? hc)
  refine ⟨fun hboth => ?_, fun hboth => ?_⟩
  · rw [hafter d hd] at hboth
    cases hboth.2
  · have hword := isBlank_of_isWordChar (isWordChar_of_isAlphanum hboth.1)
    rw [hblank] at hword
    cases hword

theorem Apart.of_word {text after : List Char} (htext : ∀ c ∈ text, isWordChar c = true)
    (hafter : ∀ c, after.head? = some c → c.isAlphanum = false) : Apart text after := by
  intro c d hc hd
  have hblank := isBlank_of_isWordChar (htext c (List.mem_of_getLast? hc))
  refine ⟨fun hboth => ?_, fun hboth => ?_⟩
  · rw [hblank] at hboth
    cases hboth.1
  · rw [hafter d hd] at hboth
    cases hboth.2

theorem Apart.of_mark {text after : List Char}
    (htext : ∀ c ∈ text, isBlank c = false ∧ c.isAlphanum = false) : Apart text after := by
  intro c d hc _
  obtain ⟨hblank, halphanum⟩ := htext c (List.mem_of_getLast? hc)
  simp [hblank, halphanum]

/-- The piece is what it says it is where the text begins behind `before`, and
leaves no run cut in two. -/
def Piece.IsCut (before text : List Char) (piece : Piece) : Prop :=
  ∃ after, text = piece.text ++ after ∧ piece.lexeme.Fits before piece.text after ∧
    Apart piece.text after

theorem mem_takeWhile {ofClass : Char → Bool} {text : List Char} {c : Char}
    (h : c ∈ text.takeWhile ofClass) : ofClass c = true :=
  List.all_eq_true.mp List.all_takeWhile c h

theorem head?_dropWhile {ofClass : Char → Bool} {text : List Char} {c : Char}
    (h : (text.dropWhile ofClass).head? = some c) : ofClass c = false := by
  have hnot := List.head?_dropWhile_not ofClass text
  rw [h] at hnot
  exact hnot

/-- A run that is not empty begins where the text does. -/
theorem exists_head?_of_takeWhile {ofClass : Char → Bool} {text : List Char}
    (h : text.takeWhile ofClass ≠ []) : ∃ c, text.head? = some c ∧ c ∈ text.takeWhile ofClass := by
  cases text with
  | nil => exact absurd rfl h
  | cons c rest =>
      refine ⟨c, rfl, ?_⟩
      cases hc : ofClass c with
      | true =>
          rw [List.takeWhile_cons_of_pos hc]
          exact List.mem_cons_self
      | false => exact absurd (List.takeWhile_cons_of_neg (by simp [hc])) h

theorem isAlphanum_of_not_isWordChar {c : Char} (h : isWordChar c = false) :
    c.isAlphanum = false := by
  unfold isWordChar at h
  exact (Bool.or_eq_false_iff.mp h).1

theorem apart_word (text : List Char) : Apart (word text) (text.dropWhile isWordChar) :=
  .of_word (fun _ hc => mem_takeWhile hc)
    fun _ hc => isAlphanum_of_not_isWordChar (head?_dropWhile hc)

section Rules

variable {before text : List Char} {piece : Piece}

theorem isCut_blank? (h : blank? text = some piece) (hapart : Apart before text) :
    piece.IsCut before text := by
  unfold blank? at h
  split at h
  · cases h
  · next hne =>
      cases h
      have hend (c : Char) (hc : (text.dropWhile isBlank).head? = some c) : isBlank c = false :=
        head?_dropWhile hc
      refine ⟨text.dropWhile isBlank, List.takeWhile_append_dropWhile.symm, ?_,
        .of_blank (fun _ hc => mem_takeWhile hc) hend⟩
      refine ⟨hne, fun _ hc => mem_takeWhile hc, fun c hc => ?_, hend⟩
      obtain ⟨d, hhead, hd⟩ := exists_head?_of_takeWhile hne
      rw [Bool.eq_false_iff]
      intro hblank
      exact (hapart c d hc hhead).1 ⟨hblank, mem_takeWhile hd⟩

/-- A word of digits is a run of digits. -/
theorem isRun_isDigit_word (hne : word text ≠ []) (hdigits : (word text).all Char.isDigit = true)
    (hapart : Apart before text) :
    IsRun Char.isDigit before (word text) (text.dropWhile isWordChar) := by
  have hinside := List.all_eq_true.mp hdigits
  refine ⟨hne, hinside, fun c hc => ?_, fun c hc => ?_⟩
  · obtain ⟨d, hhead, hd⟩ := exists_head?_of_takeWhile hne
    rw [Bool.eq_false_iff]
    intro hdigit
    exact (hapart c d hc hhead).2
      ⟨isAlphanum_of_isDigit hdigit, isAlphanum_of_isDigit (hinside d hd)⟩
  · have hword : isWordChar c = false := head?_dropWhile hc
    rw [Bool.eq_false_iff]
    intro hdigit
    rw [isWordChar_of_isAlphanum (isAlphanum_of_isDigit hdigit)] at hword
    cases hword

theorem isCut_integer? (h : integer? text = some piece) (hapart : Apart before text) :
    piece.IsCut before text := by
  unfold integer? at h
  split at h
  · cases h
  · next hne =>
      split at h
      · next hdigits =>
          have hrun := isRun_isDigit_word hne hdigits hapart
          dsimp only at h
          split at h
          · next hvalue =>
              cases h
              refine ⟨_, List.takeWhile_append_dropWhile.symm, ⟨hrun, ?_⟩, apart_word text⟩
              have hbound : decimalValue (word text) < 2 ^ 63 := by
                unfold maxInteger at hvalue
                omega
              exact Int64.toInt_ofNat_of_lt hbound
          · next hvalue =>
              cases h
              exact ⟨_, List.takeWhile_append_dropWhile.symm, ⟨rfl, hrun, Nat.lt_of_not_le hvalue⟩,
                apart_word text⟩
      · cases h

theorem isCut_illegalIdentifier? (h : illegalIdentifier? text = some piece) :
    piece.IsCut before text := by
  unfold illegalIdentifier? at h
  split at h
  · cases h
  · next first rest hword =>
      split at h
      · next hdigits =>
          rw [Bool.and_eq_true, Bool.not_eq_true'] at hdigits
          have hinside (c : Char) (hc : c ∈ first :: rest) : isWordChar c = true :=
            mem_takeWhile (hword ▸ hc)
          have hsplit : rest = rest.takeWhile Char.isDigit ++ rest.dropWhile Char.isDigit :=
            List.takeWhile_append_dropWhile.symm
          cases h
          refine ⟨text.dropWhile isWordChar, ?_, ⟨rfl, ?_⟩, hword ▸ apart_word text⟩
          · rw [← hword]
            exact List.takeWhile_append_dropWhile.symm
          cases hrest : rest.dropWhile Char.isDigit with
          | nil =>
              rw [hrest, List.append_nil] at hsplit
              rw [hsplit, List.all_takeWhile] at hdigits
              cases hdigits.2
          | cons c more =>
              rw [hrest] at hsplit
              have hc : c.isDigit = false := head?_dropWhile (by rw [hrest]; rfl)
              have hmem (d : Char) (hd : d ∈ c :: more) : isWordChar d = true := by
                apply hinside
                rw [hsplit]
                simp [List.mem_cons.mp hd]
              refine ⟨first :: rest.takeWhile Char.isDigit, c, more, ?_, by simp, ?_, ?_, ?_, ?_⟩
              · rw [List.cons_append, ← hsplit]
              · intro d hd
                rcases List.mem_cons.mp hd with rfl | hd
                · exact hdigits.1
                · exact mem_takeWhile hd
              · have hword := hmem c List.mem_cons_self
                simpa [isWordChar, Char.isAlphanum, hc] using hword
              · exact fun d hd => hmem d (List.mem_cons_of_mem _ hd)
              · exact fun d hd => head?_dropWhile hd
      · cases h

/-- A reserved word, if `lookup` knows each word by its spelling only. -/
theorem isCut_reservedWord? {lookup : String → Option TokenKind}
    (hlookup : ∀ word kind, lookup word = some kind →
      ∀ before text after, String.ofList text = word → kind.IsWritten before text after)
    (h : reservedWord? lookup text = some piece) : piece.IsCut before text := by
  obtain ⟨kind, hkind, rfl⟩ := Option.map_eq_some_iff.mp h
  exact ⟨_, List.takeWhile_append_dropWhile.symm, hlookup _ kind hkind _ _ _ rfl, apart_word text⟩

theorem isCut_keyword? (h : keyword? text = some piece) : piece.IsCut before text := by
  apply isCut_reservedWord? _ h
  intro word kind hkind _ _ _ hword
  obtain ⟨keyword, hfound, rfl⟩ := Option.map_eq_some_iff.mp hkind
  exact hword.trans (Keyword.ofWord?_eq_some_iff.mp hfound).symm

theorem isCut_typeName? (h : typeName? text = some piece) : piece.IsCut before text := by
  apply isCut_reservedWord? _ h
  intro word kind hkind _ _ _ hword
  obtain ⟨name, hfound, rfl⟩ := Option.map_eq_some_iff.mp hkind
  exact hword.trans (TypeName.ofWord?_eq_some_iff.mp hfound).symm

theorem isCut_boolean? (h : boolean? text = some piece) : piece.IsCut before text := by
  apply isCut_reservedWord? _ h
  intro word kind hkind _ _ _ hword
  obtain ⟨value, hfound, rfl⟩ := Option.map_eq_some_iff.mp hkind
  exact hword.trans (Literal.boolOfWord?_eq_some_iff.mp hfound).symm

theorem operator_spelling_ne_nil (symbol : Operator) : symbol.spelling.toList ≠ [] := by
  cases symbol <;> decide

theorem operator_spelling_chars (symbol : Operator) :
    ∀ c ∈ symbol.spelling.toList, isBlank c = false ∧ c.isAlphanum = false := by
  have hall : symbol.spelling.toList.all (fun c => !isBlank c && !c.isAlphanum) = true := by
    cases symbol <;> rfl
  intro c hc
  simpa using List.all_eq_true.mp hall c hc

theorem separator_char (mark : Separator) :
    isBlank mark.char = false ∧ mark.char.isAlphanum = false := by
  cases mark <;> exact ⟨rfl, rfl⟩

theorem isCut_operator? (h : operator? text = some piece) : piece.IsCut before text := by
  obtain ⟨symbol, hfind, rfl⟩ := Option.map_eq_some_iff.mp h
  have hstart := List.find?_some hfind
  obtain ⟨after, hafter⟩ := List.isPrefixOf_iff_prefix.mp hstart
  refine ⟨after, hafter.symm, ?_, .of_mark (operator_spelling_chars symbol)⟩
  exact String.ofList_toList

theorem isCut_separator? (h : separator? text = some piece) : piece.IsCut before text := by
  cases text with
  | nil => cases h
  | cons c rest =>
      obtain ⟨mark, hmark, rfl⟩ := Option.map_eq_some_iff.mp h
      obtain rfl : mark.char = c := Separator.ofChar?_eq_some_iff.mp hmark
      refine ⟨rest, rfl, String.singleton_eq_ofList.symm, .of_mark ?_⟩
      intro c hc
      rw [List.mem_singleton.mp hc]
      exact separator_char mark

theorem isCut_identifier? (h : identifier? text = some piece) : piece.IsCut before text := by
  cases text with
  | nil => cases h
  | cons c rest =>
      simp only [identifier?] at h
      split at h
      · next halpha =>
          cases h
          refine ⟨rest.dropWhile Char.isAlphanum, ?_, ⟨rfl, c, _, rfl, halpha, ?_⟩, .of_word ?_ ?_⟩
          · rw [List.cons_append, List.takeWhile_append_dropWhile]
          · exact fun _ hd => mem_takeWhile hd
          · intro d hd
            rcases List.mem_cons.mp hd with rfl | hd
            · exact isWordChar_of_isAlphanum (isAlphanum_of_isAlpha halpha)
            · exact isWordChar_of_isAlphanum (mem_takeWhile hd)
          · exact fun _ hd => head?_dropWhile hd
      · cases h

theorem isCut_of_piece? (rule : LexicalRule) (h : rule.piece? text = some piece)
    (hapart : Apart before text) : piece.IsCut before text := by
  cases rule with
  | blank => exact isCut_blank? h hapart
  | illegalIdentifier => exact isCut_illegalIdentifier? h
  | keyword => exact isCut_keyword? h
  | typeName => exact isCut_typeName? h
  | boolean => exact isCut_boolean? h
  | integer => exact isCut_integer? h hapart
  | operator => exact isCut_operator? h
  | separator => exact isCut_separator? h
  | identifier => exact isCut_identifier? h

/-- A character is left over only if it can begin nothing. -/
theorem isUnexpected_of_none {c : Char} {rest : List Char}
    (h : ∀ rule : LexicalRule, rule.piece? (c :: rest) = none) : IsUnexpected c rest := by
  have hblank : isBlank c = false := by
    rw [Bool.eq_false_iff]
    intro hc
    have hnone := h .blank
    simp [piece?, blank?, hc] at hnone
  have halpha : c.isAlpha = false := by
    rw [Bool.eq_false_iff]
    intro hc
    have hnone := h .identifier
    simp [piece?, identifier?, hc] at hnone
  have hdigit : c.isDigit = false := by
    rw [Bool.eq_false_iff]
    intro hc
    have hword : word (c :: rest) = c :: rest.takeWhile isWordChar :=
      List.takeWhile_cons_of_pos (isWordChar_of_isAlphanum (isAlphanum_of_isDigit hc))
    cases hall : (rest.takeWhile isWordChar).all Char.isDigit with
    | true =>
        have hnone := h .integer
        simp only [piece?, integer?, hword, List.all_cons, hc, hall, Bool.and_self,
          if_true] at hnone
        split at hnone <;> cases hnone
    | false =>
        have hnone := h .illegalIdentifier
        simp [piece?, illegalIdentifier?, hword, hc, hall] at hnone
  refine ⟨hblank, ?_, ?_, ?_⟩
  · unfold Char.isAlphanum
    rw [halpha, hdigit]
    rfl
  · rintro mark rfl
    have hnone := h .separator
    simp [piece?, separator?, Separator.ofChar?_char] at hnone
  · intro symbol hstart
    have hnone := h .operator
    simp only [piece?, operator?, Option.map_eq_none_iff, List.find?_eq_none] at hnone
    exact hnone symbol (Operator.mem_all symbol) (List.isPrefixOf_iff_prefix.mpr hstart)

theorem isCut_first {c : Char} {rest : List Char} (hapart : Apart before (c :: rest)) :
    (Piece.first c rest).IsCut before (c :: rest) := by
  unfold Piece.first
  cases h : Piece.ofRules? (c :: rest) with
  | some piece =>
      obtain ⟨rule, _, hrule⟩ := List.exists_of_findSome?_eq_some h
      exact isCut_of_piece? rule hrule hapart
  | none =>
      have hnone (rule : LexicalRule) : rule.piece? (c :: rest) = none := by
        apply List.findSome?_eq_none_iff.mp h
        cases rule <;> decide
      have hunexpected := isUnexpected_of_none hnone
      refine ⟨rest, rfl, ⟨rfl, hunexpected⟩, .of_mark ?_⟩
      intro d hd
      rw [List.mem_singleton.mp hd]
      exact ⟨hunexpected.1, hunexpected.2.1⟩

end Rules

end ClassLang
