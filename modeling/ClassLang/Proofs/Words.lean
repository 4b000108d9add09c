import Mathlib.Data.List.TakeWhile
import ClassLang.Proofs.Boundary

/-!
Whole words. A longest run of letters, digits and underscores is scanned by
itself, whatever stands around it. If it begins with a digit, it is one integer
or one mistake; if it begins with a letter and has no underscore, it is the
reserved word that it spells, or else a name. Any other run has an underscore
that no rule takes. That is also the only way for a name to be spelled like a
reserved word: the underscore right behind it makes another word of the run, and
is reported itself.
-/

namespace ClassLang

open LexicalRule Text

/-- The token that a word as a whole spells: a reserved word, or a name if no
reserved word is spelled so. -/
def TokenKind.IsSpelledBy (word : String) (kind : TokenKind) : Prop :=
  (kind.isReservedWord = true ∧ kind.spelling = word) ∨
    (kind = .identifier word ∧
      ∀ reserved : TokenKind, reserved.isReservedWord = true → reserved.spelling ≠ word)

/-- What is found in a whole word that begins at byte `offset`. -/
structure IsWordScan (word : List Char) (offset : Nat) (found : Scan) : Prop where
  digits : (∀ c ∈ word, c.isDigit = true) →
    (∃ value : Int64, value.toInt = decimalValue word ∧
        found = ⟨[⟨.literal (.int value), offset⟩], []⟩) ∨
      (maxInteger < decimalValue word ∧
        found = ⟨[], [⟨(LexicalError.integerOutOfRange (String.ofList word)).message, offset⟩]⟩)
  illegal : ∀ digits c rest, word = digits ++ c :: rest → digits ≠ [] →
    (∀ d ∈ digits, d.isDigit = true) → (c.isAlpha = true ∨ c = '_') →
      found = ⟨[], [⟨(LexicalError.illegalIdentifier (String.ofList word)).message, offset⟩]⟩
  letters : ∀ c rest, word = c :: rest → c.isAlpha = true → '_' ∉ word →
    ∃ kind : TokenKind, kind.IsSpelledBy (String.ofList word) ∧ found = ⟨[⟨kind, offset⟩], []⟩
  underscore : (∀ c, word.head? = some c → c.isDigit = false) → '_' ∈ word →
    ∃ before after, word = before ++ '_' :: after ∧
      ⟨(LexicalError.unexpectedCharacter '_').message, offset + byteLength before⟩ ∈
        found.diagnostics

namespace Piece

/-- What is behind some of the pieces falls into the other ones. -/
theorem all_of_all_eq_append {text : List Char} {left right : List Piece}
    (h : all text = left ++ right) : all (right.flatMap Piece.text) = right := by
  induction left generalizing text with
  | nil =>
      obtain rfl : all text = right := h
      rw [flatMap_text_all]
  | cons head left ih =>
      cases text with
      | nil => cases h
      | cons c rest =>
          obtain ⟨_, after, hafter⟩ := first_text c rest
          rw [all_cons hafter, List.cons_append, List.cons.injEq] at h
          exact ih h.2

theorem first_append_of_apart {c : Char} {rest after : List Char} (h : IsBoundary (c :: rest) after)
    (hapart : Apart (c :: rest) after) : first c (rest ++ after) = first c rest := by
  cases hc : isBlank c with
  | false => exact first_append_of_isBoundary hc h
  | true =>
      have hrun := takeWhile_append_of_ends fun last next hlast hnext =>
        (hapart last next hlast hnext).1
      rw [first_blank hc, first_blank hc, ← List.cons_append, hrun]

/-- A text falls into the pieces of its parts if nothing goes on from one part
to the other. -/
theorem all_append_of_apart {before after : List Char} (h : IsBoundary before after)
    (hapart : Apart before after) : all (before ++ after) = all before ++ all after := by
  induction before using text_induction with
  | nil => rfl
  | cons c rest more _ hmore ih =>
      have hsame := first_append_of_apart h hapart
      have hwhole : c :: (rest ++ after) =
          (first c (rest ++ after)).text ++ (more ++ after) := by
        rw [hsame, ← List.append_assoc, ← hmore, List.cons_append]
      have hends (d : Char) (hd : more.getLast? = some d) : (c :: rest).getLast? = some d := by
        rw [hmore, List.getLast?_append, hd, Option.some_or]
      have hpieces := ih (fun d e hd he => h d e (hends d hd) he)
        (fun d e hd he => hapart d e (hends d hd) he)
      rw [List.cons_append, all_cons hwhole, hsame, hpieces, all_cons hmore, List.cons_append]

end Piece

section Runs

variable {before word after : List Char}

theorem isWordChar_of_mem_joinedMarks {mark : List Char} (hmark : mark ∈ joinedMarks) {c : Char}
    (hc : c ∈ mark) : isWordChar c = false := by
  have hall : joinedMarks.all (fun mark => mark.all (!isWordChar ·)) = true := rfl
  have hchars := List.all_eq_true.mp hall mark hmark
  simpa using List.all_eq_true.mp hchars c hc

/-- Nothing goes on from a word to what is no word, or the other way round. -/
theorem apart_of_isWordChar_ne
    (h : ∀ c d, before.getLast? = some c → after.head? = some d → isWordChar c ≠ isWordChar d) :
    IsBoundary before after ∧ Apart before after := by
  refine ⟨fun c d hc hd => ⟨fun hboth => ?_, fun hmark => ?_⟩,
    fun c d hc hd => ⟨fun hboth => ?_, fun hboth => ?_⟩⟩ <;> apply h c d hc hd
  · rw [hboth.1, hboth.2]
  · rw [isWordChar_of_mem_joinedMarks hmark (by simp),
      isWordChar_of_mem_joinedMarks hmark (by simp)]
  · have hword {e : Char} (he : isBlank e = true) : isWordChar e = false := by
      rw [Bool.eq_false_iff]
      intro hword
      rw [isBlank_of_isWordChar hword] at he
      cases he
    rw [hword hboth.1, hword hboth.2]
  · rw [isWordChar_of_isAlphanum hboth.1, isWordChar_of_isAlphanum hboth.2]

/-- A whole word is scanned by itself. -/
theorem Piece.all_of_isRun (h : IsRun isWordChar before word after) :
    all (before ++ word ++ after) = all before ++ all word ++ all after := by
  obtain ⟨first, rest, rfl⟩ := List.exists_cons_of_ne_nil h.ne_nil
  have hbehind : IsBoundary (before ++ first :: rest) after ∧
      Apart (before ++ first :: rest) after := by
    apply apart_of_isWordChar_ne
    intro c d hc hd
    rw [List.getLast?_append, List.getLast?_eq_some_getLast (List.cons_ne_nil first rest),
      Option.some_or] at hc
    obtain rfl := Option.some.inj hc
    rw [h.inside _ (List.getLast_mem _), h.right d hd]
    exact Bool.true_eq_false.mp
  have hfront : IsBoundary before (first :: rest) ∧ Apart before (first :: rest) := by
    apply apart_of_isWordChar_ne
    intro c d hc hd
    obtain rfl := Option.some.inj hd
    rw [h.left c hc, h.inside first List.mem_cons_self]
    exact Bool.false_ne_true
  rw [all_append_of_apart hbehind.1 hbehind.2, all_append_of_apart hfront.1 hfront.2]

end Runs

namespace Piece

/-- A text that one rule takes as a whole is a single piece. -/
theorem all_eq_singleton {text : List Char} {lexeme : Lexeme} (hne : text ≠ [])
    (h : ofRules? text = some ⟨text, lexeme⟩) : all text = [⟨text, lexeme⟩] := by
  have hall := @all_append [] text lexeme
  rw [List.append_nil] at hall
  exact hall h hne

theorem all_underscore (rest : List Char) :
    all ('_' :: rest) = ⟨['_'], .malformed (.unexpectedCharacter '_')⟩ :: all rest := by
  have htext : '_' :: rest = (first '_' rest).text ++ rest := by
    rw [first_underscore]
    rfl
  rw [all_cons htext, first_underscore]

/-- Letters and digits in front of an underscore are a name, even if they spell
a reserved word: the word that they begin is another one. -/
theorem all_name_underscore {c : Char} {rest : List Char} (hc : c.isAlpha = true)
    (hrest : ∀ d ∈ rest, d.isAlphanum = true) (more : List Char) :
    all (c :: rest ++ '_' :: more) =
      ⟨c :: rest, .token (.identifier (String.ofList (c :: rest)))⟩ ::
        ⟨['_'], .malformed (.unexpectedCharacter '_')⟩ :: all more := by
  have hname : (rest ++ '_' :: more).takeWhile Char.isAlphanum = rest := by
    apply takeWhile_run_append hrest
    rintro d ⟨⟩
    rfl
  have hreserved (kind : TokenKind) (hkind : kind.isReservedWord = true) :
      kind.spelling ≠ String.ofList (word (c :: rest ++ '_' :: more)) := by
    intro hsame
    have hchars := TokenKind.isAlphanum_of_isReservedWord hkind
    have hword : ∀ d ∈ c :: rest, isWordChar d = true := by
      intro d hd
      rcases List.mem_cons.mp hd with rfl | hd
      · exact isWordChar_of_isAlphanum (isAlphanum_of_isAlpha hc)
      · exact isWordChar_of_isAlphanum (hrest d hd)
    rw [hsame, String.toList_ofList, word, List.takeWhile_append_of_pos hword,
      List.takeWhile_cons_of_pos rfl] at hchars
    exact Bool.false_ne_true (hchars '_' (by simp))
  have hpiece : ofRules? (c :: rest ++ '_' :: more) =
      some ⟨c :: rest, .token (.identifier (String.ofList (c :: rest)))⟩ := by
    rw [List.cons_append] at hreserved ⊢
    rw [ofRules?_letter hc hreserved]
    simp only [identifier?, hc, hname, if_true]
  rw [all_append hpiece (List.cons_ne_nil c rest), all_underscore]

section Words

variable {text : List Char} (hword : ∀ c ∈ text, isWordChar c = true)

include hword

theorem word_eq_self : word text = text :=
  List.takeWhile_eq_self_iff.mpr hword

theorem all_of_digits (hne : text ≠ []) (hdigits : ∀ c ∈ text, c.isDigit = true) :
    (∃ value : Int64, value.toInt = decimalValue text ∧
        all text = [⟨text, .token (.literal (.int value))⟩]) ∨
      (maxInteger < decimalValue text ∧
        all text = [⟨text, .malformed (.integerOutOfRange (String.ofList text))⟩]) := by
  have hself := word_eq_self hword
  have hpieces {lexeme : Lexeme} (hpiece : integer? text = some ⟨text, lexeme⟩) :
      all text = [⟨text, lexeme⟩] := by
    apply all_eq_singleton hne
    have hrules := @ofRules?_digits [] text ⟨text, lexeme⟩
    rw [List.append_nil] at hrules
    exact hrules hself hne hdigits hpiece
  rcases Nat.lt_or_ge maxInteger (decimalValue text) with hlarge | hsmall
  · exact .inr ⟨hlarge, hpieces (integer?_of_large hself hne hdigits hlarge)⟩
  · refine .inl ⟨_, ?_, hpieces (integer?_of_digits hself hne hdigits hsmall)⟩
    apply Int64.toInt_ofNat_of_lt
    unfold maxInteger at hsmall
    omega

theorem all_of_illegalIdentifier {digits rest : List Char} {c : Char}
    (htext : text = digits ++ c :: rest) (hne : digits ≠ [])
    (hdigits : ∀ d ∈ digits, d.isDigit = true) (hc : c.isAlpha = true ∨ c = '_') :
    all text = [⟨text, .malformed (.illegalIdentifier (String.ofList text))⟩] := by
  obtain ⟨first, more, rfl⟩ := List.exists_cons_of_ne_nil hne
  have hfirst := hdigits first List.mem_cons_self
  have hdigit : c.isDigit = false := by
    rcases hc with halpha | rfl
    · exact isDigit_of_isAlpha halpha
    · rfl
  subst htext
  apply all_eq_singleton (List.cons_ne_nil first _)
  apply ofRules?_illegalIdentifier (word_eq_self hword) hfirst
  simp [hdigit]

theorem all_of_letters {c : Char} {rest : List Char} (htext : text = c :: rest)
    (hc : c.isAlpha = true) (hunderscore : '_' ∉ text) :
    ∃ kind : TokenKind, kind.IsSpelledBy (String.ofList text) ∧
      all text = [⟨text, .token kind⟩] := by
  have hne : text ≠ [] := htext ▸ List.cons_ne_nil c rest
  by_cases hreserved : ∃ kind : TokenKind, kind.isReservedWord = true ∧
      kind.spelling = String.ofList text
  · obtain ⟨kind, hkind, hspelling⟩ := hreserved
    have htoList : kind.spelling.toList = text := by
      rw [hspelling, String.toList_ofList]
    refine ⟨kind, .inl ⟨hkind, hspelling⟩, all_eq_singleton hne ?_⟩
    have hrules := @ofRules?_reserved [] kind hkind
    rw [List.append_nil, htoList] at hrules
    exact hrules (word_eq_self hword)
  · have hfree (kind : TokenKind) (hkind : kind.isReservedWord = true) :
        kind.spelling ≠ String.ofList text := fun hspelling => hreserved ⟨kind, hkind, hspelling⟩
    refine ⟨.identifier (String.ofList text), .inr ⟨rfl, hfree⟩, all_eq_singleton hne ?_⟩
    have hname : rest.takeWhile Char.isAlphanum = rest := by
      apply List.takeWhile_eq_self_iff.mpr
      intro d hd
      have hmem : d ∈ text := htext ▸ List.mem_cons_of_mem c hd
      have hchar := hword d hmem
      rw [isWordChar, Bool.or_eq_true, beq_iff_eq] at hchar
      rcases hchar with halphanum | rfl
      · exact halphanum
      · exact absurd hmem hunderscore
    have hself := word_eq_self hword
    rw [← hself, htext] at hfree
    rw [htext, ofRules?_letter hc hfree]
    simp only [identifier?, hc, hname, if_true]

/-- The first underscore of a word that begins with no digit is a piece by
itself. -/
theorem exists_underscore (hdigit : ∀ c, text.head? = some c → c.isDigit = false)
    (hunderscore : '_' ∈ text) :
    ∃ before after left right, text = before ++ '_' :: after ∧
      all text = left ++ ⟨['_'], .malformed (.unexpectedCharacter '_')⟩ :: right ∧
      left.flatMap Piece.text = before := by
  have hsplit : text.takeWhile Char.isAlphanum ++ text.dropWhile Char.isAlphanum = text :=
    List.takeWhile_append_dropWhile
  obtain ⟨more, hrest⟩ : ∃ more, text.dropWhile Char.isAlphanum = '_' :: more := by
    cases hrest : text.dropWhile Char.isAlphanum with
    | nil =>
        rw [hrest, List.append_nil] at hsplit
        rw [← hsplit] at hunderscore
        exact absurd (mem_takeWhile hunderscore) Bool.false_ne_true
    | cons d more =>
        have hstop : d.isAlphanum = false := head?_dropWhile (by rw [hrest]; rfl)
        have hchar := hword d (hsplit ▸ by simp [hrest])
        rw [isWordChar, hstop, Bool.false_or, beq_iff_eq] at hchar
        exact ⟨more, by rw [hchar]⟩
  rw [hrest] at hsplit
  cases hname : text.takeWhile Char.isAlphanum with
  | nil =>
      rw [hname, List.nil_append] at hsplit
      exact ⟨[], more, [], all more, hsplit.symm, by rw [← hsplit, all_underscore]; rfl, rfl⟩
  | cons c rest =>
      have hmem : ∀ d ∈ c :: rest, d.isAlphanum = true := fun d hd => mem_takeWhile (hname ▸ hd)
      rw [hname] at hsplit
      have hc : c.isAlpha = true := by
        have halphanum := hmem c List.mem_cons_self
        rw [Char.isAlphanum, hdigit c (by rw [← hsplit]; rfl), Bool.or_false] at halphanum
        exact halphanum
      have hpieces := all_name_underscore hc (fun d hd => hmem d (List.mem_cons_of_mem c hd)) more
      rw [hsplit] at hpieces
      exact ⟨c :: rest, more, [_], all more, hsplit.symm, hpieces, List.append_nil _⟩

end Words

theorem ofRules?_of_first {c : Char} {rest run : List Char} {kind : TokenKind}
    (h : first c rest = ⟨run, .token kind⟩) :
    ofRules? (c :: rest) = some ⟨run, .token kind⟩ := by
  unfold first at h
  cases hrules : ofRules? (c :: rest) with
  | some piece =>
      rw [hrules, Option.getD_some] at h
      rw [h]
  | none =>
      rw [hrules, Option.getD_none] at h
      cases h

/-- A token among the pieces is what the rules take there, with what follows in
sight. -/
theorem ofRules?_of_all_eq {text run : List Char} {left right : List Piece} {kind : TokenKind}
    (h : all text = left ++ ⟨run, .token kind⟩ :: right) :
    ofRules? (run ++ right.flatMap Piece.text) = some ⟨run, .token kind⟩ := by
  have hpieces := all_of_all_eq_append h
  rw [List.flatMap_cons] at hpieces
  generalize run ++ right.flatMap Piece.text = text at hpieces
  cases text with
  | nil => cases hpieces
  | cons c rest =>
      obtain ⟨_, after, hafter⟩ := first_text c rest
      rw [all_cons hafter, List.cons.injEq] at hpieces
      exact ofRules?_of_first hpieces.1

/-- A name is spelled like a reserved word only in front of an underscore, which
is a piece by itself. -/
theorem exists_underscore_behind {text run : List Char} {left right : List Piece}
    {word : TokenKind} (hword : word.isReservedWord = true)
    (h : all text = left ++ ⟨run, .token (.identifier word.spelling)⟩ :: right) :
    run = word.spelling.toList ∧
      ∃ others, right = ⟨['_'], .malformed (.unexpectedCharacter '_')⟩ :: others := by
  obtain ⟨hfits, hapart⟩ := isCut_of_all_eq (apart_nil text) h
  have hspelled : String.ofList run = word.spelling := hfits.1
  obtain rfl : run = word.spelling.toList := by
    rw [← hspelled, String.toList_ofList]
  refine ⟨rfl, ?_⟩
  have hrules := ofRules?_of_all_eq h
  have hchars := TokenKind.isAlphanum_of_isReservedWord hword
  obtain ⟨c, rest, hcons, hc⟩ := TokenKind.exists_isAlpha_of_isReservedWord hword
  obtain ⟨last, hlast⟩ : ∃ last, word.spelling.toList.getLast? = some last :=
    ⟨_, List.getLast?_eq_some_getLast (hcons ▸ List.cons_ne_nil c rest)⟩
  -- If the word ended with the name, the rule for that reserved word would take it.
  have hmore : ∃ d, (right.flatMap Piece.text).head? = some d ∧ isWordChar d = true := by
    by_contra hends
    have hafter (d : Char) (hd : (right.flatMap Piece.text).head? = some d) :
        isWordChar d = false := by
      rw [Bool.eq_false_iff]
      exact fun hchar => hends ⟨d, hd, hchar⟩
    have hrun := takeWhile_run_append
      (fun d hd => isWordChar_of_isAlphanum (hchars d hd)) hafter
    rw [ofRules?_reserved hword hrun] at hrules
    have hname : word = .identifier word.spelling :=
      Lexeme.token.inj (Piece.mk.inj (Option.some.inj hrules)).2
    rw [hname] at hword
    cases hword
  obtain ⟨d, hd, hchar⟩ := hmore
  obtain rfl : d = '_' := by
    have hnot : d.isAlphanum = false := by
      rw [Bool.eq_false_iff]
      intro halphanum
      exact (hapart last d hlast hd).2 ⟨hchars last (List.mem_of_getLast? hlast), halphanum⟩
    rw [isWordChar, hnot, Bool.false_or, beq_iff_eq] at hchar
    exact hchar
  obtain ⟨more, hafter⟩ := List.head?_eq_some_iff.mp hd
  rw [← List.singleton_append, ← List.append_assoc] at h
  have hpieces := all_of_all_eq_append h
  rw [hafter, all_underscore] at hpieces
  exact ⟨all more, hpieces.symm⟩

end Piece

namespace PlacedPiece

theorem layOut_append (offset : Nat) (first second : List Piece) :
    layOut offset (first ++ second) =
      layOut offset first ++ layOut (offset + byteLength (first.flatMap Piece.text)) second := by
  induction first generalizing offset with
  | nil => rfl
  | cons piece rest ih =>
      rw [List.cons_append, layOut, ih, layOut, List.flatMap_cons, byteLength_append,
        Nat.add_assoc, List.cons_append]

theorem flatMap_text_layOut (offset : Nat) (text : List Char) :
    (layOut offset (Piece.all text)).flatMap (·.piece.text) = text := by
  rw [← List.flatMap_map, map_piece_layOut, Piece.flatMap_text_all]

end PlacedPiece

namespace Scan

theorem mem_diagnostics_of_all_eq {text run : List Char} {left right : List Piece}
    {error : LexicalError} (h : Piece.all text = left ++ ⟨run, .malformed error⟩ :: right)
    (offset : Nat) :
    ⟨error.message, offset + byteLength (left.flatMap Piece.text)⟩ ∈
      (ofText offset text).diagnostics := by
  unfold ofText
  rw [h, PlacedPiece.layOut_append, PlacedPiece.layOut]
  apply List.mem_filterMap.mpr
  exact ⟨⟨⟨run, .malformed error⟩, _⟩, List.mem_append_right _ List.mem_cons_self, rfl⟩

theorem exists_piece_of_token {text : List Char} {token : Token}
    (h : token ∈ (ofText 0 text).tokens) :
    ∃ left run right, Piece.all text = left ++ ⟨run, .token token.kind⟩ :: right ∧
      token.offset = byteLength (left.flatMap Piece.text) := by
  obtain ⟨⟨⟨run, lexeme⟩, offset⟩, hplaced, htoken⟩ := List.mem_filterMap.mp h
  obtain ⟨before, after, hsplit⟩ := List.append_of_mem hplaced
  have hoffset := PlacedPiece.offset_of_layOut_eq hsplit
  have hpieces := congrArg (List.map PlacedPiece.piece) hsplit
  rw [PlacedPiece.map_piece_layOut, List.map_append, List.map_cons] at hpieces
  cases lexeme with
  | blank => cases htoken
  | malformed error => cases htoken
  | token kind =>
      obtain rfl := Option.some.inj htoken
      refine ⟨_, run, _, hpieces, ?_⟩
      rw [List.flatMap_map]
      exact hoffset.trans (Nat.zero_add _)

theorem isWordScan_ofText {word : List Char} (hne : word ≠ [])
    (hword : ∀ c ∈ word, isWordChar c = true) (offset : Nat) :
    IsWordScan word offset (ofText offset word) where
  digits hdigits := by
    rcases Piece.all_of_digits hword hne hdigits with ⟨value, hvalue, hall⟩ | ⟨hlarge, hall⟩
    · refine .inl ⟨value, hvalue, ?_⟩
      rw [ofText, hall]
      rfl
    · refine .inr ⟨hlarge, ?_⟩
      rw [ofText, hall]
      rfl
  illegal digits c rest htext hnonempty hdigits hc := by
    rw [ofText, Piece.all_of_illegalIdentifier hword htext hnonempty hdigits hc]
    rfl
  letters c rest htext hc hunderscore := by
    obtain ⟨kind, hkind, hall⟩ := Piece.all_of_letters hword htext hc hunderscore
    refine ⟨kind, hkind, ?_⟩
    rw [ofText, hall]
    rfl
  underscore hdigit hunderscore := by
    obtain ⟨before, after, left, right, htext, hall, hbefore⟩ :=
      Piece.exists_underscore hword hdigit hunderscore
    have hmem := mem_diagnostics_of_all_eq hall offset
    rw [hbefore] at hmem
    exact ⟨before, after, htext, hmem⟩

/-- A name that is spelled like a reserved word stands in front of an underscore,
and that is reported. -/
theorem exists_underscore_of_token {text : List Char} {token : Token}
    (htoken : token ∈ (ofText 0 text).tokens) {word : TokenKind}
    (hword : word.isReservedWord = true) (hkind : token.kind = .identifier word.spelling) :
    ∃ before after, text = before ++ word.spelling.toList ++ '_' :: after ∧
      token.offset = byteLength before ∧
      ⟨(LexicalError.unexpectedCharacter '_').message,
          token.offset + word.spelling.utf8ByteSize⟩ ∈ (ofText 0 text).diagnostics := by
  obtain ⟨left, run, right, hall, hoffset⟩ := exists_piece_of_token htoken
  rw [hkind] at hall
  obtain ⟨rfl, others, rfl⟩ := Piece.exists_underscore_behind hword hall
  have hcovers := Piece.flatMap_text_all text
  rw [hall, List.flatMap_append, List.flatMap_cons, List.flatMap_cons] at hcovers
  refine ⟨left.flatMap Piece.text, others.flatMap Piece.text, ?_, hoffset, ?_⟩
  · rw [← hcovers, List.append_assoc]
    rfl
  · rw [← List.singleton_append, ← List.append_assoc] at hall
    have hreport := mem_diagnostics_of_all_eq hall 0
    rw [List.flatMap_append, List.flatMap_singleton, byteLength_append, ← hoffset, Nat.zero_add,
      ← byteLength_ofList, String.ofList_toList] at hreport
    exact hreport

end Scan

/-- The lexemes of a whole word are taken from it alone, and which they are is
settled by its characters. A name that is spelled like a reserved word is cut off
by an underscore which is reported, so there is none in a source without lexical
errors. -/
theorem whole_words_decide (source : String) :
    (∀ before word after, source.toList = before ++ word ++ after →
      IsRun isWordChar before word after →
        ∃ left taken right,
          PlacedPiece.layOut 0 (Piece.all source.toList) = left ++ taken ++ right ∧
          left.flatMap (·.piece.text) = before ∧ taken.flatMap (·.piece.text) = word ∧
          right.flatMap (·.piece.text) = after ∧
          IsWordScan word (byteLength before) (.ofPlaced taken)) ∧
    (∀ token ∈ (scan source).tokens, ∀ word : TokenKind, word.isReservedWord = true →
      token.kind = .identifier word.spelling →
        ∃ before after, source.toList = before ++ word.spelling.toList ++ '_' :: after ∧
          token.offset = byteLength before ∧
          ⟨(LexicalError.unexpectedCharacter '_').message,
              token.offset + word.spelling.utf8ByteSize⟩ ∈ (scan source).diagnostics) ∧
    ((scan source).diagnostics = [] → ∀ token ∈ (scan source).tokens, ∀ word : TokenKind,
      word.isReservedWord = true → token.kind ≠ .identifier word.spelling) := by
  refine ⟨fun before word after hsource hrun => ?_,
    fun token htoken word hword hkind => Scan.exists_underscore_of_token htoken hword hkind,
    fun hreports token htoken word hword hkind => ?_⟩
  · have hpieces := Piece.all_of_isRun hrun
    refine ⟨_, _, _, ?_, PlacedPiece.flatMap_text_layOut 0 before,
      PlacedPiece.flatMap_text_layOut (byteLength before) word,
      PlacedPiece.flatMap_text_layOut (byteLength (before ++ word)) after,
      Scan.isWordScan_ofText hrun.ne_nil hrun.inside _⟩
    rw [hsource, hpieces, PlacedPiece.layOut_append, PlacedPiece.layOut_append, List.flatMap_append,
      Piece.flatMap_text_all, Piece.flatMap_text_all, Nat.zero_add, Nat.zero_add]
  · obtain ⟨_, _, _, _, hreport⟩ := Scan.exists_underscore_of_token htoken hword hkind
    change _ ∈ (scan source).diagnostics at hreport
    rw [hreports] at hreport
    cases hreport

/-- `int_ 1_a`: a word with a name in it that is spelled like a type, and a word
that is one mistake. -/
theorem whole_words_decide_underscore :
    IsRun isWordChar [] "int_".toList " 1_a".toList ∧
      scan "int_ 1_a" =
        ⟨[⟨.identifier "int", 0⟩],
          [⟨(LexicalError.unexpectedCharacter '_').message, 3⟩,
            ⟨(LexicalError.illegalIdentifier "1_a").message, 5⟩]⟩ ∧
      ∃ before after, "int_ 1_a".toList = before ++ "int".toList ++ '_' :: after ∧
        0 = byteLength before ∧
        ⟨(LexicalError.unexpectedCharacter '_').message, 0 + "int".utf8ByteSize⟩ ∈
          (scan "int_ 1_a").diagnostics := by
  refine ⟨⟨by simp, ?_, by simp, ?_⟩, rfl, ?_⟩
  · exact List.all_eq_true.mp rfl
  · rintro c ⟨⟩
    rfl
  · have hname : ⟨.identifier "int", 0⟩ ∈ (scan "int_ 1_a").tokens := List.mem_singleton_self _
    exact (whole_words_decide "int_ 1_a").2.1 _ hname (.typeName .int) rfl rfl

end ClassLang
