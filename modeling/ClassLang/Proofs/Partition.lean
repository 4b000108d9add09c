import ClassLang.Proofs.Lexeme
import ClassLang.Scan

/-!
A source is partitioned into pieces that fit their places, and what a scan
gives are these pieces: the tokens among them and the malformed ones, in order
and at the byte where each begins. The sort of each piece is forced by its text
and its place, so no piece could have been reported otherwise.
-/

namespace ClassLang

open LexicalRule Text

/-- White space twice, tokens of any two kinds, or the same mistake. -/
inductive Lexeme.SameSort : Lexeme → Lexeme → Prop where
  | blank : SameSort .blank .blank
  | token (kind kind' : TokenKind) : SameSort (.token kind) (.token kind')
  | malformed (error : LexicalError) : SameSort (.malformed error) (.malformed error)

section Sorts

variable {before text after : List Char}

/-- What the sort of a lexeme says about the first character of its text and
about the digits in it. -/
def Lexeme.ShownBy (first : Char) (rest after : List Char) : Lexeme → Prop
  | .blank => isBlank first = true
  | .token _ =>
      isBlank first = false ∧
        (first.isDigit = true →
          (first :: rest).all Char.isDigit = true ∧
            decimalValue (first :: rest) ≤ maxInteger) ∧
        (rest = [] → ¬ IsUnexpected first after)
  | .malformed (.illegalIdentifier found) =>
      found = String.ofList (first :: rest) ∧ first.isDigit = true ∧
        (first :: rest).all Char.isDigit = false
  | .malformed (.integerOutOfRange found) =>
      found = String.ofList (first :: rest) ∧ first.isDigit = true ∧
        (first :: rest).all Char.isDigit = true ∧ maxInteger < decimalValue (first :: rest)
  | .malformed (.unexpectedCharacter found) =>
      found = first ∧ rest = [] ∧ IsUnexpected first after

theorem isBlank_of_isDigit {c : Char} (h : c.isDigit = true) : isBlank c = false :=
  isBlank_of_isWordChar (isWordChar_of_isAlphanum (isAlphanum_of_isDigit h))

theorem IsUnexpected.isDigit {c : Char} (h : IsUnexpected c after) : c.isDigit = false := by
  rw [Bool.eq_false_iff]
  intro hdigit
  have halphanum := h.2.1
  rw [isAlphanum_of_isDigit hdigit] at halphanum
  cases halphanum

theorem isDigit_of_isAlpha {c : Char} (h : c.isAlpha = true) : c.isDigit = false := by
  rw [Bool.eq_false_iff, Ne, isDigit_iff]
  rw [isAlpha_iff] at h
  omega

/-- A text that begins with a letter is only ever a token. -/
theorem shownBy_token_of_isAlpha {first : Char} {rest : List Char} (kind : TokenKind)
    (h : first.isAlpha = true) : (Lexeme.token kind).ShownBy first rest after := by
  have halphanum := isAlphanum_of_isAlpha h
  refine ⟨isBlank_of_isWordChar (isWordChar_of_isAlphanum halphanum), ?_, ?_⟩
  · intro hdigit
    rw [isDigit_of_isAlpha h] at hdigit
    cases hdigit
  · intro _ hunexpected
    rw [hunexpected.2.1] at halphanum
    cases halphanum

/-- So is a text that begins with a mark. -/
theorem shownBy_token_of_mark {first : Char} {rest : List Char} (kind : TokenKind)
    (h : isBlank first = false ∧ first.isAlphanum = false)
    (hmark : rest = [] → ¬ IsUnexpected first after) :
    (Lexeme.token kind).ShownBy first rest after := by
  refine ⟨h.1, ?_, hmark⟩
  intro hdigit
  have halphanum := h.2
  rw [isAlphanum_of_isDigit hdigit] at halphanum
  cases halphanum

/-- Whether the token is a word that is known by its spelling. -/
def TokenKind.isReservedWord : TokenKind → Bool
  | .keyword _ | .typeName _ | .literal (.bool _) => true
  | .identifier _ | .separator _ | .literal (.int _) | .operator _ => false

/-- The words that are known by their spelling, one by one. -/
def TokenKind.reservedWords : List TokenKind :=
  Keyword.all.map .keyword ++ TypeName.all.map .typeName ++
    [.literal (.bool true), .literal (.bool false)]

theorem TokenKind.mem_reservedWords {kind : TokenKind} (h : kind.isReservedWord = true) :
    kind ∈ reservedWords := by
  unfold reservedWords
  rw [List.mem_append, List.mem_append]
  cases kind with
  | keyword word => exact .inl (.inl (List.mem_map_of_mem word.mem_all))
  | typeName name => exact .inl (.inr (List.mem_map_of_mem name.mem_all))
  | literal value =>
      cases value with
      | bool value => cases value <;> exact .inr (by simp)
      | int _ => cases h
  | identifier _ | separator _ | operator _ => cases h

theorem TokenKind.exists_isAlpha_of_isReservedWord {kind : TokenKind}
    (h : kind.isReservedWord = true) :
    ∃ first rest, kind.spelling.toList = first :: rest ∧ first.isAlpha = true := by
  have hall : reservedWords.all (·.spelling.toList.head?.any Char.isAlpha) = true := rfl
  have hfirst := List.all_eq_true.mp hall kind (mem_reservedWords h)
  cases hspelling : kind.spelling.toList with
  | nil =>
      rw [hspelling] at hfirst
      cases hfirst
  | cons first rest =>
      rw [hspelling] at hfirst
      exact ⟨first, rest, rfl, hfirst⟩

/-- A text that a reserved word spells begins with a letter. -/
theorem shownBy_token_of_isReservedWord {kind : TokenKind} (hkind : kind.isReservedWord = true)
    (h : String.ofList text = kind.spelling) :
    ∃ first rest, text = first :: rest ∧ (Lexeme.token kind).ShownBy first rest after := by
  obtain ⟨first, rest, hspelling, halpha⟩ := TokenKind.exists_isAlpha_of_isReservedWord hkind
  refine ⟨first, rest, ?_, shownBy_token_of_isAlpha kind halpha⟩
  rw [← hspelling, ← h, String.toList_ofList]

theorem TokenKind.IsWritten.shownBy {kind : TokenKind} (h : kind.IsWritten before text after) :
    ∃ first rest, text = first :: rest ∧ (Lexeme.token kind).ShownBy first rest after := by
  cases kind with
  | keyword word => exact shownBy_token_of_isReservedWord rfl h
  | typeName name => exact shownBy_token_of_isReservedWord rfl h
  | identifier name =>
      obtain ⟨_, first, rest, rfl, halpha, _⟩ := h
      exact ⟨first, rest, rfl, shownBy_token_of_isAlpha _ halpha⟩
  | literal value =>
      cases value with
      | bool value => exact shownBy_token_of_isReservedWord rfl h
      | int value =>
          obtain ⟨hrun, hvalue⟩ := h
          obtain ⟨first, rest, rfl⟩ := List.exists_cons_of_ne_nil hrun.ne_nil
          have hdigit := hrun.inside first List.mem_cons_self
          refine ⟨first, rest, rfl, isBlank_of_isDigit hdigit, fun _ => ⟨?_, ?_⟩, ?_⟩
          · exact List.all_eq_true.mpr hrun.inside
          · have hless := value.toInt_lt
            unfold maxInteger
            omega
          · intro _ hunexpected
            rw [hunexpected.isDigit] at hdigit
            cases hdigit
  | separator mark =>
      have htext : text = [mark.char] := by
        rw [← String.toList_ofList (l := text), h]
        simp [TokenKind.spelling, Separator.spelling]
      refine ⟨mark.char, [], htext, shownBy_token_of_mark _ (separator_char mark) ?_⟩
      exact fun _ hunexpected => hunexpected.2.2.1 mark rfl
  | operator symbol =>
      have htext : text = symbol.spelling.toList := by
        rw [← String.toList_ofList (l := text), h]
        rfl
      obtain ⟨first, rest, hcons⟩ := List.exists_cons_of_ne_nil (operator_spelling_ne_nil symbol)
      have hfirst := operator_spelling_chars symbol first (hcons ▸ List.mem_cons_self)
      refine ⟨first, rest, htext.trans hcons, shownBy_token_of_mark _ hfirst ?_⟩
      rintro rfl hunexpected
      apply hunexpected.2.2.2 symbol
      rw [hcons]
      exact List.cons_prefix_cons.mpr ⟨rfl, List.nil_prefix⟩

theorem Lexeme.Fits.shownBy {lexeme : Lexeme} (h : lexeme.Fits before text after) :
    ∃ first rest, text = first :: rest ∧ lexeme.ShownBy first rest after := by
  cases lexeme with
  | blank =>
      obtain ⟨first, rest, rfl⟩ := List.exists_cons_of_ne_nil h.ne_nil
      exact ⟨first, rest, rfl, h.inside first List.mem_cons_self⟩
  | token kind => exact TokenKind.IsWritten.shownBy h
  | malformed error =>
      cases error with
      | illegalIdentifier found =>
          obtain ⟨rfl, digits, c, rest, rfl, hne, hdigits, hc, _⟩ := h
          obtain ⟨first, more, rfl⟩ := List.exists_cons_of_ne_nil hne
          refine ⟨first, more ++ c :: rest, rfl, rfl, hdigits first List.mem_cons_self, ?_⟩
          have hdigit : c.isDigit = false := by
            rcases hc with halpha | rfl
            · exact isDigit_of_isAlpha halpha
            · rfl
          simp [hdigit]
      | integerOutOfRange found =>
          obtain ⟨rfl, hrun, hvalue⟩ := h
          obtain ⟨first, rest, rfl⟩ := List.exists_cons_of_ne_nil hrun.ne_nil
          exact ⟨first, rest, rfl, rfl, hrun.inside first List.mem_cons_self,
            List.all_eq_true.mpr hrun.inside, hvalue⟩
      | unexpectedCharacter found =>
          obtain ⟨rfl, hunexpected⟩ := h
          exact ⟨found, [], rfl, rfl, rfl, hunexpected⟩

/-- No text in its place is of two sorts. -/
theorem Lexeme.Fits.sameSort {lexeme lexeme' : Lexeme} (h : lexeme.Fits before text after)
    (h' : lexeme'.Fits before text after) : lexeme.SameSort lexeme' := by
  obtain ⟨first, rest, rfl, hshown⟩ := h.shownBy
  obtain ⟨_, _, heq, hshown'⟩ := h'.shownBy
  obtain ⟨rfl, rfl⟩ := List.cons_eq_cons.mp heq
  have hdigit : first.isDigit = true → isBlank first = false := isBlank_of_isDigit
  have hunexpected : IsUnexpected first after → isBlank first = false ∧ first.isDigit = false :=
    fun h => ⟨h.1, h.isDigit⟩
  -- the five sorts disagree on white space, on digits, or on what may begin here
  rcases lexeme with _ | kind | ⟨found | c | found⟩ <;>
    rcases lexeme' with _ | kind' | ⟨found' | c' | found'⟩ <;>
    simp only [Lexeme.ShownBy] at hshown hshown' <;>
    first
    | exact .blank
    | exact .token _ _
    | (obtain ⟨rfl, _⟩ := hshown
       obtain ⟨rfl, _⟩ := hshown'
       exact .malformed _)
    | grind

end Sorts

theorem Piece.allAfter_eq (skip : Nat) (text : List Char) :
    allAfter skip text = all (text.drop skip) := by
  induction text generalizing skip with
  | nil => simp [all, allAfter]
  | cons c rest ih =>
      cases skip with
      | zero => rfl
      | succ skip => exact ih skip

theorem Piece.first_text (c : Char) (rest : List Char) :
    (first c rest).text ≠ [] ∧ ∃ after, c :: rest = (first c rest).text ++ after := by
  obtain ⟨after, hafter, hfits, _⟩ := isCut_first (apart_nil (c :: rest))
  obtain ⟨d, more, htext, _⟩ := hfits.shownBy
  refine ⟨?_, after, hafter⟩
  rw [htext]
  exact List.cons_ne_nil _ _

theorem Piece.all_cons {c : Char} {rest after : List Char}
    (h : c :: rest = (first c rest).text ++ after) :
    all (c :: rest) = first c rest :: all after := by
  change first c rest :: allAfter ((first c rest).text.length - 1) rest = _
  obtain ⟨d, more, htext⟩ := List.exists_cons_of_ne_nil (first_text c rest).1
  rw [htext, List.cons_append, List.cons.injEq] at h
  rw [allAfter_eq, htext, h.2, List.length_cons, Nat.add_sub_cancel, List.drop_left]

/-- Induction on the pieces of a text: what holds of a text whenever it holds of
what is behind the first piece holds of every text. -/
@[elab_as_elim]
theorem Piece.text_induction {motive : List Char → Prop} (nil : motive [])
    (cons : ∀ c rest after, (first c rest).text ≠ [] → c :: rest = (first c rest).text ++ after →
      motive after → motive (c :: rest)) (text : List Char) : motive text := by
  generalize hsize : text.length = size
  induction size using Nat.strongRecOn generalizing text with
  | ind size ih =>
      cases text with
      | nil => exact nil
      | cons c rest =>
          obtain ⟨hne, after, hafter⟩ := first_text c rest
          have hlength := congrArg List.length hafter
          have hpos := List.length_pos_iff.mpr hne
          rw [List.length_append] at hlength
          exact cons c rest after hne hafter (ih after.length (by omega) after rfl)

/-- Nothing is lost and nothing is taken twice. -/
theorem Piece.flatMap_text_all (text : List Char) : (all text).flatMap Piece.text = text := by
  induction text using text_induction with
  | nil => rfl
  | cons c rest after _ hafter ih =>
      rw [all_cons hafter, List.flatMap_cons, ih]
      exact hafter.symm

/-- Each piece is cut where it belongs, by induction on the pieces before it:
each of them hands on a place at which no run is cut in two. -/
theorem Piece.isCut_of_all_eq {before text : List Char} (hapart : Apart before text)
    {left right : List Piece} {piece : Piece} (h : all text = left ++ piece :: right) :
    piece.lexeme.Fits (before ++ left.flatMap Piece.text) piece.text
        (right.flatMap Piece.text) ∧
      Apart piece.text (right.flatMap Piece.text) := by
  induction left generalizing before text with
  | nil =>
      cases text with
      | nil => cases h
      | cons c rest =>
          obtain ⟨after, hafter, hfits, hnext⟩ := isCut_first hapart
          rw [all_cons hafter, List.nil_append, List.cons.injEq] at h
          obtain ⟨rfl, rfl⟩ := h
          rw [flatMap_text_all, List.flatMap_nil, List.append_nil]
          exact ⟨hfits, hnext⟩
  | cons head left ih =>
      cases text with
      | nil => cases h
      | cons c rest =>
          obtain ⟨after, hafter, _, hnext⟩ := isCut_first hapart
          rw [all_cons hafter, List.cons_append, List.cons.injEq] at h
          obtain ⟨rfl, hall⟩ := h
          have hne := (first_text c rest).1
          have hbehind : Apart (before ++ (first c rest).text) after := by
            intro d e hd he
            rw [List.getLast?_append, List.getLast?_eq_some_getLast hne, Option.some_or,
              ← List.getLast?_eq_some_getLast hne] at hd
            exact hnext d e hd he
          rw [List.flatMap_cons, ← List.append_assoc]
          exact ih hbehind hall

namespace PlacedPiece

theorem map_piece_layOut (offset : Nat) (pieces : List Piece) :
    (layOut offset pieces).map PlacedPiece.piece = pieces := by
  induction pieces generalizing offset with
  | nil => rfl
  | cons first rest ih => rw [layOut, List.map_cons, ih]

theorem offset_of_layOut_eq {offset : Nat} {pieces : List Piece} {left right : List PlacedPiece}
    {placed : PlacedPiece} (h : layOut offset pieces = left ++ placed :: right) :
    placed.offset = offset + byteLength (left.flatMap (·.piece.text)) := by
  induction left generalizing offset pieces with
  | nil =>
      cases pieces with
      | nil => cases h
      | cons first rest =>
          rw [layOut, List.nil_append, List.cons.injEq] at h
          rw [← h.1]
          rfl
  | cons head left ih =>
      cases pieces with
      | nil => cases h
      | cons first rest =>
          rw [layOut, List.cons_append, List.cons.injEq] at h
          obtain ⟨rfl, hrest⟩ := h
          rw [ih hrest, List.flatMap_cons, byteLength_append, Nat.add_assoc]

end PlacedPiece

/-- The pieces cover the text, one after the other, each at its offset and of
the only sort that fits its place. White space is not split up, and neither is
a run of letters and digits. -/
structure IsPartition (text : List Char) (pieces : List PlacedPiece) : Prop where
  covers : pieces.flatMap (·.piece.text) = text
  ne_nil : ∀ placed ∈ pieces, placed.piece.text ≠ []
  offset : ∀ before placed after, pieces = before ++ placed :: after →
    placed.offset = byteLength (before.flatMap (·.piece.text))
  fits : ∀ before placed after, pieces = before ++ placed :: after →
    placed.piece.lexeme.Fits (before.flatMap (·.piece.text)) placed.piece.text
      (after.flatMap (·.piece.text))
  apart : ∀ before placed after, pieces = before ++ placed :: after →
    Apart placed.piece.text (after.flatMap (·.piece.text))
  sort_unique : ∀ before placed after (lexeme : Lexeme), pieces = before ++ placed :: after →
    lexeme.Fits (before.flatMap (·.piece.text)) placed.piece.text
      (after.flatMap (·.piece.text)) → lexeme.SameSort placed.piece.lexeme

theorem isPartition_layOut (text : List Char) :
    IsPartition text (PlacedPiece.layOut 0 (Piece.all text)) := by
  have hpieces := PlacedPiece.map_piece_layOut 0 (Piece.all text)
  have hcovers (placed : List PlacedPiece) :
      placed.flatMap (·.piece.text) = (placed.map PlacedPiece.piece).flatMap Piece.text := by
    rw [List.flatMap_map]
  have hcut (before : List PlacedPiece) (placed : PlacedPiece) (after : List PlacedPiece)
      (h : PlacedPiece.layOut 0 (Piece.all text) = before ++ placed :: after) :
      placed.piece.lexeme.Fits (before.flatMap (·.piece.text)) placed.piece.text
          (after.flatMap (·.piece.text)) ∧
        Apart placed.piece.text (after.flatMap (·.piece.text)) := by
    rw [h, List.map_append, List.map_cons] at hpieces
    rw [hcovers, hcovers]
    exact Piece.isCut_of_all_eq (apart_nil text) hpieces.symm
  have hne (placed : PlacedPiece)
      (h : placed ∈ PlacedPiece.layOut 0 (Piece.all text)) : placed.piece.text ≠ [] := by
    obtain ⟨before, after, hsplit⟩ := List.append_of_mem h
    obtain ⟨first, rest, hcons, _⟩ := (hcut before placed after hsplit).1.shownBy
    rw [hcons]
    exact List.cons_ne_nil _ _
  refine ⟨?_, hne, ?_, ?_, ?_, ?_⟩
  · rw [hcovers, hpieces, Piece.flatMap_text_all]
  · intro before placed after h
    rw [PlacedPiece.offset_of_layOut_eq h, Nat.zero_add]
  · intro before placed after h
    exact (hcut before placed after h).1
  · intro before placed after h
    exact (hcut before placed after h).2
  · intro before placed after lexeme h hlexeme
    exact hlexeme.sameSort (hcut before placed after h).1

/-- The offsets of tokens and of reports, merged in increasing order. -/
def Scan.offsets (scan : Scan) : List Nat :=
  (scan.tokens.map Token.offset).merge (scan.diagnostics.map Diagnostic.offset)

/-- The offset of a piece that is not white space. -/
def PlacedPiece.mark? (placed : PlacedPiece) : Option Nat :=
  if placed.piece.lexeme = .blank then none else some placed.offset

/-- Each piece that is not white space is a token or is reported, and only
once. -/
theorem PlacedPiece.offsets_perm_marks (pieces : List PlacedPiece) :
    ((pieces.filterMap token?).map Token.offset ++
      (pieces.filterMap diagnostic?).map Diagnostic.offset).Perm (pieces.filterMap mark?) := by
  induction pieces with
  | nil => exact .nil
  | cons placed rest ih =>
      obtain ⟨⟨text, lexeme⟩, offset⟩ := placed
      cases lexeme with
      | blank => exact ih
      | token kind => exact .cons offset ih
      | malformed error => exact List.perm_middle.trans (.cons offset ih)

namespace IsPartition

variable {text : List Char} {pieces : List PlacedPiece}

/-- Every piece takes up bytes, so the next ones are further on. -/
theorem pairwise_offset (h : IsPartition text pieces) :
    pieces.Pairwise (fun first second => first.offset < second.offset) := by
  have hsuffix (before rest : List PlacedPiece) (hsplit : pieces = before ++ rest) :
      rest.Pairwise (fun first second => first.offset < second.offset) := by
    induction rest generalizing before with
    | nil => exact .nil
    | cons placed rest ih =>
        refine .cons ?_ (ih (before ++ [placed]) (by simp [hsplit]))
        intro other hother
        obtain ⟨between, after, rfl⟩ := List.append_of_mem hother
        have hplaced := h.offset before placed _ hsplit
        have hlater : other.offset =
            byteLength ((before ++ placed :: between).flatMap (·.piece.text)) :=
          h.offset _ other after (by simp [hsplit])
        have hne := h.ne_nil placed (by simp [hsplit])
        obtain ⟨c, more, hcons⟩ := List.exists_cons_of_ne_nil hne
        have hpos := c.utf8Size_pos
        rw [hplaced, hlater, List.flatMap_append, List.flatMap_cons, hcons]
        simp only [byteLength_append, List.cons_append, byteLength_cons]
        omega
  exact hsuffix [] pieces rfl

/-- Whatever pieces are picked out, their offsets increase. -/
theorem pairwise_filterMap (h : IsPartition text pieces) {pick : PlacedPiece → Option Nat}
    (hpick : ∀ placed offset, pick placed = some offset → placed.offset = offset) :
    (pieces.filterMap pick).Pairwise (· < ·) := by
  apply h.pairwise_offset.filterMap
  intro first second hless offset hoffset offset' hoffset'
  rw [← hpick first offset hoffset, ← hpick second offset' hoffset']
  exact hless

theorem pairwise_tokens (h : IsPartition text pieces) :
    ((pieces.filterMap PlacedPiece.token?).map Token.offset).Pairwise (· < ·) := by
  rw [List.map_filterMap]
  apply h.pairwise_filterMap
  intro placed offset hoffset
  simp only [PlacedPiece.token?, Option.map_map, Option.map_eq_some_iff] at hoffset
  obtain ⟨_, _, rfl⟩ := hoffset
  rfl

theorem pairwise_diagnostics (h : IsPartition text pieces) :
    ((pieces.filterMap PlacedPiece.diagnostic?).map Diagnostic.offset).Pairwise (· < ·) := by
  rw [List.map_filterMap]
  apply h.pairwise_filterMap
  intro placed offset hoffset
  simp only [PlacedPiece.diagnostic?, Option.map_map, Option.map_eq_some_iff] at hoffset
  obtain ⟨_, _, rfl⟩ := hoffset
  rfl

theorem pairwise_marks (h : IsPartition text pieces) :
    (pieces.filterMap PlacedPiece.mark?).Pairwise (· < ·) := by
  apply h.pairwise_filterMap
  intro placed offset hoffset
  unfold PlacedPiece.mark? at hoffset
  split at hoffset <;> cases hoffset
  rfl

theorem offsets_eq (h : IsPartition text pieces) :
    (Scan.ofPlaced pieces).offsets = pieces.filterMap PlacedPiece.mark? := by
  have hmerge : (Scan.ofPlaced pieces).offsets.Pairwise (· ≤ ·) := by
    have hle : ∀ a b : Nat, a < b → decide (a ≤ b) = true :=
      fun a b hless => decide_eq_true (Nat.le_of_lt hless)
    have hmerge := @List.pairwise_merge Nat (fun a b => decide (a ≤ b))
      (by simpa using fun a b c => Nat.le_trans) (by simpa using Nat.le_total) _ _
      (h.pairwise_tokens.imp (hle _ _)) (h.pairwise_diagnostics.imp (hle _ _))
    exact hmerge.imp of_decide_eq_true
  have hmarks := h.pairwise_marks.imp Nat.le_of_lt
  have hperm : (Scan.ofPlaced pieces).offsets.Perm (pieces.filterMap PlacedPiece.mark?) := by
    have happend := PlacedPiece.offsets_perm_marks pieces
    exact List.Perm.trans (List.merge_perm_append _) happend
  exact List.Perm.eq_of_pairwise (fun _ _ _ _ => Nat.le_antisymm) hmerge hmarks hperm

/-- A token and a report point at a character, and it is no white space. -/
theorem exists_char_of_mark (h : IsPartition text pieces) {offset : Nat}
    (hoffset : offset ∈ pieces.filterMap PlacedPiece.mark?) :
    ∃ before c after, text = before ++ c :: after ∧ offset = byteLength before ∧
      isBlank c = false := by
  obtain ⟨placed, hplaced, hmark⟩ := List.mem_filterMap.mp hoffset
  unfold PlacedPiece.mark? at hmark
  split at hmark
  · cases hmark
  · next hblank =>
      cases hmark
      obtain ⟨before, after, hsplit⟩ := List.append_of_mem hplaced
      have hfits := h.fits before placed after hsplit
      obtain ⟨first, rest, hcons, hshown⟩ := hfits.shownBy
      refine ⟨before.flatMap (·.piece.text), first, rest ++ after.flatMap (·.piece.text), ?_,
        h.offset before placed after hsplit, ?_⟩
      · rw [← h.covers, hsplit, List.flatMap_append, List.flatMap_cons, hcons]
        rfl
      · cases hlexeme : placed.piece.lexeme with
        | blank => exact absurd hlexeme hblank
        | token kind =>
            rw [hlexeme] at hshown
            exact hshown.1
        | malformed error =>
            rw [hlexeme] at hshown
            cases error with
            | illegalIdentifier found => exact isBlank_of_isDigit hshown.2.1
            | integerOutOfRange found => exact isBlank_of_isDigit hshown.2.1
            | unexpectedCharacter found => exact hshown.2.2.1

end IsPartition

/-- Nothing of a source is lost and nothing is taken twice. The tokens of a
scan are the token pieces of a partition, its reports are the malformed ones,
and all of them together stand at increasing places, each at the beginning of a
character that is no white space. -/
theorem scan_partition (source : String) :
    (∃ pieces, IsPartition source.toList pieces ∧
      (scan source).tokens = pieces.filterMap PlacedPiece.token? ∧
      (scan source).diagnostics = pieces.filterMap PlacedPiece.diagnostic?) ∧
    (scan source).offsets.Pairwise (· < ·) ∧
    ∀ offset ∈ (scan source).offsets,
      offset < source.utf8ByteSize ∧ String.Pos.Raw.IsValid source ⟨offset⟩ ∧
        ∃ before c after, source.toList = before ++ c :: after ∧ offset = byteLength before ∧
          isBlank c = false := by
  have hpartition := isPartition_layOut source.toList
  have hoffsets : (scan source).offsets = _ := hpartition.offsets_eq
  refine ⟨⟨_, hpartition, rfl, rfl⟩, ?_, ?_⟩
  · rw [hoffsets]
    exact hpartition.pairwise_marks
  · intro offset hoffset
    rw [hoffsets] at hoffset
    obtain ⟨before, c, after, htext, hbefore, hblank⟩ := hpartition.exists_char_of_mark hoffset
    have hsource : source = String.ofList before ++ String.ofList (c :: after) := by
      rw [← String.ofList_append, ← htext, String.ofList_toList]
    have hlength : (String.ofList before).utf8ByteSize = offset := by
      rw [byteLength_ofList, hbefore]
    refine ⟨?_, ?_, before, c, after, htext, hbefore, hblank⟩
    · have hpos := c.utf8Size_pos
      rw [hsource, String.utf8ByteSize_append, hlength, byteLength_ofList, byteLength_cons]
      omega
    · apply String.Pos.Raw.isValid_iff_exists_append.mpr
      refine ⟨String.ofList before, String.ofList (c :: after), hsource, ?_⟩
      rw [← hlength]
      rfl

end ClassLang
