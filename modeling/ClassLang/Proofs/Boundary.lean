import ClassLang.Proofs.Spelling

/-!
Scanning part by part. Where neither a word nor a mark of two characters goes
on, a source may be cut in two: no rule takes a piece that reaches across the
cut, and none looks behind it to decide what it takes in front of it. Only white
space may be one run that the cut divides, and that leaves nothing in a scan.
So the scans of the parts, one behind the other, are the scan of the whole,
whatever is wrong with either of them.
-/

namespace ClassLang

open LexicalRule Text

/-- The marks of two characters. -/
def joinedMarks : List (List Char) :=
  ["<=".toList, ">=".toList, "==".toList, "&&".toList, "||".toList]

theorem isBlank_of_mem_joinedMarks {mark : List Char} (hmark : mark ∈ joinedMarks) {c : Char}
    (hc : c ∈ mark) : isBlank c = false := by
  have hall : joinedMarks.all (fun mark => mark.all (!isBlank ·)) = true := rfl
  have hchars := List.all_eq_true.mp hall mark hmark
  simpa using List.all_eq_true.mp hchars c hc

/-- Neither a word nor a mark goes on from the first text to the second. -/
def IsBoundary (before after : List Char) : Prop :=
  ∀ c d, before.getLast? = some c → after.head? = some d →
    ¬ (isWordChar c = true ∧ isWordChar d = true) ∧ [c, d] ∉ joinedMarks

section Boundary

variable {before after : List Char}

/-- White space on either side of a place makes it a boundary. -/
theorem IsBoundary.of_blank
    (h : (∃ c, before.getLast? = some c ∧ isBlank c = true) ∨
      ∃ d, after.head? = some d ∧ isBlank d = true) : IsBoundary before after := by
  have hblank {c : Char} (hc : isBlank c = true) : isWordChar c = false := by
    rw [Bool.eq_false_iff]
    intro hword
    rw [isBlank_of_isWordChar hword] at hc
    cases hc
  intro c d hc hd
  rcases h with ⟨c', hc', hspace⟩ | ⟨d', hd', hspace⟩
  · obtain rfl : c' = c := Option.some.inj (hc'.symm.trans hc)
    refine ⟨fun hwords => ?_, fun hmark => ?_⟩
    · rw [hblank hspace] at hwords
      cases hwords.1
    · rw [isBlank_of_mem_joinedMarks hmark (by simp)] at hspace
      cases hspace
  · obtain rfl : d' = d := Option.some.inj (hd'.symm.trans hd)
    refine ⟨fun hwords => ?_, fun hmark => ?_⟩
    · rw [hblank hspace] at hwords
      cases hwords.2
    · rw [isBlank_of_mem_joinedMarks hmark (by simp)] at hspace
      cases hspace

/-- What comes in front does not matter to a boundary. -/
theorem IsBoundary.of_append {first : List Char} (h : IsBoundary (first ++ before) after) :
    IsBoundary before after := by
  intro c d hc hd
  refine h c d ?_ hd
  rw [List.getLast?_append, hc, Option.some_or]

end Boundary

namespace LexicalRule

variable {c : Char} {rest after : List Char}

/-- A run that does not go on behind a text ends with it at the latest. -/
theorem takeWhile_append_of_ends {ofClass : Char → Bool}
    (h : ∀ last next, (c :: rest).getLast? = some last → after.head? = some next →
      ¬ (ofClass last = true ∧ ofClass next = true)) :
    (c :: rest ++ after).takeWhile ofClass = (c :: rest).takeWhile ofClass := by
  rw [List.takeWhile_append]
  split
  · next hlength =>
      have hall : (c :: rest).takeWhile ofClass = c :: rest :=
        (List.takeWhile_prefix ofClass).eq_of_length hlength
      obtain ⟨last, hlast⟩ : ∃ last, (c :: rest).getLast? = some last :=
        ⟨_, List.getLast?_eq_some_getLast (List.cons_ne_nil c rest)⟩
      have hmem := List.mem_of_getLast? hlast
      rw [← hall] at hmem
      have hends : after.takeWhile ofClass = [] := by
        cases after with
        | nil => rfl
        | cons d more =>
            apply List.takeWhile_cons_of_neg
            intro hd
            exact h last d hlast rfl ⟨mem_takeWhile hmem, hd⟩
      rw [hends, hall, List.append_nil]
  · rfl

/-- A run of characters of words ends at a boundary. -/
theorem takeWhile_append_of_isBoundary {ofClass : Char → Bool}
    (hclass : ∀ d, ofClass d = true → isWordChar d = true) (h : IsBoundary (c :: rest) after) :
    (c :: rest ++ after).takeWhile ofClass = (c :: rest).takeWhile ofClass := by
  apply takeWhile_append_of_ends
  intro last next hlast hnext hboth
  exact (h last next hlast hnext).1 ⟨hclass last hboth.1, hclass next hboth.2⟩

theorem word_append_of_isBoundary (h : IsBoundary (c :: rest) after) :
    word (c :: rest ++ after) = word (c :: rest) :=
  takeWhile_append_of_isBoundary (fun _ hd => hd) h

theorem operator_spelling_one_or_two (symbol : Operator) :
    (∃ d, symbol.spelling.toList = [d]) ∨
      ∃ d e, symbol.spelling.toList = [d, e] ∧ [d, e] ∈ joinedMarks := by
  cases symbol with
  | less | greater => exact .inl ⟨_, rfl⟩
  | and | or | lessEqual | greaterEqual | equal => exact .inr ⟨_, _, rfl, by decide⟩

/-- Whether a text begins with a mark is seen in front of a boundary. -/
theorem isPrefixOf_append_of_isBoundary (symbol : Operator) (h : IsBoundary (c :: rest) after) :
    symbol.spelling.toList.isPrefixOf (c :: rest ++ after) =
      symbol.spelling.toList.isPrefixOf (c :: rest) := by
  rcases operator_spelling_one_or_two symbol with ⟨d, hspelling⟩ | ⟨d, e, hspelling, hmark⟩
  · rw [hspelling]
    rfl
  · rw [hspelling]
    cases rest with
    | cons _ _ => rfl
    | nil =>
        cases after with
        | nil => rfl
        | cons next more =>
            have hnot : ¬ [d, e] <+: c :: next :: more := by
              intro hstart
              obtain ⟨rfl, hsecond⟩ := List.cons_prefix_cons.mp hstart
              obtain ⟨rfl, _⟩ := List.cons_prefix_cons.mp hsecond
              exact (h d e rfl rfl).2 hmark
            have hshort : ¬ [d, e] <+: [c] := fun hstart =>
              absurd hstart.length_le (by simp)
            rw [Bool.eq_iff_iff, List.isPrefixOf_iff_prefix, List.isPrefixOf_iff_prefix]
            exact iff_of_false hnot hshort

theorem operator?_append_of_isBoundary (h : IsBoundary (c :: rest) after) :
    operator? (c :: rest ++ after) = operator? (c :: rest) := by
  simp only [operator?, isPrefixOf_append_of_isBoundary _ h]

theorem identifier?_append_of_isBoundary (h : IsBoundary (c :: rest) after) :
    identifier? (c :: rest ++ after) = identifier? (c :: rest) := by
  have hname := @takeWhile_append_of_isBoundary c rest after Char.isAlphanum
    (fun _ => isWordChar_of_isAlphanum) h
  rw [List.cons_append] at hname ⊢
  simp only [identifier?]
  split
  · next halpha =>
      have halphanum := isAlphanum_of_isAlpha halpha
      rw [List.takeWhile_cons_of_pos halphanum, List.takeWhile_cons_of_pos halphanum] at hname
      rw [(List.cons.inj hname).2]
  · rfl

/-- Where no white space begins, no rule sees what comes behind a boundary. -/
theorem piece?_append_of_isBoundary (hblank : isBlank c = false)
    (h : IsBoundary (c :: rest) after) (rule : LexicalRule) :
    rule.piece? (c :: rest ++ after) = rule.piece? (c :: rest) := by
  have hword := word_append_of_isBoundary h
  cases rule with
  | blank =>
      change blank? (c :: (rest ++ after)) = blank? (c :: rest)
      rw [blank?_eq_none hblank, blank?_eq_none hblank]
  | illegalIdentifier => simp only [piece?, illegalIdentifier?, hword]
  | keyword => simp only [piece?, keyword?, reservedWord?, hword]
  | typeName => simp only [piece?, typeName?, reservedWord?, hword]
  | boolean => simp only [piece?, boolean?, reservedWord?, hword]
  | integer => simp only [piece?, integer?, hword]
  | operator => exact operator?_append_of_isBoundary h
  | separator => rfl
  | identifier => exact identifier?_append_of_isBoundary h

end LexicalRule

theorem Piece.first_append_of_isBoundary {c : Char} {rest after : List Char}
    (hblank : isBlank c = false) (h : IsBoundary (c :: rest) after) :
    first c (rest ++ after) = first c rest := by
  have hrules : ofRules? (c :: (rest ++ after)) = ofRules? (c :: rest) := by
    unfold ofRules?
    rw [← List.cons_append, funext (piece?_append_of_isBoundary hblank h)]
  unfold first
  rw [hrules]

/-- The same piece in a source that has `bytes` more in front. -/
def PlacedPiece.shift (placed : PlacedPiece) (bytes : Nat) : PlacedPiece :=
  { placed with offset := placed.offset + bytes }

namespace PlacedPiece

theorem layOut_add (offset bytes : Nat) (pieces : List Piece) :
    layOut (offset + bytes) pieces = (layOut offset pieces).map (·.shift bytes) := by
  induction pieces generalizing offset with
  | nil => rfl
  | cons piece rest ih =>
      rw [layOut, Nat.add_right_comm, ih]
      rfl

theorem token?_shift (placed : PlacedPiece) (bytes : Nat) :
    (placed.shift bytes).token? = placed.token?.map (·.shift bytes) := by
  simp only [token?, shift, Option.map_map]
  rfl

theorem diagnostic?_shift (placed : PlacedPiece) (bytes : Nat) :
    (placed.shift bytes).diagnostic? = placed.diagnostic?.map (·.shift bytes) := by
  simp only [diagnostic?, shift, Option.map_map]
  rfl

end PlacedPiece

namespace Scan

/-- The same scan of a source that has `bytes` more in front. -/
def shift (scan : Scan) (bytes : Nat) : Scan :=
  ⟨scan.tokens.map (·.shift bytes), scan.diagnostics.map (·.shift bytes)⟩

/-- The scans of two parts of a source. -/
instance : Append Scan where
  append first second :=
    ⟨first.tokens ++ second.tokens, first.diagnostics ++ second.diagnostics⟩

theorem append_def (first second : Scan) :
    first ++ second =
      ⟨first.tokens ++ second.tokens, first.diagnostics ++ second.diagnostics⟩ :=
  rfl

theorem append_assoc (first second third : Scan) :
    first ++ second ++ third = first ++ (second ++ third) := by
  simp only [append_def, List.append_assoc]

theorem empty_append (scan : Scan) : (⟨[], []⟩ : Scan) ++ scan = scan := rfl

theorem ofPlaced_cons (placed : PlacedPiece) (rest : List PlacedPiece) :
    ofPlaced (placed :: rest) = ofPlaced [placed] ++ ofPlaced rest := by
  have hcons : placed :: rest = [placed] ++ rest := rfl
  rw [hcons]
  simp only [ofPlaced, List.filterMap_append]
  rfl

theorem ofText_eq_shift (offset : Nat) (text : List Char) :
    ofText offset text = (ofText 0 text).shift offset := by
  have hlayOut := PlacedPiece.layOut_add 0 offset (Piece.all text)
  rw [Nat.zero_add] at hlayOut
  simp only [ofText, hlayOut, ofPlaced, shift, List.filterMap_map, List.map_filterMap]
  congr 1
  · exact List.filterMap_congr fun placed _ => placed.token?_shift offset
  · exact List.filterMap_congr fun placed _ => placed.diagnostic?_shift offset

/-- White space leaves nothing in a scan, whether or not more of it follows. -/
theorem ofText_blanks {gap : List Char} (hgap : ∀ c ∈ gap, isBlank c = true) (offset : Nat)
    (after : List Char) :
    ofText offset (gap ++ after) = ofText (offset + byteLength gap) after := by
  have hmore : ∀ c ∈ after.takeWhile isBlank, isBlank c = true := fun _ => mem_takeWhile
  have hend (c : Char) (hc : (after.dropWhile isBlank).head? = some c) : isBlank c = false :=
    head?_dropWhile hc
  have hgaps : ∀ c ∈ gap ++ after.takeWhile isBlank, isBlank c = true := by
    intro c hc
    rcases List.mem_append.mp hc with hc | hc
    · exact hgap c hc
    · exact hmore c hc
  have hafter : after = after.takeWhile isBlank ++ after.dropWhile isBlank :=
    List.takeWhile_append_dropWhile.symm
  rw [hafter, ← List.append_assoc, ofText_gap hgaps hend, ofText_gap hmore hend,
    byteLength_append, Nat.add_assoc]

/-- The scan of a text that begins with a piece: the piece, and what is behind
it. -/
theorem ofText_cons {c : Char} {rest after : List Char} (offset : Nat)
    (h : c :: rest = (Piece.first c rest).text ++ after) :
    ofText offset (c :: rest) =
      ofPlaced [⟨Piece.first c rest, offset⟩] ++
        ofText (offset + byteLength (Piece.first c rest).text) after := by
  unfold ofText
  rw [Piece.all_cons h, PlacedPiece.layOut, ofPlaced_cons]

/-- Piece by piece, by induction on the pieces of the first text. -/
theorem ofText_append {first second : List Char} (h : IsBoundary first second) (offset : Nat) :
    ofText offset (first ++ second) =
      ofText offset first ++ ofText (offset + byteLength first) second := by
  induction first using Piece.text_induction generalizing offset with
  | nil => rfl
  | cons c rest after _ hafter ih =>
      have hboundary : IsBoundary after second := .of_append (hafter ▸ h)
      have hbytes : byteLength (c :: rest) =
          byteLength (Piece.first c rest).text + byteLength after := by
        rw [← byteLength_append, ← hafter]
      cases hblank : isBlank c with
      | true =>
          have hspace : ∀ d ∈ (Piece.first c rest).text, isBlank d = true := by
            rw [Piece.first_blank hblank]
            exact fun _ => mem_takeWhile
          rw [hbytes, hafter, List.append_assoc, ofText_blanks hspace, ofText_blanks hspace,
            ih hboundary, Nat.add_assoc]
      | false =>
          have hsame := Piece.first_append_of_isBoundary hblank h
          have hwhole : c :: (rest ++ second) =
              (Piece.first c (rest ++ second)).text ++ (after ++ second) := by
            rw [hsame, ← List.append_assoc, ← hafter, List.cons_append]
          rw [List.cons_append, ofText_cons offset hwhole, hsame, ih hboundary,
            ofText_cons offset hafter, append_assoc, hbytes, Nat.add_assoc]

end Scan

theorem scan_append_of_isBoundary {first second : String}
    (h : IsBoundary first.toList second.toList) :
    scan (first ++ second) = scan first ++ (scan second).shift first.utf8ByteSize := by
  have htext := Scan.ofText_append h 0
  rw [← String.toList_append, Nat.zero_add, Scan.ofText_eq_shift (byteLength _),
    ← byteLength_ofList, String.ofList_toList] at htext
  exact htext

/-- Across a boundary the scan of two sources in a row is the scan of the first
and that of the second behind it, reports included. White space at the end of
the one or at the beginning of the other makes a boundary. -/
theorem scan_append (first second : String)
    (h : IsBoundary first.toList second.toList ∨
      (∃ c, first.toList.getLast? = some c ∧ isBlank c = true) ∨
      ∃ c, second.toList.head? = some c ∧ isBlank c = true) :
    scan (first ++ second) = scan first ++ (scan second).shift first.utf8ByteSize :=
  scan_append_of_isBoundary (h.elim id .of_blank)

/-- `é 1a<` and `< #=`: mistakes in both parts, and two marks that stay apart. -/
theorem scan_append_mistakes :
    IsBoundary "é 1a<".toList "< #=".toList ∧
      scan ("é 1a<" ++ "< #=") =
        ⟨[⟨.operator .less, 5⟩, ⟨.operator .less, 6⟩, ⟨.separator .assign, 9⟩],
          [⟨(LexicalError.unexpectedCharacter 'é').message, 0⟩,
            ⟨(LexicalError.illegalIdentifier "1a").message, 3⟩,
            ⟨(LexicalError.unexpectedCharacter '#').message, 8⟩]⟩ := by
  have hboundary : IsBoundary "é 1a<".toList "< #=".toList := by
    intro c d hc hd
    obtain rfl : '<' = c := Option.some.inj hc
    obtain rfl : '<' = d := Option.some.inj hd
    decide
  refine ⟨hboundary, ?_⟩
  rw [scan_append "é 1a<" "< #=" (.inl hboundary)]
  rfl

end ClassLang
