import ClassLang.Proofs.Words

/-!
Going on behind a mistake. Every malformed piece can be overwritten with white
space of the same length, and the scan finds the same tokens at the same bytes
and nothing to report: nothing around a mistake is lost with it, split by it or
read as something else because of it. The one exception is a name that only the
underscore behind it keeps from being a reserved word.
-/

namespace ClassLang

open LexicalRule Text

/-- The text of a piece, or as many bytes of white space if it is reported. -/
def PlacedPiece.blanked (placed : PlacedPiece) : List Char :=
  match placed.diagnostic? with
  | some _ => List.replicate (byteLength placed.piece.text) ' '
  | none => placed.piece.text

/-- A text that begins at byte `offset`, with all that is reported in it blanked. -/
def blankedText (offset : Nat) (text : List Char) : List Char :=
  (PlacedPiece.layOut offset (Piece.all text)).flatMap PlacedPiece.blanked

/-- A source with white space for every malformed piece that its scan reports. -/
def blanked (source : String) : String := String.ofList (blankedText 0 source.toList)

namespace TokenKind

variable {kind : TokenKind} {before text after : List Char}

/-- The reserved word that a name is spelled like. Any other token is left as it is. -/
def asReserved : TokenKind → TokenKind
  | .identifier name => (reservedWords.find? (·.spelling == name)).getD (.identifier name)
  | kind => kind

theorem asReserved_spelling {word : TokenKind} (h : word.isReservedWord = true) :
    (identifier word.spelling).asReserved = word := by
  have hall : reservedWords.all (fun word => (identifier word.spelling).asReserved == word) := rfl
  exact eq_of_beq (List.all_eq_true.mp hall word (mem_reservedWords h))

theorem asReserved_of_ne
    (h : ∀ word : TokenKind, word.isReservedWord = true → kind ≠ .identifier word.spelling) :
    kind.asReserved = kind := by
  cases kind with
  | identifier name =>
      have hreserved : reservedWords.all isReservedWord = true := rfl
      rw [asReserved]
      cases hfound : reservedWords.find? (·.spelling == name) with
      | none => rfl
      | some word =>
          have hword := List.all_eq_true.mp hreserved word (List.mem_of_find?_eq_some hfound)
          have hspelling : word.spelling = name := by simpa using List.find?_some hfound
          exact absurd (congrArg identifier hspelling.symm) (h word hword)
  | keyword _ | typeName _ | literal _ | separator _ | operator _ => rfl

theorem IsWritten.isSpellable (h : kind.IsWritten before text after)
    (hname : ∀ word : TokenKind, word.isReservedWord = true → kind ≠ .identifier word.spelling) :
    kind.IsSpellable := by
  cases kind with
  | identifier name =>
      obtain ⟨rfl, hchars⟩ := h
      refine ⟨by rwa [String.toList_ofList], fun word hword hsame => hname word hword ?_⟩
      rw [hsame]
  | literal value =>
      cases value with
      | bool _ => trivial
      | int value =>
          change 0 ≤ value.toInt
          rw [h.2]
          exact Int.natCast_nonneg _
  | keyword _ | typeName _ | separator _ | operator _ => trivial

/-- All but integers are written in one way. -/
theorem IsWritten.spelling_or_decimal (h : kind.IsWritten before text after) :
    text = kind.spelling.toList ∨
      ∃ value : Int64, kind = .literal (.int value) ∧ IsRun Char.isDigit before text after ∧
        value.toInt = decimalValue text := by
  have hspelled (htext : String.ofList text = kind.spelling) : text = kind.spelling.toList := by
    rw [← htext, String.toList_ofList]
  cases kind with
  | identifier _ => exact .inl (hspelled h.1)
  | keyword _ | typeName _ | separator _ | operator _ => exact .inl (hspelled h)
  | literal value =>
      cases value with
      | bool _ => exact .inl (hspelled h)
      | int value => exact .inr ⟨value, rfl, h⟩

theorem IsWritten.isAlphanum (h : kind.IsWritten before text after) (hkind : kind.IsSpellable)
    (hword : kind.isWord = true) : ∀ c ∈ text, c.isAlphanum = true := by
  rcases h.spelling_or_decimal with rfl | ⟨_, _, hrun, _⟩
  · exact isAlphanum_of_isWord hkind hword
  · exact fun c hc => isAlphanum_of_isDigit (hrun.inside c hc)

theorem IsWritten.eq_spelling_of_mark (h : kind.IsWritten before text after)
    (hmark : kind.isWord = false) : text = kind.spelling.toList := by
  rcases h.spelling_or_decimal with htext | ⟨_, rfl, _⟩
  · exact htext
  · cases hmark

/-- Only a mark takes an `=` that comes right behind it. -/
theorem TakesEquals.isWord_eq_false (h : kind.TakesEquals) (hkind : kind.IsSpellable) :
    kind.isWord = false := by
  rw [Bool.eq_false_iff]
  intro hword
  have hchars := isAlphanum_of_isWord hkind hword
  rcases h with h | h | h <;> rw [h] at hchars <;>
    exact Bool.false_ne_true (hchars _ List.mem_cons_self)

theorem TakesEquals.exists_operator (h : kind.TakesEquals) :
    ∃ symbol : Operator, symbol.spelling.toList = kind.spelling.toList ++ ['='] ∧
      ¬ (operator symbol).TakesEquals := by
  rcases h with h | h | h <;> rw [h]
  · exact ⟨.lessEqual, rfl, by decide⟩
  · exact ⟨.greaterEqual, rfl, by decide⟩
  · exact ⟨.equal, rfl, by decide⟩

end TokenKind

def Token.asReserved (token : Token) : Token :=
  { token with kind := token.kind.asReserved }

namespace Piece

variable {kind : TokenKind} {run after : List Char}

/-- What is written for a token is taken as that token in front of anything
that does not go on with it. -/
theorem ofRules?_of_isWritten {before behind : List Char} (h : kind.IsWritten before run behind)
    (hkind : kind.IsSpellable) (hafter : kind.EndsBefore after) :
    ofRules? (run ++ after) = some ⟨run, .token kind⟩ := by
  rcases h.spelling_or_decimal with rfl | ⟨_, rfl, hrun, hvalue⟩
  · exact ofRules?_spelling hkind hafter
  · exact ofRules?_decimal hrun.ne_nil hrun.inside hvalue hafter

/-- Where a token was taken, what comes behind does not go on with it, unless an
underscore does. -/
theorem endsBefore_of_ofRules? {before : List Char}
    (h : ofRules? (run ++ after) = some ⟨run, .token kind⟩)
    (hwritten : kind.IsWritten before run after) (hkind : kind.IsSpellable)
    (hapart : Apart run after) (hne : run ≠ []) (hunderscore : after.head? ≠ some '_') :
    kind.EndsBefore after := by
  intro c hc
  refine ⟨fun hword => ?_, fun htakes => ?_⟩
  · obtain ⟨last, hlast⟩ : ∃ last, run.getLast? = some last :=
      ⟨_, List.getLast?_eq_some_getLast hne⟩
    have halphanum := hwritten.isAlphanum hkind hword last (List.mem_of_getLast? hlast)
    have hother : c ≠ '_' := by
      rintro rfl
      exact hunderscore hc
    have hnot : c.isAlphanum = false := by
      rw [Bool.eq_false_iff]
      exact fun hc' => (hapart last c hlast hc).2 ⟨halphanum, hc'⟩
    simp [isWordChar, hnot, hother]
  · -- The longer mark would have been taken.
    rintro rfl
    obtain ⟨more, rfl⟩ := List.head?_eq_some_iff.mp hc
    obtain ⟨symbol, hjoined, hlonger⟩ := htakes.exists_operator
    have hends : (TokenKind.operator symbol).EndsBefore more := by
      intro _ _
      refine ⟨fun hword => ?_, fun htakes => absurd htakes hlonger⟩
      cases hword
    have hrules := ofRules?_operator hends
    rw [hjoined, ← hwritten.eq_spelling_of_mark (htakes.isWord_eq_false hkind),
      List.append_assoc, List.singleton_append, h] at hrules
    have hsame := (Piece.mk.inj (Option.some.inj hrules)).1
    simp at hsame

end Piece

theorem byteLength_blanks (size : Nat) : byteLength (List.replicate size ' ') = size := by
  induction size with
  | zero => rfl
  | succ size ih =>
      rw [List.replicate_succ, byteLength_cons, ih, Nat.add_comm]
      rfl

theorem blankedText_cons {c : Char} {rest after : List Char} (offset : Nat)
    (h : c :: rest = (Piece.first c rest).text ++ after) :
    blankedText offset (c :: rest) =
      (PlacedPiece.mk (Piece.first c rest) offset).blanked ++
        blankedText (offset + byteLength (Piece.first c rest).text) after := by
  unfold blankedText
  rw [Piece.all_cons h, PlacedPiece.layOut, List.flatMap_cons]

/-- Blanking leaves the first character as it is, if it does not put a blank in
its place, and it puts one in the place of an underscore. -/
theorem head?_blankedText {offset : Nat} {text : List Char} {c : Char}
    (h : (blankedText offset text).head? = some c) :
    c = ' ' ∨ text.head? = some c ∧ c ≠ '_' := by
  cases text with
  | nil => cases h
  | cons d rest =>
      obtain ⟨hne, after, hafter⟩ := Piece.first_text d rest
      obtain ⟨e, more, htext⟩ := List.exists_cons_of_ne_nil hne
      rw [blankedText_cons offset hafter] at h
      rw [htext, List.cons_append] at hafter
      obtain ⟨rfl, _⟩ := List.cons.inj hafter
      unfold PlacedPiece.blanked at h
      split at h
      · have hsize : byteLength (Piece.first d rest).text ≠ 0 := by
          have hpos := d.utf8Size_pos
          rw [htext, byteLength_cons]
          omega
        rw [List.head?_append, List.head?_replicate, if_neg hsize] at h
        exact .inl (Option.some.inj h).symm
      · next hnone =>
          rw [htext, List.cons_append, List.head?_cons] at h
          obtain rfl := Option.some.inj h
          refine .inr ⟨rfl, ?_⟩
          rintro rfl
          rw [Piece.first_underscore] at hnone
          cases hnone

/-- A token is taken again in front of what is blanked behind it, save that a name
which only an underscore kept from being a reserved word is that word. -/
theorem Piece.ofRules?_blankedText {kind : TokenKind} {run after : List Char}
    (h : ofRules? (run ++ after) = some ⟨run, .token kind⟩) (hwritten : kind.IsWritten [] run after)
    (hapart : Apart run after) (hne : run ≠ []) (offset : Nat) :
    ofRules? (run ++ blankedText offset after) = some ⟨run, .token kind.asReserved⟩ := by
  by_cases hname : ∃ word : TokenKind, word.isReservedWord = true ∧ kind = .identifier word.spelling
  · obtain ⟨word, hword, rfl⟩ := hname
    obtain ⟨rfl, others, hothers⟩ :=
      @exists_underscore_behind _ run [] _ word hword (all_append h hne)
    have hafter := flatMap_text_all after
    rw [hothers, List.flatMap_cons] at hafter
    rw [TokenKind.asReserved_spelling hword]
    apply ofRules?_reserved hword
    apply takeWhile_run_append
    · intro c hc
      exact isWordChar_of_isAlphanum (TokenKind.isAlphanum_of_isReservedWord hword c hc)
    · intro c hc
      rcases head?_blankedText hc with rfl | ⟨hhead, hother⟩
      · rfl
      · rw [← hafter] at hhead
        exact absurd (Option.some.inj hhead).symm hother
  · have hfree (word : TokenKind) (hword : word.isReservedWord = true) :
        kind ≠ .identifier word.spelling := fun hsame => hname ⟨word, hword, hsame⟩
    have hkind := hwritten.isSpellable hfree
    rw [TokenKind.asReserved_of_ne hfree]
    apply ofRules?_of_isWritten hwritten hkind
    intro c hc
    rcases head?_blankedText hc with rfl | ⟨hhead, hother⟩
    · have hblank (d : Char) (hd : [' '].head? = some d) : isBlank d = true := by
        obtain rfl := Option.some.inj hd
        rfl
      exact IsSpacing.endsBefore_of_blank hblank ' ' rfl
    · have hnot : after.head? ≠ some '_' := by
        rw [hhead]
        exact fun hsame => hother (Option.some.inj hsame)
      exact endsBefore_of_ofRules? h hwritten hkind hapart hne hnot c hhead

/-- With white space in the place of what is reported a text has the tokens that
it had, by induction on the pieces: each of them is taken again in front of what
the others are blanked to. -/
theorem Scan.ofText_blankedText (text : List Char) (offset : Nat) :
    ofText offset (blankedText offset text) =
      ⟨(ofText offset text).tokens.map Token.asReserved, []⟩ := by
  induction text using Piece.text_induction generalizing offset with
  | nil => rfl
  | cons c rest after hne hafter ih =>
      obtain ⟨behind, hsplit, hfits, hapart⟩ := isCut_first (apart_nil (c :: rest))
      obtain rfl : behind = after := List.append_cancel_left (hsplit.symm.trans hafter)
      rw [blankedText_cons offset hafter, ofText_cons offset hafter]
      have hbehind := ih (offset + byteLength (Piece.first c rest).text)
      generalize hfirst : Piece.first c rest = piece at *
      obtain ⟨run, lexeme⟩ := piece
      cases lexeme with
      | blank =>
          change ofText offset (run ++ _) = _
          rw [ofText_blanks hfits.inside, hbehind]
          rfl
      | malformed error =>
          change ofText offset (List.replicate (byteLength run) ' ' ++ _) = _
          rw [ofText_blanks, byteLength_blanks, hbehind]
          · rfl
          · intro d hd
            rw [List.eq_of_mem_replicate hd]
            rfl
      | token kind =>
          have hrules := Piece.ofRules?_of_first hfirst
          rw [hafter] at hrules
          have hagain := Piece.ofRules?_blankedText hrules hfits hapart hne
            (offset + byteLength run)
          change ofText offset (run ++ _) = _
          rw [ofText, Piece.all_append hagain hne, PlacedPiece.layOut, ofPlaced_cons]
          change _ ++ ofText (offset + byteLength run) _ = _
          rw [hbehind]
          rfl

/-- What a scan of the blanked source finds: the tokens of the source at their
bytes, with reserved words for the names that are spelled like one. -/
theorem scan_blanked_eq (source : String) :
    scan (blanked source) = ⟨(scan source).tokens.map Token.asReserved, []⟩ := by
  change Scan.ofText 0 (String.ofList (blankedText 0 source.toList)).toList = _
  rw [String.toList_ofList]
  exact Scan.ofText_blankedText source.toList 0

/-- Scanning loses nothing but the malformed text: with white space in its place
a source has the same tokens at the same bytes, and nothing is reported. The one
exception is a name that is spelled like a reserved word, in front of an
underscore. -/
theorem scan_blanked (source : String)
    (h : ∀ token ∈ (scan source).tokens, ∀ word : TokenKind, word.isReservedWord = true →
      token.kind = .identifier word.spelling →
        ∀ before after, source.toList = before ++ word.spelling.toList ++ after →
          token.offset = byteLength before → after.head? ≠ some '_') :
    scan (blanked source) = ⟨(scan source).tokens, []⟩ := by
  have hsame : ∀ token ∈ (scan source).tokens, token.kind.asReserved = token.kind := by
    intro token htoken
    apply TokenKind.asReserved_of_ne
    intro word hword hkind
    obtain ⟨before, after, hsource, hoffset, _⟩ :=
      Scan.exists_underscore_of_token htoken hword hkind
    exact h token htoken word hword hkind before ('_' :: after) hsource hoffset rfl
  have htokens : (scan source).tokens.map Token.asReserved = (scan source).tokens := by
    refine (List.map_congr_left fun token htoken => ?_).trans (List.map_id _)
    rw [Token.asReserved, hsame token htoken]
    rfl
  rw [scan_blanked_eq, htokens]

/-- Two bytes for `é`, an illegal identifier behind an underscore, `#` between
two marks that would be one, and an integer that is too large. -/
theorem scan_blanked_mistakes :
    (scan "éa_1b <#=99999999999999999999").diagnostics.map (·.offset) = [0, 3, 4, 8, 10] ∧
      blanked "éa_1b <#=99999999999999999999" = "  a    < =                    " ∧
      scan (blanked "éa_1b <#=99999999999999999999") =
        ⟨[⟨.identifier "a", 2⟩, ⟨.operator .less, 7⟩, ⟨.separator .assign, 9⟩], []⟩ := by
  refine ⟨rfl, rfl, scan_blanked "éa_1b <#=99999999999999999999" ?_⟩
  intro token htoken word hword hkind
  have htokens : token.kind ∈ [.identifier "a", .operator .less, .separator .assign] :=
    List.mem_map_of_mem htoken
  have hname : word.spelling = "a" := by
    rw [hkind] at htokens
    simpa using htokens
  have hfree : TokenKind.reservedWords.all (·.spelling != "a") = true := rfl
  have hother := List.all_eq_true.mp hfree word (TokenKind.mem_reservedWords hword)
  rw [hname] at hother
  cases hother

end ClassLang
