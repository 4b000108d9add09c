import ClassLang.Proofs.Words

/-!
Integers. Digits that begin a piece, and that no letter or underscore goes on
with, are that piece to the last of them, however many they are. The piece is
the integer of their decimal value if there is one, and else it is reported as a
whole; either way scanning goes on right behind the digits as it would at the
start of a source. No integer is negative, so none is written with a sign, and
the way that it is shown is one more way to write it.
-/

namespace ClassLang

open LexicalRule Text

/-- What is found in digits that begin at byte `offset`. -/
structure IsIntegerScan (digits : List Char) (offset : Nat) (found : Scan) : Prop where
  within : decimalValue digits ≤ maxInteger →
    ∃ value : Int64, value.toInt = decimalValue digits ∧
      found = ⟨[⟨.literal (.int value), offset⟩], []⟩
  beyond : maxInteger < decimalValue digits →
    found = ⟨[], [⟨(LexicalError.integerOutOfRange (String.ofList digits)).message, offset⟩]⟩

namespace Piece

/-- Leading zeros or not, digits are taken up to the last one. -/
theorem exists_all_digits {digits after : List Char} (hne : digits ≠ [])
    (hdigits : ∀ c ∈ digits, c.isDigit = true)
    (hafter : ∀ c, after.head? = some c → isWordChar c = false) :
    ∃ piece, piece.text = digits ∧ all (digits ++ after) = piece :: all after ∧
      ∀ offset, IsIntegerScan digits offset (.ofPlaced [⟨piece, offset⟩]) := by
  have hword : word (digits ++ after) = digits :=
    takeWhile_run_append
      (fun c hc => isWordChar_of_isAlphanum (isAlphanum_of_isDigit (hdigits c hc))) hafter
  rcases Nat.lt_or_ge maxInteger (decimalValue digits) with hlarge | hsmall
  · have hpiece := ofRules?_digits hword hne hdigits
      (integer?_of_large hword hne hdigits hlarge)
    exact ⟨_, rfl, all_append hpiece hne, fun _ =>
      ⟨fun hsmall => absurd hlarge (Nat.not_lt.mpr hsmall), fun _ => rfl⟩⟩
  · have hpiece := ofRules?_digits hword hne hdigits
      (integer?_of_digits hword hne hdigits hsmall)
    have hvalue : (Int64.ofNat (decimalValue digits)).toInt = decimalValue digits := by
      apply Int64.toInt_ofNat_of_lt
      unfold maxInteger at hsmall
      omega
    exact ⟨_, rfl, all_append hpiece hne, fun _ =>
      ⟨fun _ => ⟨_, hvalue, rfl⟩, fun hlarge => absurd hlarge (Nat.not_lt.mpr hsmall)⟩⟩

end Piece

namespace Scan

theorem ofPlaced_append (first second : List PlacedPiece) :
    ofPlaced (first ++ second) = ofPlaced first ++ ofPlaced second := by
  simp only [ofPlaced, List.filterMap_append]
  rfl

/-- Behind some of its pieces, a source is scanned as if it began there. -/
theorem eq_append_ofText {source : String} {left right : List PlacedPiece} {after : List Char}
    (h : PlacedPiece.layOut 0 (Piece.all source.toList) = left ++ right)
    (hafter : source.toList = left.flatMap (·.piece.text) ++ after) :
    scan source =
      ofPlaced left ++ ofText (byteLength (left.flatMap (·.piece.text))) after := by
  have hpieces := congrArg (List.map PlacedPiece.piece) h
  rw [PlacedPiece.map_piece_layOut, List.map_append] at hpieces
  have hleft : (left.map PlacedPiece.piece).flatMap Piece.text = left.flatMap (·.piece.text) :=
    List.flatMap_map ..
  have hbehind : (right.map PlacedPiece.piece).flatMap Piece.text = after := by
    have hcovers := Piece.flatMap_text_all source.toList
    rw [hpieces, List.flatMap_append, hleft, hafter] at hcovers
    exact List.append_cancel_left hcovers
  have hall : Piece.all after = right.map PlacedPiece.piece :=
    hbehind ▸ Piece.all_of_all_eq_append hpieces
  have hlayOut := h
  rw [hpieces, PlacedPiece.layOut_append, hleft, Nat.zero_add, ← hall] at hlayOut
  have hlength : (PlacedPiece.layOut 0 (left.map PlacedPiece.piece)).length = left.length := by
    rw [← List.length_map (f := PlacedPiece.piece), PlacedPiece.map_piece_layOut, List.length_map]
  obtain ⟨_, rfl⟩ := List.append_inj hlayOut hlength
  change ofPlaced (PlacedPiece.layOut 0 (Piece.all source.toList)) = _
  rw [h, ofPlaced_append]
  rfl

/-- An integer has no sign, and what it is shown as is scanned as it. -/
theorem integer_of_token {source : String} {token : Token} (htoken : token ∈ (scan source).tokens)
    {value : Int64} (hkind : token.kind = .literal (.int value)) :
    0 ≤ value.toInt ∧
      scan (Literal.int value).spelling = ⟨[⟨.literal (.int value), 0⟩], []⟩ := by
  obtain ⟨left, run, right, hall, _⟩ := exists_piece_of_token htoken
  rw [hkind] at hall
  have hwritten := (Piece.isCut_of_all_eq (apart_nil _) hall).1
  have hvalue : 0 ≤ value.toInt := by
    rw [hwritten.2]
    exact Int.natCast_nonneg _
  have hends : (TokenKind.literal (.int value)).EndsBefore [] := fun _ hc => nomatch hc
  have hscan := @ofText_spelling 0 [] (.literal (.int value)) hvalue hends
  rw [List.append_nil] at hscan
  exact ⟨hvalue, hscan⟩

end Scan

/-- Digits at the start of a piece, with neither a letter nor an underscore
behind them, are one integer of their value, or reported as a whole if it is too
large; and what is behind them is scanned as a source of its own. An integer that
is found is not negative, and is found again in what it is shown as. -/
theorem integers_exact (source : String) :
    (∀ left right digits after,
      PlacedPiece.layOut 0 (Piece.all source.toList) = left ++ right →
      source.toList = left.flatMap (·.piece.text) ++ digits ++ after →
      digits ≠ [] → (∀ c ∈ digits, c.isDigit = true) →
      (∀ c, after.head? = some c → c.isDigit = false ∧ c.isAlpha = false ∧ c ≠ '_') →
        ∃ found, IsIntegerScan digits (byteLength (left.flatMap (·.piece.text))) found ∧
          scan source = .ofPlaced left ++ found ++
            (scan (String.ofList after)).shift
              (byteLength (left.flatMap (·.piece.text) ++ digits))) ∧
    ∀ token ∈ (scan source).tokens, ∀ value : Int64, token.kind = .literal (.int value) →
      0 ≤ value.toInt ∧
        scan (Literal.int value).spelling = ⟨[⟨.literal (.int value), 0⟩], []⟩ := by
  refine ⟨fun left right digits after hpieces hsource hne hdigits hafter => ?_,
    fun token htoken value hkind => Scan.integer_of_token htoken hkind⟩
  have hends (c : Char) (hc : after.head? = some c) : isWordChar c = false := by
    obtain ⟨hdigit, halpha, hunderscore⟩ := hafter c hc
    simp [isWordChar, Char.isAlphanum, hdigit, halpha, hunderscore]
  obtain ⟨piece, htext, hall, hinteger⟩ := Piece.exists_all_digits hne hdigits hends
  refine ⟨_, hinteger _, ?_⟩
  rw [List.append_assoc] at hsource
  rw [Scan.eq_append_ofText hpieces hsource, Scan.ofText, hall, PlacedPiece.layOut,
    Scan.ofPlaced_cons, htext, ← byteLength_append, Scan.append_assoc]
  change _ = _ ++ (_ ++ (Scan.ofText 0 (String.ofList after).toList).shift _)
  rw [String.toList_ofList, ← Scan.ofText_eq_shift]
  rfl

/-- `_007<9223372036854775808`: an integer with leading zeros behind a mistake,
and digits that are one too many at the end. -/
theorem integers_exact_limit :
    decimalValue "007".toList = 7 ∧ decimalValue "9223372036854775808".toList = maxInteger + 1 ∧
      (∃ found, IsIntegerScan "007".toList 1 found ∧
        scan "_007<9223372036854775808" =
          ⟨[], [⟨(LexicalError.unexpectedCharacter '_').message, 0⟩]⟩ ++ found ++
            (scan "<9223372036854775808").shift 4) ∧
      (∃ found, IsIntegerScan "9223372036854775808".toList 5 found ∧
        scan "_007<9223372036854775808" =
          ⟨[⟨.literal (.int 7), 1⟩, ⟨.operator .less, 4⟩],
            [⟨(LexicalError.unexpectedCharacter '_').message, 0⟩]⟩ ++ found ++
            (scan "").shift 24) ∧
      scan (Literal.int 7).spelling = ⟨[⟨.literal (.int 7), 0⟩], []⟩ := by
  have hdigits (digits : List Char) (hall : digits.all Char.isDigit = true) (c : Char)
      (hc : c ∈ digits) : c.isDigit = true := List.all_eq_true.mp hall c hc
  have hexact := integers_exact "_007<9223372036854775808"
  have htoken : ⟨.literal (.int 7), 1⟩ ∈ (scan "_007<9223372036854775808").tokens := by decide
  generalize hpieces :
    PlacedPiece.layOut 0 (Piece.all "_007<9223372036854775808".toList) = pieces at hexact
  have hsplit (size : Nat) := (List.take_append_drop size pieces).symm
  refine ⟨rfl, rfl, ?_, ?_, (hexact.2 _ htoken 7 rfl).2⟩
  · have hfound := hexact.1 _ _ "007".toList "<9223372036854775808".toList (hsplit 1)
    rw [← hpieces] at hfound
    refine hfound rfl (List.cons_ne_nil _ _) (hdigits _ rfl) ?_
    rintro c ⟨⟩
    exact ⟨rfl, rfl, by decide⟩
  · have hfound := hexact.1 _ _ "9223372036854775808".toList [] (hsplit 3)
    rw [← hpieces] at hfound
    exact hfound rfl (List.cons_ne_nil _ _) (hdigits _ rfl) nofun

end ClassLang
