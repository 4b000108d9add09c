import Mathlib.Data.Prod.Lex
import Mathlib.Order.Bounds.Defs
import ClassLang.Diagnostic
import ClassLang.Proofs.Lines

/-!
Locations and the bytes that they stand for. An offset inside a character is
located at the end of that character, one past the end of the text at its end.
From there the way back is open: the line of that number, in a text split at
newlines, and as many characters into it as the column says lead to the very
byte. So no two boundaries of characters share a location, and later offsets
have later ones.
-/

namespace ClassLang.Text

variable {text : List Char} {offset offset' : Nat}

theorem isValid_iff {source : String} :
    String.Pos.Raw.IsValid source ⟨offset⟩ ↔
      ∃ before, before <+: source.toList ∧ offset = byteLength before := by
  rw [String.Pos.Raw.isValid_iff_exists_append]
  constructor
  · rintro ⟨first, second, rfl, hoffset⟩
    refine ⟨first.toList, ⟨second.toList, String.toList_append.symm⟩, ?_⟩
    rw [← byteLength_ofList, String.ofList_toList]
    exact congrArg String.Pos.Raw.byteIdx hoffset
  · rintro ⟨before, ⟨after, hsource⟩, rfl⟩
    refine ⟨String.ofList before, String.ofList after, ?_, ?_⟩
    · rw [← String.ofList_append, hsource, String.ofList_toList]
    · rw [← byteLength_ofList]
      rfl

section Boundary

theorem min_le_byteLength_charsBefore (offset : Nat) (text : List Char) :
    min offset (byteLength text) ≤ byteLength (charsBefore offset text) := by
  induction text generalizing offset with
  | nil => simp
  | cons c rest ih =>
      rw [charsBefore]
      split
      · omega
      · have hrest := ih (offset - c.utf8Size)
        simp only [byteLength_cons]
        omega

/-- No boundary in between is left out. -/
theorem byteLength_charsBefore_le {before : List Char} (hbefore : before <+: text)
    (hmin : min offset (byteLength text) ≤ byteLength before) :
    byteLength (charsBefore offset text) ≤ byteLength before := by
  induction text generalizing offset before with
  | nil => exact Nat.zero_le _
  | cons c rest ih =>
      have hpos := c.utf8Size_pos
      rw [charsBefore]
      split
      · exact Nat.zero_le _
      · cases before with
        | nil =>
            rw [byteLength_nil, byteLength_cons] at hmin
            omega
        | cons d more =>
            obtain ⟨rfl, hmore⟩ := List.cons_prefix_cons.mp hbefore
            simp only [byteLength_cons] at hmin ⊢
            have hrest := @ih (offset - d.utf8Size) more hmore (by omega)
            omega

theorem isLeast_byteLength_charsBefore (offset : Nat) (source : String) :
    IsLeast {b | String.Pos.Raw.IsValid source ⟨b⟩ ∧ min offset source.utf8ByteSize ≤ b}
      (byteLength (charsBefore offset source.toList)) := by
  have hsize : source.utf8ByteSize = byteLength source.toList := by
    rw [← byteLength_ofList, String.ofList_toList]
  rw [hsize]
  refine ⟨⟨isValid_iff.mpr ⟨_, charsBefore_prefix offset _, rfl⟩,
    min_le_byteLength_charsBefore offset _⟩, ?_⟩
  rintro boundary ⟨hvalid, hmin⟩
  obtain ⟨before, hbefore, rfl⟩ := isValid_iff.mp hvalid
  exact byteLength_charsBefore_le hbefore hmin

theorem charsBefore_mono (h : offset ≤ offset') (text : List Char) :
    charsBefore offset text <+: charsBefore offset' text := by
  induction text generalizing offset offset' with
  | nil => exact List.prefix_rfl
  | cons c rest ih =>
      rw [charsBefore, charsBefore]
      split
      · exact List.nil_prefix
      · next hne =>
          rw [if_neg (by omega)]
          exact List.cons_prefix_cons.mpr ⟨rfl, ih (by omega)⟩

theorem charsBefore_of_isPrefix {before : List Char} (h : before <+: text) :
    charsBefore (byteLength before) text = before := by
  obtain ⟨after, rfl⟩ := h
  exact charsBefore_append before after

end Boundary

namespace Location

/-- A location as the pair by which locations are ordered: line before column. -/
def key (location : Location) : Nat ×ₗ Nat := toLex (location.line, location.column)

theorem key_le_step (location : Location) (c : Char) : location.key ≤ (location.step c).key := by
  unfold key step
  rw [Prod.Lex.toLex_le_toLex]
  split
  · exact .inl (Nat.lt_succ_self _)
  · exact .inr ⟨rfl, Nat.le_succ _⟩

theorem key_le_foldl_step (location : Location) (more : List Char) :
    location.key ≤ (more.foldl step location).key := by
  induction more generalizing location with
  | nil => exact le_rfl
  | cons c rest ih => exact (location.key_le_step c).trans (ih _)

theorem key_ofOffset_mono (h : offset ≤ offset') (text : List Char) :
    (ofOffset text offset).key ≤ (ofOffset text offset').key := by
  obtain ⟨more, hmore⟩ := charsBefore_mono h text
  unfold ofOffset
  rw [← hmore, List.foldl_append]
  exact key_le_foldl_step _ more

/-- The byte that is so many lines down a text split at newlines, and so many
characters into the line, if the text goes that far. -/
def toOffset? (text : List Char) (location : Location) : Option Nat :=
  let lines := text.splitOn '\n'
  lines[location.line - 1]?.bind fun line =>
    if location.column - 1 ≤ line.length then
      let above := (lines.take (location.line - 1)).flatMap (· ++ ['\n'])
      some (byteLength (above ++ line.take (location.column - 1)))
    else none

end Location

/-- Whole lines at the beginning of a text are split off with their newlines. -/
theorem splitOn_append {above : List Char} (h : ∀ c, above.getLast? = some c → c = '\n')
    (rest : List Char) :
    ∃ ended : List (List Char), ended.length = above.count '\n' ∧
      ended.flatMap (· ++ ['\n']) = above ∧
      (above ++ rest).splitOn '\n' = ended ++ rest.splitOn '\n' := by
  induction above with
  | nil => exact ⟨[], rfl, rfl, rfl⟩
  | cons c more ih =>
      have hmore : ∀ d, more.getLast? = some d → d = '\n' := fun d hd =>
        h d (by rw [List.getLast?_cons, hd]; rfl)
      obtain ⟨ended, hlength, hcovers, hsplit⟩ := ih hmore
      by_cases hc : c = '\n'
      · subst hc
        refine ⟨[] :: ended, by simp [hlength], by simp [hcovers], ?_⟩
        rw [List.cons_append, List.splitOn_cons_eq_if_modifyHead, hsplit]
        simp
      · obtain ⟨first, others, rfl⟩ : ∃ first others, ended = first :: others := by
          apply List.exists_cons_of_ne_nil
          rintro rfl
          obtain rfl : [] = more := hcovers
          exact hc (h c rfl)
        refine ⟨(c :: first) :: others, ?_, ?_, ?_⟩
        · rw [List.count_cons_of_ne hc, ← hlength]
          rfl
        · rw [← hcovers]
          rfl
        · rw [List.cons_append, List.splitOn_cons_eq_if_modifyHead, hsplit]
          simp [hc]

/-- What stands in front of the first newline belongs to the first line. -/
theorem exists_splitOn_eq_cons {left : List Char} (h : '\n' ∉ left) (after : List Char) :
    ∃ right below, (left ++ after).splitOn '\n' = (left ++ right) :: below := by
  induction left with
  | nil =>
      obtain ⟨right, below, hsplit⟩ := List.exists_cons_of_ne_nil (List.splitOn_ne_nil '\n' after)
      exact ⟨right, below, hsplit⟩
  | cons c rest ih =>
      rw [List.mem_cons, not_or] at h
      obtain ⟨right, below, hsplit⟩ := ih h.2
      refine ⟨right, below, ?_⟩
      rw [List.cons_append, List.splitOn_cons_eq_if_modifyHead, hsplit]
      simp [Ne.symm h.1]

namespace Location

theorem toOffset?_eq {above left : List Char} (habove : ∀ c, above.getLast? = some c → c = '\n')
    (hleft : '\n' ∉ left) (after : List Char) :
    toOffset? (above ++ left ++ after) ⟨above.count '\n' + 1, left.length + 1⟩ =
      some (byteLength (above ++ left)) := by
  obtain ⟨ended, hlength, hcovers, hsplit⟩ := splitOn_append habove (left ++ after)
  obtain ⟨right, below, hline⟩ := exists_splitOn_eq_cons hleft after
  rw [hline] at hsplit
  unfold toOffset?
  rw [List.append_assoc, hsplit]
  simp [← hlength, hcovers]

theorem ofOffset_boundary (text : List Char) (offset : Nat) :
    ofOffset text (byteLength (charsBefore offset text)) = ofOffset text offset := by
  have hbefore := charsBefore_prefix offset text
  unfold ofOffset
  rw [charsBefore_of_isPrefix hbefore]

/-- The characters in front of an offset are whole lines and what has begun of
the next one. -/
theorem exists_ofOffset_eq (text : List Char) (offset : Nat) :
    ∃ above left after, text = above ++ left ++ after ∧
      (∀ c, above.getLast? = some c → c = '\n') ∧ '\n' ∉ left ∧
      charsBefore offset text = above ++ left ∧
      ofOffset text offset = ⟨above.count '\n' + 1, left.length + 1⟩ := by
  obtain ⟨above, left, hbefore, hleft, habove⟩ := exists_above (charsBefore offset text)
  obtain ⟨after, htext⟩ := charsBefore_prefix offset text
  rw [hbefore] at htext
  have hlocation := @ofOffset_eq above left after habove hleft
  rw [htext, ← hbefore, ofOffset_boundary] at hlocation
  exact ⟨above, left, after, htext.symm, habove, hleft, hbefore, hlocation⟩

theorem toOffset?_ofOffset (text : List Char) (offset : Nat) :
    toOffset? text (ofOffset text offset) = some (byteLength (charsBefore offset text)) := by
  obtain ⟨above, left, after, htext, habove, hleft, hbefore, hlocation⟩ :=
    exists_ofOffset_eq text offset
  have hback := toOffset?_eq habove hleft after
  rw [← htext] at hback
  rw [hlocation, hbefore, hback]

end Location

end ClassLang.Text

namespace ClassLang

open Text

/-- A location counts the newlines in front of the least boundary of characters
at or behind the offset, and the characters since the last of these newlines. It
leads back to that boundary, so it tells boundaries apart; later offsets have
later locations; and there is neither a line nor a column of number zero. -/
theorem location_identifies_boundary (source : String) :
    (∀ report : Diagnostic, ∃ above left after,
      source.toList = above ++ left ++ after ∧ (∀ c, above.getLast? = some c → c = '\n') ∧
      '\n' ∉ left ∧
      let boundary := byteLength (above ++ left)
      IsLeast {b | String.Pos.Raw.IsValid source ⟨b⟩ ∧ min report.offset source.utf8ByteSize ≤ b}
          boundary ∧
        report.location source = ⟨1 + (above ++ left).count '\n', 1 + left.length⟩ ∧
        (report.location source).toOffset? source.toList = some boundary) ∧
    (∀ first second : Diagnostic, first.offset ≤ second.offset →
      (first.location source).key ≤ (second.location source).key) ∧
    (∀ first second : Diagnostic, String.Pos.Raw.IsValid source ⟨first.offset⟩ →
      String.Pos.Raw.IsValid source ⟨second.offset⟩ → first.offset ≠ second.offset →
        first.location source ≠ second.location source) ∧
    ∀ report : Diagnostic,
      1 ≤ (report.location source).line ∧ 1 ≤ (report.location source).column := by
  refine ⟨fun report => ?_, fun first second h => Location.key_ofOffset_mono h _,
    fun first second hfirst hsecond hne hsame => ?_, fun report => ?_⟩
  · obtain ⟨above, left, after, htext, habove, hleft, hbefore, hlocation⟩ :=
      Location.exists_ofOffset_eq source.toList report.offset
    refine ⟨above, left, after, htext, habove, hleft, ?_, ?_, ?_⟩
    · rw [← hbefore]
      exact isLeast_byteLength_charsBefore report.offset source
    · rw [Diagnostic.location, hlocation, List.count_append, List.count_eq_zero.mpr hleft,
        Nat.add_zero, Nat.add_comm 1, Nat.add_comm 1]
    · rw [Diagnostic.location, Location.toOffset?_ofOffset, hbefore]
  · have hback (report : Diagnostic) (hvalid : String.Pos.Raw.IsValid source ⟨report.offset⟩) :
        (report.location source).toOffset? source.toList = some report.offset := by
      obtain ⟨before, hbefore, hoffset⟩ := isValid_iff.mp hvalid
      rw [Diagnostic.location, Location.toOffset?_ofOffset, hoffset,
        charsBefore_of_isPrefix hbefore]
    apply hne
    apply Option.some.inj
    rw [← hback first hfirst, hsame, hback second hsecond]
  · obtain ⟨above, left, after, _, _, _, _, hlocation⟩ :=
      Location.exists_ofOffset_eq source.toList report.offset
    rw [Diagnostic.location, hlocation]
    exact ⟨Nat.le_add_left 1 _, Nat.le_add_left 1 _⟩

/-- An offset inside `é` goes to its end, and the places on both sides of the
newline are on different lines. -/
theorem location_identifies_boundary_inside :
    (⟨"", 1⟩ : Diagnostic).location "é\nb" = ⟨1, 2⟩ ∧
      (⟨"", 9⟩ : Diagnostic).location "é\nb" = ⟨2, 2⟩ ∧
      ((⟨"", 1⟩ : Diagnostic).location "é\nb").key ≤ ((⟨"", 9⟩ : Diagnostic).location "é\nb").key ∧
      String.Pos.Raw.IsValid "é\nb" ⟨2⟩ ∧ String.Pos.Raw.IsValid "é\nb" ⟨3⟩ ∧
      (⟨"", 2⟩ : Diagnostic).location "é\nb" ≠ (⟨"", 3⟩ : Diagnostic).location "é\nb" := by
  obtain ⟨_, hmono, hdistinct, _⟩ := location_identifies_boundary "é\nb"
  have hbefore : String.Pos.Raw.IsValid "é\nb" ⟨2⟩ := isValid_iff.mpr ⟨['é'], ⟨_, rfl⟩, rfl⟩
  have hbehind : String.Pos.Raw.IsValid "é\nb" ⟨3⟩ :=
    isValid_iff.mpr ⟨['é', '\n'], ⟨_, rfl⟩, rfl⟩
  refine ⟨rfl, rfl, hmono ⟨"", 1⟩ ⟨"", 9⟩ (by decide), hbefore, hbehind, ?_⟩
  exact hdistinct ⟨"", 2⟩ ⟨"", 3⟩ hbefore hbehind (by decide)

end ClassLang
