import ClassLang.Text.Place

/-!
Lines of a text. A line is cut out of its text by what stands above and below
it, without counting; what is counted on the way to a place, and the table of
all lines, then lead to that very line.
-/

namespace ClassLang.Text

/-- How a line ends: with the text, with a newline, or with a carriage return
and a newline. Where only a newline follows, no carriage return is left in
front of it. -/
inductive EndsLine (line : List Char) : List Char → Prop where
  | text : EndsLine line []
  | newline {rest : List Char} (hreturn : line.getLast? ≠ some '\r') :
      EndsLine line ('\n' :: rest)
  | returnNewline {rest : List Char} : EndsLine line ('\r' :: '\n' :: rest)

/-- The text is cut in three: whole lines with what ends them, the line, and
what ends that one and follows. -/
structure IsLine (text above line below : List Char) : Prop where
  covers : text = above ++ line ++ below
  above : ∀ c, above.getLast? = some c → c = '\n'
  inside : '\n' ∉ line
  ends : EndsLine line below

theorem exists_above (before : List Char) :
    ∃ above left, before = above ++ left ∧ '\n' ∉ left ∧
      ∀ c, above.getLast? = some c → c = '\n' := by
  induction before with
  | nil => exact ⟨[], [], rfl, by simp, by simp⟩
  | cons c rest ih =>
      obtain ⟨above, left, rfl, hleft, habove⟩ := ih
      cases above with
      | cons d above =>
          refine ⟨c :: d :: above, left, rfl, hleft, ?_⟩
          rw [List.getLast?_cons_cons]
          exact habove
      | nil =>
          by_cases hc : c = '\n'
          · exact ⟨[c], left, rfl, hleft, by simpa using hc⟩
          · exact ⟨[], c :: left, rfl, by simpa using ⟨Ne.symm hc, hleft⟩, by simp⟩

theorem exists_below (after : List Char) :
    ∃ right below, after = right ++ below ∧ '\n' ∉ right ∧ EndsLine right below := by
  induction after with
  | nil => exact ⟨[], [], rfl, by simp, .text⟩
  | cons c rest ih =>
      obtain ⟨right, below, rfl, hright, hends⟩ := ih
      by_cases hc : c = '\n'
      · subst hc
        exact ⟨[], _, rfl, by simp, .newline (by simp)⟩
      · have hmore : '\n' ∉ c :: right := by simpa using ⟨Ne.symm hc, hright⟩
        cases hends with
        | text => exact ⟨c :: right, [], rfl, hmore, .text⟩
        | returnNewline => exact ⟨c :: right, _, rfl, hmore, .returnNewline⟩
        | newline hreturn =>
            cases right with
            | cons d right =>
                refine ⟨c :: d :: right, _, rfl, hmore, .newline ?_⟩
                rwa [List.getLast?_cons_cons]
            | nil =>
                by_cases hc : c = '\r'
                · subst hc
                  exact ⟨[], _, rfl, by simp, .returnNewline⟩
                · exact ⟨[c], _, rfl, hmore, .newline (by simpa using hc)⟩

theorem EndsLine.append {right below left : List Char} {c : Char} (h : EndsLine right below)
    (hc : c ≠ '\r') : EndsLine (left ++ c :: right) below := by
  cases h with
  | text => exact .text
  | returnNewline => exact .returnNewline
  | newline hreturn =>
      refine .newline ?_
      rw [List.getLast?_append, List.getLast?_cons]
      cases hlast : right.getLast? with
      | none => simpa using hc
      | some d =>
          rw [hlast] at hreturn
          simpa using hreturn

/-- Every character that ends no line stands in one. -/
theorem exists_isLine (before after : List Char) {c : Char} (hnewline : c ≠ '\n')
    (hreturn : c ≠ '\r') :
    ∃ above left right below, before = above ++ left ∧ after = right ++ below ∧
      IsLine (before ++ c :: after) above (left ++ c :: right) below := by
  obtain ⟨above, left, rfl, hleft, habove⟩ := exists_above before
  obtain ⟨right, below, rfl, hright, hends⟩ := exists_below after
  refine ⟨above, left, right, below, rfl, rfl, by simp, habove, ?_, hends.append hreturn⟩
  simpa using ⟨hleft, Ne.symm hnewline, hright⟩

namespace Location

theorem foldl_step_of_not_mem {line : List Char} (h : '\n' ∉ line) (location : Location) :
    line.foldl step location = ⟨location.line, location.column + line.length⟩ := by
  induction line generalizing location with
  | nil => rfl
  | cons c rest ih =>
      rw [List.mem_cons, not_or] at h
      obtain ⟨hc, hrest⟩ := h
      rw [List.foldl_cons, ih hrest, step, if_neg (Ne.symm hc), List.length_cons,
        Nat.add_assoc, Nat.add_comm 1]

theorem line_foldl_step (text : List Char) (location : Location) :
    (text.foldl step location).line = location.line + text.count '\n' := by
  induction text generalizing location with
  | nil => rfl
  | cons c rest ih =>
      rw [List.foldl_cons, ih, step, List.count_cons]
      by_cases hc : c = '\n'
      · simp only [hc, if_true, beq_self_eq_true]
        omega
      · simp [hc]

/-- Behind whole lines comes the first column of a line. -/
theorem foldl_step_of_whole {above : List Char}
    (h : ∀ c, above.getLast? = some c → c = '\n') :
    above.foldl step start = ⟨above.count '\n' + 1, 1⟩ := by
  rcases above.eq_nil_or_concat with rfl | ⟨earlier, c, rfl⟩
  · rfl
  · rw [List.concat_eq_append] at h ⊢
    obtain rfl := h c List.getLast?_concat
    have hline := line_foldl_step earlier start
    rw [List.foldl_append, List.count_append]
    change (⟨(earlier.foldl step start).line + 1, 1⟩ : Location) = _
    rw [hline]
    simp [start, Nat.add_comm]

theorem ofOffset_eq {above left rest : List Char}
    (habove : ∀ c, above.getLast? = some c → c = '\n') (hleft : '\n' ∉ left) :
    ofOffset (above ++ left ++ rest) (byteLength (above ++ left)) =
      ⟨above.count '\n' + 1, left.length + 1⟩ := by
  unfold ofOffset
  rw [charsBefore_append, List.foldl_append, foldl_step_of_whole habove,
    foldl_step_of_not_mem hleft, Nat.add_comm 1]

end Location

theorem lines_cons {c : Char} {rest : List Char} (hnewline : c ≠ '\n')
    (hreturn : c = '\r' → rest.head? ≠ some '\n') :
    lines (c :: rest) = (lines rest).modifyHead (c :: ·) := by
  apply lines.eq_4 c rest hnewline
  rintro more hc rfl
  exact hreturn hc rfl

/-- A line that is cut off at the beginning of a text is its first. -/
theorem head?_lines {line below : List Char} (hinside : '\n' ∉ line)
    (hends : EndsLine line below) : (lines (line ++ below)).head? = some line := by
  induction line with
  | nil =>
      cases hends with
      | text => rfl
      | newline _ => rfl
      | returnNewline => rfl
  | cons c rest ih =>
      rw [List.mem_cons, not_or] at hinside
      obtain ⟨hc, hrest⟩ := hinside
      have hends' : EndsLine rest below := by
        cases hends with
        | text => exact .text
        | returnNewline => exact .returnNewline
        | newline hreturn =>
            refine .newline fun hlast => hreturn ?_
            rw [List.getLast?_cons, hlast]
            rfl
      have hreturn : c = '\r' → (rest ++ below).head? ≠ some '\n' := by
        rintro rfl hhead
        cases rest with
        | cons d rest =>
            obtain rfl : d = '\n' := Option.some.inj hhead
            exact hrest List.mem_cons_self
        | nil =>
            cases hends with
            | text => cases hhead
            | returnNewline => cases hhead
            | newline hreturn => exact hreturn rfl
      rw [List.cons_append, lines_cons (Ne.symm hc) hreturn, List.head?_modifyHead,
        ih hrest hends']
      rfl

/-- Whole lines at the beginning of a text are as many lines of it as they have
newlines. -/
theorem lines_append {above : List Char} (h : ∀ c, above.getLast? = some c → c = '\n')
    (rest : List Char) :
    ∃ ended, ended.length = above.count '\n' ∧ lines (above ++ rest) = ended ++ lines rest := by
  fun_induction lines above with
  | case1 => exact ⟨[], rfl, rfl⟩
  | case2 more ih =>
      obtain ⟨ended, hlength, hlines⟩ := ih fun c hc => h c (by rw [List.getLast?_cons, hc]; rfl)
      refine ⟨[] :: ended, by simp [hlength], ?_⟩
      rw [List.cons_append, lines, hlines]
      rfl
  | case3 more ih =>
      obtain ⟨ended, hlength, hlines⟩ := ih fun c hc => h c (by simp [List.getLast?_cons, hc])
      refine ⟨[] :: ended, by simp [hlength], ?_⟩
      rw [List.cons_append, List.cons_append, lines, hlines]
      rfl
  | case4 c more hnewline hreturn ih =>
      cases more with
      | nil => exact absurd (h c rfl) hnewline
      | cons d more =>
          rw [List.getLast?_cons_cons] at h
          obtain ⟨ended, hlength, hlines⟩ := ih h
          have hhead : c = '\r' → (d :: more ++ rest).head? ≠ some '\n' := by
            rintro hc ⟨⟩
            exact hreturn more hc rfl
          have hcount : (c :: d :: more).count '\n' = (d :: more).count '\n' :=
            List.count_cons_of_ne hnewline
          -- The newline at the end of `above` ends at least the line that `c` is in.
          obtain ⟨first, others, rfl⟩ : ∃ first others, ended = first :: others := by
            apply List.exists_cons_of_ne_nil
            rintro rfl
            have hlast := List.getLast?_eq_some_getLast (List.cons_ne_nil d more)
            have hmem := List.mem_of_getLast? hlast
            rw [h _ hlast] at hmem
            have hpos := List.count_pos_iff.mpr hmem
            rw [List.length_nil] at hlength
            omega
          refine ⟨(c :: first) :: others, by rw [hcount, ← hlength]; rfl, ?_⟩
          rw [List.cons_append, lines_cons hnewline hhead, hlines]
          rfl

/-- The line of a text with this number is the one that has so many newlines
above it. -/
theorem IsLine.lineText_eq {text above line below : List Char} (h : IsLine text above line below) :
    lineText text (above.count '\n' + 1) = line := by
  obtain ⟨ended, hlength, hlines⟩ := lines_append h.above (line ++ below)
  unfold lineText
  rw [h.covers, List.append_assoc, hlines, Nat.add_sub_cancel, ← hlength,
    List.getElem?_append_right (Nat.le_refl _), Nat.sub_self, ← List.head?_eq_getElem?,
    head?_lines h.inside h.ends]
  rfl

end ClassLang.Text
