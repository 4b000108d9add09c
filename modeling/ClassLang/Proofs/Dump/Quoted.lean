import ClassLang.Dump.Quoted

/-!
Quoted text read back. Only a few characters have an escape; each escape begins
with a backslash, none begins another one, and none holds a raw newline. All
other characters stand for themselves, and the quote and the backslash are not
among them. So whatever a text holds, where its quotation ends is seen from the
front, and the quotation gives the text back.
-/

namespace ClassLang.Dump

/-- The characters that have an escape. -/
def escapedChars : List Char := (List.range 0x20 ++ [0x22, 0x5C, 0x7F]).map Char.ofNat

theorem mem_escapedChars_of_lookup {c letter : Char} (h : shortEscapes.lookup c = some letter) :
    c ∈ escapedChars := by
  obtain ⟨before, after, htable, _⟩ := List.lookup_eq_some_iff.mp h
  have hall : shortEscapes.all (fun escape => escapedChars.contains escape.1) = true := by decide
  have hmem := List.all_eq_true.mp hall (c, letter) (by simp [htable])
  exact List.contains_iff_mem.mp hmem

theorem mem_escapedChars_of_isControl {c : Char} (h : isControl c = true) : c ∈ escapedChars := by
  rw [isControl, Bool.or_eq_true, decide_eq_true_eq, beq_iff_eq] at h
  refine List.mem_map.mpr ⟨c.toNat, ?_, c.ofNat_toNat⟩
  rcases h with hlow | hdelete
  · exact List.mem_append_left _ (List.mem_range.mpr hlow)
  · rw [hdelete]
    decide

/-- A character has an escape, or it stands for itself and is neither a quote nor
a backslash. -/
theorem escape_cases (c : Char) :
    c ∈ escapedChars ∨ escape c = [c] ∧ c ≠ '\"' ∧ c ≠ '\\' ∧ c ≠ '\n' := by
  cases hletter : shortEscapes.lookup c with
  | some letter => exact .inl (mem_escapedChars_of_lookup hletter)
  | none =>
      cases hcontrol : isControl c with
      | true => exact .inl (mem_escapedChars_of_isControl hcontrol)
      | false =>
          refine .inr ⟨by simp [escape, hletter, hcontrol], ?_, ?_, ?_⟩ <;> rintro rfl <;>
            cases hletter

theorem exists_escape_eq_cons {c : Char} (h : c ∈ escapedChars) :
    ∃ rest, escape c = '\\' :: rest := by
  have hall : escapedChars.all (fun c => (escape c).head? == some '\\') = true := by decide
  have hhead := eq_of_beq (List.all_eq_true.mp hall c h)
  exact List.head?_eq_some_iff.mp hhead

theorem eq_of_escape_begins {first second : Char} (hfirst : first ∈ escapedChars)
    (hsecond : second ∈ escapedChars) (h : escape first <+: escape second) : first = second := by
  have hall : (escapedChars.all fun first => escapedChars.all fun second =>
      !(escape first).isPrefixOf (escape second) || first == second) = true := by decide
  have hpair := List.all_eq_true.mp (List.all_eq_true.mp hall first hfirst) second hsecond
  simpa [List.isPrefixOf_iff_prefix.mpr h] using hpair

/-- What comes behind a character between quotes cannot be taken for a part of it. -/
theorem escape_append_inj {first second : Char} {rest rest' : List Char}
    (h : escape first ++ rest = escape second ++ rest') : first = second ∧ rest = rest' := by
  rcases escape_cases first with hfirst | ⟨hfirst, _, hslash, _⟩ <;>
    rcases escape_cases second with hsecond | ⟨hsecond, _, hslash', _⟩
  · have hstart : escape first <+: escape second ++ rest' := h ▸ List.prefix_append _ _
    obtain rfl : first = second := by
      rcases List.prefix_or_prefix_of_prefix hstart (List.prefix_append _ _) with hless | hmore
      · exact eq_of_escape_begins hfirst hsecond hless
      · exact (eq_of_escape_begins hsecond hfirst hmore).symm
    exact ⟨rfl, List.append_cancel_left h⟩
  · obtain ⟨more, hmore⟩ := exists_escape_eq_cons hfirst
    rw [hmore, hsecond] at h
    exact absurd (List.cons.inj h).1.symm hslash'
  · obtain ⟨more, hmore⟩ := exists_escape_eq_cons hsecond
    rw [hmore, hfirst] at h
    exact absurd (List.cons.inj h).1 hslash
  · rw [hfirst, hsecond] at h
    exact List.cons.inj h

/-- No quote begins what stands for a character. -/
theorem escape_append_ne (c : Char) (rest rest' : List Char) :
    escape c ++ rest ≠ '\"' :: rest' := by
  intro h
  rcases escape_cases c with hescaped | ⟨hself, hquote, _⟩
  · obtain ⟨more, hmore⟩ := exists_escape_eq_cons hescaped
    rw [hmore] at h
    exact absurd (List.cons.inj h).1 (by decide)
  · rw [hself] at h
    exact hquote (List.cons.inj h).1

/-- The characters of a quoted text, with its end quote and what follows. -/
theorem flatMap_escape_inj {text text' rest rest' : List Char}
    (h : text.flatMap escape ++ '\"' :: rest = text'.flatMap escape ++ '\"' :: rest') :
    text = text' ∧ rest = rest' := by
  induction text generalizing text' with
  | nil =>
      cases text' with
      | nil => exact ⟨rfl, (List.cons.inj h).2⟩
      | cons c more =>
          rw [List.flatMap_cons, List.append_assoc] at h
          exact absurd h.symm (escape_append_ne c _ _)
  | cons c more ih =>
      cases text' with
      | nil =>
          rw [List.flatMap_cons, List.append_assoc] at h
          exact absurd h (escape_append_ne c _ _)
      | cons c' more' =>
          rw [List.flatMap_cons, List.flatMap_cons, List.append_assoc, List.append_assoc] at h
          obtain ⟨rfl, hbehind⟩ := escape_append_inj h
          obtain ⟨rfl, hrest⟩ := ih hbehind
          exact ⟨rfl, hrest⟩

theorem toList_quote (text : String) :
    (quote text).toList = '\"' :: (text.toList.flatMap escape ++ ['\"']) := by
  simp only [quote, String.toList_append, String.toList_ofList]
  rfl

theorem quote_append_inj {text text' : String} {rest rest' : List Char}
    (h : (quote text).toList ++ rest = (quote text').toList ++ rest') :
    text = text' ∧ rest = rest' := by
  simp only [toList_quote, List.cons_append, List.append_assoc, List.nil_append,
    List.cons.injEq, true_and] at h
  obtain ⟨htext, hrest⟩ := flatMap_escape_inj h
  exact ⟨String.toList_inj.mp htext, hrest⟩

/-- A newline is always escaped. -/
theorem newline_not_mem_quote (text : String) : '\n' ∉ (quote text).toList := by
  have hescape (c : Char) : '\n' ∉ escape c := by
    have hall : escapedChars.all (fun c => !(escape c).contains '\n') = true := by decide
    rcases escape_cases c with hescaped | ⟨hself, _, _, hnewline⟩
    · simpa using List.all_eq_true.mp hall c hescaped
    · rw [hself, List.mem_singleton]
      exact hnewline.symm
  simp [toList_quote, hescape]

end ClassLang.Dump
