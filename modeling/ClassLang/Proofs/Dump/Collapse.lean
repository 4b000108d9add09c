import ClassLang.Proofs.Dump.Document

/-!
Pretty texts laid on one line. Each line break of a pretty text stands behind an
opening bracket or a comma, and what the compact text has in its place is told by
that mark and by what the next line begins with. Taking the breaks away so gives
the compact text, whatever is quoted in it, since no quotation has a line break.
-/

namespace ClassLang.Dump

/-- What is put for a character at the end of a line, the line break behind it and
the indentation of the next line, given what that line begins with. -/
def junction : Char → Option Char → List Char
  | '\x7b', _ => ['\x7b', ' ']
  | '(', _ => ['(']
  | '[', _ => ['[']
  | ',', some '\x7d' => [' ']
  | ',', some ')' => []
  | ',', some ']' => []
  | ',', _ => [',', ' ']
  | c, _ => [c, '\n']

/-- A text with its layout taken away. -/
def collapse : List Char → List Char
  | [] => []
  | [c] => [c]
  | c :: d :: rest =>
      if d = '\n' then
        let next := rest.dropWhile (· == ' ')
        junction c next.head? ++ collapse next
      else c :: collapse (d :: rest)
termination_by text => text.length
decreasing_by
  · have hnext := (List.dropWhile_suffix (l := rest) (· == ' ')).length_le
    simp only [List.length_cons]
    omega
  · simp

theorem collapse_cons {c : Char} {rest : List Char} (h : rest.head? ≠ some '\n') :
    collapse (c :: rest) = c :: collapse rest := by
  cases rest with
  | nil => simp [collapse]
  | cons d more =>
      have hd : d ≠ '\n' := fun hsame => h (congrArg some hsame)
      rw [collapse, if_neg hd]

/-- A text on one line stays as it is. -/
theorem collapse_append {text rest : List Char} (htext : '\n' ∉ text)
    (hrest : rest.head? ≠ some '\n') : collapse (text ++ rest) = text ++ collapse rest := by
  induction text with
  | nil => rfl
  | cons c more ih =>
      have hmore : '\n' ∉ more := fun hmem => htext (List.mem_cons_of_mem c hmem)
      rw [List.cons_append, collapse_cons, ih hmore, List.cons_append]
      cases more with
      | nil => exact hrest
      | cons d _ => exact fun hd => hmore (Option.some.inj hd ▸ List.mem_cons_self)

theorem IsName.newline_not_mem {text : String} (h : IsName text) : '\n' ∉ text.toList :=
  fun hmem => absurd (h.2 '\n' hmem) (by decide)

namespace Document

theorem collapse_break (c : Char) (depth : Nat) {rest : List Char} (h : rest.head? ≠ some ' ') :
    collapse (c :: '\n' :: ((indent depth).toList ++ rest)) =
      junction c rest.head? ++ collapse rest := by
  have hnext : ((indent depth).toList ++ rest).dropWhile (· == ' ') = rest := by
    rw [indent, String.toList_ofList, List.dropWhile_append_of_pos (by simp)]
    cases rest with
    | nil => rfl
    | cons d more => exact List.dropWhile_cons_of_neg (by simpa using h)
  rw [collapse, if_pos rfl]
  simp only [hnext]

/-- The pretty text begins like the compact one. -/
theorem head?_pretty (document : Document) (depth : Nat) (rest : List Char) :
    ((document.pretty depth).toList ++ rest).head? = (document.compact.toList ++ rest).head? := by
  cases document with
  | word text => rfl
  | quoted text => rfl
  | labelled label value => simp [pretty, compact]
  | group name bracket entries =>
      cases entries with
      | nil => rfl
      | cons first more => cases bracket <;> simp [pretty, compact, Bracket.opening]

theorem WellNamed.exists_head?_pretty {document : Document} (h : document.WellNamed)
    (depth : Nat) (rest : List Char) :
    ∃ c, ((document.pretty depth).toList ++ rest).head? = some c ∧ isStart c = true := by
  obtain ⟨c, more, hcons, hstart⟩ := h.exists_cons_compact rest
  refine ⟨c, ?_, hstart⟩
  rw [head?_pretty, hcons, List.head?_cons]

theorem WellNamed.head?_pretty_ne {document : Document} (h : document.WellNamed) (depth : Nat)
    (rest : List Char) {c : Char} (hc : isStart c = false) :
    ((document.pretty depth).toList ++ rest).head? ≠ some c := by
  obtain ⟨d, hhead, hstart⟩ := h.exists_head?_pretty depth rest
  rw [hhead]
  rintro ⟨⟩
  rw [hc] at hstart
  cases hstart

theorem junction_comma {c : Char} (h : isStart c = true) : junction ',' (some c) = [',', ' '] := by
  rw [junction] <;>
    · rintro ⟨⟩
      cases h

theorem collapse_opening (bracket : Bracket) (depth : Nat) {rest : List Char}
    (h : rest.head? ≠ some ' ') :
    collapse (bracket.opening.toList ++ '\n' :: ((indent depth).toList ++ rest)) =
      bracket.opening.toList ++ (bracket.padding.toList ++ collapse rest) := by
  cases bracket with
  | brace =>
      change collapse (' ' :: '\x7b' :: '\n' :: _) = ' ' :: '\x7b' :: ' ' :: collapse rest
      rw [collapse_cons (by simp), collapse_break '\x7b' depth h]
      rfl
  | paren => exact collapse_break '(' depth h
  | square => exact collapse_break '[' depth h

theorem collapse_closing (bracket : Bracket) (depth : Nat) {rest : List Char}
    (h : rest.head? ≠ some '\n') :
    collapse (',' :: '\n' :: ((indent depth).toList ++ (bracket.closing.toList ++ rest))) =
      bracket.padding.toList ++ (bracket.closing.toList ++ collapse rest) := by
  have hclosing : collapse (bracket.closing.toList ++ rest) =
      bracket.closing.toList ++ collapse rest :=
    collapse_append (by cases bracket <;> decide) h
  have hmark : (bracket.closing.toList ++ rest).head? ≠ some ' ' := by
    cases bracket <;> simp [Bracket.closing]
  have hjunction : junction ',' (bracket.closing.toList ++ rest).head? =
      bracket.padding.toList := by
    cases bracket <;> rfl
  rw [collapse_break ',' depth hmark, hjunction, hclosing]

/-- Without its layout the pretty text at this depth is the compact one, whatever
comes behind. -/
def Collapses (document : Document) (depth : Nat) : Prop :=
  ∀ rest : List Char, rest.head? ≠ some '\n' →
    collapse ((document.pretty depth).toList ++ rest) = document.compact.toList ++ collapse rest

/-- The entries behind the first one, from the comma in front of them to the
closing bracket. -/
theorem collapse_prettyEntries {entries : List Document} (bracket : Bracket) (depth : Nat)
    {rest : List Char} (hnamed : ∀ entry ∈ entries, entry.WellNamed)
    (hentries : ∀ entry ∈ entries, entry.Collapses (depth + 1))
    (hrest : rest.head? ≠ some '\n') :
    collapse (',' :: '\n' :: ((prettyEntries (depth + 1) entries).toList ++
        ((indent depth).toList ++ (bracket.closing.toList ++ rest)))) =
      (compactRest entries).toList ++
        (bracket.padding.toList ++ (bracket.closing.toList ++ collapse rest)) := by
  induction entries with
  | nil => exact collapse_closing bracket depth hrest
  | cons entry more ih =>
      obtain ⟨hentry, hmore⟩ := List.forall_mem_cons.mp hnamed
      obtain ⟨hcollapse, hcollapses⟩ := List.forall_mem_cons.mp hentries
      have hbehind := ih hmore hcollapses
      simp only [prettyEntries, compactRest, String.toList_append, List.append_assoc]
      rw [collapse_break ',' (depth + 1) (hentry.head?_pretty_ne _ _ (by decide))]
      obtain ⟨c, hhead, hstart⟩ := hentry.exists_head?_pretty (depth + 1) _
      rw [hhead, junction_comma hstart, hcollapse _ (by simp), ← hbehind]
      rfl

/-- By induction on the document. -/
theorem WellNamed.collapses {document : Document} (h : document.WellNamed) (depth : Nat) :
    document.Collapses depth := by
  intro rest hrest
  induction h generalizing depth rest with
  | word htext => exact collapse_append htext.newline_not_mem hrest
  | quoted text => exact collapse_append (newline_not_mem_quote text) hrest
  | labelled hlabel hvalue ih =>
      simp only [pretty, compact, String.toList_append, List.append_assoc]
      rw [collapse_append hlabel.newline_not_mem (by simp),
        collapse_append (by decide) (hvalue.head?_pretty_ne _ _ (by decide)), ih depth rest hrest]
  | @group name entries bracket hname hentries ih =>
      have hnewline : '\n' ∉ name.toList := by
        rcases hname with hname | ⟨rfl, _⟩
        · exact hname.newline_not_mem
        · simp
      have hbracket : '\n' ∉ bracket.opening.toList ∧ '\n' ∉ bracket.closing.toList := by
        cases bracket <;> decide
      -- The first entry stands behind the opening bracket, each other one behind a comma.
      cases entries with
      | nil =>
          refine collapse_append ?_ hrest
          simp [pretty, hnewline, hbracket]
      | cons first more =>
          obtain ⟨hfirst, hmore⟩ := List.forall_mem_cons.mp hentries
          obtain ⟨hcollapse, hcollapses⟩ := List.forall_mem_cons.mp ih
          simp only [pretty, prettyEntries, compact, String.toList_append, List.append_assoc]
          have hbehind := collapse_prettyEntries bracket depth hmore
            (fun entry hentry => hcollapses entry hentry (depth + 1)) hrest
          rw [← hbehind]
          refine (collapse_append hnewline ?_).trans (congrArg _ ?_)
          · cases bracket <;> simp [Bracket.opening]
          · refine (collapse_opening bracket (depth + 1)
              (hfirst.head?_pretty_ne _ _ (by decide))).trans ?_
            rw [hcollapse _ _ (by simp)]
            rfl

theorem WellNamed.collapse_toList_pretty {document : Document} (h : document.WellNamed)
    (depth : Nat) : collapse (document.pretty depth).toList = document.compact.toList := by
  have htext := h.collapses depth [] (by simp)
  simpa [collapse] using htext

example :
    collapse "Some(\n    [\n        1,\n        2,\n    ],\n)".toList =
      "Some([1, 2])".toList := by
  simp [collapse, junction]

theorem WellNamed.pretty_inj {first second : Document} (hfirst : first.WellNamed)
    (hsecond : second.WellNamed) {depth : Nat} (h : first.pretty depth = second.pretty depth) :
    first = second := by
  have htext := hfirst.collapse_toList_pretty depth
  rw [h, hsecond.collapse_toList_pretty depth] at htext
  exact hfirst.compact_inj hsecond (String.toList_inj.mp htext.symm)

end Document

end ClassLang.Dump
