import ClassLang.Dump.Document
import ClassLang.Proofs.Dump.Quoted
import ClassLang.Proofs.FirstPiece

/-!
Compact texts read back. If names, labels and words hold none of the marks that a
layout is made of, the text of a document says where each of its parts ends: a
name goes on for as long as it can, then comes a mark that tells the kind of the
document, and a quotation shows its own end. So one document's text is not the
beginning of another's, unless a mark is missing behind it.
-/

namespace ClassLang.Dump

/-- The characters of names and plain words. The minus sign is that of integers. -/
def isNameChar (c : Char) : Bool := c.isAlphanum || c == '_' || c == '-'

/-- Whether the text can be a name or a plain word. -/
def IsName (text : String) : Prop := text ≠ "" ∧ ∀ c ∈ text.toList, isNameChar c = true

/-- What the text of a document may begin with. -/
def isStart (c : Char) : Bool := isNameChar c || c == '\"' || c == '['

theorem IsName.exists_toList_eq_cons {text : String} (h : IsName text) :
    ∃ c more, text.toList = c :: more ∧ isNameChar c = true := by
  obtain ⟨c, more, hcons⟩ := List.exists_cons_of_ne_nil (mt String.toList_eq_nil_iff.mp h.1)
  exact ⟨c, more, hcons, h.2 c (hcons ▸ List.mem_cons_self)⟩

theorem IsName.exists_cons {text : String} (h : IsName text) (rest : List Char) :
    ∃ c more, text.toList ++ rest = c :: more ∧ isStart c = true := by
  obtain ⟨c, more, hcons, hname⟩ := h.exists_toList_eq_cons
  exact ⟨c, more ++ rest, by rw [hcons, List.cons_append], by simp [isStart, hname]⟩

namespace Document

/-- Names and labels are names, and only a list has none. -/
inductive WellNamed : Document → Prop where
  | word {text : String} (htext : IsName text) : WellNamed (.word text)
  | quoted (text : String) : WellNamed (.quoted text)
  | labelled {label : String} {value : Document} (hlabel : IsName label)
      (hvalue : WellNamed value) : WellNamed (.labelled label value)
  | group {name : String} {entries : List Document} (bracket : Bracket)
      (hname : IsName name ∨ name = "" ∧ bracket = .square)
      (hentries : ∀ entry ∈ entries, WellNamed entry) : WellNamed (.group name bracket entries)

/-- The name or the word that the text of a document begins with. -/
def lead : Document → String
  | .word text => text
  | .quoted _ => ""
  | .labelled label _ => label
  | .group name _ _ => name

/-- What may stand behind a document: nothing, or what comes behind an entry. -/
inductive Ends : List Char → Prop where
  | nil : Ends []
  | comma (rest : List Char) : Ends (',' :: rest)
  | paren (rest : List Char) : Ends (')' :: rest)
  | square (rest : List Char) : Ends (']' :: rest)
  | brace (rest : List Char) : Ends (' ' :: '\x7d' :: rest)

/-- A group behind its opening bracket. -/
def insideText (bracket : Bracket) (rest : List Char) : List Document → List Char
  | [] => bracket.closing.toList ++ rest
  | first :: more =>
      bracket.padding.toList ++ ((compact first).toList ++ ((compactRest more).toList ++
        (bracket.padding.toList ++ (bracket.closing.toList ++ rest))))

/-- A document behind its lead. -/
def behindLead (rest : List Char) : Document → List Char
  | .word _ => rest
  | .quoted text => (quote text).toList ++ rest
  | .labelled _ value => ':' :: ' ' :: ((compact value).toList ++ rest)
  | .group _ bracket entries => bracket.opening.toList ++ insideText bracket rest entries

theorem toList_compact_append (document : Document) (rest : List Char) :
    document.compact.toList ++ rest = document.lead.toList ++ document.behindLead rest := by
  cases document with
  | word text => simp [compact, lead, behindLead]
  | quoted text => simp [compact, lead, behindLead]
  | labelled label value => simp [compact, lead, behindLead]
  | group name bracket entries =>
      cases entries <;> simp [compact, lead, behindLead, insideText]

variable {document : Document} {rest rest' : List Char}

theorem WellNamed.isNameChar_lead (h : document.WellNamed) :
    ∀ c ∈ document.lead.toList, isNameChar c = true := by
  cases h with
  | word htext => exact htext.2
  | quoted text => simp [lead]
  | labelled hlabel hvalue => exact hlabel.2
  | group bracket hname hentries =>
      rcases hname with hname | ⟨rfl, _⟩
      · exact hname.2
      · simp [lead]

theorem Ends.isNameChar_head (h : Ends rest) {c : Char} (hc : rest.head? = some c) :
    isNameChar c = false := by
  cases h <;> cases hc <;> rfl

theorem exists_opening_eq_cons (bracket : Bracket) :
    ∃ c more, bracket.opening.toList = c :: more ∧ isNameChar c = false := by
  cases bracket with
  | brace => exact ⟨' ', ['\x7b'], rfl, rfl⟩
  | paren => exact ⟨'(', [], rfl, rfl⟩
  | square => exact ⟨'[', [], rfl, rfl⟩

/-- No name goes on behind the lead. -/
theorem isNameChar_behindLead (hrest : Ends rest) {c : Char}
    (hc : (document.behindLead rest).head? = some c) : isNameChar c = false := by
  cases document with
  | word text => exact hrest.isNameChar_head hc
  | quoted text =>
      rw [behindLead, toList_quote] at hc
      cases hc
      rfl
  | labelled label value =>
      cases hc
      rfl
  | group name bracket entries =>
      obtain ⟨d, more, hopening, hd⟩ := exists_opening_eq_cons bracket
      rw [behindLead, hopening] at hc
      cases hc
      exact hd

/-- The lead and what is behind it are told apart. -/
theorem WellNamed.lead_append_inj {first second : Document} (hfirst : first.WellNamed)
    (hsecond : second.WellNamed) (hrest : Ends rest) (hrest' : Ends rest')
    (h : first.compact.toList ++ rest = second.compact.toList ++ rest') :
    first.lead = second.lead ∧ first.behindLead rest = second.behindLead rest' := by
  rw [toList_compact_append, toList_compact_append] at h
  have hlead : first.lead.toList = second.lead.toList := by
    have htake := congrArg (List.takeWhile isNameChar) h
    rwa [LexicalRule.takeWhile_run_append hfirst.isNameChar_lead
        fun _ => isNameChar_behindLead hrest,
      LexicalRule.takeWhile_run_append hsecond.isNameChar_lead
        fun _ => isNameChar_behindLead hrest'] at htake
  rw [hlead] at h
  exact ⟨String.toList_inj.mp hlead, List.append_cancel_left h⟩

theorem WellNamed.exists_cons_compact (h : document.WellNamed) (rest : List Char) :
    ∃ c more, document.compact.toList ++ rest = c :: more ∧ isStart c = true := by
  rw [toList_compact_append]
  cases h with
  | word htext => exact htext.exists_cons _
  | quoted text =>
      rw [behindLead, toList_quote]
      exact ⟨'\"', _, rfl, rfl⟩
  | labelled hlabel hvalue => exact hlabel.exists_cons _
  | group bracket hname hentries =>
      rcases hname with hname | ⟨rfl, rfl⟩
      · exact hname.exists_cons _
      · exact ⟨'[', _, rfl, rfl⟩

/-- Only a word may have nothing behind its lead. -/
theorem exists_eq_word (h : Ends (document.behindLead rest)) :
    ∃ text, document = .word text := by
  cases document with
  | word text => exact ⟨text, rfl⟩
  | quoted text =>
      rw [behindLead, toList_quote] at h
      cases h
  | labelled label value => cases h
  | group name bracket entries => cases bracket <;> cases h

theorem ends_closing (bracket : Bracket) (rest : List Char) :
    Ends (bracket.padding.toList ++ (bracket.closing.toList ++ rest)) := by
  cases bracket with
  | brace => exact .brace rest
  | paren => exact .paren rest
  | square => exact .square rest

theorem ends_compactRest {behind : List Char} (h : Ends behind) (entries : List Document) :
    Ends ((compactRest entries).toList ++ behind) := by
  cases entries with
  | nil => exact h
  | cons first more =>
      simp only [compactRest, String.toList_append]
      exact .comma _

/-- A group that has entries does not close where it opens. -/
theorem WellNamed.closing_append_ne (h : document.WellNamed) (bracket : Bracket) :
    bracket.closing.toList ++ rest ≠
      bracket.padding.toList ++ (document.compact.toList ++ rest') := by
  intro hsame
  obtain ⟨c, more, hcons, hstart⟩ := h.exists_cons_compact rest'
  rw [hcons] at hsame
  cases bracket <;> cases hsame <;> cases hstart

/-- What comes behind the document cannot be taken for a part of it. -/
def ToldApart (first : Document) : Prop :=
  ∀ second rest rest', second.WellNamed → Ends rest → Ends rest' →
    first.compact.toList ++ rest = second.compact.toList ++ rest' → first = second ∧ rest = rest'

/-- The entries behind the first, by induction on them. -/
theorem compactRest_append_inj {entries entries' : List Document} {behind behind' : List Char}
    (hentries : ∀ entry ∈ entries, entry.ToldApart)
    (hnamed : ∀ entry ∈ entries', entry.WellNamed) (hbehind : Ends behind)
    (hbehind' : Ends behind') (hcomma : behind.head? ≠ some ',')
    (hcomma' : behind'.head? ≠ some ',')
    (h : (compactRest entries).toList ++ behind = (compactRest entries').toList ++ behind') :
    entries = entries' ∧ behind = behind' := by
  induction entries generalizing entries' with
  | nil =>
      cases entries' with
      | nil => exact ⟨rfl, h⟩
      | cons second more =>
          simp only [compactRest, String.toList_append] at h
          exact absurd (congrArg List.head? h) hcomma
  | cons first more ih =>
      cases entries' with
      | nil =>
          simp only [compactRest, String.toList_append] at h
          exact absurd (congrArg List.head? h).symm hcomma'
      | cons second more' =>
          obtain ⟨hfirst, hmore⟩ := List.forall_mem_cons.mp hentries
          obtain ⟨hsecond, hmore'⟩ := List.forall_mem_cons.mp hnamed
          simp only [compactRest, String.toList_append, List.append_assoc,
            List.append_cancel_left_eq] at h
          obtain ⟨rfl, hrest⟩ := hfirst second _ _ hsecond (ends_compactRest hbehind more)
            (ends_compactRest hbehind' more') h
          obtain ⟨rfl, hsame⟩ := ih hmore hmore' hrest
          exact ⟨rfl, hsame⟩

theorem insideText_inj {bracket : Bracket} {entries entries' : List Document}
    (hentries : ∀ entry ∈ entries, entry.ToldApart)
    (hnamed : ∀ entry ∈ entries, entry.WellNamed) (hnamed' : ∀ entry ∈ entries', entry.WellNamed)
    (h : insideText bracket rest entries = insideText bracket rest' entries') :
    entries = entries' ∧ rest = rest' := by
  have hcomma (rest : List Char) :
      (bracket.padding.toList ++ (bracket.closing.toList ++ rest)).head? ≠ some ',' := by
    cases bracket <;> exact fun hhead => nomatch hhead
  cases entries with
  | nil =>
      cases entries' with
      | nil => exact ⟨rfl, List.append_cancel_left h⟩
      | cons second more => exact absurd h ((hnamed' second List.mem_cons_self).closing_append_ne _)
  | cons first more =>
      cases entries' with
      | nil => exact absurd h.symm ((hnamed first List.mem_cons_self).closing_append_ne _)
      | cons second more' =>
          obtain ⟨hfirst, hmore⟩ := List.forall_mem_cons.mp hentries
          obtain ⟨hsecond, hmore'⟩ := List.forall_mem_cons.mp hnamed'
          obtain ⟨rfl, hbehind⟩ := hfirst second _ _ hsecond
            (ends_compactRest (ends_closing bracket rest) more)
            (ends_compactRest (ends_closing bracket rest') more') (List.append_cancel_left h)
          obtain ⟨rfl, hclosing⟩ := compactRest_append_inj hmore hmore' (ends_closing bracket rest)
            (ends_closing bracket rest') (hcomma rest) (hcomma rest') hbehind
          exact ⟨rfl, List.append_cancel_left (List.append_cancel_left hclosing)⟩

/-- The kind of a document that is no word is seen behind its lead. -/
theorem head?_behindLead (document : Document) (rest : List Char) :
    (document.behindLead rest).head? =
      match document with
      | .word _ => rest.head?
      | .quoted _ => some '\"'
      | .labelled _ _ => some ':'
      | .group _ bracket _ => bracket.opening.toList.head? := by
  cases document with
  | word text => rfl
  | quoted text =>
      rw [behindLead, toList_quote]
      rfl
  | labelled label value => rfl
  | group name bracket entries => cases bracket <;> rfl

theorem opening_append_inj {bracket bracket' : Bracket} {inside inside' : List Char}
    (h : bracket.opening.toList ++ inside = bracket'.opening.toList ++ inside') :
    bracket = bracket' ∧ inside = inside' := by
  obtain rfl : bracket = bracket' := by
    cases bracket <;> cases bracket' <;> first | rfl | cases h
  exact ⟨rfl, List.append_cancel_left h⟩

/-- By induction on the first document. -/
theorem WellNamed.toldApart {first : Document} (hfirst : first.WellNamed) : first.ToldApart := by
  intro second rest rest' hsecond hrest hrest' h
  -- Once the leads are equal, the next character tells the kinds apart. Only a word has none
  -- of its own, but what may come behind a word comes behind no lead of another kind.
  induction hfirst generalizing second rest rest' with
  | word htext =>
      obtain ⟨hlead, hbehind⟩ := (WellNamed.word htext).lead_append_inj hsecond hrest hrest' h
      have hsame : rest = second.behindLead rest' := hbehind
      obtain ⟨text, rfl⟩ := exists_eq_word (hsame ▸ hrest)
      exact ⟨congrArg Document.word hlead, hbehind⟩
  | quoted text =>
      obtain ⟨hlead, hbehind⟩ := (WellNamed.quoted text).lead_append_inj hsecond hrest hrest' h
      cases hsecond with
      | word htext' => exact absurd htext'.1 (not_not_intro hlead.symm)
      | quoted text' =>
          obtain ⟨rfl, hsame⟩ := quote_append_inj hbehind
          exact ⟨rfl, hsame⟩
      | labelled hlabel' hvalue' => exact absurd hlabel'.1 (not_not_intro hlead.symm)
      | group bracket' hname' hentries' =>
          have hkind := congrArg List.head? hbehind
          rw [head?_behindLead] at hkind
          cases bracket' <;> cases hkind
  | @labelled label value hlabel hvalue ih =>
      obtain ⟨hlead, hbehind⟩ :=
        (WellNamed.labelled hlabel hvalue).lead_append_inj hsecond hrest hrest' h
      cases hsecond with
      | word htext' =>
          have hsame : rest' = behindLead rest (.labelled label value) := hbehind.symm
          obtain ⟨_, hword⟩ := exists_eq_word (hsame ▸ hrest')
          cases hword
      | quoted text' => exact absurd hlabel.1 (not_not_intro hlead)
      | labelled hlabel' hvalue' =>
          obtain rfl : label = _ := hlead
          have hvalues := (List.cons.inj (List.cons.inj hbehind).2).2
          obtain ⟨rfl, hsame⟩ := ih _ _ _ hvalue' hrest hrest' hvalues
          exact ⟨rfl, hsame⟩
      | group bracket' hname' hentries' => cases bracket' <;> cases hbehind
  | @group name entries bracket hname hentries ih =>
      obtain ⟨hlead, hbehind⟩ :=
        (WellNamed.group bracket hname hentries).lead_append_inj hsecond hrest hrest' h
      cases hsecond with
      | word htext' =>
          have hsame : rest' = behindLead rest (.group name bracket entries) := hbehind.symm
          obtain ⟨_, hword⟩ := exists_eq_word (hsame ▸ hrest')
          cases hword
      | quoted text' =>
          have hkind := congrArg List.head? hbehind.symm
          rw [head?_behindLead] at hkind
          cases bracket <;> cases hkind
      | labelled hlabel' hvalue' => cases bracket <;> cases hbehind
      | group bracket' hname' hentries' =>
          obtain rfl : name = _ := hlead
          obtain ⟨rfl, hinside⟩ := opening_append_inj hbehind
          obtain ⟨rfl, hsame⟩ := insideText_inj ih hentries hentries' hinside
          exact ⟨rfl, hsame⟩

/-- The compact text gives the document back. -/
theorem WellNamed.compact_inj {first second : Document} (hfirst : first.WellNamed)
    (hsecond : second.WellNamed) (h : first.compact = second.compact) : first = second := by
  have htext : first.compact.toList ++ [] = second.compact.toList ++ [] := by rw [h]
  exact (hfirst.toldApart second [] [] hsecond .nil .nil htext).1

end Document

end ClassLang.Dump
