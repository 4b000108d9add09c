import ClassLang.Proofs.Dump.Document

/-!
The indentation of pretty texts. A text is read character by character, with
brackets that count only outside of quotations, and for each bracket that is still
open it is kept how far the line is indented on which it stands. In a pretty text
each line has four blanks for each open bracket, and a line that begins with a
closing bracket is indented like the line of the bracket that it closes.
-/

namespace ClassLang.Dump

def Bracket.ofOpening? : Char → Option Bracket
  | '\x7b' => some .brace
  | '(' => some .paren
  | '[' => some .square
  | _ => none

def Bracket.ofClosing? : Char → Option Bracket
  | '\x7d' => some .brace
  | ')' => some .paren
  | ']' => some .square
  | _ => none

/-- Where a place is with regard to quotations. -/
inductive Quoting where
  | outside
  | inside
  /-- Behind a backslash in a quotation. -/
  | escaped

def Quoting.step (quoting : Quoting) (c : Char) : Quoting :=
  match quoting with
  | .outside => if c = '\"' then .inside else .outside
  | .inside => if c = '\"' then .outside else if c = '\\' then .escaped else .inside
  | .escaped => .inside

/-- A bracket that is open, and how many blanks the line begins with on which it stands. -/
structure Opener where
  bracket : Bracket
  margin : Nat

/-- What is known of a place when the text in front of it has been read. -/
structure Reading where
  quoting : Quoting
  /-- The innermost bracket is the first one. -/
  openers : List Opener
  /-- How many blanks the line begins with. -/
  margin : Nat
  /-- Whether nothing else stands on the line yet. -/
  inMargin : Bool

namespace Reading

/-- What is known at the front of a text. -/
def start : Reading := ⟨.outside, [], 0, true⟩

def openersBehind (reading : Reading) (c : Char) : List Opener :=
  match reading.quoting with
  | .outside =>
      match Bracket.ofOpening? c with
      | some bracket => ⟨bracket, reading.margin⟩ :: reading.openers
      | none => if (Bracket.ofClosing? c).isSome then reading.openers.tail else reading.openers
  | .inside | .escaped => reading.openers

def step (reading : Reading) (c : Char) : Reading where
  quoting := reading.quoting.step c
  openers := reading.openersBehind c
  margin :=
    if c = '\n' then 0
    else if reading.inMargin && c == ' ' then reading.margin + 1
    else reading.margin
  inMargin := c == '\n' || reading.inMargin && c == ' '

def ofText (text : List Char) : Reading := text.foldl step start

/-- Whether a line that comes next may have an indentation of `margin` blanks, if
`mark` is what stands behind them. -/
def Fits (reading : Reading) (margin : Nat) (mark : Option Char) : Prop :=
  reading.quoting = .outside ∧
    match mark.bind Bracket.ofClosing? with
    | some bracket =>
        ∃ outer, reading.openers = ⟨bracket, margin⟩ :: outer ∧ margin = 4 * outer.length
    | none => margin = 4 * reading.openers.length

end Reading

/-- Whether the indentation of each line fits what comes before the line. -/
def IsIndented (text : List Char) : Prop :=
  ∀ before rest, text = before ++ rest → before = [] ∨ before.getLast? = some '\n' →
    (Reading.ofText before).Fits (rest.takeWhile (· == ' ')).length
      (rest.dropWhile (· == ' ')).head?

/-- From one reading to another, each line is indented as it has to be. -/
inductive Reads : Reading → List Char → Reading → Prop where
  | nil (reading : Reading) : Reads reading [] reading
  | cons {reading reading' : Reading} {c : Char} {rest : List Char}
      (hfits : reading.inMargin = true → c ≠ ' ' → reading.Fits reading.margin (some c))
      (hrest : Reads (reading.step c) rest reading') : Reads reading (c :: rest) reading'

namespace Reads

variable {reading reading' reading'' : Reading} {first second : List Char}

theorem append (hfirst : Reads reading first reading') (hsecond : Reads reading' second reading'') :
    Reads reading (first ++ second) reading'' := by
  induction hfirst with
  | nil => exact hsecond
  | cons hfits _ ih => exact .cons hfits (ih hsecond)

theorem of_append (h : Reads reading (first ++ second) reading'') :
    Reads (first.foldl Reading.step reading) second reading'' := by
  induction first generalizing reading with
  | nil => exact h
  | cons c more ih =>
      cases h with
      | cons _ hrest => exact ih hrest

end Reads

/-- A blank leaves open what the line has to be like. -/
theorem Reading.fits_of_step {reading : Reading} {margin : Nat} {mark : Option Char}
    (h : (reading.step ' ').Fits margin mark) : reading.Fits margin mark := by
  obtain ⟨quoting, openers, _, _⟩ := reading
  cases quoting with
  | outside => exact h
  | inside => exact nomatch h.1
  | escaped => exact nomatch h.1

/-- The line that comes next, by induction on what is read. -/
theorem Reads.fits {reading reading' : Reading} {rest : List Char} (h : Reads reading rest reading')
    (hmargin : reading.inMargin = true) (hend : reading'.inMargin = false) :
    reading.Fits (reading.margin + (rest.takeWhile (· == ' ')).length)
      (rest.dropWhile (· == ' ')).head? := by
  induction h with
  | nil => rw [hmargin] at hend; cases hend
  | @cons reading _ c rest hfits _ ih =>
      by_cases hblank : c = ' '
      · subst hblank
        have hnext := Reading.fits_of_step (ih (by simp [Reading.step, hmargin]) hend)
        simpa [Reading.step, hmargin, Nat.add_assoc, Nat.add_comm 1] using hnext
      · simpa [hblank] using hfits hmargin hblank

theorem Reads.isIndented {text : List Char} {reading : Reading}
    (h : Reads .start text reading) (hend : reading.inMargin = false) : IsIndented text := by
  rintro before rest rfl hbefore
  have hstart : (Reading.ofText before).inMargin = true ∧ (Reading.ofText before).margin = 0 := by
    rcases hbefore with rfl | hlast
    · exact ⟨rfl, rfl⟩
    · obtain ⟨above, rfl⟩ := List.getLast?_eq_some_iff.mp hlast
      simp [Reading.ofText, Reading.step]
  have hfits := h.of_append.fits hstart.1 hend
  rw [← Reading.ofText, hstart.2, Nat.zero_add] at hfits
  exact hfits

/-- The characters that change more than whether a place is in the margin. -/
def marks : List Char := ['\"', '\n', '\x7b', '(', '[', '\x7d', ')', ']']

section

variable {openers : List Opener} {margin : Nat} {inMargin : Bool}

theorem ofClosing?_eq_none {c : Char} (h : c ∉ marks) : Bracket.ofClosing? c = none := by
  rw [Bracket.ofClosing?] <;>
    · rintro rfl
      exact h (by decide)

theorem step_of_not_mem_marks {c : Char} (h : c ∉ marks) (hblank : inMargin = true → c ≠ ' ') :
    Reading.step ⟨.outside, openers, margin, inMargin⟩ c = ⟨.outside, openers, margin, false⟩ := by
  have hne (d : Char) (hd : d ∈ marks) : c ≠ d := fun hsame => h (hsame ▸ hd)
  have hopening : Bracket.ofOpening? c = none := by
    rw [Bracket.ofOpening?] <;> exact hne _ (by decide)
  have hclosing := ofClosing?_eq_none h
  have hquote : c ≠ '\"' := hne _ (by decide)
  have hnewline : c ≠ '\n' := hne _ (by decide)
  cases inMargin <;> simp_all [Reading.step, Reading.openersBehind, Quoting.step]

/-- A line that begins with no closing bracket. -/
theorem Reads.first {c : Char} {rest : List Char} {reading : Reading}
    (hmargin : margin = 4 * openers.length) (hclosing : Bracket.ofClosing? c = none)
    (h : Reads (Reading.step ⟨.outside, openers, margin, inMargin⟩ c) rest reading) :
    Reads ⟨.outside, openers, margin, inMargin⟩ (c :: rest) reading := by
  refine .cons (fun _ _ => ⟨rfl, ?_⟩) h
  rw [Option.bind_some, hclosing]
  exact hmargin

theorem reads_plain {text : List Char} (h : ∀ c ∈ text, c ∉ marks) :
    Reads ⟨.outside, openers, margin, false⟩ text ⟨.outside, openers, margin, false⟩ := by
  induction text with
  | nil => exact .nil _
  | cons c more ih =>
      obtain ⟨hc, hmore⟩ := List.forall_mem_cons.mp h
      refine .cons nofun ?_
      rw [step_of_not_mem_marks hc (by simp)]
      exact ih hmore

theorem not_mem_marks {c : Char} (h : isNameChar c = true) : c ∉ marks := by
  have hmarks : marks.all (fun d => !isNameChar d) = true := by decide
  intro hmem
  simpa [h] using List.all_eq_true.mp hmarks c hmem

theorem reads_name {name : String} (h : IsName name) (hmargin : margin = 4 * openers.length) :
    Reads ⟨.outside, openers, margin, inMargin⟩ name.toList ⟨.outside, openers, margin, false⟩ := by
  have hmarks : ∀ c ∈ name.toList, c ∉ marks := fun c hc => not_mem_marks (h.2 c hc)
  obtain ⟨c, more, hcons, hname⟩ := h.exists_toList_eq_cons
  have hblank : c ≠ ' ' := by
    rintro rfl
    cases hname
  rw [hcons] at hmarks ⊢
  obtain ⟨hc, hmore⟩ := List.forall_mem_cons.mp hmarks
  refine .first hmargin (ofClosing?_eq_none hc) ?_
  rw [step_of_not_mem_marks hc fun _ => hblank]
  exact reads_plain hmore

/-- Whether a quotation goes on behind each of these characters, none of which is
a line break. -/
def staysInside : Quoting → List Char → Bool
  | .outside, _ => false
  | .inside, [] => true
  | .escaped, [] => false
  | quoting, c :: rest => c != '\n' && staysInside (quoting.step c) rest

theorem reads_inside {quoting : Quoting} {text : List Char} (h : staysInside quoting text = true) :
    Reads ⟨quoting, openers, margin, false⟩ text ⟨.inside, openers, margin, false⟩ := by
  induction text generalizing quoting with
  | nil =>
      cases quoting <;> cases h
      exact .nil _
  | cons c more ih =>
      have hinside : quoting ≠ .outside ∧ c ≠ '\n' ∧ staysInside (quoting.step c) more = true := by
        cases quoting <;> simp_all [staysInside]
      obtain ⟨hquoting, hnewline, hmore⟩ := hinside
      have hstep : Reading.step ⟨quoting, openers, margin, false⟩ c =
          ⟨quoting.step c, openers, margin, false⟩ := by
        cases quoting <;> simp_all [Reading.step, Reading.openersBehind]
      refine .cons nofun ?_
      rw [hstep]
      exact ih hmore

theorem staysInside_escape (c : Char) : staysInside .inside (escape c) = true := by
  have hall : escapedChars.all (fun c => staysInside .inside (escape c)) = true := by decide
  rcases escape_cases c with hescaped | ⟨hself, hquote, hslash, hnewline⟩
  · exact List.all_eq_true.mp hall c hescaped
  · simp [hself, staysInside, Quoting.step, hquote, hslash, hnewline]

theorem reads_quote (text : String) (hmargin : margin = 4 * openers.length) :
    Reads ⟨.outside, openers, margin, inMargin⟩ (quote text).toList
      ⟨.outside, openers, margin, false⟩ := by
  have hinside (text : List Char) : Reads ⟨.inside, openers, margin, false⟩ (text.flatMap escape)
      ⟨.inside, openers, margin, false⟩ := by
    induction text with
    | nil => exact .nil _
    | cons c more ih => exact (reads_inside (staysInside_escape c)).append ih
  have hend : Reads ⟨.inside, openers, margin, false⟩ ['\"'] ⟨.outside, openers, margin, false⟩ :=
    .cons nofun (.nil _)
  rw [toList_quote]
  refine .first hmargin rfl ?_
  have hstep : Reading.step ⟨.outside, openers, margin, inMargin⟩ '\"' =
      ⟨.inside, openers, margin, false⟩ := by
    simp [Reading.step, Reading.openersBehind, Bracket.ofOpening?, Bracket.ofClosing?, Quoting.step]
  rw [hstep]
  exact (hinside text.toList).append hend

theorem reads_opening (bracket : Bracket) (hmargin : margin = 4 * openers.length)
    (hbrace : bracket = .brace → inMargin = false) :
    Reads ⟨.outside, openers, margin, inMargin⟩ bracket.opening.toList
      ⟨.outside, ⟨bracket, margin⟩ :: openers, margin, false⟩ := by
  cases bracket with
  | brace =>
      cases hbrace rfl
      exact .cons nofun (.cons nofun (.nil _))
  | paren =>
      refine .first hmargin rfl ?_
      cases inMargin <;> exact .nil _
  | square =>
      refine .first hmargin rfl ?_
      cases inMargin <;> exact .nil _

theorem reads_closing (bracket : Bracket) (hmargin : margin = 4 * openers.length) :
    Reads ⟨.outside, ⟨bracket, margin⟩ :: openers, margin, inMargin⟩ bracket.closing.toList
      ⟨.outside, openers, margin, false⟩ := by
  cases bracket <;> cases inMargin <;>
    exact .cons (fun _ _ => ⟨rfl, openers, rfl, hmargin⟩) (.nil _)

theorem reads_break :
    Reads ⟨.outside, openers, margin, false⟩ ['\n'] ⟨.outside, openers, 0, true⟩ :=
  .cons nofun (.nil _)

theorem reads_blanks (count : Nat) :
    Reads ⟨.outside, openers, margin, true⟩ (List.replicate count ' ')
      ⟨.outside, openers, margin + count, true⟩ := by
  induction count generalizing margin with
  | zero => exact .nil _
  | succ count ih =>
      refine .cons (fun _ hblank => absurd rfl hblank) ?_
      rw [Nat.add_comm count, ← Nat.add_assoc]
      exact ih

end

namespace Document

theorem reads_indent {openers : List Opener} (depth : Nat) :
    Reads ⟨.outside, openers, 0, true⟩ (indent depth).toList
      ⟨.outside, openers, 4 * depth, true⟩ := by
  have hblanks : Reads ⟨.outside, openers, 0, true⟩ _ ⟨.outside, openers, 0 + _, true⟩ :=
    reads_blanks (4 * depth)
  rw [Nat.zero_add] at hblanks
  rwa [indent, String.toList_ofList]

/-- Each entry begins and ends a line. -/
theorem reads_prettyEntries {entries : List Document} {openers : List Opener}
    (h : ∀ entry ∈ entries, Reads ⟨.outside, openers, 4 * openers.length, true⟩
      (entry.pretty openers.length).toList ⟨.outside, openers, 4 * openers.length, false⟩) :
    Reads ⟨.outside, openers, 0, true⟩ (prettyEntries openers.length entries).toList
      ⟨.outside, openers, 0, true⟩ := by
  induction entries with
  | nil => exact .nil _
  | cons entry more ih =>
      obtain ⟨hentry, hmore⟩ := List.forall_mem_cons.mp h
      simp only [prettyEntries, String.toList_append]
      have hcomma : Reads ⟨.outside, openers, 4 * openers.length, false⟩ ",\n".toList
          ⟨.outside, openers, 0, true⟩ := .cons nofun reads_break
      exact (((reads_indent _).append hentry).append hcomma).append (ih hmore)

/-- A pretty text keeps the indentation, wherever on a line it begins. By induction
on the document. -/
theorem WellNamed.reads_pretty {document : Document} (h : document.WellNamed)
    (openers : List Opener) (inMargin : Bool) :
    Reads ⟨.outside, openers, 4 * openers.length, inMargin⟩
      (document.pretty openers.length).toList ⟨.outside, openers, 4 * openers.length, false⟩ := by
  induction h generalizing openers inMargin with
  | word htext => exact reads_name htext rfl
  | quoted text => exact reads_quote text rfl
  | labelled hlabel hvalue ih =>
      simp only [pretty, String.toList_append]
      have hcolon : ∀ c ∈ ": ".toList, c ∉ marks := by simp [marks]
      exact ((reads_name hlabel rfl).append (reads_plain hcolon)).append (ih openers false)
  | @group name entries bracket hname hentries ih =>
      have hopening : Reads ⟨.outside, openers, 4 * openers.length, inMargin⟩
          (name.toList ++ bracket.opening.toList)
          ⟨.outside, ⟨bracket, 4 * openers.length⟩ :: openers, 4 * openers.length, false⟩ := by
        rcases hname with hname | ⟨rfl, rfl⟩
        · exact (reads_name hname rfl).append (reads_opening bracket rfl fun _ => rfl)
        · exact reads_opening .square rfl nofun
      -- The entries stand inside one bracket more, and the indentation in front of the
      -- closing bracket is that of the line that the opening one stands on.
      cases entries with
      | nil =>
          simp only [pretty, String.toList_append]
          exact hopening.append (reads_closing bracket rfl)
      | cons first more =>
          have hinside := reads_prettyEntries fun entry hentry =>
            ih entry hentry (⟨bracket, 4 * openers.length⟩ :: openers) true
          simp only [pretty, String.toList_append]
          exact (((hopening.append reads_break).append hinside).append (reads_indent _)).append
            (reads_closing bracket rfl)

theorem WellNamed.isIndented_pretty {document : Document} (h : document.WellNamed) :
    IsIndented (document.pretty 0).toList :=
  (h.reads_pretty [] true).isIndented rfl

end Document

end ClassLang.Dump
