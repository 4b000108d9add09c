import ClassLang.Proofs.Lines
import ClassLang.Proofs.Parallel

/-!
Diagnostics as they are rendered. Whatever is reported about a source, save
that it has no class at all, is reported at a character that is no white space:
a lexical error where its piece begins, a syntax error at a token. No message
has a newline in it, since what it quotes of the source is a word or a mark. So
each rendering has three lines, and its caret stands below that character.
-/

namespace ClassLang

open LexicalRule Text
open Rule (ReadInTurn)

def IsOneLine (text : String) : Prop := '\n' ∉ text.toList

instance (text : String) : Decidable (IsOneLine text) := inferInstanceAs (Decidable (_ ∉ _))

theorem isOneLine_append {first second : String} :
    IsOneLine (first ++ second) ↔ IsOneLine first ∧ IsOneLine second := by
  unfold IsOneLine
  rw [String.toList_append, List.mem_append, not_or]

theorem isOneLine_ofList {word : List Char} (h : ∀ c ∈ word, isWordChar c = true) :
    IsOneLine (String.ofList word) := by
  unfold IsOneLine
  rw [String.toList_ofList]
  intro hmem
  exact absurd (h _ hmem) (by decide)

theorem isOneLine_repr (n : Nat) : IsOneLine n.repr := by
  rw [Nat.repr_eq_ofList_toDigits]
  apply isOneLine_ofList
  intro c hc
  apply isWordChar_of_isAlphanum
  exact isAlphanum_of_isDigit (Nat.isDigit_of_mem_toDigits (by decide) (by decide) hc)

section Messages

/-- Only a name could bring a newline into a spelling. -/
theorem TokenKind.isOneLine_spelling {kind : TokenKind}
    (h : ∀ name, kind = .identifier name → IsOneLine name) : IsOneLine kind.spelling := by
  cases kind with
  | identifier name => exact h name rfl
  | keyword word => cases word <;> decide
  | separator mark => cases mark <;> decide
  | typeName name => cases name <;> decide
  | operator symbol => cases symbol <;> decide
  | literal value =>
      cases value with
      | bool value => cases value <;> decide
      | int value =>
          change IsOneLine value.toInt.repr
          cases value.toInt with
          | ofNat n => exact isOneLine_repr n
          | negSucc n => exact isOneLine_append.mpr ⟨by decide, isOneLine_repr (n + 1)⟩

theorem TokenKind.isOneLine_description {kind : TokenKind} (h : IsOneLine kind.spelling) :
    IsOneLine kind.description := by
  have hclass : IsOneLine kind.className := by
    unfold className
    split <;> decide
  unfold description
  simp only [isOneLine_append, and_assoc]
  exact ⟨hclass, by decide, h, by decide⟩

theorem Expectation.isOneLine_description (expected : Expectation) :
    IsOneLine expected.description := by
  have hkind {kind : TokenKind} (h : ∀ name, kind ≠ .identifier name) :
      IsOneLine kind.description :=
    TokenKind.isOneLine_description (TokenKind.isOneLine_spelling fun name hname =>
      absurd hname (h name))
  cases expected with
  | keyword word => exact hkind (by simp)
  | separator mark => exact hkind (by simp)
  | identifier | type | classMember | statement | expression =>
      unfold description
      decide

/-- The token that a fault names. -/
def Fault.found? : Fault → Option TokenKind
  | .mismatch _ found | .unexpectedMember found | .unexpectedExpression found => some found
  | .endOfTokens _ | .emptyProgram | .nestingTooDeep _ => none

theorem Fault.isOneLine_message {fault : Fault}
    (h : ∀ kind, fault.found? = some kind → IsOneLine kind.spelling) :
    IsOneLine fault.message := by
  have hfound {kind : TokenKind} (hkind : fault.found? = some kind) : IsOneLine kind.description :=
    TokenKind.isOneLine_description (h kind hkind)
  unfold message
  cases fault with
  | mismatch expected found =>
      simp only [isOneLine_append, and_assoc]
      exact ⟨by decide, expected.isOneLine_description, by decide, hfound rfl⟩
  | endOfTokens expected =>
      simp only [isOneLine_append, and_assoc]
      exact ⟨by decide, expected.isOneLine_description, by decide⟩
  | unexpectedMember found | unexpectedExpression found =>
      rw [isOneLine_append]
      exact ⟨by decide, hfound rfl⟩
  | emptyProgram => decide
  | nestingTooDeep max =>
      simp only [isOneLine_append, and_assoc]
      exact ⟨by decide, isOneLine_repr max, by decide⟩

theorem LexicalError.Fits.isOneLine_message {before text after : List Char} {error : LexicalError}
    (h : error.Fits before text after) : IsOneLine error.message := by
  unfold LexicalError.message
  cases error with
  | illegalIdentifier found =>
      obtain ⟨rfl, digits, first, rest, rfl, _, hdigits, hfirst, hrest, _⟩ := h
      simp only [isOneLine_append, and_assoc]
      refine ⟨by decide, isOneLine_ofList ?_, by decide⟩
      intro c hc
      rcases List.mem_append.mp hc with hc | hc
      · exact isWordChar_of_isAlphanum (isAlphanum_of_isDigit (hdigits c hc))
      · rcases List.mem_cons.mp hc with rfl | hc
        · rcases hfirst with halpha | rfl
          · exact isWordChar_of_isAlphanum (isAlphanum_of_isAlpha halpha)
          · decide
        · exact hrest c hc
  | integerOutOfRange found =>
      obtain ⟨rfl, hrun, _⟩ := h
      simp only [isOneLine_append, and_assoc]
      refine ⟨by decide, isOneLine_ofList ?_, by decide⟩
      intro c hc
      exact isWordChar_of_isAlphanum (isAlphanum_of_isDigit (hrun.inside c hc))
  | unexpectedCharacter c =>
      obtain ⟨rfl, hblank, _⟩ := h
      simp only [isOneLine_append, and_assoc]
      refine ⟨by decide, ?_, by decide⟩
      intro hmem
      have hmem' : '\n' ∈ (String.singleton c).toList := hmem
      rw [String.toList_singleton, List.mem_singleton] at hmem'
      subst hmem'
      cases hblank

theorem Fault.Fits.exists_token {fault : Fault} {rest : List Token} (h : fault.Fits rest)
    {kind : TokenKind} (hkind : fault.found? = some kind) : ∃ token ∈ rest, token.kind = kind := by
  have hhead : rest.head?.map Token.kind = some kind := by
    cases fault with
    | mismatch expected found => exact h.1.trans hkind
    | unexpectedMember found => exact h.trans hkind
    | unexpectedExpression found => exact h.trans hkind
    | endOfTokens expected => cases hkind
    | emptyProgram => cases hkind
    | nestingTooDeep max => cases hkind
  obtain ⟨token, htoken, rfl⟩ := Option.map_eq_some_iff.mp hhead
  exact ⟨token, List.mem_of_head? htoken, rfl⟩

end Messages

section Places

/-- A byte of a text at which a character begins that is no white space. -/
def IsMark (text : List Char) (offset : Nat) : Prop :=
  ∃ before c after, text = before ++ c :: after ∧ offset = byteLength before ∧ isBlank c = false

variable {source : String}

theorem isMark_of_mem_scan {offset : Nat}
    (h : offset ∈ (scan source).tokens.map Token.offset ++
      (scan source).diagnostics.map Diagnostic.offset) : IsMark source.toList offset := by
  have hmark := (PlacedPiece.offsets_perm_marks _).mem_iff.mp h
  exact (isPartition_layOut source.toList).exists_char_of_mark hmark

theorem isMark_of_token {token : Token} (h : token ∈ (scan source).tokens) :
    IsMark source.toList token.offset :=
  isMark_of_mem_scan (List.mem_append_left _ (List.mem_map_of_mem h))

theorem isMark_of_diagnostic {report : Diagnostic} (h : report ∈ (scan source).diagnostics) :
    IsMark source.toList report.offset :=
  isMark_of_mem_scan (List.mem_append_right _ (List.mem_map_of_mem h))

/-- Every piece of a scan fits somewhere in the source. -/
theorem exists_fits_of_mem {placed : PlacedPiece}
    (h : placed ∈ PlacedPiece.layOut 0 (Piece.all source.toList)) :
    ∃ before after, placed.piece.lexeme.Fits before placed.piece.text after := by
  obtain ⟨before, after, hsplit⟩ := List.append_of_mem h
  exact ⟨_, _, (isPartition_layOut source.toList).fits before placed after hsplit⟩

theorem isOneLine_of_token {token : Token} (h : token ∈ (scan source).tokens) :
    IsOneLine token.kind.spelling := by
  obtain ⟨⟨⟨text, lexeme⟩, offset⟩, hplaced, htoken⟩ := List.mem_filterMap.mp h
  obtain ⟨before, after, hfits⟩ := exists_fits_of_mem hplaced
  apply TokenKind.isOneLine_spelling
  intro name hname
  cases lexeme with
  | blank => cases htoken
  | malformed error => cases htoken
  | token kind =>
      obtain rfl := Option.some.inj htoken
      obtain rfl : kind = .identifier name := hname
      obtain ⟨hspelled, first, rest, htext, halpha, hrest⟩ :
        (TokenKind.identifier name).IsWritten before text after := hfits
      rw [← hspelled, htext]
      apply isOneLine_ofList
      intro c hc
      rcases List.mem_cons.mp hc with rfl | hc
      · exact isWordChar_of_isAlphanum (isAlphanum_of_isAlpha halpha)
      · exact isWordChar_of_isAlphanum (hrest c hc)

theorem isOneLine_of_diagnostic {report : Diagnostic} (h : report ∈ (scan source).diagnostics) :
    IsOneLine report.message := by
  obtain ⟨⟨⟨text, lexeme⟩, offset⟩, hplaced, hreport⟩ := List.mem_filterMap.mp h
  obtain ⟨before, after, hfits⟩ := exists_fits_of_mem hplaced
  cases lexeme with
  | blank => cases hreport
  | token kind => cases hreport
  | malformed error =>
      obtain rfl := Option.some.inj hreport
      exact LexicalError.Fits.isOneLine_message hfits

theorem eq_of_emptyProgram {tokens : List Token} {error : SyntaxError}
    (h : parse tokens = .error error) (hfault : error.fault = .emptyProgram) :
    error = ⟨.emptyProgram, 0⟩ := by
  cases tokens with
  | nil => exact (Except.error.inj h).symm
  | cons token rest =>
      obtain ⟨thrown, _, hrun, rfl⟩ := parse_error h
      have hsees := Rule.seesAt_programWithin Rule.maxNesting (List.cons_ne_nil token rest)
      exact absurd hfault (hsees.of_error hrun).1

/-- Where there are tokens, a syntax error is reported at one of them. -/
theorem exists_token_of_parse_error {tokens : List Token} {error : SyntaxError}
    (h : parse tokens = .error error) (hfault : error.fault ≠ .emptyProgram) :
    ∃ token ∈ tokens, error.offset = token.offset := by
  have hne : tokens ≠ [] := by
    rintro rfl
    have herror : (⟨.emptyProgram, 0⟩ : SyntaxError) = error := Except.error.inj h
    exact hfault (congrArg SyntaxError.fault herror.symm)
  -- Where an error is reported is known for classes in front of other tokens. Here
  -- there are no classes.
  have hbefore : ReadInTurn (Rule.classWithin Rule.maxNesting) [] [] [] := .nil []
  obtain ⟨token, _, hzip, hoffset, _⟩ := parse_append_error hbefore rfl hne h
  exact ⟨token, (List.of_mem_zip hzip).1, hoffset⟩

theorem isOneLine_of_parse_error {error : SyntaxError}
    (h : parse (scan source).tokens = .error error) : IsOneLine error.message := by
  obtain ⟨thrown, rest, hrun, rfl⟩ := parse_error h
  obtain ⟨hfits, taken, htokens, _⟩ := (Rule.reads_programWithin Rule.maxNesting _).of_error hrun
  apply Fault.isOneLine_message
  intro kind hkind
  obtain ⟨token, htoken, rfl⟩ := hfits.fault.exists_token hkind
  have hmem : token ∈ (scan source).tokens := by
    rw [htokens]
    exact List.mem_append_right _ htoken
  exact isOneLine_of_token hmem

theorem isMark_of_compile {reports : List Diagnostic} (h : compile source = .error reports)
    {report : Diagnostic} (hreport : report ∈ reports)
    (hclass : report ≠ ⟨Fault.emptyProgram.message, 0⟩) :
    IsMark source.toList report.offset ∧ IsOneLine report.message := by
  rcases compile_error_iff.mp h with ⟨_, rfl⟩ | ⟨_, error, hparse, rfl⟩
  · exact ⟨isMark_of_diagnostic hreport, isOneLine_of_diagnostic hreport⟩
  · obtain rfl := List.mem_singleton.mp hreport
    refine ⟨?_, isOneLine_of_parse_error hparse⟩
    have hfault : error.fault ≠ .emptyProgram := by
      intro hempty
      rw [eq_of_emptyProgram hparse hempty] at hclass
      exact hclass rfl
    obtain ⟨token, htoken, hoffset⟩ := exists_token_of_parse_error hparse hfault
    change IsMark _ error.offset
    rw [hoffset]
    exact isMark_of_token htoken

end Places

/-- Place and message, the first line of a rendering. -/
def Diagnostic.header (report : Diagnostic) (line column : Nat) : String :=
  s!"error:{line}:{column}: {report.message}"

theorem Diagnostic.isOneLine_header {report : Diagnostic} (h : IsOneLine report.message)
    (line column : Nat) : IsOneLine (report.header line column) := by
  unfold header
  simp only [isOneLine_append, and_assoc]
  exact ⟨by decide, isOneLine_repr line, by decide, isOneLine_repr column, by decide, h⟩

/-- The three lines of a rendering, when the place of the diagnostic is known. -/
theorem toList_render {report : Diagnostic} {source : String} {above left right below : List Char}
    {c : Char} (hline : IsLine source.toList above (left ++ c :: right) below)
    (hoffset : report.offset = byteLength (above ++ left)) :
    (report.render source).toList =
      (report.header (above.count '\n' + 1) (left.length + 1)).toList ++
        '\n' :: (' ' :: ' ' :: (left ++ c :: right) ++
          '\n' :: (List.replicate (left.length + 2) ' ' ++ ['^'])) := by
  have hleft : '\n' ∉ left := fun hmem => hline.inside (List.mem_append_left _ hmem)
  have hlocation : report.location source = ⟨above.count '\n' + 1, left.length + 1⟩ := by
    have hcovers : source.toList = above ++ left ++ (c :: right ++ below) := by
      rw [hline.covers]
      simp
    unfold Diagnostic.location
    rw [hcovers, hoffset, Location.ofOffset_eq hline.above hleft]
  have hindent : (toString "\n  ").toList = ['\n', ' ', ' '] := rfl
  have hcaret : (toString "^").toList = ['^'] := rfl
  have htext (text : List Char) : (toString (String.ofList text)).toList = text :=
    String.toList_ofList
  unfold Diagnostic.render Diagnostic.header
  rw [hlocation]
  simp only [hline.lineText_eq, String.toList_append, hindent, hcaret, htext, Nat.add_sub_cancel,
    List.append_assoc, List.cons_append, List.nil_append, List.replicate_succ]

/-- What is reported of a source is rendered in three lines: its place, counted
in lines and in characters, and the message; the line of the source at that
place; and a caret, right below the character that the report is about. Only
that there is no class is reported at no character. -/
theorem render_points_at_char (source : String) (reports : List Diagnostic)
    (h : compile source = .error reports) (report : Diagnostic) (hreport : report ∈ reports)
    (hclass : report ≠ ⟨Fault.emptyProgram.message, 0⟩) :
    ∃ above left c right below,
      IsLine source.toList above (left ++ c :: right) below ∧
      report.offset = byteLength (above ++ left) ∧ isBlank c = false ∧
      let header := (report.header (above.count '\n' + 1) (left.length + 1)).toList
      let shown := ' ' :: ' ' :: (left ++ c :: right)
      let caret := List.replicate (left.length + 2) ' ' ++ ['^']
      (report.render source).toList = header ++ '\n' :: (shown ++ '\n' :: caret) ∧
        (report.render source).toList.count '\n' = 2 ∧
        shown[left.length + 2]? = some c ∧ caret[left.length + 2]? = some '^' := by
  obtain ⟨⟨before, c, after, hsource, hoffset, hblank⟩, hmessage⟩ :=
    isMark_of_compile h hreport hclass
  have hnewline : c ≠ '\n' := by
    rintro rfl
    cases hblank
  have hreturn : c ≠ '\r' := by
    rintro rfl
    cases hblank
  obtain ⟨above, left, right, below, rfl, rfl, hline⟩ := exists_isLine before after hnewline hreturn
  rw [← hsource] at hline
  have hrender := toList_render hline hoffset
  refine ⟨above, left, c, right, below, hline, hoffset, hblank, hrender, ?_, ?_, ?_⟩
  · have hheader : '\n' ∉ (report.header (above.count '\n' + 1) (left.length + 1)).toList :=
      report.isOneLine_header hmessage _ _
    have hinside : '\n' ∉ ' ' :: ' ' :: (left ++ c :: right) := by simpa using hline.inside
    have hgap : '\n' ∉ List.replicate (left.length + 2) ' ' ++ ['^'] := by
      simp [List.mem_replicate]
    rw [hrender, List.count_append, List.count_eq_zero.mpr hheader, List.count_cons_self,
      List.count_append, List.count_eq_zero.mpr hinside, List.count_cons_self,
      List.count_eq_zero.mpr hgap]
  · simp
  · simp

/-- The missing brace is noticed below a line that ends in a carriage return and
a newline, and behind a no-break space of two bytes. -/
theorem render_points_at_char_indented :
    let source := "class A\r\n\u00a0;\r\n"
    let report : Diagnostic :=
      ⟨(Fault.mismatch (.separator .openBrace) (.separator .semicolon)).message, 11⟩
    compile source = .error [report] ∧
      report.render source =
        "error:2:2: expected separator `\x7b`, found separator `;`\n  \u00a0;\n   ^" ∧
      ∃ above left c right below, IsLine source.toList above (left ++ c :: right) below ∧
        11 = byteLength (above ++ left) ∧ (report.render source).toList.count '\n' = 2 := by
  have hscan : scan "class A\r\n\u00a0;\r\n" =
      ⟨[⟨.keyword .classKw, 0⟩, ⟨.identifier "A", 6⟩, ⟨.separator .semicolon, 11⟩], []⟩ := by rfl
  have hcompile : compile "class A\r\n\u00a0;\r\n" =
      .error [⟨(Fault.mismatch (.separator .openBrace) (.separator .semicolon)).message, 11⟩] := by
    rw [compile_eq, hscan]
    rfl
  obtain ⟨above, left, c, right, below, hline, hoffset, _, _, hcount, _⟩ :=
    render_points_at_char _ _ hcompile _ (List.mem_singleton_self _) (by decide)
  exact ⟨hcompile, by decide, above, left, c, right, below, hline, hoffset, hcount⟩

end ClassLang
