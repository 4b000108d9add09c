import ClassLang.Proofs.Acceptance
import ClassLang.Proofs.Parallel

/-!
One source behind another. A source that compiles ends with a brace and white
space, so nothing of it goes on into what is put behind. Its classes then come
before those of the other source, or what is wrong with that one is reported
where it stands now.
-/

namespace ClassLang

open Grammar LexicalRule Text
open Rule (ReadInTurn classWithin maxNesting)

/-- Classes end with a brace. -/
theorem getLast?_of_isSequence_isClass {phrase : Phrase} {classes : List ClassDecl}
    (h : IsSequence IsClass phrase classes) {kind : TokenKind}
    (hlast : phrase.getLast? = some kind) : kind = .separator .closeBrace := by
  induction h with
  | nil => cases hlast
  | @cons first rest _ _ head _ ih =>
      obtain ⟨name, _, _⟩ := head
      cases hrest : rest.getLast? with
      | some kind' =>
          rw [List.getLast?_append, hrest, Option.some_or] at hlast
          exact ih (hrest.trans hlast)
      | none =>
          rw [List.getLast?_eq_none_iff.mp hrest, List.append_nil] at hlast
          simpa [Phrase.inBraces, List.getLast?_cons, eq_comm] using hlast

theorem getLast?_tokens_of_parse {tokens : List Token} {program : Program}
    (h : parse tokens = .ok program) {token : Token} (hlast : tokens.getLast? = some token) :
    token.kind = .separator .closeBrace := by
  cases isProgram_of_parse h with
  | program hclasses _ =>
      apply getLast?_of_isSequence_isClass hclasses
      rw [kinds, List.getLast?_map, hlast]
      rfl

/-- What a source without mistakes ends with: white space, or its last token. -/
theorem last_char_of_scan {source : String} (hreports : (scan source).diagnostics = []) {c : Char}
    (hc : source.toList.getLast? = some c) :
    isBlank c = true ∨
      ∃ token before text, (scan source).tokens.getLast? = some token ∧
        token.kind.IsWritten before text [] ∧ text.getLast? = some c := by
  have hpartition := isPartition_layOut source.toList
  generalize hpieces : PlacedPiece.layOut 0 (Piece.all source.toList) = pieces at hpartition
  have hscan : scan source = .ofPlaced pieces := congrArg Scan.ofPlaced hpieces
  rw [hscan] at hreports ⊢
  rcases pieces.eq_nil_or_concat with rfl | ⟨earlier, ⟨⟨text, lexeme⟩, offset⟩, rfl⟩
  · rw [← hpartition.covers] at hc
    cases hc
  · rw [List.concat_eq_append] at hpartition hreports ⊢
    have hfits := hpartition.fits earlier _ [] rfl
    have hne := hpartition.ne_nil ⟨⟨text, lexeme⟩, offset⟩ (by simp)
    have hlast : text.getLast? = some c := by
      rw [← hpartition.covers, List.flatMap_append, List.flatMap_singleton, List.getLast?_append,
        List.getLast?_eq_some_getLast hne, Option.some_or] at hc
      rw [List.getLast?_eq_some_getLast hne, hc]
    cases lexeme with
    | blank => exact .inl (hfits.inside c (List.mem_of_getLast? hlast))
    | malformed error =>
        simp [Scan.ofPlaced, PlacedPiece.diagnostic?, Lexeme.error?] at hreports
    | token kind =>
        refine .inr ⟨⟨kind, offset⟩, _, text, ?_, hfits, hlast⟩
        simp [Scan.ofPlaced, PlacedPiece.token?, Lexeme.kind?]

theorem isBoundary_of_compile {first : String} {program : Program}
    (h : compile first = .ok program) (after : List Char) : IsBoundary first.toList after := by
  obtain ⟨hreports, hparse⟩ := compile_ok_iff.mp h
  intro c d hc hd
  rcases last_char_of_scan hreports hc with hblank | ⟨token, before, text, hlast, hwritten, htext⟩
  · exact IsBoundary.of_blank (.inl ⟨c, hc, hblank⟩) c d hc hd
  · rw [getLast?_tokens_of_parse hparse hlast] at hwritten
    have hbrace : String.ofList text = "\x7d" := hwritten
    have hc' : ['}'].getLast? = some c := by
      rw [← htext, ← String.toList_ofList (l := text), hbrace]
      rfl
    obtain rfl : '}' = c := Option.some.inj hc'
    have hmarks : ∀ mark ∈ joinedMarks, mark.head? ≠ some '}' := by decide
    exact ⟨fun hwords => absurd hwords.1 (by decide), fun hmark => hmarks _ hmark rfl⟩

/-- Only white space leaves nothing in a scan. -/
theorem scan_eq_empty_iff {source : String} :
    scan source = ⟨[], []⟩ ↔ ∀ c ∈ source.toList, isBlank c = true := by
  constructor
  · intro hempty c hc
    have hpartition := isPartition_layOut source.toList
    rw [← hpartition.covers] at hc
    obtain ⟨placed, hplaced, hmem⟩ := List.mem_flatMap.mp hc
    obtain ⟨before, after, hsplit⟩ := List.append_of_mem hplaced
    have hfits := hpartition.fits before placed after hsplit
    obtain ⟨htokens, hreports⟩ := Scan.mk.inj hempty
    have htoken := List.filterMap_eq_nil_iff.mp htokens placed hplaced
    have hreport := List.filterMap_eq_nil_iff.mp hreports placed hplaced
    obtain ⟨⟨text, lexeme⟩, offset⟩ := placed
    cases lexeme with
    | blank => exact hfits.inside c hmem
    | token kind => cases htoken
    | malformed error => cases hreport
  · intro hblank
    have hgap := Scan.ofText_blanks hblank 0 []
    rwa [List.append_nil] at hgap

theorem Scan.matches_shift (scan : Scan) (bytes : Nat) :
    scan.Matches (fun offset offset' => offset' = offset + bytes) (scan.shift bytes) where
  tokens := List.forall₂_map_right_iff.mpr (List.forall₂_same.mpr fun _ _ => ⟨rfl, rfl⟩)
  diagnostics := List.forall₂_map_right_iff.mpr (List.forall₂_same.mpr fun _ _ => ⟨rfl, rfl⟩)

theorem eq_map_shift_of_matches {bytes : Nat} {reports reports' : List Diagnostic}
    (h : List.Forall₂ (Diagnostic.Matches fun offset offset' => offset' = offset + bytes) reports
      reports') : reports' = reports.map (·.shift bytes) := by
  induction h with
  | nil => rfl
  | @cons report report' _ _ head _ ih =>
      obtain ⟨hmessage, hoffset⟩ := head
      obtain ⟨message, offset⟩ := report'
      subst hmessage hoffset
      rw [List.map_cons, ← ih]
      rfl

section Behind

variable {first second : String} {program : Program} (h : compile first = .ok program)

include h

theorem scan_append_of_compile (second : String) :
    scan (first ++ second) =
      ⟨(scan first).tokens, []⟩ ++ (scan second).shift first.utf8ByteSize := by
  obtain ⟨hreports, _⟩ := compile_ok_iff.mp h
  rw [scan_append_of_isBoundary (isBoundary_of_compile h second.toList), ← hreports]

theorem compile_append_of_blank (hblank : ∀ c ∈ second.toList, isBlank c = true) :
    compile (first ++ second) = .ok program := by
  obtain ⟨_, hparse⟩ := compile_ok_iff.mp h
  have htokens : (⟨(scan first).tokens, []⟩ ++ Scan.shift ⟨[], []⟩ first.utf8ByteSize : Scan) =
      ⟨(scan first).tokens, []⟩ := congrArg (Scan.mk · []) (List.append_nil _)
  refine compile_ok_iff.mpr ?_
  rw [scan_append_of_compile h, scan_eq_empty_iff.mpr hblank, htokens]
  exact ⟨rfl, hparse⟩

/-- The classes of the first source are read, and the second follows. -/
theorem compile_append_cases (hsome : scan second ≠ ⟨[], []⟩) :
    (∃ other, compile second = .ok other ∧
        compile (first ++ second) = .ok ⟨program.classes ++ other.classes⟩) ∨
      ∃ reports, compile second = .error reports ∧
        compile (first ++ second) = .error (reports.map (·.shift first.utf8ByteSize)) := by
  obtain ⟨_, hparse⟩ := compile_ok_iff.mp h
  obtain ⟨_, hread⟩ := parse_ok_iff.mp hparse
  rw [compile_eq, compile_eq, scan_append_of_compile h]
  have hmatches := (scan second).matches_shift first.utf8ByteSize
  rcases hmatches.outcome_append hsome hread with
    hok | ⟨reports, reports', hsecond, hwhole, hmatch⟩
  · exact .inl hok
  · rw [eq_map_shift_of_matches hmatch] at hwhole
    exact .inr ⟨reports, hsecond, hwhole⟩

end Behind

/-- What is put behind a source that compiles adds its classes to those there;
if it is white space, it adds nothing; and if it has mistakes, they are reported
as they would be without that source, only further on. -/
theorem compile_append (first second : String) (program : Program)
    (h : compile first = .ok program) :
    (∀ other, compile second = .ok other →
        compile (first ++ second) = .ok ⟨program.classes ++ other.classes⟩) ∧
      ((∀ c ∈ second.toList, isBlank c = true) → compile (first ++ second) = .ok program) ∧
      ((∀ other, compile second ≠ .ok other) → (∃ c ∈ second.toList, isBlank c = false) →
        ∃ diagnostics, compile second = .error diagnostics ∧
          compile (first ++ second) =
            .error (diagnostics.map (·.shift first.utf8ByteSize))) := by
  refine ⟨fun other hother => ?_, compile_append_of_blank h, fun hfails ⟨c, hc, hchar⟩ => ?_⟩
  · have hsome : scan second ≠ ⟨[], []⟩ := by
      intro hempty
      rw [compile_eq, hempty] at hother
      cases hother
    rcases compile_append_cases h hsome with ⟨other', hother', hwhole⟩ | ⟨reports, hreports, _⟩
    · rw [hother] at hother'
      rw [hwhole, Except.ok.inj hother']
    · rw [hother] at hreports
      cases hreports
  · have hsome : scan second ≠ ⟨[], []⟩ := by
      intro hempty
      rw [scan_eq_empty_iff.mp hempty c hc] at hchar
      cases hchar
    exact (compile_append_cases h hsome).resolve_left fun ⟨other, hother, _⟩ => hfails other hother

/-- Behind `class A{}`: another class, a class of which the brace is missing, and
a character that begins nothing. -/
theorem compile_append_mistakes :
    compile "class A\x7b\x7d" = .ok ⟨[⟨"A", none, []⟩]⟩ ∧
      compile ("class A\x7b\x7d" ++ "class B\x7b\x7d") = .ok ⟨[⟨"A", none, []⟩, ⟨"B", none, []⟩]⟩ ∧
      compile ("class A\x7b\x7d" ++ "class B;") =
        .error [⟨(Fault.mismatch (.separator .openBrace) (.separator .semicolon)).message, 16⟩] ∧
      compile ("class A\x7b\x7d" ++ "#") =
        .error [⟨(LexicalError.unexpectedCharacter '#').message, 9⟩] := by
  have hclass (name : String) (source : String)
      (hscan : scan source =
        ⟨[⟨.keyword .classKw, 0⟩, ⟨.identifier name, 6⟩, ⟨.separator .openBrace, 7⟩,
          ⟨.separator .closeBrace, 8⟩], []⟩) :
      compile source = .ok ⟨[⟨name, none, []⟩]⟩ := by
    rw [compile_eq, hscan]
    rfl
  have hfirst := hclass "A" "class A\x7b\x7d" rfl
  have hbrace : compile "class B;" =
      .error [⟨(Fault.mismatch (.separator .openBrace) (.separator .semicolon)).message, 7⟩] := by
    have hscan : scan "class B;" =
        ⟨[⟨.keyword .classKw, 0⟩, ⟨.identifier "B", 6⟩, ⟨.separator .semicolon, 7⟩], []⟩ := rfl
    rw [compile_eq, hscan]
    rfl
  have hmark : compile "#" = .error [⟨(LexicalError.unexpectedCharacter '#').message, 0⟩] := by
    have hscan : scan "#" = ⟨[], [⟨(LexicalError.unexpectedCharacter '#').message, 0⟩]⟩ := rfl
    rw [compile_eq, hscan]
    rfl
  have hbehind := compile_append "class A\x7b\x7d"
  have hwrong (second : String) (reports : List Diagnostic)
      (hreports : compile second = .error reports)
      (hchar : ∃ c ∈ second.toList, isBlank c = false) :
      compile ("class A\x7b\x7d" ++ second) = .error (reports.map (·.shift 9)) := by
    obtain ⟨reports', hreports', hwhole⟩ := (hbehind second _ hfirst).2.2 (by simp [hreports]) hchar
    rw [hreports] at hreports'
    rw [hwhole, Except.error.inj hreports']
    rfl
  exact ⟨hfirst, (hbehind "class B\x7b\x7d" _ hfirst).1 _ (hclass "B" _ rfl),
    hwrong _ _ hbrace ⟨'B', by decide, by decide⟩, hwrong _ _ hmark ⟨'#', by decide, by decide⟩⟩

end ClassLang
