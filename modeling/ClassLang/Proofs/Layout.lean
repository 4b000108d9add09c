import ClassLang.Proofs.Parallel

/-!
Layout. White space divides a source into chunks, and nothing goes on from one
chunk to the next, so each is scanned as if it stood alone. How much white space
there is, and which, decides only where the chunks stand. Two sources of the same
chunks therefore have the same tokens and the same lexical errors, each at the
same place of its chunk, and from there on nothing tells them apart.
-/

namespace ClassLang

open LexicalRule Text
open Rule (ReadInTurn)

/-- A longest run of characters that are not white space, and the byte at which
it begins. -/
structure Chunk where
  text : List Char
  offset : Nat
deriving DecidableEq

namespace Chunk

/-- The chunk that a run makes up which ends here, if there is one. -/
def close (offset : Nat) : (run : List Char) → List Chunk
  | [] => []
  | c :: rest => [⟨c :: rest, offset⟩]

/-- The chunks of a text in front of which there is a run that has not ended and
that began at `offset`. -/
def allAfter (offset : Nat) (run : List Char) : List Char → List Chunk
  | [] => close offset run
  | c :: rest =>
      if isBlank c then
        close offset run ++ allAfter (offset + byteLength (run ++ [c])) [] rest
      else allAfter offset (run ++ [c]) rest

def all (source : String) : List Chunk := allAfter 0 [] source.toList

variable {offset : Nat} {run text : List Char} {chunk : Chunk}

theorem mem_close (h : chunk ∈ close offset run) : chunk = ⟨run, offset⟩ ∧ run ≠ [] := by
  cases run with
  | nil => cases h
  | cons c rest => exact ⟨List.mem_singleton.mp h, List.cons_ne_nil c rest⟩

theorem flatMap_close : (close offset run).flatMap Chunk.text = run := by
  cases run with
  | nil => rfl
  | cons c rest => exact List.append_nil _

theorem exists_isRun_of_allAfter (hrun : ∀ c ∈ run, isBlank c = false)
    (h : chunk ∈ allAfter offset run text) :
    ∃ before after, run ++ text = before ++ chunk.text ++ after ∧
      chunk.offset = offset + byteLength before ∧
      IsRun (fun c => !isBlank c) before chunk.text after := by
  induction text generalizing offset run with
  | nil =>
      obtain ⟨rfl, hne⟩ := mem_close h
      exact ⟨[], [], rfl, rfl, hne, by simpa using hrun, by simp, by simp⟩
  | cons c rest ih =>
      cases hc : isBlank c with
      | false =>
          rw [allAfter, hc, if_neg Bool.false_ne_true] at h
          have hmore : ∀ d ∈ run ++ [c], isBlank d = false := by
            intro d hd
            rcases List.mem_append.mp hd with hd | hd
            · exact hrun d hd
            · exact List.mem_singleton.mp hd ▸ hc
          rw [← List.singleton_append, ← List.append_assoc]
          exact ih hmore h
      | true =>
          rw [allAfter, hc, if_pos rfl] at h
          rcases List.mem_append.mp h with h | h
          · obtain ⟨rfl, hne⟩ := mem_close h
            exact ⟨[], c :: rest, rfl, rfl, hne, by simpa using hrun, by simp, by simpa using hc⟩
          · obtain ⟨before, after, hrest, hoffset, hwhole⟩ := ih (by simp) h
            refine ⟨run ++ [c] ++ before, after, ?_, ?_, hwhole.ne_nil, hwhole.inside, ?_,
              hwhole.right⟩
            · rw [List.nil_append] at hrest
              rw [hrest]
              simp
            · rw [hoffset, byteLength_append (run ++ [c]), Nat.add_assoc]
            · intro d hd
              rw [List.getLast?_append] at hd
              cases hlast : before.getLast? with
              | some e =>
                  rw [hlast, Option.some_or] at hd
                  exact hwhole.left d (hlast.trans hd)
              | none =>
                  rw [hlast, Option.none_or, List.getLast?_concat] at hd
                  obtain rfl := Option.some.inj hd
                  simp [hc]

theorem flatMap_text_allAfter :
    (allAfter offset run text).flatMap Chunk.text = run ++ text.filter (!isBlank ·) := by
  induction text generalizing offset run with
  | nil => rw [allAfter, flatMap_close, List.filter_nil, List.append_nil]
  | cons c rest ih =>
      cases hc : isBlank c with
      | false => simp [allAfter, hc, ih]
      | true => simp [allAfter, hc, ih, flatMap_close]

/-- A chunk is a run of the source that goes on to neither side, and nothing but
white space is left out of the chunks. -/
theorem isRun_of_mem_all (source : String) :
    (∀ chunk ∈ all source, ∃ before after, source.toList = before ++ chunk.text ++ after ∧
      chunk.offset = byteLength before ∧ IsRun (fun c => !isBlank c) before chunk.text after) ∧
      (all source).flatMap Chunk.text = source.toList.filter (!isBlank ·) := by
  refine ⟨fun chunk hchunk => ?_, flatMap_text_allAfter⟩
  obtain ⟨before, after, hsource, hoffset, hwhole⟩ := exists_isRun_of_allAfter (by simp) hchunk
  exact ⟨before, after, hsource, by rw [hoffset, Nat.zero_add], hwhole⟩

end Chunk

/-- Two offsets that point at the same byte of the same chunk. -/
def SamePlace (chunks chunks' : List Chunk) (offset offset' : Nat) : Prop :=
  ∃ (index byte : Nat) (chunk chunk' : Chunk),
    chunks[index]? = some chunk ∧ chunks'[index]? = some chunk' ∧
      byte < byteLength chunk.text ∧ offset = chunk.offset + byte ∧
      offset' = chunk'.offset + byte

namespace Scan

/-- Everything that is found in a text is found before its end. -/
theorem offset_lt_of_ofText (text : List Char) :
    (∀ token ∈ (ofText 0 text).tokens, token.offset < byteLength text) ∧
      ∀ report ∈ (ofText 0 text).diagnostics, report.offset < byteLength text := by
  have hmarks (offset : Nat)
      (h : offset ∈ (ofText 0 text).tokens.map Token.offset ++
        (ofText 0 text).diagnostics.map Diagnostic.offset) : offset < byteLength text := by
    have hmark := (PlacedPiece.offsets_perm_marks _).mem_iff.mp h
    obtain ⟨before, c, after, rfl, rfl, _⟩ := (isPartition_layOut text).exists_char_of_mark hmark
    have hpos := c.utf8Size_pos
    rw [byteLength_append, byteLength_cons]
    omega
  constructor
  · intro token htoken
    exact hmarks _ (List.mem_append_left _ (List.mem_map_of_mem htoken))
  · intro report hreport
    exact hmarks _ (List.mem_append_right _ (List.mem_map_of_mem hreport))

/-- The scan of a source that consists of these chunks. -/
def ofChunks : List Chunk → Scan
  | [] => ⟨[], []⟩
  | chunk :: rest => (ofText 0 chunk.text).shift chunk.offset ++ ofChunks rest

theorem ofChunks_append (first second : List Chunk) :
    ofChunks (first ++ second) = ofChunks first ++ ofChunks second := by
  induction first with
  | nil => rfl
  | cons chunk rest ih => rw [List.cons_append, ofChunks, ih, ofChunks, append_assoc]

theorem ofChunks_close (offset : Nat) (run : List Char) :
    ofChunks (Chunk.close offset run) = ofText offset run := by
  cases run with
  | nil => rfl
  | cons c rest =>
      rw [ofText_eq_shift]
      exact congrArg₂ Scan.mk (List.append_nil _) (List.append_nil _)

/-- Chunk by chunk. The text ends or goes on with white space where a chunk ends,
so there is a boundary. -/
theorem ofText_run_append (offset : Nat) (run text : List Char) :
    ofText offset (run ++ text) = ofChunks (Chunk.allAfter offset run text) := by
  induction text generalizing offset run with
  | nil => rw [List.append_nil, Chunk.allAfter, ofChunks_close]
  | cons c rest ih =>
      cases hc : isBlank c with
      | false =>
          rw [Chunk.allAfter, hc, if_neg Bool.false_ne_true, ← ih, List.append_assoc,
            List.singleton_append]
      | true =>
          have hboundary : IsBoundary run (c :: rest) := .of_blank (.inr ⟨c, rfl, hc⟩)
          have hblank : ∀ d ∈ [c], isBlank d = true := by simp [hc]
          have hskip := ofText_blanks hblank (offset + byteLength run) rest
          rw [Chunk.allAfter, hc, if_pos rfl, ofText_append hboundary, ofChunks_append,
            ofChunks_close, ← ih, List.nil_append, byteLength_append, ← Nat.add_assoc, ← hskip]
          rfl

variable {place place' : Nat → Nat → Prop}

theorem Matches.imp {first second : Scan} (h : first.Matches place second)
    (himp : ∀ offset offset', place offset offset' → place' offset offset') :
    first.Matches place' second where
  tokens := h.tokens.imp fun _ _ hmatch => ⟨hmatch.1, himp _ _ hmatch.2⟩
  diagnostics := h.diagnostics.imp fun _ _ hmatch => ⟨hmatch.1, himp _ _ hmatch.2⟩

theorem Matches.append {first first' second second' : Scan} (h : first.Matches place first')
    (hmore : second.Matches place second') :
    (first ++ second).Matches place (first' ++ second') where
  tokens := List.rel_append h.tokens hmore.tokens
  diagnostics := List.rel_append h.diagnostics hmore.diagnostics

theorem Matches.eq_empty {first second : Scan} (h : first.Matches place second)
    (hempty : first = ⟨[], []⟩) : second = ⟨[], []⟩ := by
  subst hempty
  obtain ⟨tokens, reports⟩ := second
  obtain ⟨htokens, hreports⟩ := h
  cases htokens
  cases hreports
  rfl

theorem shift_matches_shift {scan : Scan} {bytes bytes' : Nat}
    (htokens : ∀ token ∈ scan.tokens, place (token.offset + bytes) (token.offset + bytes'))
    (hreports : ∀ report ∈ scan.diagnostics,
      place (report.offset + bytes) (report.offset + bytes')) :
    (scan.shift bytes).Matches place (scan.shift bytes') where
  tokens := by
    apply List.forall₂_map_left_iff.mpr
    apply List.forall₂_map_right_iff.mpr
    exact List.forall₂_same.mpr fun token htoken => ⟨rfl, htokens token htoken⟩
  diagnostics := by
    apply List.forall₂_map_left_iff.mpr
    apply List.forall₂_map_right_iff.mpr
    exact List.forall₂_same.mpr fun report hreport => ⟨rfl, hreports report hreport⟩

theorem matches_ofChunks {chunks chunks' : List Chunk}
    (h : chunks.map Chunk.text = chunks'.map Chunk.text) :
    (ofChunks chunks).Matches (SamePlace chunks chunks') (ofChunks chunks') := by
  induction chunks generalizing chunks' with
  | nil =>
      obtain rfl := List.map_eq_nil_iff.mp h.symm
      exact ⟨.nil, .nil⟩
  | cons chunk rest ih =>
      obtain ⟨chunk', rest', rfl, htext, hrest⟩ := List.map_eq_cons_iff.mp h.symm
      have hhere (byte : Nat) (hbyte : byte < byteLength chunk.text) :
          SamePlace (chunk :: rest) (chunk' :: rest') (byte + chunk.offset)
            (byte + chunk'.offset) :=
        ⟨0, byte, chunk, chunk', rfl, rfl, hbyte, Nat.add_comm _ _, Nat.add_comm _ _⟩
      have hlater (offset offset' : Nat) (hplace : SamePlace rest rest' offset offset') :
          SamePlace (chunk :: rest) (chunk' :: rest') offset offset' := by
        obtain ⟨index, byte, other, other', hother, hother', hplace⟩ := hplace
        exact ⟨index + 1, byte, other, other', hother, hother', hplace⟩
      obtain ⟨htokens, hreports⟩ := offset_lt_of_ofText chunk.text
      rw [ofChunks, ofChunks, htext]
      refine Matches.append ?_ ((ih hrest.symm).imp hlater)
      exact shift_matches_shift (fun token htoken => hhere _ (htokens token htoken))
        fun report hreport => hhere _ (hreports report hreport)

end Scan

/-- Sources of the same chunks compile to the same program, or to reports that
say the same about the same byte of the same chunk. Only that there is no class
at all is reported at the start of both, where there need not be a chunk. -/
theorem compile_of_same_chunks (source source' : String)
    (h : (Chunk.all source).map Chunk.text = (Chunk.all source').map Chunk.text) :
    (∃ program, compile source = .ok program ∧ compile source' = .ok program) ∨
      ∃ reports reports', compile source = .error reports ∧ compile source' = .error reports' ∧
        (List.Forall₂ (Diagnostic.Matches (SamePlace (Chunk.all source) (Chunk.all source')))
            reports reports' ∨
          reports = [⟨Fault.emptyProgram.message, 0⟩] ∧ reports' = reports) := by
  have hscan (source : String) : scan source = .ofChunks (Chunk.all source) :=
    Scan.ofText_run_append 0 [] source.toList
  have hmatches := Scan.matches_ofChunks h
  rw [← hscan, ← hscan] at hmatches
  rw [compile_eq, compile_eq]
  by_cases hempty : scan source = ⟨[], []⟩
  · rw [hmatches.eq_empty hempty, hempty]
    exact .inr ⟨_, _, rfl, rfl, .inr ⟨rfl, rfl⟩⟩
  · have hbefore : ReadInTurn (Rule.classWithin Rule.maxNesting) [] [] [] := .nil []
    have houtcome := hmatches.outcome_append hempty hbefore
    rw [Scan.empty_append] at houtcome
    rcases houtcome with ⟨program, hfirst, hsecond⟩ | ⟨reports, reports', hfirst, hsecond, hmatch⟩
    · exact .inl ⟨program, hfirst, hsecond⟩
    · exact .inr ⟨reports, reports', hfirst, hsecond, .inl hmatch⟩

/-- `class B ;` in one line, and with line breaks and a no-break space in it: the
missing brace is reported at the only byte of the third chunk. -/
theorem compile_of_same_chunks_lines :
    (Chunk.all "class B ;").map Chunk.text = (Chunk.all "\n\nclass\u00a0B\n\n;").map Chunk.text ∧
      ∃ reports, compile "\n\nclass\u00a0B\n\n;" = .error reports ∧
        List.Forall₂ (Diagnostic.Matches
            (SamePlace (Chunk.all "class B ;") (Chunk.all "\n\nclass\u00a0B\n\n;")))
          [⟨(Fault.mismatch (.separator .openBrace) (.separator .semicolon)).message, 8⟩]
          reports := by
  have hchunks : (Chunk.all "class B ;").map Chunk.text =
      (Chunk.all "\n\nclass\u00a0B\n\n;").map Chunk.text := rfl
  have hcompile : compile "class B ;" =
      .error [⟨(Fault.mismatch (.separator .openBrace) (.separator .semicolon)).message, 8⟩] := by
    have hscan : scan "class B ;" =
        ⟨[⟨.keyword .classKw, 0⟩, ⟨.identifier "B", 6⟩, ⟨.separator .semicolon, 8⟩], []⟩ := rfl
    rw [compile_eq, hscan]
    rfl
  refine ⟨hchunks, ?_⟩
  rcases compile_of_same_chunks _ _ hchunks with
    ⟨program, hprogram, _⟩ | ⟨reports, reports', hreports, hreports', hmatch | ⟨hnone, _⟩⟩
  · rw [hcompile] at hprogram
    cases hprogram
  · rw [hcompile] at hreports
    rw [Except.error.inj hreports]
    exact ⟨reports', hreports', hmatch⟩
  · rw [hcompile] at hreports
    rw [← Except.error.inj hreports] at hnone
    simp at hnone

end ClassLang
