import ClassLang.CommandLine
import ClassLang.Proofs.CommandLine.Standard
import ClassLang.Proofs.Parallel

/-!
What the program leaves behind, compared with what compiling its file comes to,
for any host that keeps its promises. Each command is described by the texts
that it adds to the two outputs and by how it ends, whatever was written before.
The events that it tells are left out: with nothing asked for, no host logs them.
-/

namespace ClassLang.CommandLine

section Commands

/-- The text that an entry puts on the error output, if it is no event. -/
def Entry.text? : Entry → Option String
  | event _ => none
  | text line => some line

/-- What is on the error output where no event is logged. -/
def texts (entries : List Entry) : String := String.join (entries.filterMap Entry.text?)

theorem texts_append (first second : List Entry) :
    texts (first ++ second) = texts first ++ texts second := by
  unfold texts
  rw [List.filterMap_append, String.join_append]

/-- A log that says nothing of events leaves the texts as they are. -/
theorem LogWriter.write_eq_texts {writer : LogWriter}
    (h : ∀ earlier event, writer.line earlier event = "") (earlier : List Event)
    (entries : List Entry) : writer.write earlier entries = texts entries := by
  induction entries generalizing earlier with
  | nil => rfl
  | cons entry rest ih =>
      cases entry with
      | event event =>
          have htexts : texts (.event event :: rest) = texts rest := rfl
          rw [write, h, String.empty_append, ih, htexts]
      | text line =>
          have htexts : texts (.text line :: rest) = line ++ texts rest := String.join_cons
          rw [write, ih, htexts]

def Console.write (console : Console) (stdout : String) (entries : List Entry) : Console :=
  ⟨console.stdout ++ stdout, console.stderr ++ entries⟩

theorem Console.write_write (console : Console) (stdout stdout' : String)
    (entries entries' : List Entry) :
    (console.write stdout entries).write stdout' entries' =
      console.write (stdout ++ stdout') (entries ++ entries') := by
  unfold write
  simp only [String.append_assoc, List.append_assoc]

theorem Console.write_empty (console : Console) : console.write "" [] = console := by
  unfold write
  simp only [String.append_empty, List.append_nil]

variable {α β : Type}

/-- The command adds these texts to whatever is written before, events apart, and
ends so. -/
def Writes (command : Command α) (stdout stderr : String) (outcome : Except Failure α) : Prop :=
  ∀ console, ∃ entries, texts entries = stderr ∧
    command.run console =
      match outcome with
      | .ok value => .ok value (console.write stdout entries)
      | .error failure => .error failure (console.write stdout entries)

theorem writes_pure (value : α) : Writes (pure value) "" "" (.ok value) := by
  intro console
  refine ⟨[], rfl, ?_⟩
  rw [console.write_empty]
  rfl

theorem writes_throw (failure : Failure) :
    Writes (throw failure : Command α) "" "" (.error failure) := by
  intro console
  refine ⟨[], rfl, ?_⟩
  rw [console.write_empty]
  rfl

theorem Writes.bind {first : Command α} {next : α → Command β} {value : α}
    {outcome : Except Failure β} {stdout stderr stdout' stderr' : String}
    (hfirst : Writes first stdout stderr (.ok value))
    (hnext : Writes (next value) stdout' stderr' outcome) :
    Writes (first >>= next) (stdout ++ stdout') (stderr ++ stderr') outcome := by
  intro console
  obtain ⟨entries, rfl, hrun⟩ := hfirst console
  obtain ⟨entries', rfl, hrun'⟩ := hnext (console.write stdout entries)
  refine ⟨entries ++ entries', texts_append entries entries', ?_⟩
  have hanswer : first console = .ok value (console.write stdout entries) := hrun
  have hboth : (first >>= next).run console = (next value).run (console.write stdout entries) := by
    rw [EStateM.run, bind_apply, hanswer, EStateM.run]
  rw [hboth, hrun', Console.write_write]

theorem Writes.andThen {first : Command Unit} {next : Command β} {outcome : Except Failure β}
    {stdout stderr stdout' stderr' : String} (hfirst : Writes first stdout stderr (.ok ()))
    (hnext : Writes next stdout' stderr' outcome) :
    Writes (do first; next) (stdout ++ stdout') (stderr ++ stderr') outcome :=
  hfirst.bind hnext

theorem writes_print (line : String) : Writes (Command.print line) (line ++ "\n") "" (.ok ()) := by
  intro console
  refine ⟨[], rfl, ?_⟩
  unfold Console.write
  rw [List.append_nil, ← String.append_assoc]
  rfl

theorem writes_entry (entry : Entry) :
    Writes (Command.writeEntry entry) "" (texts [entry]) (.ok ()) := by
  intro console
  refine ⟨[entry], rfl, ?_⟩
  unfold Console.write
  rw [String.append_empty]
  rfl

theorem writes_printError (line : String) :
    Writes (Command.printError line) "" (line ++ "\n") (.ok ()) := by
  have hentry := writes_entry (.text (line ++ "\n"))
  have htext : texts [.text (line ++ "\n")] = line ++ "\n" := String.empty_append
  rwa [htext] at hentry

theorem writes_forM {items : List β} {action : β → Command Unit} {stdout stderr : β → String}
    (h : ∀ item ∈ items, Writes (action item) (stdout item) (stderr item) (.ok ())) :
    Writes (items.forM action) (String.join (items.map stdout))
      (String.join (items.map stderr)) (.ok ()) := by
  induction items with
  | nil => exact writes_pure ()
  | cons item items ih =>
      obtain ⟨hitem, hitems⟩ := List.forall_mem_cons.mp h
      simp only [List.map_cons, String.join_cons]
      exact hitem.bind (ih hitems)

theorem join_map_empty (items : List β) : String.join (items.map fun _ => "") = "" := by
  induction items with
  | nil => rfl
  | cons item items ih => rw [List.map_cons, String.join_cons, ih, String.append_empty]

/-- One line for each token: its offset, a tab and its description. -/
def tokenListing (tokens : List Token) : String :=
  String.join (tokens.map fun token => s!"{token.offset}\t{token.kind.description}" ++ "\n")

/-- One rendering after the other, each with a newline behind it. -/
def renderings (source : String) (reports : List Diagnostic) : String :=
  String.join (reports.map fun report => report.render source ++ "\n")

/-- The tree, if it is wanted. -/
def treeListing (options : Options) (program : Program) : String :=
  if options.tree ∨ ¬options.tokens then program.pretty ++ "\n" else ""

def reportFailure (options : Options) (reports : List Diagnostic) : Failure :=
  ⟨s!"{options.path} reported {reports.length} error(s)", none⟩

theorem writes_perform (session : Session) (action : Action) :
    Writes (Command.perform session action) "" "" (.ok (session.apply action)) := by
  have hevents : Writes
      ((session.events action).forM fun event => Command.writeEntry (.event event)) _ _ (.ok ()) :=
    writes_forM fun event _ => writes_entry (.event event)
  have htexts (event : Event) : texts [.event event] = "" := rfl
  simp only [htexts, join_map_empty] at hevents
  exact hevents.andThen (writes_pure _)

/-- In front of a command, carrying out an action adds no text. -/
theorem Writes.perform {session : Session} {action : Action} {next : Session → Command β}
    {stdout stderr : String} {outcome : Except Failure β}
    (h : Writes (next (session.apply action)) stdout stderr outcome) :
    Writes (Command.perform session action >>= next) stdout stderr outcome := by
  have hboth := (writes_perform session action).bind h
  rwa [String.empty_append, String.empty_append] at hboth

theorem writes_listTokens (tokens : List Token) :
    Writes (Command.listTokens tokens) (tokenListing tokens) "" (.ok ()) := by
  rw [← join_map_empty tokens]
  exact writes_forM fun token _ => writes_print _

variable (options : Options) {session : Session}

theorem writes_parse_of_reports (h : session.log ≠ []) :
    Writes (Command.parse options session) "" "" (.ok session) := by
  unfold Command.parse
  rw [if_neg (by simpa using h)]
  exact writes_pure session

theorem writes_parse_ok {program : Program} (h : session.log = [])
    (hparse : parse session.tokens = .ok program) :
    Writes (Command.parse options session) (treeListing options program) ""
      (.ok (session.apply .parse)) := by
  have hafter : Writes (pure (session.apply .parse)) "" "" (.ok (session.apply .parse)) :=
    writes_pure _
  unfold Command.parse treeListing
  rw [h, hparse]
  by_cases hwanted : options.tree ∨ ¬options.tokens
  · have hcondition : (options.tree || !options.tokens) = true := by simpa using hwanted
    simp only [List.isEmpty_nil, if_true, if_pos hwanted, hcondition]
    apply Writes.perform
    simpa only [String.append_empty] using (writes_print program.pretty).andThen hafter
  · have hcondition : (options.tree || !options.tokens) = false := by simpa using hwanted
    simp only [List.isEmpty_nil, if_true, if_neg hwanted, hcondition]
    exact Writes.perform hafter

theorem writes_parse_error {error : SyntaxError} (h : session.log = [])
    (hparse : parse session.tokens = .error error) :
    Writes (Command.parse options session) "" "" (.ok (session.apply .parse)) := by
  unfold Command.parse
  rw [h, hparse]
  simp only [List.isEmpty_nil, if_true]
  exact Writes.perform (writes_pure _)

theorem writes_conclude_of_empty (h : session.log = []) :
    Writes (Command.conclude options session) "" "" (.ok ()) := by
  unfold Command.conclude Session.rendered
  rw [h]
  exact writes_pure ()

theorem writes_rendered (session : Session) :
    Writes (session.rendered.forM Command.printError) ""
      (renderings session.source session.log) (.ok ()) := by
  have hlines : Writes (session.rendered.forM Command.printError) _ _ (.ok ()) :=
    writes_forM fun line _ => writes_printError line
  rw [join_map_empty] at hlines
  unfold Session.rendered at hlines ⊢
  rw [List.map_map] at hlines
  exact hlines

theorem writes_conclude_of_reports (h : session.log ≠ []) :
    Writes (Command.conclude options session) "" (renderings session.source session.log)
      (.error (reportFailure options session.log)) := by
  have hthrow : Writes (throw (reportFailure options session.log) : Command Unit) "" ""
      (.error (reportFailure options session.log)) := writes_throw _
  unfold Command.conclude
  simp only [List.isEmpty_eq_false_iff.mpr h, Bool.false_eq_true, if_false]
  simpa only [String.append_empty, reportFailure] using (writes_rendered session).andThen hthrow

theorem writes_listing (source : String) :
    Writes (if options.tokens then Command.listTokens (scan source).tokens else pure ())
      (if options.tokens then tokenListing (scan source).tokens else "") "" (.ok ()) := by
  split
  · exact writes_listTokens _
  · exact writes_pure ()

theorem log_apply_parse_ok {program : Program} (h : session.log = [])
    (hparse : parse session.tokens = .ok program) : (session.apply .parse).log = [] := by
  change session.log ++ session.entries .parse = []
  unfold Session.entries
  rw [hparse, h]
  rfl

theorem log_apply_parse_error {error : SyntaxError} (h : session.log = [])
    (hparse : parse session.tokens = .error error) :
    (session.apply .parse).log = [error.toDiagnostic] := by
  change session.log ++ session.entries .parse = _
  unfold Session.entries
  rw [hparse, h]
  rfl

/-- The listing of the tokens comes first, whatever the rest is. -/
theorem writes_check_of_rest {source stdout stderr : String} {outcome : Except Failure Unit}
    (h : Writes (Command.parse options (Session.start.apply (.scan source)) >>=
      Command.conclude options) stdout stderr outcome) :
    Writes (Command.check options source)
      ((if options.tokens then tokenListing (scan source).tokens else "") ++ stdout) stderr
      outcome := by
  have hboth := (writes_listing options source).andThen h
  rw [String.empty_append] at hboth
  unfold Command.check
  apply Writes.perform
  by_cases hflag : options.tokens = true
  · simp only [hflag, if_true] at hboth ⊢
    exact hboth
  · simp only [hflag] at hboth ⊢
    exact hboth

/-- What checking a source writes and how it ends, by what compiling it comes to. -/
theorem writes_check (source : String) :
    let listing := if options.tokens then tokenListing (scan source).tokens else ""
    (∀ program, compile source = .ok program →
      Writes (Command.check options source) (listing ++ treeListing options program) "" (.ok ())) ∧
    ∀ reports, compile source = .error reports → reports ≠ [] ∧
      Writes (Command.check options source) listing (renderings source reports)
        (.error (reportFailure options reports)) := by
  intro listing
  have hlog : (Session.start.apply (.scan source)).log = (scan source).diagnostics :=
    List.nil_append _
  constructor
  · intro program hcompile
    obtain ⟨hclean, hparse⟩ := compile_ok_iff.mp hcompile
    rw [← hlog] at hclean
    have hrest := (writes_parse_ok options hclean hparse).bind
      (writes_conclude_of_empty options (log_apply_parse_ok hclean hparse))
    rw [String.append_empty, String.append_empty] at hrest
    exact writes_check_of_rest options hrest
  · intro reports hcompile
    -- After lexical errors nothing is parsed. Without any, the syntax error is the
    -- only report, and it is in the log by the time the run ends.
    rcases compile_error_iff.mp hcompile with ⟨hsome, rfl⟩ | ⟨hnone, error, hparse, rfl⟩
    · rw [← hlog] at hsome ⊢
      have hrest := (writes_parse_of_reports options hsome).bind
        (writes_conclude_of_reports options hsome)
      have hcheck := writes_check_of_rest options hrest
      rw [String.append_empty, String.append_empty, String.empty_append] at hcheck
      exact ⟨hsome, hcheck⟩
    · rw [← hlog] at hnone
      have hdone := log_apply_parse_error hnone hparse
      have hconclude := writes_conclude_of_reports options (ne_of_eq_of_ne hdone (by simp))
      rw [hdone] at hconclude
      have hcheck := writes_check_of_rest options
        ((writes_parse_error options hnone hparse).bind hconclude)
      rw [String.append_empty, String.append_empty, String.empty_append] at hcheck
      exact ⟨by simp, hcheck⟩

variable {host : Host} {settings : Settings} {command : Command Unit} {stdout stderr : String}

/-- Where nothing is asked for, a log that is opened writes the texts only. -/
theorem Host.Documented.write_eq (hhost : host.Documented) (entries : List Entry) :
    (host.log none).opening ++ (host.log none).write [] entries = texts entries := by
  have hline (earlier : List Event) (event : Event) :=
    hhost.log_line earlier event event.level_ne_error
  rw [hhost.log_opening, LogWriter.write_eq_texts hline, String.empty_append]

theorem Host.Documented.report_ok (hhost : host.Documented)
    (h : Writes command stdout stderr (.ok ())) :
    (host.report settings command).exitCode = 0 ∧
      (host.report settings command).stdout = stdout ∧
      (settings = .unset → (host.report settings command).stderr = stderr) := by
  obtain ⟨entries, rfl, hrun⟩ := h ⟨"", []⟩
  unfold report
  rw [hrun]
  refine ⟨rfl, String.empty_append, ?_⟩
  rintro rfl
  exact hhost.write_eq entries

theorem Host.Documented.report_error (hhost : host.Documented) {failure : Failure}
    (h : Writes command stdout stderr (.error failure)) :
    (host.report settings command).exitCode = 1 ∧
      (host.report settings command).stdout = stdout ∧
      (settings = .unset → (host.report settings command).stderr =
        stderr ++ (host.conclude false failure).text) := by
  obtain ⟨entries, rfl, hrun⟩ := h ⟨"", []⟩
  unfold report
  rw [hrun]
  refine ⟨hhost.exitCode _ failure, String.empty_append, ?_⟩
  rintro rfl
  exact congrArg (· ++ _) (hhost.write_eq entries)

end Commands

section Files

open FileTree

/-- The path leads to a file, and the file holds this text. -/
def HoldsText (here : Place) (path source : String) : Prop :=
  ∃ above, here.find path = .ok ⟨.file source.toUTF8, above⟩

theorem decode_eq_ok_iff {bytes : ByteArray} {source : String} :
    ReadFailure.decode bytes = .ok source ↔ bytes = source.toUTF8 := by
  unfold ReadFailure.decode String.fromUTF8?
  by_cases hvalid : bytes.IsValidUTF8
  · rw [dif_pos hvalid]
    constructor
    · intro h
      exact congrArg String.toUTF8 (Except.ok.inj h)
    · rintro rfl
      rfl
  · rw [dif_neg hvalid]
    constructor
    · intro h
      cases h
    · rintro rfl
      exact absurd source.isValidUTF8 hvalid

theorem readText_eq_ok_iff {here : Place} {path source : String} :
    here.readText path = .ok source ↔ HoldsText here path source := by
  unfold Place.readText HoldsText
  cases hfind : here.find path with
  | error failure => simp [bind, Except.bind]
  | ok place =>
      obtain ⟨node, above⟩ := place
      cases node with
      | directory entries => simp [bind, Except.bind, throw, throwThe, MonadExceptOf.throw]
      | file bytes =>
          change ReadFailure.decode bytes = _ ↔ _
          simp [decode_eq_ok_iff]

end Files

/-- A run and compiling agree, whatever host keeps its promises. The run succeeds
just if the file compiles. It lists the tokens if it is asked to, and then prints
the tree of a file that compiles, unless only the tokens are wanted. What is
reported of a file that does not compile is rendered in order on the error
output, and counted. A file that cannot be read leaves nothing on the standard
output. What the environment asks for shows on the error output only. -/
theorem run_agrees_with_compile (host : Host) (hhost : host.Documented) (settings : Settings)
    (here : FileTree.Place) (arguments : List String) (options : Options)
    (h : Asks arguments options) :
    let report := run host settings here arguments
    (∀ source, HoldsText here options.path source →
      let listing := if options.tokens then tokenListing (scan source).tokens else ""
      (report.exitCode = 0 ↔ ∃ program, compile source = .ok program) ∧
        (∀ program, compile source = .ok program →
          report.stdout = listing ++ treeListing options program ∧
            (settings = .unset → report.stderr = "")) ∧
        ∀ reports, compile source = .error reports →
          let count := s!"{options.path} reported {reports.length} error(s)"
          1 ≤ reports.length ∧ report.exitCode = 1 ∧ report.stdout = listing ∧
            (settings = .unset →
              report.stderr = renderings source reports ++ s!"Error: {count}\n")) ∧
      ((¬∃ source, HoldsText here options.path source) →
        report.exitCode = 1 ∧ report.stdout = "") := by
  intro report
  have hrun : report = host.answer settings options (here.readText options.path) := by
    unfold report run
    rw [hhost.readArguments h]
  constructor
  · intro source hsource listing
    rw [readText_eq_ok_iff.mpr hsource] at hrun
    obtain ⟨hok, herror⟩ := writes_check options source
    have hprogram (program : Program) (hcompile : compile source = .ok program) :
        report.exitCode = 0 ∧ report.stdout = listing ++ treeListing options program ∧
          (settings = .unset → report.stderr = "") := by
      rw [hrun]
      exact hhost.report_ok (hok program hcompile)
    have hreports (reports : List Diagnostic) (hcompile : compile source = .error reports) :
        let count := s!"{options.path} reported {reports.length} error(s)"
        1 ≤ reports.length ∧ report.exitCode = 1 ∧ report.stdout = listing ∧
          (settings = .unset →
            report.stderr = renderings source reports ++ s!"Error: {count}\n") := by
      intro count
      obtain ⟨hsome, hwrites⟩ := herror reports hcompile
      refine ⟨List.length_pos_iff.mpr hsome, ?_⟩
      rw [hrun, ← hhost.text]
      exact hhost.report_error hwrites
    refine ⟨?_, fun program hcompile => (hprogram program hcompile).2, hreports⟩
    cases hcompile : compile source with
    | ok program => simp [(hprogram program hcompile).1]
    | error reports => simp [(hreports reports hcompile).2.1]
  · intro hnone
    cases hread : here.readText options.path with
    | ok source => exact absurd ⟨source, readText_eq_ok_iff.mp hread⟩ hnone
    | error failure =>
        have hwrites : Writes (Command.ofContent options (.error failure)) "" "" (.error _) :=
          writes_throw _
        rw [hrun, hread]
        exact ⟨(hhost.report_error hwrites).1, (hhost.report_error hwrites).2.1⟩

/-- A class without its braces, with the tokens wanted, and a file that is not
there. -/
theorem run_agrees_with_compile_missing :
    let here : FileTree.Place := ⟨.directory [("input.moka", .file "class A;".toUTF8)], []⟩
    let report := run .standard .unset here ["--tokens", "input.moka"]
    let missing := run .standard .unset here ["--ast", "--", "output.moka"]
    report.exitCode = 1 ∧
      report.stdout = "0\tkeyword `class`\n6\tidentifier `A`\n7\tseparator `;`\n" ∧
      report.stderr =
        "error:1:8: expected separator `\x7b`, found separator `;`\n  class A;\n         ^\n" ++
          "Error: input.moka reported 1 error(s)\n" ∧
      missing.exitCode = 1 ∧ missing.stdout = "" := by
  intro here report missing
  have hinput : HoldsText here "input.moka" "class A;" := ⟨_, rfl⟩
  have hfails : compile "class A;" =
      .error [⟨(Fault.mismatch (.separator .openBrace) (.separator .semicolon)).message, 7⟩] := by
    have hscan : scan "class A;" =
        ⟨[⟨.keyword .classKw, 0⟩, ⟨.identifier "A", 6⟩, ⟨.separator .semicolon, 7⟩], []⟩ := rfl
    rw [compile_eq, hscan]
    rfl
  have hasks : Asks ["--tokens", "input.moka"] ⟨"input.moka", true, false⟩ :=
    ⟨rfl, by decide, by decide, by decide, by decide⟩
  have hasks' : Asks ["--ast", "--", "output.moka"] ⟨"output.moka", false, true⟩ :=
    ⟨rfl, by decide, by decide, by decide, by decide⟩
  have hmissing : ¬∃ source, HoldsText here "output.moka" source := by
    rintro ⟨source, above, hfind⟩
    have hnone : here.find "output.moka" = .error .missing := rfl
    rw [hnone] at hfind
    cases hfind
  have hagrees := run_agrees_with_compile .standard Host.documented_standard .unset here
  obtain ⟨_, hexit, hstdout, hstderr⟩ := ((hagrees _ _ hasks).1 _ hinput).2.2 _ hfails
  refine ⟨hexit, hstdout.trans (by decide), (hstderr rfl).trans (by decide), ?_⟩
  exact (hagrees _ _ hasks').2 hmissing

end ClassLang.CommandLine
