import Netlist.Console
import Netlist.Proofs.Painting
import Netlist.Proofs.Tallies

/-!
# What a run answers

A run reads the file that its arguments name, checks the text of it, and prints. Where no file with
a text is there to read, an error is all that it prints, the log apart. For a text it prints the
diagnostics of the check and a summary, which counts them, or, if there are none, what was made: an
entry of the circuit for each statement of the text.

The platform is any: of its reader of arguments, its files and its log nothing is asked, and of its
terminal that it is lawful. `Console.lawful_ansi` is such a terminal.

## Results

* `fromUTF8?_eq_some_iff`: bytes hold a text if they are its encoding.
* `success_check_iff_nil`: a check succeeds just if it has no diagnostics.
* `CommandLine.answers_run`: **a run reports what the check of its file found**, and fails without
  one.
-/

namespace Netlist

/-! ## The text of a file -/

theorem fromUTF8?_eq_some_iff {content : ByteArray} {source : String} :
    String.fromUTF8? content = some source ↔ content = source.toUTF8 := by
  unfold String.fromUTF8?
  constructor
  · intro h
    split at h
    · rw [← Option.some.inj h]
      rfl
    · cases h
  · rintro rfl
    rw [String.toUTF8_eq_toByteArray, dif_pos source.isValidUTF8]
    rfl

/-- A file is read as the text that its bytes encode. -/
theorem sourceOf_eq_ok_iff {path source : String} {content : FileContent} :
    sourceOf path content = .ok source ↔ content = .bytes source.toUTF8 := by
  unfold sourceOf
  cases content with
  | absent => simp
  | unreadable reason => simp
  | bytes content =>
    rw [FileContent.bytes.injEq, ← fromUTF8?_eq_some_iff]
    simp only
    cases String.fromUTF8? content <;> simp

/-! ## Success -/

/-- **A check succeeds just if it has no diagnostics.** -/
theorem success_check_iff_nil (source : String) (limit : Option Nat) :
    (check source limit).success = true ↔ (check source limit).diagnostics = [] := by
  rw [check_eq]
  show (Reading.ofCheck source limit).readOn.1 = true ↔ _
  rw [Reading.readOn_fst, Reading.clean_iff]
  exact List.length_eq_zero_iff

namespace CommandLine

/-! ## Runs -/

/-- What a run answers for a text with a report. -/
structure Answers (p : Platform) (a : Arguments) (source : String) (r : Report)
    (result : RunResult) : Prop where
  /-- In colours, the diagnostics are painted one behind the other. -/
  painted : p.terminal.coloured a.colour = true →
    result.stdout = String.join (r.diagnostics.map p.terminal.painted) ++ summary r
  /-- Without colours, they are plain text. -/
  plain : p.terminal.coloured a.colour = false → result.stdout = r.render ++ summary r
  always : a.colour = .always →
    result.stdout = String.join (r.diagnostics.map p.terminal.painted) ++ summary r
  never : a.colour = .never → result.stdout = r.render ++ summary r
  /-- In every mode, the plain text and the summary are there, with escape sequences put in. -/
  dressed : Dressed (r.render ++ summary r).toList result.stdout.toList
  /-- Only the log goes to standard error. -/
  stderr : result.stderr = p.log a.logLevel a (.bytes source.toUTF8)
  /-- The summary is one line. -/
  line : ∃ line, '\n' ∉ line.toList ∧ summary r = line ++ "\n"
  exitCode : result.exitCode = if r.diagnostics = [] then 0 else 1
  /-- Without diagnostics, the summary counts the statements of the definition that the text spells,
  each of which made an entry, and starts with a keyword. -/
  valid : r.diagnostics = [] → ∃ d : Definition, d.SpelledBy source ∧ d.WellTyped ∧
    summary r = toString r.circuit.devices.size ++ " devices, " ++
      toString r.circuit.connections ++ " connections, " ++
      toString r.circuit.monitors.size ++ " monitors\n" ∧
    r.circuit.devices.size = d.devices.length ∧ r.circuit.connections = d.connections.length ∧
    r.circuit.monitors.size = d.monitors.length ∧
    ∀ s, Text.statements source.toList s = r.circuit.count s
  /-- Otherwise it counts the diagnostics. -/
  faulty : r.diagnostics ≠ [] → summary r = toString r.diagnostics.length ++ " error(s) found\n"

/-- What a run answers if the file gives no text: behind the log, the error is the only output. -/
structure Fails (p : Platform) (a : Arguments) (result : RunResult) : Prop where
  exitCode : result.exitCode = 1
  stdout : result.stdout = ""
  stderr : ∃ e, sourceOf a.file (p.read a.file) = .error e ∧
    result.stderr = p.log a.logLevel a (p.read a.file) ++ "Error: " ++ e.message ++ "\n"

/-- A summary is one line. -/
theorem exists_summary_line (r : Report) :
    ∃ line, '\n' ∉ line.toList ∧ summary r = line ++ "\n" := by
  have hline {line : String} (h : Unbroken line) (he : summary r = line ++ "\n") :
      ∃ line, '\n' ∉ line.toList ∧ summary r = line ++ "\n" :=
    ⟨line, fun hmem => h '\n' hmem rfl, he⟩
  by_cases hs : r.success = true
  · have hdevices : Unbroken " devices, " := unbroken_ofList (by decide)
    have hconnections : Unbroken " connections, " := unbroken_ofList (by decide)
    have hmonitors : Unbroken " monitors" := unbroken_ofList (by decide)
    have hthree := (((unbroken_toString r.circuit.devices.size).append hdevices).append
      (unbroken_toString r.circuit.connections)).append hconnections
    refine hline ((hthree.append (unbroken_toString r.circuit.monitors.size)).append hmonitors) ?_
    simp only [summary, if_pos hs, String.append_assoc]
    rfl
  · have herrors : Unbroken " error(s) found" := unbroken_ofList (by decide)
    refine hline ((unbroken_toString r.errorCount).append herrors) ?_
    simp only [summary, if_neg hs, String.append_assoc]
    rfl

/-- A report without colours is its plain text. -/
theorem writeAll_false_pieces (t : Terminal) (r : Report) :
    t.writeAll false r.pieces = r.render := by
  rw [t.writeAll_false, Report.pieces, plainAll_piecesAll, Report.render]

/-- A report in any mode is its plain text with escape sequences put in. -/
theorem dressed_pieces {t : Terminal} (h : t.Lawful) (coloured : Bool) (r : Report) :
    Dressed r.render.toList (t.writeAll coloured r.pieces).toList := by
  rw [← writeAll_false_pieces t r, t.writeAll_false]
  exact h.dressed_writeAll coloured r.pieces

/-- A run on a text prints the report of its check. -/
theorem runChecked_of_text {p : Platform} {a : Arguments} {source : String}
    (hread : p.read a.file = .bytes source.toUTF8) :
    runChecked p a = ⟨if (check source a.maxErrors).success then 0 else 1,
      p.terminal.writeAll (p.terminal.coloured a.colour) (check source a.maxErrors).pieces ++
        summary (check source a.maxErrors), p.log a.logLevel a (.bytes source.toUTF8)⟩ := by
  have hsource : sourceOf a.file (.bytes source.toUTF8) = .ok source := sourceOf_eq_ok_iff.mpr rfl
  simp only [runChecked, checkFile, hread, hsource]
  rfl

theorem answers_runChecked {p : Platform} (hlawful : p.terminal.Lawful) {a : Arguments}
    {source : String} (hread : p.read a.file = .bytes source.toUTF8) :
    Answers p a source (check source a.maxErrors) (runChecked p a) := by
  have hrun := runChecked_of_text hread
  have hsuccess := success_check_iff_nil source a.maxErrors
  have hpainted (hcolour : p.terminal.coloured a.colour = true) : (runChecked p a).stdout =
      String.join ((check source a.maxErrors).diagnostics.map p.terminal.painted) ++
        summary (check source a.maxErrors) := by
    rw [hrun, hcolour, Report.pieces, p.terminal.writeAll_true_piecesAll]
  have hplain (hcolour : p.terminal.coloured a.colour = false) : (runChecked p a).stdout =
      (check source a.maxErrors).render ++ summary (check source a.maxErrors) := by
    rw [hrun, hcolour, writeAll_false_pieces]
  exact {
    painted := hpainted
    plain := hplain
    always := fun hmode => hpainted (hmode ▸ hlawful.always)
    never := fun hmode => hplain (hmode ▸ hlawful.never)
    dressed := by
      rw [hrun, String.toList_append, String.toList_append]
      exact (dressed_pieces hlawful _ _).append (.refl _)
    stderr := by rw [hrun]
    line := exists_summary_line _
    exitCode := by simp [hrun, hsuccess]
    valid := fun hnil => by
      obtain ⟨d, hspelled, htyped, hcount⟩ := exists_definition_check (hsuccess.mpr hnil)
      refine ⟨d, hspelled, htyped, ?_, (hcount .device).1, (hcount .connection).1,
        (hcount .monitor).1, fun s => (hcount s).2.trans (hcount s).1.symm⟩
      rw [summary, if_pos (hsuccess.mpr hnil)]
    faulty := fun herrors => by
      rw [summary, if_neg (mt hsuccess.mp herrors)]
      rfl }

/-- Without a text to check, a run fails. -/
theorem fails_runChecked {p : Platform} {a : Arguments}
    (h : ∀ source : String, p.read a.file ≠ .bytes source.toUTF8) :
    Fails p a (runChecked p a) := by
  cases hsource : sourceOf a.file (p.read a.file) with
  | ok source => exact absurd (sourceOf_eq_ok_iff.mp hsource) (h source)
  | error e =>
    have hrun : runChecked p a =
        ⟨1, "", p.log a.logLevel a (p.read a.file) ++ "Error: " ++ e.message ++ "\n"⟩ := by
      simp only [runChecked, checkFile, hsource]
      rfl
    rw [hrun]
    exact ⟨rfl, rfl, e, hsource, rfl⟩

/-- **A run reports what the check of its file found**, on every platform with a lawful terminal,
for all arguments that are read there, and in every colour mode. If the path that the arguments name
gives the bytes of a text, then standard output is what the check of the text found, and one line
behind it; the exit code is 0 just if nothing was found, and then the line counts the statements of
the text. If it gives nothing to read, or bytes that encode no text, the run fails. -/
theorem answers_run {p : Platform} (hlawful : p.terminal.Lawful) {arguments : List String}
    {a : Arguments} (h : p.arguments arguments = .ok a) :
    (∀ source : String, p.read a.file = .bytes source.toUTF8 →
      Answers p a source (check source a.maxErrors) (run p arguments)) ∧
      ((∀ source : String, p.read a.file ≠ .bytes source.toUTF8) →
        Fails p a (run p arguments)) := by
  have hrun : run p arguments = runChecked p a := by
    unfold run
    rw [h]
  rw [hrun]
  exact ⟨fun source hread => answers_runChecked hlawful hread, fails_runChecked⟩

/-- On a console: a definition without errors, one with an error in colours, and no file. -/
theorem answers_run_switch :
    let valid := "DEVICE: SWITCH s = 1; CONNECTION: MONITOR: MON s;"
    let faulty := "DEVICE: SWITCH s = 2; CONNECTION: MONITOR:"
    let console (content : FileContent) := Console.platform ⟨none, false⟩ fun _ => content
    let a : Arguments := ⟨"s.def", none, .auto, false⟩
    let inColours : Arguments := ⟨"s.def", none, .always, false⟩
    (check valid none).diagnostics = [] ∧ (check faulty none).diagnostics ≠ [] ∧
      Answers (console (.bytes valid.toUTF8)) a valid (check valid none)
        (run (console (.bytes valid.toUTF8)) ["s.def"]) ∧
      Answers (console (.bytes faulty.toUTF8)) inColours faulty (check faulty none)
        (run (console (.bytes faulty.toUTF8)) ["--color", "always", "s.def"]) ∧
      Fails (console .absent) a (run (console .absent) ["s.def"]) := by
  intro valid faulty console a inColours
  have hlawful : ∀ content, (console content).terminal.Lawful := fun _ => Console.lawful_ansi _
  have harguments (content : FileContent) : (console content).arguments ["s.def"] = .ok a :=
    show Console.arguments ["s.def"] = .ok a by decide
  have hcolours (content : FileContent) :
      (console content).arguments ["--color", "always", "s.def"] = .ok inColours :=
    show Console.arguments ["--color", "always", "s.def"] = .ok inColours by decide
  exact ⟨by decide +kernel, by decide +kernel,
    (answers_run (hlawful _) (harguments _)).1 valid rfl,
    (answers_run (hlawful _) (hcolours _)).1 faulty rfl,
    (answers_run (hlawful _) (harguments _)).2 (by simp [console, Console.platform])⟩

end CommandLine

end Netlist
