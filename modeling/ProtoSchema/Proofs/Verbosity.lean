import ProtoSchema.Log.Console
import ProtoSchema.Proofs.Reporting

/-! # Verbosity

The switch for verbosity is read apart from all else, so in front of a command it changes nothing
of what the command does but the least level of the logging library. A task makes notices of a few
kinds only, and a library that drops entries below the least level drops those of three events.
-/

namespace ProtoSchema.Command

/-! ## The switch in front of a command -/

namespace Reading

/-- A reading with the switch for verbosity in front. -/
def verbosely (r : Reading) : Reading :=
  { r with settings := .plain .verbose :: r.settings }

theorem has_verbosely (r : Reading) : r.verbosely.has .verbose = true := by
  simp [has, setting?, verbosely, Setting.plain]

theorem set_verbosely (r : Reading) (p : Program) (settings : List Setting) :
    r.verbosely.set p settings = (r.set p settings).map verbosely := by
  unfold set
  split
  · rfl
  · rfl

theorem take_verbosely (r : Reading) (p : Program) (hit : Hit) (next : Option Item) :
    r.verbosely.take p hit next =
      (r.take p hit next).map fun (r, used) => (r.verbosely, used) := by
  unfold take
  cases Cluster.ofHit p hit with
  | error problem => rfl
  | ok c =>
      simp only
      cases c.complete next with
      | error problem => rfl
      | ok completed =>
          simp only [set_verbosely]
          cases r.set p completed.1 <;> rfl

end Reading

namespace Invocation

/-- An invocation that shows all entries. -/
def verbosely (i : Invocation) : Invocation :=
  { i with verbose := true }

theorem ofCommand_verbosely (r : Reading) (word : String) (arguments : List String) :
    ofCommand r.verbosely word arguments = (ofCommand r word arguments).map verbosely := by
  unfold ofCommand
  cases Program.subcommands.find? (·.word == word) with
  | none => rfl
  | some p =>
      simp only
      cases Task.ofArguments p arguments with
      | error stop => rfl
      | ok read =>
          have extras : r.verbosely.extras = r.extras := rfl
          simp only [extras, Reading.has_verbosely]
          split
          · rfl
          · rfl

theorem ofItems_verbosely (r : Reading) (items : List Item) :
    ofItems r.verbosely items = (ofItems r items).map verbosely := by
  induction items generalizing r with
  | nil => rfl
  | cons item items ih =>
      cases item with
      | unknown text => exact ih (r.leave text)
      | plain word => exact ofCommand_verbosely ..
      | separator =>
          cases items with
          | nil => rfl
          | cons next items => exact ofCommand_verbosely ..
      | switch text hit =>
          simp only [ofItems, Reading.take_verbosely]
          cases r.take .main hit none with
          | error stop => rfl
          | ok taken => exact ih taken.1

/-- The switch in front of any arguments makes their invocation verbose, and adds no mistake to
theirs. -/
theorem ofArguments_verbose (arguments : List String) :
    ofArguments ("-v" :: arguments) = (ofArguments arguments).map verbosely := by
  have item : Program.main.classify "-v" = .ok (.switch "-v" ⟨.verbose, false, none⟩) := by decide
  have items : Program.main.items ("-v" :: arguments) =
      (Program.main.items arguments).map (.switch "-v" ⟨.verbose, false, none⟩ :: ·) := by
    simp [Program.items, item]
  unfold ofArguments
  rw [items]
  cases Program.main.items arguments with
  | error problem => rfl
  | ok items => exact ofItems_verbosely .empty items

end Invocation

/-! ## The notices of a task -/

namespace Notice

/-- The events that are shown on request only. -/
def debugEvents : List String :=
  ["parsing_proto_file", "parse_failed", "write_failed"]

/-- Whether a notice is the entry of one of these events. -/
def isDebug : Notice → Bool
  | .entry e => debugEvents.contains e.event
  | .line _ => false

/-- An entry has the debug level just if its event is one of those. -/
def Regular : Notice → Prop
  | .entry e => e.level = .debug ↔ e.event ∈ debugEvents
  | .line _ => True

/-- The text of a notice whose level does not matter. -/
def text (entryText : Log.Entry → String) : Notice → String
  | .entry e => entryText e
  | .line s => s ++ "\n"

section Filters

variable {library : Log.Library} {entryText : Log.Entry → String}

theorem render_verbose (filters : library.Filters entryText) (n : Notice) :
    n.render library (.least true) = n.text entryText := by
  cases n with
  | line s => rfl
  | entry e =>
      refine filters.shown ?_
      cases e.level <;> decide

theorem render_plain (filters : library.Filters entryText) {n : Notice} (regular : n.Regular) :
    n.render library (.least false) = if n.isDebug then "" else n.text entryText := by
  cases n with
  | line s => rfl
  | entry e =>
      have level : Log.Level.least false ≤ e.level ↔ e.event ∉ debugEvents := by
        rw [← not_congr regular]
        cases e.level <;> decide
      by_cases debug : e.event ∈ debugEvents
      · have dropped : library.write (.least false) e = "" :=
          filters.hidden fun shown => level.mp shown debug
        simpa [render, isDebug, debug] using dropped
      · have kept : library.write (.least false) e = entryText e := filters.shown (level.mpr debug)
        simpa [render, text, isDebug, debug] using kept

end Filters

end Notice

/-- The notices that there are before anything is saved. -/
def Plan.notices : Plan → List Notice
  | .finish o => o.notices
  | .save _ _ notices => notices

namespace Task

open Notice

variable {fs : FileSystem} {file output message : String}

theorem regular_noticed (file : String) (result : Except DocumentError (Schema × List Warning)) :
    ∀ n ∈ noticed file result, n.Regular := by
  have reading : Regular (.entry (Schema.readingEntry file)) := by
    simp [Regular, Schema.readingEntry, debugEvents]
  have warning (w : Warning) : Regular (.entry w.entry) := by
    simp [Regular, Warning.entry, debugEvents]
  cases result with
  | error e => simpa [noticed, Schema.readingLog] using reading
  | ok read => simpa [noticed, Schema.readingLog] using ⟨reading, fun w _ => warning w⟩

theorem regular_parseNotices (file message : String) :
    ∀ n ∈ parseNotices file message, n.Regular := by
  simp [parseNotices, Regular, parseFailed, debugEvents]

theorem regular_writeNotices (output message : String) :
    ∀ n ∈ writeNotices output message, n.Regular := by
  simp [writeNotices, Regular, writeFailed, debugEvents]

theorem regular_written (output : String) : Regular (.entry (written output)) := by
  simp [Regular, written, debugEvents]

theorem regular_failure {notices : List Notice} {told : String → List Notice}
    (before : ∀ n ∈ notices, n.Regular) (report : ∀ message, ∀ n ∈ told message, n.Regular)
    (failure : Failure) : ∀ n ∈ (failure.outcome notices told).notices, n.Regular := by
  cases failure with
  | mishap m => exact before
  | reported message => exact List.forall_mem_append.mpr ⟨before, report message⟩

theorem regular_afterSave (output : String) {notices : List Notice}
    (before : ∀ n ∈ notices, n.Regular) (result : Except AccessError Unit) :
    ∀ n ∈ (afterSave output notices result).notices, n.Regular := by
  cases result with
  | error e => exact regular_failure before (regular_writeNotices output) _
  | ok done =>
      exact List.forall_mem_append.mpr
        ⟨before, List.forall_mem_singleton.mpr (regular_written output)⟩

theorem regular_planParse (limits : Limits) (file : String) (output : Output) (pretty : Bool)
    (contents : Except AccessError (List UInt8)) :
    ∀ n ∈ (planParse limits file output pretty contents).notices, n.Regular := by
  have noticed := regular_noticed file (Schema.ofContents limits.nesting contents)
  unfold planParse
  cases result : Schema.ofContents limits.nesting contents with
  | error e => exact regular_failure (result ▸ noticed) (regular_parseNotices file) _
  | ok read =>
      rw [result] at noticed
      cases rendered : read.1.render limits.calls (layout pretty) with
      | error e =>
          simp only [rendered]
          exact regular_failure noticed (regular_parseNotices file) _
      | ok document =>
          simp only [rendered]
          cases output <;> exact noticed

theorem regular_validateContents (limits : Limits) (file : String)
    (contents : Except AccessError (List UInt8)) :
    ∀ n ∈ (validateContents limits file contents).notices, n.Regular := by
  have noticed := regular_noticed file (Schema.ofContents limits.nesting contents)
  have report (message : String) : ∀ n ∈ validateNotices message, n.Regular := by
    simp [validateNotices, Regular]
  unfold validateContents
  cases result : Schema.ofContents limits.nesting contents with
  | error e => exact regular_failure (result ▸ noticed) report _
  | ok read =>
      rw [result] at noticed
      exact noticed

theorem regular_plan (limits : Limits) (contents : Except AccessError (List UInt8)) (task : Task) :
    ∀ n ∈ (task.plan limits contents).notices, n.Regular := by
  cases task with
  | parse file output pretty => exact regular_planParse limits file output pretty contents
  | validate file => exact regular_validateContents limits file contents
  | credits => exact List.forall_mem_nil _

/-- Every notice that a task makes is a line for the user or a regular entry. -/
theorem regular_run (limits : Limits) (fs : FileSystem) (task : Task) :
    ∀ n ∈ (task.run limits fs).1.notices, n.Regular := by
  unfold run
  extract_lets contents
  have planned := regular_plan limits contents task
  split
  · next o plan =>
      rw [plan] at planned
      exact planned
  · next output document notices plan =>
      rw [plan] at planned
      split
      · exact regular_afterSave output planned (.ok ())
      · next e _ => exact regular_afterSave output planned (.error e)

end Task

namespace Outcome

variable {library : Log.Library} {entryText : Log.Entry → String} {o : Outcome}

theorem stderr_verbose (filters : library.Filters entryText) (o : Outcome) :
    o.stderr library true = String.join (o.notices.map (·.text entryText)) := by
  simp only [stderr, Notice.render_verbose filters]

theorem stderr_plain (filters : library.Filters entryText) (regular : ∀ n ∈ o.notices, n.Regular) :
    o.stderr library false =
      String.join ((o.notices.filter (!·.isDebug)).map (·.text entryText)) := by
  obtain ⟨ending, stdout, notices⟩ := o
  unfold stderr
  simp only at regular ⊢
  induction notices with
  | nil => rfl
  | cons n notices ih =>
      obtain ⟨first, rest⟩ := List.forall_mem_cons.mp regular
      rw [List.map_cons, String.join_cons, ih rest, Notice.render_plain filters first]
      cases debug : n.isDebug <;> simp [debug]

end Outcome

/-- The switch for verbosity in front of a command adds to the standard error the text of the
entries that are shown on request only, and changes nothing else. -/
theorem run_verbose (limits : Limits) (fs : FileSystem) {library : Log.Library}
    {entryText : Log.Entry → String} (filters : library.Filters entryText)
    {arguments : List String} {task : Task}
    (command : Invocation.ofArguments arguments = .ok ⟨false, task⟩) :
    let plain := run limits library fs arguments
    let verbose := run limits library fs ("-v" :: arguments)
    let notices := (task.run limits fs).1.notices
    verbose.1.ending = plain.1.ending ∧ verbose.1.stdout = plain.1.stdout ∧ verbose.2 = plain.2 ∧
      (∀ n ∈ notices, n.Regular) ∧
      verbose.1.stderr = String.join (notices.map (·.text entryText)) ∧
      plain.1.stderr = String.join ((notices.filter (!·.isDebug)).map (·.text entryText)) := by
  intro plain verbose notices
  have plain_eq : plain =
      (.ofOutcome library false (task.run limits fs).1, (task.run limits fs).2) := by
    simp only [plain, run, command]
  have verbose_eq : verbose =
      (.ofOutcome library true (task.run limits fs).1, (task.run limits fs).2) := by
    simp only [verbose, run, Invocation.ofArguments_verbose, command, Except.map,
      Invocation.verbosely]
  rw [plain_eq, verbose_eq]
  have regular := Task.regular_run limits fs task
  exact ⟨rfl, rfl, rfl, regular, Outcome.stderr_verbose filters _,
    Outcome.stderr_plain filters regular⟩

/-- A file with a number that is out of range. On request a line tells of reading it, before those
of the warning and of the document that is saved. -/
theorem run_verbose_saved :
    let limits := Limits.usual
    let fs : FileSystem := ⟨[(["a"], .file (Text.Utf8.encode "enum E\x7bA=2147483648;\x7d"))], []⟩
    let arguments := ["parse", "a", "-o", "b"]
    let plain := run limits Log.console fs arguments
    let verbose := run limits Log.console fs ("-v" :: arguments)
    let shown := "[warning  ] number_out_of_range            " ++
      "col=10 fallback=0 lexeme=2147483648 line=1\n" ++
        "[info     ] json_written                   path=b\n"
    Invocation.ofArguments arguments = .ok ⟨false, .parse "a" (.file "b") false⟩ ∧
      Log.console.Filters Log.Console.text ∧ verbose.1.ending = plain.1.ending ∧
      verbose.2 = plain.2 ∧ plain.1.stderr = shown ∧
      verbose.1.stderr = "[debug    ] parsing_proto_file             path=a\n" ++ shown := by
  intro limits fs arguments plain verbose shown
  have command : Invocation.ofArguments arguments =
      .ok ⟨false, .parse "a" (.file "b") false⟩ := by decide
  have notices : (Task.run limits fs (.parse "a" (.file "b") false)).1.notices =
      [.entry (Schema.readingEntry "a"), .entry (Warning.entry ⟨"2147483648", 1, 10⟩),
        .entry (Task.written "b")] := by decide +kernel
  obtain ⟨ending, -, after, -, more, less⟩ := run_verbose limits fs Log.console_filters command
  rw [notices] at more less
  exact ⟨command, Log.console_filters, ending, after, less.trans (by decide +kernel),
    more.trans (by decide +kernel)⟩

end ProtoSchema.Command
