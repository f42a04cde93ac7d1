import CheckerAudit.CommandLine.Execute
import CheckerAudit.Proofs.Catalog.Records
import CheckerAudit.Proofs.Diagnostic
import CheckerAudit.Proofs.Run.Course

/-!
# A run starts with a whole plan or not at all

The config is read first and the catalog second; an error in either is the whole result. Then there
is no run, so nothing is launched, drawn or reported, and what the machine would have answered makes
no difference. With a plan the exit status tells the outcome, unless the clock cannot show the end
of a launch's limit: such a run breaks off.
-/
namespace CheckerAudit

/-- What is logged first: the directory of the run, or why it is not known. -/
inductive Host.Announces (host : Host) : TraceEvent → Prop where
  | found {directory : String} (h : host.directory = .ok directory) :
    Announces host (.startingRun directory)
  | unknown {e : FileError} (h : host.directory = .error e) :
    Announces host (.noCurrentDirectory e.message)

theorem Host.announces_startEvent (host : Host) : host.Announces host.startEvent := by
  unfold startEvent
  split
  · next h => exact .found h
  · next h => exact .unknown h

/-- An event about a record that was passed over. -/
def TraceEvent.isSkip : TraceEvent → Bool
  | .skippedConfigRecord .. | .skippedCatalogRecord .. => true
  | _ => false

/-! ### Loading -/

theorem Files.readText_congr {files files' : Files} {path : String}
    (h : files' path = files path) : files'.readText path = files.readText path := by
  rw [Files.readText, Files.readText, h]

theorem Secret.load_congr {files files' : Files} {path : String} (h : files' path = files path) :
    Secret.load files' path = Secret.load files path := by
  rw [Secret.load, Secret.load, Files.readText_congr h]

theorem Catalog.load_congr {files files' : Files} {path : String} (h : files' path = files path) :
    Catalog.load files' path = Catalog.load files path := by
  rw [Catalog.load, Catalog.load, Files.readText_congr h]

theorem Secret.parse_trace (source path : String) :
    ∀ event ∈ (Secret.parse source path).trace, event.isSkip = true := by
  unfold Secret.parse
  cases Record.read source with
  | error fault => exact nofun
  | ok records =>
    intro event hevent
    obtain ⟨r, -, hr⟩ := List.mem_filterMap.mp hevent
    unfold skipEvent? at hr
    split at hr
    · cases hr
    · obtain rfl := Option.some.inj hr
      rfl

theorem Secret.load_trace (files : Files) (path : String) :
    ∀ event ∈ (Secret.load files path).trace, event.isSkip = true := by
  unfold Secret.load
  cases files.readText path with
  | error cause => exact nofun
  | ok source => exact Secret.parse_trace source path

theorem Catalog.ofRecords_trace (path : String) (records : List Record) :
    ∀ event ∈ (Catalog.ofRecords path records).trace, event.isSkip = true := by
  induction records with
  | nil => exact nofun
  | cons r rest ih =>
    rcases Catalog.record_cases r with
      hskipped | ⟨task, expected, log, hfields, ⟨fault, hfault⟩ | ⟨n, hn⟩⟩
    · rw [Catalog.ofRecords_skipped path hskipped]
      exact List.forall_mem_cons.mpr ⟨rfl, ih⟩
    · rw [Catalog.ofRecords_invalid path hfields hfault]
      exact nofun
    · rw [Catalog.ofRecords_case path hfields hn]
      exact ih

theorem Catalog.parse_trace (source path : String) :
    ∀ event ∈ (Catalog.parse source path).trace, event.isSkip = true := by
  unfold Catalog.parse
  cases Record.read source with
  | error fault => exact nofun
  | ok records => exact Catalog.ofRecords_trace path records

theorem Catalog.load_trace (files : Files) (path : String) :
    ∀ event ∈ (Catalog.load files path).trace, event.isSkip = true := by
  unfold Catalog.load
  cases files.readText path with
  | error cause => exact nofun
  | ok source => exact Catalog.parse_trace source path

/-! ### Running -/

namespace Suite

variable {host : Host} {options : RunOptions}

theorem run_of_secret_error {e : ConfigError}
    (h : (Secret.load host.files options.config).value = .error e) :
    run host options = ⟨(Secret.load host.files options.config).trace, .error (.config e)⟩ := by
  have hplan : Plan.load host.files options.config options.catalog =
      ⟨(Secret.load host.files options.config).trace, .error (.config e)⟩ := by
    simp only [Plan.load, h]
  simp only [run, hplan]

theorem run_of_catalog_error {secret : Secret} {e : CatalogError}
    (hsecret : (Secret.load host.files options.config).value = .ok secret)
    (h : (Catalog.load host.files options.catalog).value = .error e) :
    run host options =
      ⟨(Secret.load host.files options.config).trace ++
        (Catalog.load host.files options.catalog).trace, .error (.catalog e)⟩ := by
  have hplan : Plan.load host.files options.config options.catalog =
      ⟨(Secret.load host.files options.config).trace ++
        (Catalog.load host.files options.catalog).trace, .error (.catalog e)⟩ := by
    simp only [Plan.load, hsecret, h]
  simp only [run, hplan]

theorem run_of_plan {secret : Secret} {cases : List Case}
    (hsecret : (Secret.load host.files options.config).value = .ok secret)
    (hcases : (Catalog.load host.files options.catalog).value = .ok cases) :
    let s := setup host options ⟨secret, options.config, cases⟩
    let went := course host options (s.run host.timing (s.start () host.words))
    run host options =
      ⟨(Secret.load host.files options.config).trace ++
        (Catalog.load host.files options.catalog).trace ++
        [.loadedPlan options.config options.catalog cases.length] ++
        went.activities.filterMap Activity.log?, .ok went⟩ := by
  have hplan : Plan.load host.files options.config options.catalog =
      ⟨(Secret.load host.files options.config).trace ++
        (Catalog.load host.files options.catalog).trace ++
        [.loadedPlan options.config options.catalog cases.length],
        .ok ⟨secret, options.config, cases⟩⟩ := by
    simp only [Plan.load, hsecret, hcases]
  simp only [run, hplan]

end Suite

namespace Setup

variable {γ σ : Type} (s : Setup γ σ) (timing : Timing) (r : Runner γ σ)

theorem isSuccess_run :
    (s.run timing r).outcome.isSuccess = true ↔
      ∀ a ∈ s.attempts r.checker r.salts s.plan.cases, a.passes s.plan.secret := by
  rcases s.run_outcome timing r with ⟨hall, houtcome⟩ | ⟨k, a, f, ha, -, hf, houtcome⟩
  · exact iff_of_true (by rw [houtcome]; rfl) hall
  · have hnot : ¬ ∀ a ∈ s.attempts r.checker r.salts s.plan.cases, a.passes s.plan.secret :=
      fun hall => Attempt.not_passes_iff.mpr ⟨f, hf⟩ (hall a (List.mem_of_getElem? ha))
    exact iff_of_false (by rw [houtcome]; exact Bool.false_ne_true) hnot

/-- The first report counts the cases and the last one sums up that many. -/
theorem run_totals :
    (s.run timing r).reports.head? = some (.collected s.plan.cases.length) ∧
      (s.run timing r).reports.getLast? =
        some (.completed ⟨s.plan.cases.length, (s.run timing r).outcome.passed,
          !(s.run timing r).outcome.isSuccess, timing.total⟩) := by
  rw [s.run_reports timing r]
  cases (s.run timing r).outcome with
  | allPassed passed =>
    simp [RunOutcome.protocol, List.getLast?_cons, List.getLast?_append]
  | aborted passed f =>
    simp [RunOutcome.protocol, List.getLast?_cons, List.getLast?_append]

end Setup

namespace CommandLine

/-- A run that cannot start. The error is the whole result, shown in its one report, and only
skipped records are logged on the way to it. -/
structure Refused (host : Host) (loading : List TraceEvent) (e : LoadError)
    (result : Traced (Except LoadError Suite.Course)) (exit : Exit) : Prop where
  result_eq : result = ⟨loading, .error e⟩
  shown : ∃ report start, (∀ text, (Diagnostic.ofLoadError e).Shows text ↔ text = report) ∧
    host.Announces start ∧ exit = ⟨"", report ++ "\n", 1, start :: loading⟩
  skips : ∀ event ∈ loading, event.isSkip = true

/-- A run over all the cases of a plan: everything it did is reported and logged, the first and the
last report count the cases, and the status is 0 if every attempt passes and 1 otherwise. -/
structure Completed (host : Host) (options : RunOptions) (plan : Plan) (loading : List TraceEvent)
    (attempts : List Attempt) (done : Run Unit (List UInt32))
    (result : Traced (Except LoadError Suite.Course)) (exit : Exit) : Prop where
  result_eq : result = ⟨loading ++ done.trace, .ok ⟨done.activities, some done.outcome⟩⟩
  stdout_eq : exit.stdout = String.join (done.reports.map (Suite.reporter options).text)
  stderr_eq : exit.stderr = ""
  logged : ∃ start, host.Announces start ∧ exit.log = start :: result.trace
  status : (∀ a ∈ attempts, a.passes plan.secret) ∧ exit.status = 0 ∨
    ¬ (∀ a ∈ attempts, a.passes plan.secret) ∧ exit.status = 1
  collected : done.reports.head? = some (.collected plan.cases.length)
  completed : done.reports.getLast? = some (.completed
    ⟨plan.cases.length, done.outcome.passed, !done.outcome.isSuccess, host.timing.total⟩)

/-- A run whose launch breaks off: what it did is a beginning of the run that it would have been,
with the attempts before reported as passed, and it is said why there is no more. -/
structure BrokenOff (host : Host) (options : RunOptions) (plan : Plan) (loading : List TraceEvent)
    (attempts : List Attempt) (done : Run Unit (List UInt32)) (j : Nat) (a : Attempt)
    (activities : List Activity) (result : Traced (Except LoadError Suite.Course)) (exit : Exit) :
    Prop where
  beginning : activities <+: done.activities
  reports : activities.filterMap Activity.report? =
    .collected plan.cases.length ::
      (passing host.timing 0 (attempts.take j) ++ [.caseStarted a.case a.salt])
  launches : activities.filterMap Activity.launch? =
    (attempts.take (j + 1)).map (Attempt.invocation plan)
  result_eq : result =
    ⟨loading ++ activities.filterMap Activity.log?, .ok ⟨activities, none⟩⟩
  exit_eq : ∃ start, host.Announces start ∧ exit =
    ⟨String.join ((activities.filterMap Activity.report?).map (Suite.reporter options).text),
      "overflow when adding duration to instant\n", 101, start :: result.trace⟩

theorem perform_run_of_error {host : Host} {values : Values} {e : LoadError}
    {trace : List TraceEvent}
    (h : Suite.run host (values.runOptions host.terminal) = ⟨trace, .error e⟩) (named : Bool) :
    perform host (.run named values) = .ofLoadError (host.startEvent :: trace) e := by
  simp only [perform, runSuite, h]

theorem perform_run_of_whole {host : Host} {values : Values} {activities : List Activity}
    {outcome : RunOutcome} {trace : List TraceEvent}
    (h : Suite.run host (values.runOptions host.terminal) =
      ⟨trace, .ok ⟨activities, some outcome⟩⟩) (named : Bool) :
    perform host (.run named values) =
      { stdout := String.join ((activities.filterMap Activity.report?).map
          (Suite.reporter (values.runOptions host.terminal)).text)
        status := if outcome.isSuccess then 0 else 1
        log := host.startEvent :: trace } := by
  simp only [perform, runSuite, h]

theorem perform_run_of_broken {host : Host} {values : Values} {activities : List Activity}
    {trace : List TraceEvent}
    (h : Suite.run host (values.runOptions host.terminal) = ⟨trace, .ok ⟨activities, none⟩⟩)
    (named : Bool) :
    perform host (.run named values) =
      { stdout := String.join ((activities.filterMap Activity.report?).map
          (Suite.reporter (values.runOptions host.terminal)).text)
        stderr := "overflow when adding duration to instant\n"
        status := 101
        log := host.startEvent :: trace } := by
  simp only [perform, runSuite, h]
  rfl

theorem refused_of_error {host : Host} {values : Values} {e : LoadError}
    {loading : List TraceEvent}
    (h : Suite.run host (values.runOptions host.terminal) = ⟨loading, .error e⟩)
    (hskips : ∀ event ∈ loading, event.isSkip = true) (named : Bool) :
    Refused host loading e (Suite.run host (values.runOptions host.terminal))
      (perform host (.run named values)) where
  result_eq := h
  shown := ⟨_, _, fun _ => Diagnostic.shows_iff, host.announces_startEvent,
    perform_run_of_error h named⟩
  skips := hskips

/-- With a secret and cases there is a run over all of them, or up to the launch that breaks off. -/
theorem run_started {host : Host} {values : Values} {found : Secret} {cases : List Case}
    (hsecret : (Secret.load host.files (values.runOptions host.terminal).config).value = .ok found)
    (hcases : (Catalog.load host.files (values.runOptions host.terminal).catalog).value = .ok cases)
    (named : Bool) :
    let options := values.runOptions host.terminal
    let plan : Plan := ⟨found, options.config, cases⟩
    let s := Suite.setup host options plan
    let attempts := s.attempts () host.words cases
    let done := s.run host.timing (s.start () host.words)
    let loading := (Secret.load host.files options.config).trace ++
      (Catalog.load host.files options.catalog).trace ++
      [.loadedPlan options.config options.catalog cases.length]
    let result := Suite.run host options
    let exit := perform host (.run named values)
    (∀ j a, ¬ Suite.BreaksAt host options plan j a) ∧
        Completed host options plan loading attempts done result exit ∨
      ∃ j a activities, Suite.BreaksAt host options plan j a ∧
        (∀ i b, i < j → ¬ Suite.BreaksAt host options plan i b) ∧
        BrokenOff host options plan loading attempts done j a activities result exit := by
  intro options plan s attempts done loading result exit
  have hrun : result = ⟨loading ++ (Suite.course host options done).activities.filterMap
      Activity.log?, .ok (Suite.course host options done)⟩ := Suite.run_of_plan hsecret hcases
  rcases Suite.course_cases host options plan with
    ⟨hnone, hwent⟩ | ⟨j, a, activities, hbreaks, hfirst, hwent, hbeginning, hreports, hlaunches⟩
  · change Suite.course host options done = _ at hwent
    rw [hwent] at hrun
    have hexit : exit = _ := perform_run_of_whole hrun named
    have hsuccess : done.outcome.isSuccess = true ↔ ∀ a ∈ attempts, a.passes found :=
      s.isSuccess_run host.timing (s.start () host.words)
    obtain ⟨hcollected, hcompleted⟩ := s.run_totals host.timing (s.start () host.words)
    refine .inl ⟨hnone, hrun, by rw [hexit]; rfl, by rw [hexit],
      ⟨_, host.announces_startEvent, by rw [hexit, hrun]⟩, ?_, hcollected, hcompleted⟩
    rw [hexit]
    by_cases hpassed : ∀ a ∈ attempts, a.passes found
    · exact .inl ⟨hpassed, if_pos (hsuccess.mpr hpassed)⟩
    · exact .inr ⟨hpassed, if_neg fun hdone => hpassed (hsuccess.mp hdone)⟩
  · change Suite.course host options done = _ at hwent
    rw [hwent] at hrun
    have hexit : exit = _ := perform_run_of_broken hrun named
    exact .inr ⟨j, a, activities, hbreaks, hfirst, hbeginning, hreports, hlaunches, hrun,
      ⟨_, host.announces_startEvent, by rw [hexit, hrun]⟩⟩

/-- The clock ends before the longest limit does. -/
example :
    let files : Files := fun path =>
      if path = "default.cfg" then .ok (Text.Utf8.encode "secret:s".toList)
      else .ok (Text.Utf8.encode "t:0:a.log".toList)
    let host : Host := ⟨files, fun _ _ => .ok [], [1], ⟨fun _ => .zero, .zero⟩, false, .ok "/",
      fun _ => .zero⟩
    (execute host ["run", "--timeout", "18446744073709551615"]).status = 101 := by
  decide +kernel

end CommandLine

end CheckerAudit
