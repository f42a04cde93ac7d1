import CheckerAudit.Proofs.Run.CaseRun

/-!
# Everything a run does

The activities of a run come in blocks, one for each case that was executed: the start is reported,
the checker is launched and logs what it likes, then the verdict is logged and reported. Facts about
all blocks of a run are proved by one induction, `runFrom_induction`, whose cases are a plan that is
used up, a case that passes, and a case that fails.
-/
namespace CheckerAudit

/-- The log event of a verdict that is reported. -/
def ReportEvent.verdict? : ReportEvent → Option TraceEvent
  | .casePassed c _ => some (.casePassed c.task c.line)
  | .caseFailed f => some (.caseFailed f.case.task f.case.line f.failure.kind f.exitCode)
  | _ => none

/-- The case and the salt whose start is reported. -/
def ReportEvent.started? : ReportEvent → Option (Case × Salt)
  | .caseStarted c salt => some (c, salt)
  | _ => none

@[simp] theorem filterMap_logged (logged : List TraceEvent) :
    logged.filterMap (Activity.log? ∘ Activity.log) = logged :=
  List.filterMap_some

namespace Run

variable {γ σ : Type} (plan : Plan) (time : Duration) (f : CaseFailure) (e : Episode)
  (later : Run γ σ) (outcome : RunOutcome) (r : Runner γ σ)

/-- A run with more that was done before it. -/
def prepend (activities : List Activity) (run : Run γ σ) : Run γ σ :=
  { run with activities := activities ++ run.activities }

def verdicts (run : Run γ σ) : List TraceEvent :=
  run.reports.filterMap ReportEvent.verdict?

def started (run : Run γ σ) : List (Case × Salt) :=
  run.reports.filterMap ReportEvent.started?

@[simp] theorem reports_passing :
    (later.prepend (e.passing plan time)).reports =
      .caseStarted e.attempt.case e.attempt.salt :: .casePassed e.attempt.case time ::
        later.reports := by
  simp [reports, prepend, Episode.passing, Episode.opening, List.filterMap_cons]

@[simp] theorem reports_failing :
    (Run.mk (e.failing plan f) outcome r).reports =
      [.caseStarted e.attempt.case e.attempt.salt, .caseFailed f] := by
  simp [reports, Episode.failing, Episode.opening, List.filterMap_cons]

@[simp] theorem launches_passing :
    (later.prepend (e.passing plan time)).launches =
      e.attempt.invocation plan :: later.launches := by
  simp [launches, prepend, Episode.passing, Episode.opening, List.filterMap_cons]

@[simp] theorem launches_failing :
    (Run.mk (e.failing plan f) outcome r).launches = [e.attempt.invocation plan] := by
  simp [launches, Episode.failing, Episode.opening, List.filterMap_cons]

@[simp] theorem trace_passing :
    (later.prepend (e.passing plan time)).trace =
      e.logged ++ .casePassed e.attempt.case.task e.attempt.case.line :: later.trace := by
  simp [trace, prepend, Episode.passing, Episode.opening, List.filterMap_cons]

@[simp] theorem trace_failing :
    (Run.mk (e.failing plan f) outcome r).trace =
      e.logged ++ [.caseFailed f.case.task f.case.line f.failure.kind f.exitCode] := by
  simp [trace, Episode.failing, Episode.opening, List.filterMap_cons]

@[simp] theorem verdicts_passing :
    (later.prepend (e.passing plan time)).verdicts =
      .casePassed e.attempt.case.task e.attempt.case.line :: later.verdicts := by
  simp [verdicts, List.filterMap_cons, ReportEvent.verdict?]

@[simp] theorem verdicts_failing :
    (Run.mk (e.failing plan f) outcome r).verdicts =
      [.caseFailed f.case.task f.case.line f.failure.kind f.exitCode] := by
  simp [verdicts, List.filterMap_cons, ReportEvent.verdict?]

@[simp] theorem started_passing :
    (later.prepend (e.passing plan time)).started =
      (e.attempt.case, e.attempt.salt) :: later.started := by
  simp [started, List.filterMap_cons, ReportEvent.started?]

@[simp] theorem started_failing :
    (Run.mk (e.failing plan f) outcome r).started = [(e.attempt.case, e.attempt.salt)] := by
  simp [started, List.filterMap_cons, ReportEvent.started?]

end Run

namespace Setup

variable {γ σ : Type} (s : Setup γ σ) (timing : Timing)

section
variable {s} {c : Case} {r : Runner γ σ}

/-- After a case that passes the run goes on with the next one. -/
theorem runFrom_passing (index : Nat) (rest : List Case)
    (h : (s.attempt c r).passes s.plan.secret) :
    s.runFrom timing index (c :: rest) r =
      (s.runFrom timing (index + 1) rest (s.advance index c r .passed)).prepend
        ((s.episode c r).passing s.plan (timing.ofCase index)) := by
  rw [runFrom, s.runCase_of_passes (timing.ofCase index) index c r h]
  rfl

/-- After a case that fails nothing else is done. -/
theorem runFrom_failing (index : Nat) (rest : List Case) {f : CaseFailure}
    (h : (s.attempt c r).Fails s.plan.secret f) :
    s.runFrom timing index (c :: rest) r =
      ⟨(s.episode c r).failing s.plan f, .aborted index f, s.advance index c r .failed⟩ := by
  rw [runFrom, s.runCase_of_fails (timing.ofCase index) index c r h]

end

/-- A run of cases passes the first and goes on, fails at the first, or has none left. -/
theorem runFrom_induction {motive : Nat → List Case → Runner γ σ → Run γ σ → Prop}
    (nil : ∀ index r, motive index [] r ⟨[], .allPassed index, r⟩)
    (passes : ∀ index c rest r later, (s.attempt c r).passes s.plan.secret →
      motive (index + 1) rest (s.advance index c r .passed) later →
      motive index (c :: rest) r
        (later.prepend ((s.episode c r).passing s.plan (timing.ofCase index))))
    (fails : ∀ index c rest r f, (s.attempt c r).Fails s.plan.secret f →
      motive index (c :: rest) r
        ⟨(s.episode c r).failing s.plan f, .aborted index f, s.advance index c r .failed⟩)
    (index : Nat) (cases : List Case) (r : Runner γ σ) :
    motive index cases r (s.runFrom timing index cases r) := by
  -- The runner of the rest is the one that the first case left.
  induction cases generalizing index r with
  | nil => exact nil index r
  | cons c rest ih =>
    by_cases h : (s.attempt c r).passes s.plan.secret
    · rw [runFrom_passing timing index rest h]
      exact passes index c rest r _ h (ih (index + 1) _)
    · obtain ⟨f, hf⟩ := Attempt.not_passes_iff.mp h
      rw [runFrom_failing timing index rest hf]
      exact fails index c rest r f hf

end Setup

end CheckerAudit
