import CheckerAudit.Proofs.Run.FirstFailure

/-!
# What a run reports

A reader of the reports sees the number of cases, then each executed case opened and closed once,
then the totals. The totals and the failure that is shown are those of the outcome, and the log
tells the same verdicts in the same order.
-/
namespace CheckerAudit

/-- The messages about attempts that pass, from an index on. -/
def passing (timing : Timing) (index : Nat) (attempts : List Attempt) : List ReportEvent :=
  (attempts.zipIdx index).flatMap fun (a, i) =>
    [.caseStarted a.case a.salt, .casePassed a.case (timing.ofCase i)]

/-- The messages of a run that could make these attempts and ended in this way. -/
def RunOutcome.protocol (timing : Timing) (attempts : List Attempt) :
    RunOutcome → List ReportEvent
  | .allPassed passed =>
    .collected attempts.length ::
      (passing timing 0 (attempts.take passed) ++
        [.completed ⟨attempts.length, passed, false, timing.total⟩])
  | .aborted passed f =>
    .collected attempts.length ::
      (passing timing 0 (attempts.take passed) ++
        [.caseStarted f.case f.salt, .caseFailed f,
          .completed ⟨attempts.length, passed, true, timing.total⟩])

/-- What a checker logged in each launch, followed by the verdict on the launch. -/
def withVerdicts (logs : List (List TraceEvent)) (verdicts : List TraceEvent) : List TraceEvent :=
  (List.zipWith (fun logged verdict => logged ++ [verdict]) logs verdicts).flatten

@[simp] theorem passing_cons (timing : Timing) (index : Nat) (a : Attempt)
    (attempts : List Attempt) :
    passing timing index (a :: attempts) =
      .caseStarted a.case a.salt :: .casePassed a.case (timing.ofCase index) ::
        passing timing (index + 1) attempts := by
  simp [passing, List.zipIdx_cons]

/-- The messages about the failure that ended a run. -/
def RunOutcome.failing : RunOutcome → List ReportEvent
  | .allPassed _ => []
  | .aborted _ f => [.caseStarted f.case f.salt, .caseFailed f]

namespace Setup

variable {γ σ : Type} (s : Setup γ σ) (timing : Timing) (index : Nat) (cases : List Case)
  (r : Runner γ σ)

theorem runFrom_reports :
    index ≤ (s.runFrom timing index cases r).outcome.passed ∧
      (s.runFrom timing index cases r).reports =
        passing timing index ((s.attempts r.checker r.salts cases).take
          ((s.runFrom timing index cases r).outcome.passed - index)) ++
          (s.runFrom timing index cases r).outcome.failing := by
  induction index, cases, r using s.runFrom_induction timing with
  | nil index r => exact ⟨Nat.le_refl index, by rw [attempts_nil, List.take_nil]; rfl⟩
  | passes index c rest r later h ih =>
    -- The count goes on from `index + 1`, so one attempt more is taken from here.
    obtain ⟨hle, hreports⟩ := ih
    have hcount : later.outcome.passed - index = later.outcome.passed - (index + 1) + 1 := by omega
    refine ⟨Nat.le_of_succ_le hle, ?_⟩
    change _ = passing timing index ((s.attempts r.checker r.salts (c :: rest)).take
      (later.outcome.passed - index)) ++ later.outcome.failing
    rw [Run.reports_passing, hreports, hcount, s.attempts_cons index c r .passed,
      List.take_succ_cons, passing_cons]
    rfl
  | fails index c rest r f h =>
    refine ⟨Nat.le_refl index, ?_⟩
    have hnone : (RunOutcome.aborted index f).passed - index = 0 := Nat.sub_self index
    rw [Run.reports_failing, hnone, List.take_zero, RunOutcome.failing, h.case_eq, h.salt_eq]
    rfl

theorem runFrom_trace :
    (s.runFrom timing index cases r).trace =
        withVerdicts ((s.episodes r.checker r.salts cases).map Episode.logged)
          (s.runFrom timing index cases r).verdicts ∧
      (s.runFrom timing index cases r).verdicts.length =
        (s.runFrom timing index cases r).launches.length ∧
      (s.runFrom timing index cases r).launches.length ≤ cases.length := by
  induction index, cases, r using s.runFrom_induction timing with
  | nil index r => exact ⟨rfl, rfl, Nat.le_refl 0⟩
  | passes index c rest r later h ih =>
    obtain ⟨htrace, hcount, hle⟩ := ih
    rw [Run.trace_passing, Run.verdicts_passing, Run.launches_passing, htrace,
      s.episodes_cons index c r .passed]
    refine ⟨by simp [withVerdicts], ?_, ?_⟩
    · rw [List.length_cons, List.length_cons, hcount]
    · exact Nat.succ_le_succ hle
  | fails index c rest r f h =>
    rw [Run.trace_failing, Run.verdicts_failing, Run.launches_failing,
      s.episodes_cons index c r .failed]
    exact ⟨by simp [withVerdicts], rfl, by simp⟩

/-! ### The whole run -/

/-- A run passes every case, or is aborted at the first attempt that does not pass. -/
theorem run_outcome :
    (∀ a ∈ s.attempts r.checker r.salts s.plan.cases, a.passes s.plan.secret) ∧
        (s.run timing r).outcome = .allPassed s.plan.cases.length ∨
      ∃ k a f, (s.attempts r.checker r.salts s.plan.cases)[k]? = some a ∧
        (∀ b ∈ (s.attempts r.checker r.salts s.plan.cases).take k, b.passes s.plan.secret) ∧
        a.Fails s.plan.secret f ∧ (s.run timing r).outcome = .aborted k f := by
  by_cases hall : ∀ a ∈ s.attempts r.checker r.salts s.plan.cases, a.passes s.plan.secret
  · obtain ⟨houtcome, -⟩ := s.runFrom_of_all_pass timing 0 r s.plan.cases hall
    rw [Nat.zero_add] at houtcome
    exact .inl ⟨hall, houtcome⟩
  · obtain ⟨k, a, f, ha, hbefore, hf⟩ := exists_first_failure hall
    obtain ⟨houtcome, -⟩ := s.runFrom_of_first_failure timing 0 r s.plan.cases ha hbefore hf
    rw [Nat.zero_add] at houtcome
    exact .inr ⟨k, a, f, ha, hbefore, hf, houtcome⟩

/-- The number of cases, what is reported case by case, and the totals. -/
theorem run_brackets :
    (s.run timing r).reports =
      .collected s.plan.cases.length ::
        ((s.runFrom timing 0 s.plan.cases r).reports ++
          [.completed ⟨s.plan.cases.length, (s.run timing r).outcome.passed,
            !(s.run timing r).outcome.isSuccess, timing.total⟩]) := by
  simp [Run.reports, run]

theorem run_reports :
    (s.run timing r).reports =
      (s.run timing r).outcome.protocol timing (s.attempts r.checker r.salts s.plan.cases) := by
  obtain ⟨-, hbody⟩ := s.runFrom_reports timing 0 s.plan.cases r
  have houtcome : (s.runFrom timing 0 s.plan.cases r).outcome = (s.run timing r).outcome := rfl
  rw [s.run_brackets, hbody, houtcome, Nat.sub_zero,
    ← s.length_attempts r.checker r.salts s.plan.cases]
  cases (s.run timing r).outcome with
  | allPassed passed =>
    simp [RunOutcome.protocol, RunOutcome.failing]
  | aborted passed f =>
    simp [RunOutcome.protocol, RunOutcome.failing]

/-- The only failure that is shown is the one that ended the run. -/
theorem failure?_of_mem_reports {f : CaseFailure} (h : .caseFailed f ∈ (s.run timing r).reports) :
    (s.run timing r).outcome.failure? = some f := by
  rw [s.run_reports] at h
  cases houtcome : (s.run timing r).outcome with
  | allPassed passed => simp [houtcome, RunOutcome.protocol, passing] at h
  | aborted passed failure =>
    simp only [houtcome, RunOutcome.protocol, passing] at h
    have hsame : f = failure := by simpa using h
    rw [hsame, RunOutcome.failure?]

@[simp] theorem run_launches :
    (s.run timing r).launches = (s.runFrom timing 0 s.plan.cases r).launches := by
  simp [Run.launches, run, List.filterMap_cons]

@[simp] theorem run_trace : (s.run timing r).trace = (s.runFrom timing 0 s.plan.cases r).trace := by
  simp [Run.trace, run, List.filterMap_cons]

@[simp] theorem run_verdicts :
    (s.run timing r).verdicts = (s.runFrom timing 0 s.plan.cases r).verdicts := by
  rw [Run.verdicts, s.run_brackets, Run.verdicts]
  simp [List.filterMap_cons, ReportEvent.verdict?]

/-- Each verdict is logged behind what the checker logged in its launch. -/
theorem run_logged :
    (s.run timing r).trace =
      withVerdicts ((s.episodes r.checker r.salts s.plan.cases).map Episode.logged)
        (s.run timing r).verdicts := by
  obtain ⟨htrace, -⟩ := s.runFrom_trace timing 0 s.plan.cases r
  rw [run_trace, run_verdicts]
  exact htrace

/-- The reports of a run are those of its protocol: as many cases as passed are started and passed,
the failure of the outcome is the one that is shown, and the totals are those of the outcome. The
log has one verdict for each launch, after what the checker logged in it, and these verdicts are the
reported ones in their order. -/
theorem reports_follow_protocol (s : Setup γ σ) (timing : Timing) (r : Runner γ σ) :
    let attempts := s.attempts r.checker r.salts s.plan.cases
    let logs := (s.episodes r.checker r.salts s.plan.cases).map Episode.logged
    let run := s.run timing r
    attempts.map Attempt.case = s.plan.cases ∧
    ((∀ a ∈ attempts, a.passes s.plan.secret) ∧ run.outcome = .allPassed s.plan.cases.length ∨
      ∃ k a f, attempts[k]? = some a ∧ (∀ b ∈ attempts.take k, b.passes s.plan.secret) ∧
        a.Fails s.plan.secret f ∧ f.case = a.case ∧ f.salt = a.salt ∧
        run.outcome = .aborted k f) ∧
    run.reports = run.outcome.protocol timing attempts ∧
    run.trace = withVerdicts logs run.verdicts ∧
    run.verdicts.length = run.launches.length ∧ run.launches.length ≤ s.plan.cases.length := by
  intro attempts logs run
  obtain ⟨htrace, hcount, hle⟩ := s.runFrom_trace timing 0 s.plan.cases r
  rw [← s.run_trace, ← s.run_verdicts] at htrace
  rw [← s.run_verdicts, ← s.run_launches] at hcount
  rw [← s.run_launches] at hle
  refine ⟨s.map_case_attempts _ _ _, ?_, s.run_reports timing r, htrace, hcount, hle⟩
  rcases s.run_outcome timing r with hall | ⟨k, a, f, ha, hbefore, hf, houtcome⟩
  · exact .inl hall
  · exact .inr ⟨k, a, f, ha, hbefore, hf, hf.case_eq, hf.salt_eq, houtcome⟩

end Setup

end CheckerAudit
