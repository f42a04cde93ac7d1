import CheckerAudit.Proofs.Run.Activities

/-!
# A run stops at its first failure

The outcome of a run is read off the attempts: the salts drawn and the answers given if no verdict
ever stopped the loop. Nothing is assumed of the checker or the salt source, which may keep any
state, nor of the runner, which may be left over from earlier runs.
-/
namespace CheckerAudit.Setup

variable {γ σ : Type} (s : Setup γ σ) (timing : Timing) (index : Nat) (r : Runner γ σ)
  (cases : List Case)

/-- With no failure every case is launched and counted. -/
theorem runFrom_of_all_pass
    (h : ∀ a ∈ s.attempts r.checker r.salts cases, a.passes s.plan.secret) :
    (s.runFrom timing index cases r).outcome = .allPassed (index + cases.length) ∧
      (s.runFrom timing index cases r).launches =
        (s.attempts r.checker r.salts cases).map (Attempt.invocation s.plan) := by
  induction cases generalizing index r with
  | nil => exact ⟨rfl, rfl⟩
  | cons c rest ih =>
    rw [s.attempts_cons index c r .passed] at h ⊢
    obtain ⟨hc, hrest⟩ := List.forall_mem_cons.mp h
    obtain ⟨houtcome, hlaunches⟩ := ih (index + 1) _ hrest
    have hcount : index + 1 + rest.length = index + (rest.length + 1) := by omega
    rw [hcount] at houtcome
    rw [runFrom_passing timing index rest hc, Run.launches_passing, hlaunches]
    exact ⟨houtcome, rfl⟩

/-- The first failure ends the run, with as many cases passed as lie before it. -/
theorem runFrom_of_first_failure {k : Nat} {a : Attempt} {f : CaseFailure}
    (ha : (s.attempts r.checker r.salts cases)[k]? = some a)
    (hbefore : ∀ b ∈ (s.attempts r.checker r.salts cases).take k, b.passes s.plan.secret)
    (hf : a.Fails s.plan.secret f) :
    (s.runFrom timing index cases r).outcome = .aborted (index + k) f ∧
      (s.runFrom timing index cases r).launches =
        ((s.attempts r.checker r.salts cases).take (k + 1)).map (Attempt.invocation s.plan) := by
  induction cases generalizing index r k with
  | nil => simp at ha
  | cons c rest ih =>
    cases k with
    | zero =>
      rw [s.attempts_cons index c r .failed] at ha ⊢
      obtain rfl := Option.some.inj ha
      rw [runFrom_failing timing index rest hf, Run.launches_failing]
      exact ⟨rfl, rfl⟩
    | succ k =>
      rw [s.attempts_cons index c r .passed] at ha hbefore ⊢
      rw [List.getElem?_cons_succ] at ha
      rw [List.take_succ_cons] at hbefore
      obtain ⟨hc, hrest⟩ := List.forall_mem_cons.mp hbefore
      obtain ⟨houtcome, hlaunches⟩ := ih (index + 1) _ ha hrest
      have hcount : index + 1 + k = index + (k + 1) := by omega
      rw [hcount] at houtcome
      rw [runFrom_passing timing index rest hc, Run.launches_passing, hlaunches,
        List.take_succ_cons, List.map_cons]
      exact ⟨houtcome, rfl⟩

/-- The checker has answered the launches of the run and nothing else. -/
theorem runFrom_checker :
    (s.runFrom timing index cases r).runner.checker =
      s.checker.after r.checker (s.runFrom timing index cases r).launches := by
  induction index, cases, r using s.runFrom_induction timing with
  | nil index r => rfl
  | passes index c rest r later h ih =>
    rw [Run.launches_passing]
    exact ih
  | fails index c rest r f h =>
    rw [Run.launches_failing]
    rfl

/-- Where attempts do not all pass there is a first one that does not. -/
theorem exists_first_failure {secret : Secret} {attempts : List Attempt}
    (h : ¬ ∀ a ∈ attempts, a.passes secret) :
    ∃ k a f, attempts[k]? = some a ∧ (∀ b ∈ attempts.take k, b.passes secret) ∧
      a.Fails secret f := by
  induction attempts with
  | nil => simp at h
  | cons a rest ih =>
    by_cases ha : a.passes secret
    · obtain ⟨k, b, f, hb, hbefore, hf⟩ := ih fun hall => h (by simpa [ha] using hall)
      refine ⟨k + 1, b, f, by simpa using hb, ?_, hf⟩
      simpa [ha] using hbefore
    · obtain ⟨f, hf⟩ := Attempt.not_passes_iff.mp ha
      exact ⟨0, a, f, rfl, by simp, hf⟩

/-- A run is all passed exactly when every attempt passes. Otherwise it is aborted at the first
attempt that does not, which fills the failure record, and nothing after it was launched; the
checker has answered just the launches that the run lists. -/
theorem run_stops_at_first_failure (s : Setup γ σ) (timing : Timing) (r : Runner γ σ) :
    let attempts := s.attempts r.checker r.salts s.plan.cases
    let run := s.run timing r
    (run.outcome = .allPassed s.plan.cases.length ↔ ∀ a ∈ attempts, a.passes s.plan.secret) ∧
    (run.outcome = .allPassed s.plan.cases.length ∧
        run.launches = attempts.map (Attempt.invocation s.plan) ∨
      ∃ k a f, attempts[k]? = some a ∧ (∀ b ∈ attempts.take k, b.passes s.plan.secret) ∧
        ¬ a.passes s.plan.secret ∧ a.Fails s.plan.secret f ∧
        s.plan.cases[k]? = some f.case ∧ run.outcome = .aborted k f ∧
        run.launches = (attempts.take (k + 1)).map (Attempt.invocation s.plan) ∧
        run.launches.length = k + 1) ∧
    run.runner.checker = s.checker.after r.checker run.launches := by
  intro attempts run
  have hlaunches : run.launches = (s.runFrom timing 0 s.plan.cases r).launches := by
    simp [run, Run.launches, Setup.run, List.filterMap_cons]
  have houtcome : run.outcome = (s.runFrom timing 0 s.plan.cases r).outcome := rfl
  have hchecker : run.runner.checker = s.checker.after r.checker run.launches := by
    rw [hlaunches]
    exact s.runFrom_checker timing 0 r s.plan.cases
  by_cases hall : ∀ a ∈ attempts, a.passes s.plan.secret
  · obtain ⟨ho, hl⟩ := s.runFrom_of_all_pass timing 0 r s.plan.cases hall
    rw [Nat.zero_add, ← houtcome] at ho
    rw [← hlaunches] at hl
    exact ⟨iff_of_true ho hall, .inl ⟨ho, hl⟩, hchecker⟩
  · obtain ⟨k, a, f, ha, hbefore, hf⟩ := exists_first_failure hall
    obtain ⟨ho, hl⟩ := s.runFrom_of_first_failure timing 0 r s.plan.cases ha hbefore hf
    rw [Nat.zero_add, ← houtcome] at ho
    rw [← hlaunches] at hl
    have hcase : s.plan.cases[k]? = some f.case := by
      have hmap := congrArg (Option.map Attempt.case) ha
      rw [← List.getElem?_map, s.map_case_attempts, Option.map_some, ← hf.case_eq] at hmap
      exact hmap
    have hk : k < attempts.length := (List.getElem?_eq_some_iff.mp ha).1
    have hcount : run.launches.length = k + 1 := by
      rw [hl, List.length_map]
      exact List.length_take_of_le hk
    have haborted : run.outcome ≠ .allPassed s.plan.cases.length := by
      rw [ho]
      exact RunOutcome.noConfusion
    exact ⟨iff_of_false haborted hall, .inr ⟨k, a, f, ha, hbefore,
      Attempt.not_passes_iff.mpr ⟨f, hf⟩, hf, hcase, ho, hl, hcount⟩, hchecker⟩

end CheckerAudit.Setup
