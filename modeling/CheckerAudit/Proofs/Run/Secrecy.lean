import CheckerAudit.Proofs.Run.Protocol
import CheckerAudit.Suite

/-!
# What a run tells of its secret

Two runs under different secrets are carried along side by side. As long as the same cases pass, the
only place where a secret shows is the code that a refused proof is held against: a message under
one secret becomes that under another when this code is derived anew. `Mirrors` says so of the rest
of a run, and a run that ends in any other way has no such message.
-/
namespace CheckerAudit

/-- A failure with the code that another secret asks for, where a proof was refused. -/
def CaseFailure.rederive (secret : Secret) (f : CaseFailure) : CaseFailure :=
  match f.failure with
  | .proofMismatch _ actual =>
    { f with
      failure :=
        .proofMismatch (ProofCode.derive secret.value f.case.task f.salt f.case.expected) actual }
  | _ => f

def ReportEvent.rederive (secret : Secret) : ReportEvent → ReportEvent
  | .caseFailed f => .caseFailed (f.rederive secret)
  | event => event

def RunOutcome.rederive (secret : Secret) : RunOutcome → RunOutcome
  | .aborted passed f => .aborted passed (f.rederive secret)
  | outcome => outcome

section
variable {secret secret' : Secret} {f f' : CaseFailure}

theorem CaseFailure.rederive_of_kind (h : f.failure.kind ≠ .proofMismatch) :
    f.rederive secret = f := by
  obtain ⟨c, salt, failure, output, exitCode⟩ := f
  cases failure with
  | proofMismatch expected actual => exact absurd rfl h
  | missingResult | resultMismatch | invoke => rfl

theorem CaseFailure.rederive_proofMismatch {expected : ProofCode} {actual : Option String}
    (h : f.failure = .proofMismatch expected actual) :
    let code := ProofCode.derive secret.value f.case.task f.salt f.case.expected
    f.rederive secret = { f with failure := .proofMismatch code actual } := by
  intro code
  rw [rederive, h]

theorem exists_proofMismatch_of_kind {failure : Failure} (h : failure.kind = .proofMismatch) :
    ∃ expected actual, failure = .proofMismatch expected actual := by
  cases failure with
  | proofMismatch expected actual => exact ⟨expected, actual, rfl⟩
  | missingResult | resultMismatch => cases h
  | invoke error => cases error <;> cases h

theorem RunOutcome.rederive_of_kind {outcome : RunOutcome}
    (h : ∀ f, outcome.failure? = some f → f.failure.kind ≠ .proofMismatch) :
    outcome.rederive secret = outcome := by
  cases outcome with
  | allPassed passed => rfl
  | aborted passed f => rw [rederive, CaseFailure.rederive_of_kind (h f rfl)]

@[simp] theorem ReportEvent.verdict?_rederive (event : ReportEvent) :
    (event.rederive secret).verdict? = event.verdict? := by
  cases event with
  | caseFailed f =>
    obtain ⟨c, salt, failure, output, exitCode⟩ := f
    cases failure <;> rfl
  | collected | caseStarted | casePassed | completed => rfl

@[simp] theorem RunOutcome.passed_rederive (outcome : RunOutcome) :
    (outcome.rederive secret).passed = outcome.passed := by
  cases outcome <;> rfl

@[simp] theorem RunOutcome.isSuccess_rederive (outcome : RunOutcome) :
    (outcome.rederive secret).isSuccess = outcome.isSuccess := by
  cases outcome <;> rfl

/-- An outcome that two secrets refuse is refused for one reason, up to the code asked for. -/
theorem rederive_of_refused {c : Case} {salt : Salt} {o : Outcome} {failure failure' : Failure}
    (h : evaluate secret c salt o = .error failure)
    (h' : evaluate secret' c salt o = .error failure') :
    CaseFailure.rederive secret' ⟨c, salt, failure, some o.output, o.exitCode⟩ =
      ⟨c, salt, failure', some o.output, o.exitCode⟩ := by
  cases evaluate_eq_iff.mp h with
  | missing hresult =>
    rw [evaluate_of_none hresult] at h'
    obtain rfl := Except.error.inj h'
    rfl
  | wrong hresult hdiffers =>
    rw [evaluate_of_ne hresult hdiffers] at h'
    obtain rfl := Except.error.inj h'
    rfl
  | unproved hresult hnonzero hrefused =>
    rw [evaluate_of_nonzero hresult hnonzero] at h'
    split at h'
    · cases h'
    · obtain rfl := Except.error.inj h'
      rfl

theorem Attempt.Fails.rederive {a : Attempt} (h : a.Fails secret f) (h' : a.Fails secret' f') :
    f.rederive secret' = f' := by
  cases h with
  | unanswered c salt keeps =>
    cases h' with
    | unanswered _ _ keeps' =>
      rw [InvokeError.keeps_iff] at keeps keeps'
      rw [← keeps, ← keeps']
      rfl
  | refused verdict =>
    cases h' with
    | refused verdict' => exact rederive_of_refused verdict verdict'

end

/-- Attempts under two secrets, up to the first that does not pass. Where both pass the answers are
free; where one fails both have the same answer, and neither passes. -/
inductive Lockstep (secret secret' : Secret) : List Attempt → List Attempt → Prop where
  | done : Lockstep secret secret' [] []
  | passed {a a' : Attempt} {rest rest' : List Attempt} (case : a'.case = a.case)
    (salt : a'.salt = a.salt) (accepted : a.passes secret) (accepted' : a'.passes secret')
    (later : Lockstep secret secret' rest rest') :
    Lockstep secret secret' (a :: rest) (a' :: rest')
  | failed {a a' : Attempt} {rest rest' : List Attempt} (same : a' = a)
    (refused : ¬ a.passes secret) (refused' : ¬ a'.passes secret') :
    Lockstep secret secret' (a :: rest) (a' :: rest')

variable {γ σ γ' σ' : Type}

/-- A run that does and says what another does, with the codes that its own secret asks for. -/
structure Mirrors (secret : Secret) (run : Run γ σ) (run' : Run γ' σ') : Prop where
  launches : run'.launches = run.launches
  reports : run'.reports = run.reports.map (ReportEvent.rederive secret)
  states : run'.runner.states = run.runner.states
  outcome : run'.outcome = run.outcome.rederive secret

theorem Mirrors.verdicts {secret : Secret} {run : Run γ σ} {run' : Run γ' σ'}
    (h : Mirrors secret run run') : run'.verdicts = run.verdicts := by
  have hsame : ReportEvent.verdict? ∘ ReportEvent.rederive secret = ReportEvent.verdict? :=
    funext ReportEvent.verdict?_rederive
  rw [Run.verdicts, h.reports, List.filterMap_map, hsame, Run.verdicts]

theorem Attempt.invocation_congr {plan plan' : Plan} {a a' : Attempt}
    (hconfig : plan'.config = plan.config) (hcase : a'.case = a.case) (hsalt : a'.salt = a.salt) :
    a'.invocation plan' = a.invocation plan := by
  simp only [invocation, Plan.invocation, hconfig, hcase, hsalt]

theorem mirrors_passing {secret : Secret} {plan plan' : Plan} {time : Duration} {e e' : Episode}
    {later : Run γ σ} {later' : Run γ' σ'} (hconfig : plan'.config = plan.config)
    (hcase : e'.attempt.case = e.attempt.case) (hsalt : e'.attempt.salt = e.attempt.salt)
    (h : Mirrors secret later later') :
    Mirrors secret (later.prepend (e.passing plan time))
      (later'.prepend (e'.passing plan' time)) := by
  constructor
  · simp [h.launches, Attempt.invocation_congr hconfig hcase hsalt]
  · simp [h.reports, hcase, hsalt, ReportEvent.rederive]
  · exact h.states
  · exact h.outcome

theorem mirrors_failing {secret : Secret} {plan plan' : Plan} {index : Nat} {e e' : Episode}
    {r : Runner γ σ} {r' : Runner γ' σ'} {f f' : CaseFailure} (hconfig : plan'.config = plan.config)
    (hsame : e'.attempt = e.attempt) (hstates : r'.states = r.states)
    (hf : f.rederive secret = f') :
    Mirrors secret ⟨e.failing plan f, .aborted index f, r⟩
      ⟨e'.failing plan' f', .aborted index f', r'⟩ := by
  subst hf
  constructor
  · simp [hsame, Attempt.invocation_congr (a := e.attempt) hconfig rfl rfl]
  · simp [hsame, ReportEvent.rederive]
  · exact hstates
  · rfl

namespace Setup

section
variable {s : Setup γ σ} {s' : Setup γ' σ'} {r : Runner γ σ} {r' : Runner γ' σ'}

theorem advance_states_congr (hstates : r'.states = r.states) (index : Nat) (c : Case)
    (state : CaseState) :
    (s'.advance index c r' state).states = (s.advance index c r state).states := by
  rw [advance, advance, hstates]

/-- Runs in lockstep mirror each other from any index on. -/
theorem runFrom_mirrors (timing : Timing) (index : Nat) (cases : List Case)
    (hconfig : s'.plan.config = s.plan.config) (hstates : r'.states = r.states)
    (h : Lockstep s.plan.secret s'.plan.secret (s.attempts r.checker r.salts cases)
      (s'.attempts r'.checker r'.salts cases)) :
    Mirrors s'.plan.secret (s.runFrom timing index cases r) (s'.runFrom timing index cases r') := by
  induction cases generalizing index r r' with
  | nil => exact ⟨rfl, rfl, hstates, rfl⟩
  | cons c rest ih =>
    -- The attempts at the rest are those on the runners that the first case leaves.
    rw [s.attempts_cons index c r .passed, s'.attempts_cons index c r' .passed] at h
    cases h with
    | passed case salt accepted accepted' later =>
      rw [runFrom_passing timing index rest accepted, runFrom_passing timing index rest accepted']
      have hnext : (s'.advance index c r' .passed).states = (s.advance index c r .passed).states :=
        advance_states_congr hstates index c .passed
      exact mirrors_passing hconfig case salt (ih (index + 1) hnext later)
    | failed same refused refused' =>
      obtain ⟨f, hf⟩ := Attempt.not_passes_iff.mp refused
      obtain ⟨f', hf'⟩ := Attempt.not_passes_iff.mp refused'
      rw [runFrom_failing timing index rest hf, runFrom_failing timing index rest hf']
      rw [same] at hf'
      exact mirrors_failing hconfig same (advance_states_congr hstates index c .failed)
        (hf.rederive hf')

theorem run_mirrors (timing : Timing) (hconfig : s'.plan.config = s.plan.config)
    (hcases : s'.plan.cases = s.plan.cases) (hstates : r'.states = r.states)
    (h : Lockstep s.plan.secret s'.plan.secret (s.attempts r.checker r.salts s.plan.cases)
      (s'.attempts r'.checker r'.salts s'.plan.cases)) :
    Mirrors s'.plan.secret (s.run timing r) (s'.run timing r') := by
  have hbody : Mirrors s'.plan.secret (s.runFrom timing 0 s.plan.cases r)
      (s'.runFrom timing 0 s'.plan.cases r') := by
    rw [hcases] at h ⊢
    exact runFrom_mirrors timing 0 s.plan.cases hconfig hstates h
  have houtcome : (s'.run timing r').outcome = (s.run timing r).outcome.rederive s'.plan.secret :=
    hbody.outcome
  constructor
  · simpa using hbody.launches
  · rw [run_brackets, run_brackets, hbody.reports, houtcome, hcases]
    simp [ReportEvent.rederive]
  · exact hbody.states
  · exact houtcome

end

/-- A run that ends in no refused proof reports nothing that a secret has a part in. -/
theorem rederive_reports (s : Setup γ σ) (timing : Timing) (r : Runner γ σ) {secret : Secret}
    (h : ∀ f, (s.run timing r).outcome.failure? = some f → f.failure.kind ≠ .proofMismatch) :
    (s.run timing r).reports.map (ReportEvent.rederive secret) = (s.run timing r).reports := by
  have hevent (event : ReportEvent) (hmem : event ∈ (s.run timing r).reports) :
      event.rederive secret = event := by
    cases event with
    | caseFailed f =>
      have hf := h f (s.failure?_of_mem_reports timing r hmem)
      rw [ReportEvent.rederive, CaseFailure.rederive_of_kind hf]
    | collected | caseStarted | casePassed | completed => rfl
  rw [List.map_congr_left hevent, List.map_id']

/-- The code in a failure that ends a run is the one that the secret of the run asks for. -/
theorem run_outcome_derived (s : Setup γ σ) (timing : Timing) (r : Runner γ σ) {k : Nat}
    {f : CaseFailure} (h : (s.run timing r).outcome = .aborted k f) (expected : ProofCode)
    (actual : Option String) (hf : f.failure = .proofMismatch expected actual) :
    expected = ProofCode.derive s.plan.secret.value f.case.task f.salt f.case.expected := by
  rcases s.run_outcome timing r with ⟨-, hpassed⟩ | ⟨k', a, f', -, -, hfails, haborted⟩
  · rw [hpassed] at h
    cases h
  · rw [haborted] at h
    obtain ⟨rfl, rfl⟩ := RunOutcome.aborted.inj h
    rw [hfails.case_eq, hfails.salt_eq]
    exact hfails.derived expected actual hf

/-- Take two runs whose plans differ in the secret only, case by case with the same salts, such that
both pass a case, whatever their checkers answer, or both fail it on the same answer. They launch,
log and mark the same. If they do not end in a refused proof, they report and return the same, and
no reporter writes another text. If they do, their outcomes differ in the code asked for, which each
derives under its own secret. -/
theorem run_keeps_secret (s : Setup γ σ) (s' : Setup γ' σ') (timing : Timing) (r : Runner γ σ)
    (r' : Runner γ' σ') (hplan : s'.plan = { s.plan with secret := s'.plan.secret })
    (hstates : r'.states = r.states)
    (h : Lockstep s.plan.secret s'.plan.secret (s.attempts r.checker r.salts s.plan.cases)
      (s'.attempts r'.checker r'.salts s'.plan.cases)) :
    let run := s.run timing r
    let run' := s'.run timing r'
    let logs := (s.episodes r.checker r.salts s.plan.cases).map Episode.logged
    let logs' := (s'.episodes r'.checker r'.salts s'.plan.cases).map Episode.logged
    run'.launches = run.launches ∧ run'.runner.states = run.runner.states ∧
    run.trace = withVerdicts logs run.verdicts ∧ run'.trace = withVerdicts logs' run.verdicts ∧
    ((∀ f, run.outcome.failure? = some f → f.failure.kind ≠ .proofMismatch) →
      run'.outcome = run.outcome ∧ run'.reports = run.reports ∧
      ∀ reporter : Reporter, run'.reports.map reporter.text = run.reports.map reporter.text) ∧
    ∀ k f, run.outcome = .aborted k f → f.failure.kind = .proofMismatch →
      let code (secret : Secret) :=
        ProofCode.derive secret.value f.case.task f.salt f.case.expected
      ∃ actual, f.failure = .proofMismatch (code s.plan.secret) actual ∧
        run'.outcome =
          .aborted k { f with failure := .proofMismatch (code s'.plan.secret) actual } := by
  intro run run' logs logs'
  have hconfig : s'.plan.config = s.plan.config := by rw [hplan]
  have hcases : s'.plan.cases = s.plan.cases := by rw [hplan]
  have hmirrors : Mirrors s'.plan.secret run run' := run_mirrors timing hconfig hcases hstates h
  refine ⟨hmirrors.launches, hmirrors.states, s.run_logged timing r, ?_, fun hkind => ?_,
    fun k f houtcome hkind => ?_⟩
  · rw [← hmirrors.verdicts]
    exact s'.run_logged timing r'
  · have houtcome : run'.outcome = run.outcome := by
      rw [hmirrors.outcome, RunOutcome.rederive_of_kind hkind]
    have hreports : run'.reports = run.reports := by
      rw [hmirrors.reports, s.rederive_reports timing r hkind]
    refine ⟨houtcome, hreports, fun reporter => ?_⟩
    rw [hreports]
  · intro code
    obtain ⟨expected, actual, hf⟩ := exists_proofMismatch_of_kind hkind
    refine ⟨actual, ?_, ?_⟩
    · rw [hf, s.run_outcome_derived timing r houtcome expected actual hf]
    · rw [hmirrors.outcome, houtcome, RunOutcome.rederive, CaseFailure.rederive_proofMismatch hf]

/-- Two cases, and a checker that proves the first result with this secret and gets the second one
wrong. -/
def provedThenWrong (secret : Secret) : Setup Bool Nat where
  plan := ⟨secret, "test.cfg", [⟨"first", 5, "a.log", 1⟩, ⟨"second", 0, "b.log", 2⟩]⟩
  checker := ⟨fun proved i =>
    match proved with
    | false =>
      let code := ProofCode.derive secret.value i.task i.salt 5
      (⟨[], .ok { result := some 5, proof := some code.hex }⟩, true)
    | true => (⟨[], .ok { result := some 5 }⟩, true)⟩
  salts := ⟨fun n => (.nearest (.ofNat n), n + 1)⟩

theorem provedThenWrong_first (secret : Secret) :
    ((provedThenWrong secret).attempt ⟨"first", 5, "a.log", 1⟩
      ((provedThenWrong secret).start false 1)).passes secret :=
  ⟨_, rfl, evaluate_eq_ok_iff.mpr ⟨rfl, .inr rfl⟩⟩

theorem provedThenWrong_second (secret : Secret) (salts : Nat) (states : List CaseState) :
    ((provedThenWrong secret).attempt ⟨"second", 0, "b.log", 2⟩ ⟨true, salts, states⟩).Fails secret
      ⟨⟨"second", 0, "b.log", 2⟩, .nearest (.ofNat salts), .resultMismatch 0 5, some {}, none⟩ :=
  .refused (evaluate_of_ne rfl (by decide))

theorem provedThenWrong_outcome (secret : Secret) (timing : Timing) :
    ((provedThenWrong secret).run timing ((provedThenWrong secret).start false 1)).outcome =
      .aborted 1
        ⟨⟨"second", 0, "b.log", 2⟩, .nearest (.ofNat 2), .resultMismatch 0 5, some {}, none⟩ := by
  have hbody := runFrom_passing timing 0 [⟨"second", 0, "b.log", 2⟩]
    (provedThenWrong_first secret)
  rw [runFrom_failing timing 1 [] (provedThenWrong_second secret 2 _)] at hbody
  exact congrArg Run.outcome hbody

theorem provedThenWrong_lockstep (secret secret' : Secret) :
    let s := provedThenWrong secret
    let s' := provedThenWrong secret'
    Lockstep secret secret' (s.attempts false 1 s.plan.cases)
      (s'.attempts false 1 s'.plan.cases) := by
  have hwrong (secret : Secret) :=
    Attempt.not_passes_iff.mpr ⟨_, provedThenWrong_second secret 2 []⟩
  exact .passed rfl rfl (provedThenWrong_first secret) (provedThenWrong_first secret')
    (.failed rfl (hwrong secret) (hwrong secret'))

theorem run_keeps_secret_of_honest_checkers :
    let timing : Timing := ⟨fun _ => .zero, .zero⟩
    let s := provedThenWrong ⟨"left"⟩
    let s' := provedThenWrong ⟨"right"⟩
    let run := s.run timing (s.start false 1)
    let run' := s'.run timing (s'.start false 1)
    s'.plan.secret ≠ s.plan.secret ∧ run.outcome.passed = 1 ∧ run'.outcome = run.outcome ∧
      ∀ reporter : Reporter, run'.reports.map reporter.text = run.reports.map reporter.text := by
  intro timing s s' run run'
  obtain ⟨-, -, -, -, hsame, -⟩ := run_keeps_secret s s' timing (s.start false 1)
    (s'.start false 1) rfl rfl (provedThenWrong_lockstep ⟨"left"⟩ ⟨"right"⟩)
  have hended := provedThenWrong_outcome ⟨"left"⟩ timing
  have hkind (f : CaseFailure) (hf : (s.run timing (s.start false 1)).outcome.failure? = some f) :
      f.failure.kind ≠ .proofMismatch := by
    rw [hended] at hf
    obtain rfl := Option.some.inj hf
    exact nofun
  obtain ⟨houtcome, -, htext⟩ := hsame hkind
  refine ⟨by decide, ?_, houtcome, htext⟩
  rw [hended]
  rfl

end Setup

end CheckerAudit
