import CheckerAudit.Proofs.Run.Protocol

/-!
# One salt for one launch

Runs may follow one another on the same runner, each aborted anywhere. The launches of all of them,
taken together, use up the salts of the source in order, one each, and a launch, the start that is
reported for its case, the verdict on its answer and a failure that is recorded name one salt.
-/
namespace CheckerAudit

namespace SaltSource

variable {σ : Type} (source : SaltSource σ)

def drawn (state : σ) : Nat → List Salt
  | 0 => []
  | n + 1 => (source.next state).1 :: drawn (source.next state).2 n

/-- A source after some draws. -/
def after (state : σ) : Nat → σ
  | 0 => state
  | n + 1 => after (source.next state).2 n

@[simp] theorem after_add (state : σ) (m n : Nat) :
    source.after state (m + n) = source.after (source.after state m) n := by
  induction m generalizing state with
  | zero => rw [Nat.zero_add, after]
  | succ m ih => rw [Nat.succ_add, after, ih, after]

@[simp] theorem drawn_add (state : σ) (m n : Nat) :
    source.drawn state (m + n) =
      source.drawn state m ++ source.drawn (source.after state m) n := by
  induction m generalizing state with
  | zero => rw [Nat.zero_add, drawn, after, List.nil_append]
  | succ m ih => rw [Nat.succ_add, drawn, ih, drawn, after, List.cons_append]

@[simp] theorem take_drawn (state : σ) {m n : Nat} (h : m ≤ n) :
    (source.drawn state n).take m = source.drawn state m := by
  induction m generalizing state n with
  | zero => rfl
  | succ m ih =>
    cases n with
    | zero => omega
    | succ n => rw [drawn, List.take_succ_cons, ih _ (Nat.le_of_succ_le_succ h), drawn]

end SaltSource

@[simp] theorem Checker.after_append {γ : Type} (checker : Checker γ) (state : γ)
    (first later : List Invocation) :
    checker.after state (first ++ later) = checker.after (checker.after state first) later :=
  List.foldl_append

/-- The verdict of a run on the answer to one of its launches, reached with this salt. -/
inductive JudgedWith (secret : Secret) (outcome : RunOutcome) (index : Nat) (c : Case)
    (salt : Salt) (answer : Except InvokeError Outcome) : Prop where
  | passed (counted : index < outcome.passed) (verdict : Attempt.passes secret ⟨c, salt, answer⟩)
  | failed {f : CaseFailure} (ended : outcome = .aborted index f)
    (verdict : Attempt.Fails secret ⟨c, salt, answer⟩ f) (recorded : f.salt = salt)
    (derived : ∀ expected actual, f.failure = .proofMismatch expected actual →
      expected = ProofCode.derive secret.value c.task salt c.expected)

namespace Setup

variable {γ σ : Type} (s : Setup γ σ)

/-- What a run of cases from an index on leaves behind when these are the attempts that it made. -/
structure Executes (index : Nat) (r : Runner γ σ) (run : Run γ σ) (done : List Attempt) : Prop where
  counted : index ≤ run.outcome.passed
  launches : run.launches = done.map (Attempt.invocation s.plan)
  started : run.started = done.map fun a => (a.case, a.salt)
  salts : run.runner.salts = s.salts.after r.salts done.length
  judged : ∀ j a, done[j]? = some a →
    JudgedWith s.plan.secret run.outcome (index + j) a.case a.salt a.answer

theorem executes_passing {time : Duration} {index : Nat} {c : Case} {r : Runner γ σ}
    {later : Run γ σ} {done : List Attempt} (h : (s.attempt c r).passes s.plan.secret)
    (hlater : s.Executes (index + 1) (s.advance index c r .passed) later done) :
    s.Executes index r (later.prepend ((s.episode c r).passing s.plan time))
      (s.attempt c r :: done) where
  counted := Nat.le_of_succ_le hlater.counted
  launches := by simp [hlater.launches, episode]
  started := by simp [hlater.started, episode]
  salts := hlater.salts
  judged := by
    intro j a ha
    cases j with
    | zero =>
      obtain rfl := Option.some.inj ha
      exact .passed hlater.counted h
    | succ j =>
      have hjudged := hlater.judged j a (by simpa using ha)
      rwa [Nat.add_right_comm, Nat.add_assoc] at hjudged

theorem executes_failing {index : Nat} {c : Case} {r : Runner γ σ} {f : CaseFailure}
    (h : (s.attempt c r).Fails s.plan.secret f) :
    s.Executes index r
      ⟨(s.episode c r).failing s.plan f, .aborted index f, s.advance index c r .failed⟩
      [s.attempt c r] where
  counted := Nat.le_refl index
  launches := by simp [episode]
  started := by simp [episode]
  salts := rfl
  judged := by
    intro j a ha
    cases j with
    | zero =>
      obtain rfl := Option.some.inj ha
      exact .failed rfl h h.salt_eq h.derived
    | succ j => simp at ha

/-- The attempts that a run makes are the first of those it could make. -/
theorem runFrom_executes (timing : Timing) (index : Nat) (cases : List Case) (r : Runner γ σ) :
    ∃ m, m ≤ cases.length ∧ s.Executes index r (s.runFrom timing index cases r)
      ((s.attempts r.checker r.salts cases).take m) := by
  induction index, cases, r using s.runFrom_induction timing with
  | nil index r => exact ⟨0, Nat.le_refl 0, Nat.le_refl index, rfl, rfl, rfl, by simp⟩
  | passes index c rest r later h ih =>
    obtain ⟨m, hm, hlater⟩ := ih
    refine ⟨m + 1, Nat.succ_le_succ hm, ?_⟩
    rw [s.attempts_cons index c r .passed, List.take_succ_cons]
    exact s.executes_passing h hlater
  | fails index c rest r f h =>
    refine ⟨1, by simp, ?_⟩
    rw [s.attempts_cons index c r .failed, List.take_succ_cons, List.take_zero]
    exact s.executes_failing h

/-! ### The attempts that a run could make -/

theorem map_salt_attempts (checker : γ) (salts : σ) (cases : List Case) :
    (s.attempts checker salts cases).map Attempt.salt = s.salts.drawn salts cases.length := by
  induction cases generalizing checker salts with
  | nil => rfl
  | cons c rest ih => rw [attempts_eq_cons, List.map_cons, ih, List.length_cons, SaltSource.drawn]

/-- An attempt is answered by the checker as the attempts before it left it. -/
theorem answer_of_attempt {checker : γ} {salts : σ} {cases : List Case} {j : Nat} {a : Attempt}
    (h : (s.attempts checker salts cases)[j]? = some a) :
    a.answer =
      (s.checker.invoke
        (s.checker.after checker
          (((s.attempts checker salts cases).take j).map (Attempt.invocation s.plan)))
        (a.invocation s.plan)).1.value := by
  induction cases generalizing checker salts j with
  | nil => simp at h
  | cons c rest ih =>
    cases j with
    | zero =>
      obtain rfl := Option.some.inj h
      rfl
    | succ j =>
      rw [attempts_eq_cons, List.getElem?_cons_succ] at h
      rw [ih h]
      rfl

/-! ### One run -/

theorem run_executes (timing : Timing) (r : Runner γ σ) :
    ∃ m, m ≤ s.plan.cases.length ∧ s.Executes 0 r (s.run timing r)
      ((s.attempts r.checker r.salts s.plan.cases).take m) := by
  obtain ⟨m, hm, h⟩ := s.runFrom_executes timing 0 s.plan.cases r
  have hstarted : (s.run timing r).started = (s.runFrom timing 0 s.plan.cases r).started := by
    rw [Run.started, s.run_brackets, Run.started]
    simp [List.filterMap_cons, ReportEvent.started?]
  exact ⟨m, hm, h.counted, (s.run_launches timing r).trans h.launches, hstarted.trans h.started,
    h.salts, h.judged⟩

/-- A run that began with these states of the checker and the source draws one salt for each of its
launches and none besides. The launches are for the first cases of the plan, without a gap, and a
case is started and judged with the salt of its launch. -/
structure OneSaltPerLaunch (checker : γ) (salts : σ) (run : Run γ σ) : Prop where
  drawn : run.launches.map Invocation.salt = s.salts.drawn salts run.launches.length
  left : run.runner.salts = s.salts.after salts run.launches.length
  within : run.launches.length ≤ s.plan.cases.length
  inOrder : run.launches =
    List.zipWith s.plan.invocation (s.plan.cases.take run.launches.length)
      (run.launches.map Invocation.salt)
  started : run.started =
    (s.plan.cases.take run.launches.length).zip (run.launches.map Invocation.salt)
  judged : ∀ j launch, run.launches[j]? = some launch → ∃ c, s.plan.cases[j]? = some c ∧
    JudgedWith s.plan.secret run.outcome j c launch.salt
      (s.checker.invoke (s.checker.after checker (run.launches.take j)) launch).1.value

section
variable {s} {r : Runner γ σ} {run : Run γ σ} {m : Nat}
  (h : s.Executes 0 r run ((s.attempts r.checker r.salts s.plan.cases).take m))
include h

theorem Executes.launch_salts : run.launches.map Invocation.salt =
    ((s.attempts r.checker r.salts s.plan.cases).take m).map Attempt.salt := by
  rw [h.launches, List.map_map]
  rfl

/-- The answer that was judged is the one that the checker gave to the launch after those before. -/
theorem Executes.judged_launch {j : Nat} {launch : Invocation}
    (hlaunch : run.launches[j]? = some launch) :
    ∃ c, s.plan.cases[j]? = some c ∧
      JudgedWith s.plan.secret run.outcome j c launch.salt
        (s.checker.invoke (s.checker.after r.checker (run.launches.take j)) launch).1.value := by
  rw [h.launches, List.getElem?_map] at hlaunch
  obtain ⟨a, ha, rfl⟩ := Option.map_eq_some_iff.mp hlaunch
  obtain ⟨hj, hattempt⟩ : j < m ∧ (s.attempts r.checker r.salts s.plan.cases)[j]? = some a := by
    rwa [List.getElem?_take, Option.ite_none_right_eq_some] at ha
  have hbefore : run.launches.take j =
      ((s.attempts r.checker r.salts s.plan.cases).take j).map (Attempt.invocation s.plan) := by
    rw [h.launches, ← List.map_take, List.take_take, Nat.min_eq_left (Nat.le_of_lt hj)]
  have hcase : s.plan.cases[j]? = some a.case := by
    rw [← s.map_case_attempts r.checker r.salts s.plan.cases, List.getElem?_map, hattempt,
      Option.map_some]
  have hjudged := h.judged j a ha
  rw [Nat.zero_add, s.answer_of_attempt hattempt, ← hbefore] at hjudged
  exact ⟨a.case, hcase, hjudged⟩

end

theorem run_oneSaltPerLaunch (timing : Timing) (r : Runner γ σ) :
    s.OneSaltPerLaunch r.checker r.salts (s.run timing r) := by
  obtain ⟨m, hm, h⟩ := s.run_executes timing r
  have hdone : ((s.attempts r.checker r.salts s.plan.cases).take m).length = m := by
    rw [List.length_take, s.length_attempts, Nat.min_eq_left hm]
  have hcount : (s.run timing r).launches.length = m := by
    rw [h.launches, List.length_map, hdone]
  have hcases : s.plan.cases.take m =
      ((s.attempts r.checker r.salts s.plan.cases).take m).map Attempt.case := by
    rw [List.map_take, s.map_case_attempts]
  constructor
  · rw [h.launch_salts, hcount, List.map_take, s.map_salt_attempts, s.salts.take_drawn _ hm]
  · rw [h.salts, hdone, hcount]
  · rw [hcount]
    exact hm
  · rw [h.launch_salts, hcount, hcases, List.zipWith_map, List.zipWith_self, h.launches]
    rfl
  · rw [h.launch_salts, hcount, hcases, h.started, List.zip_map']
  · exact fun j launch hlaunch => h.judged_launch hlaunch

/-! ### Runs one after the other -/

/-- What the first runs launched, all together. -/
def launched (runs : List (Run γ σ)) (m : Nat) : List Invocation :=
  (runs.take m).flatMap Run.launches

theorem launched_succ (run : Run γ σ) (runs : List (Run γ σ)) (m : Nat) :
    launched (run :: runs) (m + 1) = run.launches ++ launched runs m := by
  rw [launched, List.take_succ_cons, List.flatMap_cons, launched]

theorem run_checker (timing : Timing) (r : Runner γ σ) :
    (s.run timing r).runner.checker = s.checker.after r.checker (s.run timing r).launches := by
  rw [s.run_launches]
  exact s.runFrom_checker timing 0 r s.plan.cases

/-- A run starts where the launches of the runs before it left the checker and the source. -/
theorem runs_start {timings : List Timing} {r : Runner γ σ} {m : Nat} {run : Run γ σ}
    (h : (s.runs timings r)[m]? = some run) :
    ∃ timing start, run = s.run timing start ∧
      start.checker = s.checker.after r.checker (launched (s.runs timings r) m) ∧
      start.salts = s.salts.after r.salts (launched (s.runs timings r) m).length := by
  induction timings generalizing r m with
  | nil => simp [runs] at h
  | cons timing rest ih =>
    cases m with
    | zero =>
      obtain rfl := Option.some.inj h
      exact ⟨timing, r, rfl, rfl, rfl⟩
    | succ m =>
      rw [runs, List.getElem?_cons_succ] at h
      obtain ⟨later, start, hrun, hchecker, hsalts⟩ := ih h
      refine ⟨later, start, hrun, ?_, ?_⟩
      · rw [hchecker, s.run_checker, runs, launched_succ, Checker.after_append]
      · rw [hsalts, (s.run_oneSaltPerLaunch timing r).left, runs, launched_succ,
          List.length_append, SaltSource.after_add]

theorem launched_salts (timings : List Timing) (r : Runner γ σ) (m : Nat) :
    (launched (s.runs timings r) m).map Invocation.salt =
      s.salts.drawn r.salts (launched (s.runs timings r) m).length := by
  induction timings generalizing r m with
  | nil => rw [runs, launched, List.take_nil]; rfl
  | cons timing rest ih =>
    cases m with
    | zero => rfl
    | succ m =>
      have hnow := s.run_oneSaltPerLaunch timing r
      rw [runs, launched_succ, List.map_append, List.length_append, SaltSource.drawn_add, ih,
        hnow.drawn, hnow.left]

/-- Two cases, salts that are counted up, and a checker that is lost at its second launch. -/
def lostOnce : Setup Nat Nat where
  plan := ⟨⟨"s3cr3t"⟩, "test.cfg", [⟨"first", 0, "a.log", 1⟩, ⟨"second", 0, "b.log", 2⟩]⟩
  checker := ⟨fun n _ =>
    (⟨[], if n = 1 then .error (.wait "gone") else .ok { result := some 0 }⟩, n + 1)⟩
  salts := ⟨fun n => (.nearest (.ofNat n), n + 1)⟩

end Setup

end CheckerAudit
