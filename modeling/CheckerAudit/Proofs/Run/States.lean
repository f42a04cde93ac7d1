import CheckerAudit.Proofs.Run.Protocol
import CheckerAudit.Run.Indexed

/-!
# What a runner remembers of its cases

The states are never reset: a run marks the cases that it passes and the one that it fails, and the
marks of earlier runs stay behind them. `Marks` says this of the rest of a run from an index on;
what holds between runs follows from it, and so does that no position is ever out of range.
-/
namespace CheckerAudit.Setup

variable {γ σ : Type} (s : Setup γ σ)

/-- Marking a case as running leaves no trace once its verdict is known. -/
@[simp] theorem states_advance (index : Nat) (c : Case) (r : Runner γ σ) (state : CaseState) :
    (s.advance index c r state).states = r.states.set index state := by
  rw [advance, List.set_set]

/-! ### One run -/

/-- What the rest of a run from an index on has made of the states before it. -/
structure Marks (index : Nat) (before : List CaseState) (run : Run γ σ) : Prop where
  counted : index ≤ run.outcome.passed
  launched : index + run.launches.length ≤ run.outcome.passed + 1
  length : run.runner.states.length = before.length
  earlier : ∀ i < index, run.runner.states[i]? = before[i]?
  passed : ∀ i, index ≤ i → i < run.outcome.passed → run.runner.states[i]? = some .passed
  failed : run.outcome.isSuccess = false → run.runner.states[run.outcome.passed]? = some .failed
  later : ∀ i, index + run.launches.length ≤ i → run.runner.states[i]? = before[i]?

variable {s} in
theorem marks_passing {time : Duration} {index : Nat} {c : Case} {r : Runner γ σ} {later : Run γ σ}
    (hindex : index < r.states.length) (h : Marks (index + 1) (r.states.set index .passed) later) :
    Marks index r.states (later.prepend ((s.episode c r).passing s.plan time)) := by
  have hcount : index + (later.prepend ((s.episode c r).passing s.plan time)).launches.length =
      index + 1 + later.launches.length := by
    simp only [Run.launches_passing, List.length_cons]
    omega
  constructor
  · exact Nat.le_of_succ_le h.counted
  · rw [hcount]
    exact h.launched
  · exact h.length.trans List.length_set
  · intro i hi
    have hkept := h.earlier i (Nat.lt_succ_of_lt hi)
    rwa [List.getElem?_set_ne (Nat.ne_of_gt hi)] at hkept
  · intro i hle hlt
    by_cases hi : i = index
    · subst hi
      have hmarked := h.earlier i (Nat.lt_succ_self i)
      rwa [List.getElem?_set_self hindex] at hmarked
    · exact h.passed i (by omega) hlt
  · exact h.failed
  · intro i hi
    rw [hcount] at hi
    have hkept := h.later i hi
    rwa [List.getElem?_set_ne (by omega)] at hkept

variable {s} in
theorem marks_failing {index : Nat} {c : Case} {r : Runner γ σ} {f : CaseFailure}
    (hindex : index < r.states.length) :
    Marks index r.states
      ⟨(s.episode c r).failing s.plan f, .aborted index f, s.advance index c r .failed⟩ := by
  constructor
  · exact Nat.le_refl index
  · simp
  · simp
  · intro i hi
    simp [Nat.ne_of_gt hi]
  · intro i hle hlt
    exact absurd hle (Nat.not_le_of_lt hlt)
  · intro _
    simp [hindex]
  · intro i hi
    rw [Run.launches_failing, List.length_singleton] at hi
    simp [Nat.ne_of_lt hi]

theorem runFrom_marks (timing : Timing) (index : Nat) (cases : List Case) (r : Runner γ σ)
    (hfits : index + cases.length ≤ r.states.length) :
    Marks index r.states (s.runFrom timing index cases r) := by
  induction index, cases, r using s.runFrom_induction timing with
  | nil index r =>
    exact ⟨Nat.le_refl index, Nat.le_succ index, rfl, fun _ _ => rfl,
      fun i hle hlt => absurd hle (Nat.not_le_of_lt hlt), nofun, fun _ _ => rfl⟩
  | passes index c rest r later h ih =>
    rw [List.length_cons] at hfits
    rw [states_advance] at ih
    exact marks_passing (by omega) (ih (by simp; omega))
  | fails index c rest r f h =>
    rw [List.length_cons] at hfits
    exact marks_failing (by omega)

theorem runFrom_settled (timing : Timing) (index : Nat) (cases : List Case) (r : Runner γ σ)
    (hsettled : .running ∉ r.states) :
    .running ∉ (s.runFrom timing index cases r).runner.states := by
  -- A state is written twice, and the second value is a verdict.
  have hmark (index : Nat) (c : Case) (r : Runner γ σ) {verdict : CaseState}
      (hverdict : verdict ≠ .running) (hbefore : .running ∉ r.states) :
      .running ∉ (s.advance index c r verdict).states := by
    intro hmem
    rw [states_advance] at hmem
    rcases List.mem_or_eq_of_mem_set hmem with hold | hnew
    · exact hbefore hold
    · exact hverdict hnew.symm
  induction index, cases, r using s.runFrom_induction timing with
  | nil index r => exact hsettled
  | passes index c rest r later h ih => exact ih (hmark index c r nofun hsettled)
  | fails index c rest r f h => exact hmark index c r nofun hsettled

/-! ### The positions of one run -/

theorem runCase_length (time : Duration) (index : Nat) (c : Case) (r : Runner γ σ) :
    (s.runCase time index c r).runner.states.length = r.states.length := by
  by_cases h : (s.attempt c r).passes s.plan.secret
  · simp [s.runCase_of_passes time index c r h]
  · obtain ⟨f, hf⟩ := Attempt.not_passes_iff.mp h
    simp [s.runCase_of_fails time index c r hf]

variable {s} in
theorem runAt?_eq_some {time : Duration} {position : Nat} {c : Case} {r : Runner γ σ}
    (hcase : s.plan.cases[position]? = some c) (hstates : r.states.length = s.plan.cases.length) :
    s.runAt? time position r = some (s.runCase time position c r) := by
  obtain ⟨hposition, -⟩ := List.getElem?_eq_some_iff.mp hcase
  rw [← hstates] at hposition
  rw [runAt?, hcase, List.getElem?_eq_getElem hposition]

theorem runPositions?_eq_some (timing : Timing) (index : Nat) (cases : List Case) (r : Runner γ σ)
    (hcases : s.plan.cases.drop index = cases) (hstates : r.states.length = s.plan.cases.length) :
    s.runPositions? timing index (List.range' index cases.length) r =
      some (s.runFrom timing index cases r) := by
  induction cases generalizing index r with
  | nil => rfl
  | cons c rest ih =>
    have hcase : s.plan.cases[index]? = some c := by
      rw [← List.head?_drop, hcases, List.head?_cons]
    have hrest : s.plan.cases.drop (index + 1) = rest := by
      rw [← List.tail_drop, hcases, List.tail_cons]
    have hlater := ih (index + 1) (s.runCase (timing.ofCase index) index c r).runner hrest
      ((s.runCase_length _ index c r).trans hstates)
    rw [List.length_cons, List.range'_succ, runPositions?, runAt?_eq_some hcase hstates, runFrom]
    cases hfailure : (s.runCase (timing.ofCase index) index c r).failure with
    | some failure => simp only [hfailure]
    | none => simp only [hfailure, hlater, Option.map_some]

theorem runByPosition?_eq_some (timing : Timing) (r : Runner γ σ)
    (hstates : r.states.length = s.plan.cases.length) :
    s.runByPosition? timing r = some (s.run timing r) := by
  have hbody := s.runPositions?_eq_some timing 0 s.plan.cases r List.drop_zero hstates
  rw [runByPosition?, List.range_eq_range', hbody]
  rfl

/-! ### Runs one after the other -/

theorem run_marks (timing : Timing) {r : Runner γ σ}
    (hstates : r.states.length = s.plan.cases.length) :
    Marks 0 r.states (s.run timing r) := by
  obtain ⟨counted, launched, length, earlier, passed, failed, later⟩ :=
    s.runFrom_marks timing 0 s.plan.cases r (by omega)
  rw [← s.run_launches] at launched later
  exact ⟨counted, launched, length, earlier, passed, failed, later⟩

theorem afterRuns_settled (timings : List Timing) (r : Runner γ σ)
    (hstates : r.states.length = s.plan.cases.length) (hsettled : .running ∉ r.states) :
    (s.afterRuns timings r).states.length = s.plan.cases.length ∧
      .running ∉ (s.afterRuns timings r).states := by
  induction timings generalizing r with
  | nil => exact ⟨hstates, hsettled⟩
  | cons timing rest ih =>
    apply ih
    · rw [(s.run_marks timing hstates).length, hstates]
    · exact s.runFrom_settled timing 0 s.plan.cases r hsettled

/-- A position that no run came to keeps its state through all of them. -/
theorem afterRuns_untouched (timings : List Timing) (r : Runner γ σ)
    (hstates : r.states.length = s.plan.cases.length) {i : Nat}
    (huntouched : ∀ run ∈ s.runs timings r, run.launches.length ≤ i) :
    (s.afterRuns timings r).states[i]? = r.states[i]? := by
  induction timings generalizing r with
  | nil => rfl
  | cons timing rest ih =>
    rw [runs, List.forall_mem_cons] at huntouched
    obtain ⟨hnow, hlater⟩ := huntouched
    have hmarks := s.run_marks timing hstates
    rw [afterRuns, ih _ (hmarks.length.trans hstates) hlater]
    exact hmarks.later i (by omega)

/-- After any number of runs a runner has one state for each case and none of a case under way, and
a case that no run came to is still pending. The next run marks the cases that it passes and the one
that it fails, leaves the states behind them as they were, and looks no case or state up at a
position that does not exist. -/
theorem states_tell_runs (s : Setup γ σ) (timings : List Timing) (checker : γ) (salts : σ) :
    let history := s.runs timings (s.start checker salts)
    let r := s.afterRuns timings (s.start checker salts)
    r.states.length = s.plan.cases.length ∧ .running ∉ r.states ∧
    (∀ i < s.plan.cases.length, (∀ run ∈ history, run.launches.length ≤ i) →
      r.states[i]? = some .pending) ∧
    ∀ timing,
      let run := s.run timing r
      (∀ i < run.outcome.passed, run.runner.states[i]? = some .passed) ∧
      (run.outcome.isSuccess = false →
        run.runner.states[run.outcome.passed]? = some .failed) ∧
      (∀ i, run.outcome.passed < i → run.runner.states[i]? = r.states[i]?) ∧
      s.runByPosition? timing r = some run := by
  intro history r
  have hstart : (s.start checker salts).states.length = s.plan.cases.length :=
    List.length_replicate
  have hpending : .running ∉ (s.start checker salts).states := by
    intro hmem
    exact absurd (List.eq_of_mem_replicate hmem) nofun
  obtain ⟨hlength, hsettled⟩ := s.afterRuns_settled timings _ hstart hpending
  refine ⟨hlength, hsettled, fun i hi hnever => ?_, fun timing => ?_⟩
  · have hkept := s.afterRuns_untouched timings _ hstart hnever
    rw [hkept]
    exact List.getElem?_replicate_of_lt hi
  · intro run
    have hmarks : Marks 0 r.states run := s.run_marks timing hlength
    refine ⟨fun i hi => hmarks.passed i (Nat.zero_le i) hi, hmarks.failed, fun i hi => ?_,
      s.runByPosition?_eq_some timing r hlength⟩
    have hlaunched := hmarks.launched
    exact hmarks.later i (by omega)

end CheckerAudit.Setup
