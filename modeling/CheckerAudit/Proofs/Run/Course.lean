import CheckerAudit.Proofs.Run.Protocol
import CheckerAudit.Suite

/-!
# A run whose launches can break off

Each executed case has one launch, so the launches of a run are numbered like its cases. A run
either has no launch that breaks off, and then it is done as a whole, or it ends with the first one
that does. What is done until then is a beginning of the run that it would have been.
-/
namespace CheckerAudit

/-- An attempt is reached in a run when every attempt before it passes. -/
structure Attempt.Reached (secret : Secret) (attempts : List Attempt) (j : Nat) (a : Attempt) :
    Prop where
  present : attempts[j]? = some a
  passed : ∀ b ∈ attempts.take j, b.passes secret

namespace Attempt

/-- What is done for an attempt whose launch breaks off. -/
def cut (plan : Plan) (begun : TraceEvent) (a : Attempt) : List Activity :=
  [.report (.caseStarted a.case a.salt), .launch (a.invocation plan), .log begun]

variable {secret : Secret} {attempts : List Attempt} {j : Nat} {a b : Attempt}

theorem not_reached_nil : ¬ Reached secret [] j a :=
  fun h => by simpa using h.present

theorem reached_zero : Reached secret (a :: attempts) 0 b ↔ a = b :=
  ⟨fun h => Option.some.inj h.present, fun h => ⟨congrArg some h, by simp⟩⟩

theorem reached_succ :
    Reached secret (a :: attempts) (j + 1) b ↔ a.passes secret ∧ Reached secret attempts j b := by
  constructor
  · rintro ⟨hpresent, hpassed⟩
    rw [List.take_succ_cons] at hpassed
    obtain ⟨ha, hrest⟩ := List.forall_mem_cons.mp hpassed
    exact ⟨ha, by simpa using hpresent, hrest⟩
  · rintro ⟨ha, hpresent, hpassed⟩
    refine ⟨by simpa using hpresent, ?_⟩
    rw [List.take_succ_cons]
    exact List.forall_mem_cons.mpr ⟨ha, hpassed⟩

end Attempt

namespace Suite

section
variable {breaks : Nat → Invocation → Bool} {announce : Invocation → TraceEvent} {number : Nat}
  {quiet activities rest : List Activity}

/-! ### Activities without a launch -/

theorem untilBreak?_quiet (h : ∀ a ∈ quiet, a.launch? = none) :
    untilBreak? breaks announce number (quiet ++ rest) =
      (untilBreak? breaks announce number rest).map (quiet ++ ·) := by
  induction quiet with
  | nil => simp
  | cons a quiet ih =>
    obtain ⟨ha, hquiet⟩ := List.forall_mem_cons.mp h
    cases a with
    | launch i => cases ha
    | report event | log event =>
      simp only [List.cons_append, untilBreak?, ih hquiet, Option.map_map]
      rfl

theorem untilBreak?_append_quiet (h : ∀ a ∈ quiet, a.launch? = none) :
    untilBreak? breaks announce number (activities ++ quiet) =
      untilBreak? breaks announce number activities := by
  induction activities generalizing number with
  | nil =>
    have hnil : untilBreak? breaks announce number (quiet ++ []) = _ := untilBreak?_quiet h
    simpa [untilBreak?] using hnil
  | cons a activities ih =>
    cases a with
    | launch i => simp only [List.cons_append, untilBreak?, ih]
    | report event | log event => simp only [List.cons_append, untilBreak?, ih]

/-! ### The activities for one case -/

/-- The launch of a case is the one launch among what is done for it. -/
theorem untilBreak?_block (plan : Plan) (e : Episode) {verdict : List Activity}
    (h : ∀ a ∈ verdict, a.launch? = none) :
    untilBreak? breaks announce number (e.opening plan ++ verdict ++ rest) =
      if breaks number (e.attempt.invocation plan) then
        some (e.attempt.cut plan (announce (e.attempt.invocation plan)))
      else
        (untilBreak? breaks announce (number + 1) rest).map (e.opening plan ++ verdict ++ ·) := by
  have hquiet : ∀ a ∈ e.logged.map Activity.log ++ verdict, a.launch? = none :=
    List.forall_mem_append.mpr ⟨by simp, h⟩
  have hrest : untilBreak? breaks announce (number + 1)
      (e.logged.map Activity.log ++ verdict ++ rest) = _ := untilBreak?_quiet hquiet
  simp only [Episode.opening, List.cons_append, untilBreak?, hrest]
  split
  · rfl
  · simp only [Option.map_map]
    rfl

theorem untilBreak?_passing (plan : Plan) (time : Duration) (e : Episode) :
    untilBreak? breaks announce number (e.passing plan time ++ rest) =
      if breaks number (e.attempt.invocation plan) then
        some (e.attempt.cut plan (announce (e.attempt.invocation plan)))
      else (untilBreak? breaks announce (number + 1) rest).map (e.passing plan time ++ ·) :=
  untilBreak?_block plan e (by simp)

theorem untilBreak?_failing (plan : Plan) (f : CaseFailure) (e : Episode) :
    untilBreak? breaks announce number (e.failing plan f) =
      if breaks number (e.attempt.invocation plan) then
        some (e.attempt.cut plan (announce (e.attempt.invocation plan)))
      else none := by
  rw [← List.append_nil (e.failing plan f)]
  exact untilBreak?_block plan e (by simp)

end

/-! ### A whole run -/

/-- What is done when a launch breaks off: the attempts before it are reported as passed, its own
start is reported, and it is the last launch. -/
structure CutAt {γ σ : Type} (plan : Plan) (timing : Timing) (index : Nat)
    (attempts : List Attempt) (run : Run γ σ) (j : Nat) (a : Attempt) (cut : List Activity) :
    Prop where
  beginning : cut <+: run.activities
  reports : cut.filterMap Activity.report? =
    passing timing index (attempts.take j) ++ [.caseStarted a.case a.salt]
  launches : cut.filterMap Activity.launch? =
    (attempts.take (j + 1)).map (Attempt.invocation plan)

/-- What can become of a run from an index on: no launch that it reaches breaks off, or it is cut at
the first that does. -/
inductive Fares {γ σ : Type} (plan : Plan) (timing : Timing) (breaks : Nat → Invocation → Bool)
    (index : Nat) (attempts : List Attempt) (run : Run γ σ) : Option (List Activity) → Prop where
  | whole
    (none : ∀ j a, Attempt.Reached plan.secret attempts j a →
      breaks (index + j) (a.invocation plan) = false) :
    Fares plan timing breaks index attempts run .none
  | broken {j : Nat} {a : Attempt} {cut : List Activity}
    (reached : Attempt.Reached plan.secret attempts j a)
    (breaks_off : breaks (index + j) (a.invocation plan) = true)
    (first : ∀ i b, i < j → Attempt.Reached plan.secret attempts i b →
      breaks (index + i) (b.invocation plan) = false)
    (cut_at : CutAt plan timing index attempts run j a cut) :
    Fares plan timing breaks index attempts run (some cut)

namespace Fares

variable {γ σ : Type} {plan : Plan} {timing : Timing} {breaks : Nat → Invocation → Bool}
  {index : Nat} {run : Run γ σ} {e : Episode} {later : List Attempt}

/-- The first launch breaks off. -/
theorem of_first {begun : TraceEvent} (hlogged : e.logged.head? = some begun)
    (hrun : e.opening plan <+: run.activities)
    (h : breaks index (e.attempt.invocation plan) = true) :
    Fares plan timing breaks index (e.attempt :: later) run
      (some (e.attempt.cut plan begun)) := by
  refine .broken (Attempt.reached_zero.mpr rfl) h
    (fun i b hi => absurd hi (Nat.not_lt_zero i)) ⟨?_, rfl, rfl⟩
  obtain ⟨more, hmore⟩ := List.head?_eq_some_iff.mp hlogged
  refine .trans ⟨more.map .log, ?_⟩ hrun
  rw [Episode.opening, hmore]
  rfl

/-- The first attempt fails, so no other is reached. -/
theorem of_failing {f : CaseFailure} (hf : e.attempt.Fails plan.secret f)
    (h : breaks index (e.attempt.invocation plan) = false) :
    Fares plan timing breaks index (e.attempt :: later) run none := by
  refine .whole fun j a hreached => ?_
  cases j with
  | zero =>
    obtain rfl := Attempt.reached_zero.mp hreached
    exact h
  | succ j => exact absurd (Attempt.reached_succ.mp hreached).1 (Attempt.not_passes_iff.mpr ⟨f, hf⟩)

/-- The first attempt passes, and the rest fares as it does from the next index on. -/
theorem passing {cut : Option (List Activity)}
    (h : breaks index (e.attempt.invocation plan) = false)
    (hpasses : e.attempt.passes plan.secret)
    (hlater : Fares plan timing breaks (index + 1) later run cut) :
    Fares plan timing breaks index (e.attempt :: later)
      (run.prepend (e.passing plan (timing.ofCase index)))
      (cut.map (e.passing plan (timing.ofCase index) ++ ·)) := by
  have hcount (j : Nat) : index + 1 + j = index + (j + 1) := by omega
  -- An attempt that is reached is the first one, which does not break off, or is reached among the
  -- others.
  have hcases {j : Nat} {a : Attempt}
      (hreached : Attempt.Reached plan.secret (e.attempt :: later) j a)
      (hothers : ∀ i, j = i + 1 → Attempt.Reached plan.secret later i a →
        breaks (index + 1 + i) (a.invocation plan) = false) :
      breaks (index + j) (a.invocation plan) = false := by
    cases j with
    | zero =>
      obtain rfl := Attempt.reached_zero.mp hreached
      exact h
    | succ i =>
      rw [← hcount]
      exact hothers i rfl (Attempt.reached_succ.mp hreached).2
  cases hlater with
  | whole hnone => exact .whole fun j a hreached => hcases hreached fun i _ => hnone i a
  | @broken j a cut hreached hbreaks hfirst hcut =>
    refine .broken (j := j + 1) (Attempt.reached_succ.mpr ⟨hpasses, hreached⟩)
      (by rw [← hcount]; exact hbreaks) (fun i b hi hb => hcases hb fun k hk => ?_) ⟨?_, ?_, ?_⟩
    · exact hfirst k b (by omega)
    · exact (List.prefix_append_right_inj _).mpr hcut.beginning
    · rw [List.filterMap_append, hcut.reports, List.take_succ_cons, passing_cons]
      simp [Episode.passing, Episode.opening, List.filterMap_cons]
    · rw [List.filterMap_append, hcut.launches, List.take_succ_cons, List.map_cons]
      simp [Episode.passing, Episode.opening, List.filterMap_cons]

end Fares

theorem fares_runFrom {γ σ : Type} (s : Setup γ σ) (timing : Timing)
    (breaks : Nat → Invocation → Bool) {announce : Invocation → TraceEvent}
    (hannounce : ∀ state i, (s.checker.invoke state i).1.trace.head? = some (announce i))
    (index : Nat) (cases : List Case) (r : Runner γ σ) :
    Fares s.plan timing breaks index (s.attempts r.checker r.salts cases)
      (s.runFrom timing index cases r)
      (untilBreak? breaks announce index (s.runFrom timing index cases r).activities) := by
  induction index, cases, r using s.runFrom_induction timing with
  | nil index r => exact .whole fun j a h => absurd h Attempt.not_reached_nil
  | passes index c rest r later h ih =>
    rw [s.attempts_cons index c r .passed]
    change Fares _ _ _ _ _ _ (untilBreak? breaks announce index
      ((s.episode c r).passing s.plan (timing.ofCase index) ++ later.activities))
    rw [untilBreak?_passing]
    split
    · next hbreaks =>
      have hrun : (s.episode c r).opening s.plan <+:
          ((s.episode c r).passing s.plan (timing.ofCase index) ++ later.activities) :=
        (List.prefix_append _ _).trans (List.prefix_append _ _)
      exact .of_first (hannounce _ _) hrun hbreaks
    · next hgoes => exact .passing (Bool.eq_false_iff.mpr hgoes) h ih
  | fails index c rest r f h =>
    rw [s.attempts_cons index c r .failed, untilBreak?_failing]
    split
    · next hbreaks =>
      exact .of_first (hannounce _ _) (List.prefix_append _ _) hbreaks
    · next hgoes => exact .of_failing h (Bool.eq_false_iff.mpr hgoes)

/-- The number of cases and the totals stand around the cases, so a run is cut like these. -/
theorem untilBreak?_run {γ σ : Type} (s : Setup γ σ) (timing : Timing)
    (breaks : Nat → Invocation → Bool) (announce : Invocation → TraceEvent) (r : Runner γ σ) :
    untilBreak? breaks announce 0 (s.run timing r).activities =
      (untilBreak? breaks announce 0 (s.runFrom timing 0 s.plan.cases r).activities).map
        (.report (.collected s.plan.cases.length) :: ·) := by
  simp only [Setup.run, untilBreak?]
  rw [untilBreak?_append_quiet (by simp)]

/-- A launch that breaks off: it is reached, the program starts, and the end of its limit lies
beyond the end of the clock. -/
structure BreaksAt (host : Host) (options : RunOptions) (plan : Plan) (j : Nat) (a : Attempt) :
    Prop where
  reached : Attempt.Reached plan.secret
    ((setup host options plan).attempts () host.words plan.cases) j a
  starts : ∃ events,
    host.launch ⟨options.checker, (a.invocation plan).arguments⟩ options.wait = .ok events
  overflows : ∃ limit, options.wait = .limit limit ∧
    9223372036854775808 * 1000000000 ≤ (host.clock j).sinceStart.toNanos + limit.toNanos

theorem breaksAt_iff {host : Host} {options : RunOptions} {plan : Plan} {j : Nat} {a : Attempt} :
    BreaksAt host options plan j a ↔
      Attempt.Reached plan.secret
          ((setup host options plan).attempts () host.words plan.cases) j a ∧
        ProcessChecker.breaksOff ⟨options.checker, options.wait⟩ host.launch (host.clock j)
          (a.invocation plan) = true := by
  rw [ProcessChecker.breaksOff_iff]
  exact ⟨fun ⟨hreached, hstarts, hoverflows⟩ => ⟨hreached, hstarts, hoverflows⟩,
    fun ⟨hreached, hstarts, hoverflows⟩ => ⟨hreached, hstarts, hoverflows⟩⟩

theorem head?_trace_invoke (checker : ProcessChecker) (launch : Launcher) (i : Invocation) :
    (checker.invoke launch i).trace.head? = some (checker.announcement i) := by
  unfold ProcessChecker.invoke
  split
  · rfl
  · split <;> rfl

section
variable {host : Host} {options : RunOptions} {done : Run Unit (List UInt32)}

theorem course_of_none (h : broken? host options done.activities = none) :
    course host options done = ⟨done.activities, some done.outcome⟩ := by
  rw [course, h]

theorem course_of_some {cut : List Activity} (h : broken? host options done.activities = some cut) :
    course host options done = ⟨cut, none⟩ := by
  rw [course, h]

end

/-- A run goes as if no launch could break off, or it ends with the first launch that does: what is
done is a beginning of that run, in which the attempts before are reported as passed. -/
theorem course_cases (host : Host) (options : RunOptions) (plan : Plan) :
    let s := setup host options plan
    let attempts := s.attempts () host.words plan.cases
    let done := s.run host.timing (s.start () host.words)
    let went := course host options done
    (∀ j a, ¬ BreaksAt host options plan j a) ∧ went = ⟨done.activities, some done.outcome⟩ ∨
      ∃ j a activities, BreaksAt host options plan j a ∧
        (∀ i b, i < j → ¬ BreaksAt host options plan i b) ∧ went = ⟨activities, none⟩ ∧
        activities <+: done.activities ∧
        activities.filterMap Activity.report? =
          .collected plan.cases.length :: (passing host.timing 0 (attempts.take j) ++
            [.caseStarted a.case a.salt]) ∧
        activities.filterMap Activity.launch? =
          (attempts.take (j + 1)).map (Attempt.invocation plan) := by
  intro s attempts done went
  let checker : ProcessChecker := ⟨options.checker, options.wait⟩
  let breaks (number : Nat) := checker.breaksOff host.launch (host.clock number)
  let start := s.start () host.words
  let body := s.runFrom host.timing 0 plan.cases start
  have hbreaks {j : Nat} {a : Attempt} : BreaksAt host options plan j a ↔
      Attempt.Reached plan.secret attempts j a ∧
        breaks (0 + j) (a.invocation plan) = true := by
    rw [Nat.zero_add]
    exact breaksAt_iff
  have hfares : Fares plan host.timing breaks 0 attempts body
      (broken? host options body.activities) :=
    fares_runFrom s host.timing breaks
      (fun _ i => head?_trace_invoke checker host.launch i) 0 plan.cases start
  have hcut : broken? host options done.activities =
      (broken? host options body.activities).map (.report (.collected plan.cases.length) :: ·) :=
    untilBreak?_run s host.timing breaks checker.announcement start
  generalize broken? host options body.activities = cut? at hfares hcut
  cases hfares with
  | whole hnone =>
    refine .inl ⟨fun j a h => ?_, course_of_none hcut⟩
    obtain ⟨hreached, htrue⟩ := hbreaks.mp h
    rw [hnone j a hreached] at htrue
    cases htrue
  | @broken j a cut hreached htrue hfirst hat =>
    refine .inr ⟨j, a, _, hbreaks.mpr ⟨hreached, htrue⟩, fun i b hi h => ?_,
      course_of_some hcut, ?_, ?_, ?_⟩
    · obtain ⟨hearlier, hearly⟩ := hbreaks.mp h
      rw [hfirst i b hi hearlier] at hearly
      cases hearly
    · refine (List.prefix_cons_inj _).mpr (hat.beginning.trans (List.prefix_append _ _))
    · rw [List.filterMap_cons_some (by rfl), hat.reports]
    · rw [List.filterMap_cons_none (by rfl), hat.launches]

end Suite

end CheckerAudit
