import CheckerAudit.Proofs.Verdict
import CheckerAudit.Run.Attempts

/-!
# One executed case

A case is executed once: one salt, one launch, one answer, one verdict. The lemmas say what that
leaves behind, so that statements about a whole run never open `runCase`. Whether the case passed
shows in the failure, the last two activities and the state of the case; the checker and the salt
source move on in the same way.
-/
namespace CheckerAudit

/-- The state of a checker after it has answered some invocations, one after the other. -/
def Checker.after {γ : Type} (checker : Checker γ) (state : γ) (invocations : List Invocation) :
    γ :=
  invocations.foldl (fun state i => (checker.invoke state i).2) state

/-- The output that is left of a launch without an outcome. There is none of a program that did not
start or was lost; one that ran out of time or reported no integer had some. -/
inductive InvokeError.Keeps : InvokeError → Option Captured → Prop where
  | spawn (checker cause : String) : Keeps (.spawn checker cause) none
  | wait (cause : String) : Keeps (.wait cause) none
  | timedOut (limit : Duration) (output : Captured) : Keeps (.timedOut limit output) (some output)
  | malformedResult (value : String) (output : Captured) :
    Keeps (.malformedResult value output) (some output)

theorem InvokeError.keeps_iff {error : InvokeError} {kept : Option Captured} :
    error.Keeps kept ↔ error.captured = kept := by
  constructor
  · rintro (_ | _ | _ | _) <;> rfl
  · rintro rfl
    cases error <;> constructor

namespace Attempt

/-- What is recorded of an attempt that does not pass. An outcome that the verdict refuses hands
over its output and exit code; without an outcome there is no exit code, and only the output that
the error kept. -/
inductive Fails (secret : Secret) : Attempt → CaseFailure → Prop where
  | refused {c : Case} {salt : Salt} {outcome : Outcome} {failure : Failure}
    (verdict : evaluate secret c salt outcome = .error failure) :
    Fails secret ⟨c, salt, .ok outcome⟩
      ⟨c, salt, failure, some outcome.output, outcome.exitCode⟩
  | unanswered (c : Case) (salt : Salt) {error : InvokeError} {kept : Option Captured}
    (keeps : error.Keeps kept) :
    Fails secret ⟨c, salt, .error error⟩ ⟨c, salt, .invoke error, kept, none⟩

variable {secret : Secret} {a : Attempt} {f : CaseFailure}

theorem Fails.case_eq (h : a.Fails secret f) : f.case = a.case := by
  cases h <;> rfl

theorem Fails.salt_eq (h : a.Fails secret f) : f.salt = a.salt := by
  cases h <;> rfl

theorem Fails.derived (h : a.Fails secret f) (expected : ProofCode) (actual : Option String)
    (hf : f.failure = .proofMismatch expected actual) :
    expected = ProofCode.derive secret.value a.case.task a.salt a.case.expected := by
  cases h with
  | refused verdict =>
    subst hf
    exact expected_of_proofMismatch verdict
  | unanswered c salt keeps => cases hf

theorem ofAnswer?_eq_none_iff :
    CaseFailure.ofAnswer? secret a.case a.salt a.answer = none ↔ a.passes secret := by
  obtain ⟨c, salt, answer⟩ := a
  cases answer with
  | error e => simp [CaseFailure.ofAnswer?, passes]
  | ok outcome =>
    cases hv : evaluate secret c salt outcome <;> simp [CaseFailure.ofAnswer?, passes, hv]

theorem ofAnswer?_eq_some_iff :
    CaseFailure.ofAnswer? secret a.case a.salt a.answer = some f ↔ a.Fails secret f := by
  obtain ⟨c, salt, answer⟩ := a
  constructor
  · intro h
    cases answer with
    | error e =>
      obtain rfl := Option.some.inj h
      exact .unanswered c salt (InvokeError.keeps_iff.mpr rfl)
    | ok outcome =>
      cases hv : evaluate secret c salt outcome with
      | ok u => simp [CaseFailure.ofAnswer?, hv] at h
      | error failure =>
        simp only [CaseFailure.ofAnswer?, hv, Option.some.injEq] at h
        subst h
        exact .refused hv
  · intro h
    cases h with
    | refused verdict => simp [CaseFailure.ofAnswer?, verdict]
    | unanswered c salt keeps => simp [CaseFailure.ofAnswer?, InvokeError.keeps_iff.mp keeps]

/-- An attempt passes or has a failure to record, never both. -/
theorem not_passes_iff : ¬ a.passes secret ↔ ∃ f, a.Fails secret f := by
  rw [← ofAnswer?_eq_none_iff, ← ne_eq, Option.ne_none_iff_exists']
  simp only [ofAnswer?_eq_some_iff]

end Attempt

namespace Setup

variable {γ σ : Type} (s : Setup γ σ) (time : Duration) (index : Nat) (c : Case) (r : Runner γ σ)

/-- The answer to the launch for a case, with the salt that comes next. -/
def answer : Traced (Except InvokeError Outcome) :=
  (s.checker.invoke r.checker (s.plan.invocation c (s.salts.next r.salts).1)).1

/-- The attempt at a case with the salt that comes next. -/
def attempt : Attempt :=
  ⟨c, (s.salts.next r.salts).1, (s.answer c r).value⟩

/-- The attempt at a case, with what the checker logs in it. -/
def episode : Episode :=
  ⟨s.attempt c r, (s.answer c r).trace⟩

/-- The runner after a case that ends in a state. -/
def advance (state : CaseState) : Runner γ σ where
  checker := s.checker.after r.checker [(s.attempt c r).invocation s.plan]
  salts := (s.salts.next r.salts).2
  states := (r.states.set index .running).set index state

theorem runCase_of_passes (h : (s.attempt c r).passes s.plan.secret) :
    s.runCase time index c r =
      { activities := (s.episode c r).passing s.plan time
        failure := none
        runner := s.advance index c r .passed } := by
  have hnone := Attempt.ofAnswer?_eq_none_iff.mpr h
  simp only [attempt, answer] at hnone
  simp only [runCase, hnone]
  rfl

theorem runCase_of_fails {f : CaseFailure} (h : (s.attempt c r).Fails s.plan.secret f) :
    s.runCase time index c r =
      { activities := (s.episode c r).failing s.plan f
        failure := some f
        runner := s.advance index c r .failed } := by
  have hsome := Attempt.ofAnswer?_eq_some_iff.mpr h
  have hcase : f.case = c := h.case_eq
  simp only [attempt, answer] at hsome
  simp only [runCase, hsome, Episode.failing, hcase]
  rfl

/-- The attempts at several cases: the first, and those on the runner that it leaves. How the first
one ended makes no difference to the others. -/
theorem attempts_cons (state : CaseState) (rest : List Case) :
    s.attempts r.checker r.salts (c :: rest) =
      s.attempt c r ::
        s.attempts (s.advance index c r state).checker (s.advance index c r state).salts rest :=
  rfl

theorem episodes_cons (state : CaseState) (rest : List Case) :
    s.episodes r.checker r.salts (c :: rest) =
      s.episode c r ::
        s.episodes (s.advance index c r state).checker (s.advance index c r state).salts rest :=
  rfl

end Setup

end CheckerAudit
