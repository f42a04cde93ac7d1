import CheckerAudit.Run

/-!
What would happen if every case of a plan were executed: the salts drawn and the answers given, one
after the other, with no regard to verdicts. A run is the part of this up to the first failure.
-/
namespace CheckerAudit

/-- A case with the salt drawn for it and the checker's answer. -/
structure Attempt where
  case : Case
  salt : Salt
  answer : Except InvokeError Outcome

/-- An attempt, with what the checker logged before it answered. -/
structure Episode where
  attempt : Attempt
  logged : List TraceEvent

namespace Attempt

/-- The launch that an attempt makes. -/
def invocation (plan : Plan) (a : Attempt) : Invocation :=
  plan.invocation a.case a.salt

/-- An attempt passes when its answer is an outcome that the verdict accepts. -/
def passes (secret : Secret) (a : Attempt) : Prop :=
  ∃ outcome, a.answer = .ok outcome ∧ evaluate secret a.case a.salt outcome = .ok ()

end Attempt

namespace Episode

variable (plan : Plan) (time : Duration) (f : CaseFailure) (e : Episode)

/-- What is done for a case before its verdict. -/
def opening : List Activity :=
  .report (.caseStarted e.attempt.case e.attempt.salt) ::
    .launch (e.attempt.invocation plan) :: e.logged.map .log

/-- What is done for a case that passes. -/
def passing : List Activity :=
  e.opening plan ++
    [.log (.casePassed e.attempt.case.task e.attempt.case.line),
      .report (.casePassed e.attempt.case time)]

/-- What is done for a case that fails. -/
def failing : List Activity :=
  e.opening plan ++
    [.log (.caseFailed f.case.task f.case.line f.failure.kind f.exitCode), .report (.caseFailed f)]

end Episode

namespace Setup

variable {γ σ : Type} (s : Setup γ σ)

/-- The attempts at some cases, with the checker's log, from the states of a checker and a salt
source. -/
def episodes (checker : γ) (salts : σ) : List Case → List Episode
  | [] => []
  | c :: rest =>
    let (salt, salts) := s.salts.next salts
    let (answer, checker) := s.checker.invoke checker (s.plan.invocation c salt)
    ⟨⟨c, salt, answer.value⟩, answer.trace⟩ :: episodes checker salts rest

/-- The attempts at some cases. -/
def attempts (checker : γ) (salts : σ) (cases : List Case) : List Attempt :=
  (s.episodes checker salts cases).map Episode.attempt

@[simp] theorem attempts_nil (checker : γ) (salts : σ) : s.attempts checker salts [] = [] := rfl

theorem attempts_eq_cons (checker : γ) (salts : σ) (c : Case) (rest : List Case) :
    s.attempts checker salts (c :: rest) =
      let (salt, salts) := s.salts.next salts
      let (answer, checker) := s.checker.invoke checker (s.plan.invocation c salt)
      ⟨c, salt, answer.value⟩ :: s.attempts checker salts rest := rfl

@[simp] theorem map_case_attempts (checker : γ) (salts : σ) (cases : List Case) :
    (s.attempts checker salts cases).map Attempt.case = cases := by
  induction cases generalizing checker salts with
  | nil => rfl
  | cons c rest ih => rw [attempts_eq_cons, List.map_cons, ih]

@[simp] theorem length_attempts (checker : γ) (salts : σ) (cases : List Case) :
    (s.attempts checker salts cases).length = cases.length := by
  rw [← List.length_map (f := Attempt.case), s.map_case_attempts]

theorem getElem?_case_attempts {checker : γ} {salts : σ} {cases : List Case} {k : Nat} {a : Attempt}
    (h : (s.attempts checker salts cases)[k]? = some a) : cases[k]? = some a.case := by
  rw [← s.map_case_attempts checker salts cases, List.getElem?_map, h, Option.map_some]

end Setup

end CheckerAudit
