import CheckerAudit.Run

/-!
A run as a loop over the positions of its plan. Cases and states are looked up at each position, and
a position that lies outside of either ends the loop without a run.
-/
namespace CheckerAudit.Setup

variable {γ σ : Type}

/-- Executes the case at a position that plan and runner both have. -/
def runAt? (s : Setup γ σ) (time : Duration) (position : Nat) (r : Runner γ σ) :
    Option (CaseRun γ σ) :=
  match s.plan.cases[position]?, r.states[position]? with
  | some c, some _ => some (s.runCase time position c r)
  | _, _ => none

/-- Executes the cases at some positions and counts those that pass. -/
def runPositions? (s : Setup γ σ) (timing : Timing) (passed : Nat) :
    List Nat → Runner γ σ → Option (Run γ σ)
  | [], r => some ⟨[], .allPassed passed, r⟩
  | position :: rest, r =>
    match s.runAt? (timing.ofCase position) position r with
    | none => none
    | some now =>
      match now.failure with
      | some failure => some ⟨now.activities, .aborted passed failure, now.runner⟩
      | none =>
        (runPositions? s timing (passed + 1) rest now.runner).map fun later =>
          { later with activities := now.activities ++ later.activities }

/-- One run over all positions of the plan. -/
def runByPosition? (s : Setup γ σ) (timing : Timing) (r : Runner γ σ) : Option (Run γ σ) :=
  let total := s.plan.cases.length
  (s.runPositions? timing 0 (List.range total) r).map fun body =>
    { body with
      activities :=
        .report (.collected total) :: (body.activities ++
          [.report (.completed
            ⟨total, body.outcome.passed, !body.outcome.isSuccess, timing.total⟩)]) }

/-- A runner after some runs. -/
def afterRuns (s : Setup γ σ) : List Timing → Runner γ σ → Runner γ σ
  | [], r => r
  | timing :: rest, r => afterRuns s rest (s.run timing r).runner

end CheckerAudit.Setup
