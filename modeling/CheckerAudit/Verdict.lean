import CheckerAudit.Catalog
import CheckerAudit.Failure
import CheckerAudit.Secret

/-!
The verdict on one outcome: the result has to be the expected one, and unless it is zero the proof
has to be the code derived from the shared secret. A zero result carries no proof.
-/
namespace CheckerAudit

/-- Judges an outcome against its case. -/
def evaluate (secret : Secret) (c : Case) (salt : Salt) (outcome : Outcome) : Except Failure Unit :=
  match outcome.result with
  | none => .error .missingResult
  | some actual =>
    if actual ≠ c.expected then .error (.resultMismatch c.expected actual)
    else if actual = 0 then .ok ()
    else
      let refused : Failure :=
        .proofMismatch (ProofCode.derive secret.value c.task salt actual) outcome.proof
      match outcome.proof with
      | none => .error refused
      | some reported =>
        if ProofCode.verify secret.value c.task salt actual reported then .ok ()
        else .error refused

end CheckerAudit
