import CheckerAudit.Verdict
import CheckerAudit.Transcript
import CheckerAudit.Proofs.ProofCode.Preimage

/-!
# When an outcome is accepted

A judgement has four endings, each with its reason: no result, another result, an accepted one, and
a proof that is missing or not the derived code. `evaluate_eq_iff` lets the other lemmas go through
these endings and leave the function closed.
-/
namespace CheckerAudit

section
variable {secret : Secret} {c : Case} {salt : Salt} {o : Outcome}

theorem evaluate_of_none (hresult : o.result = none) :
    evaluate secret c salt o = .error .missingResult := by
  rw [evaluate, hresult]

theorem evaluate_of_ne {v : Int64} (hresult : o.result = some v) (hne : c.expected ≠ v) :
    evaluate secret c salt o = .error (.resultMismatch c.expected v) := by
  rw [evaluate, hresult]
  exact if_pos (Ne.symm hne)

theorem evaluate_of_zero (hresult : o.result = some c.expected) (hzero : c.expected = 0) :
    evaluate secret c salt o = .ok () := by
  rw [evaluate, hresult]
  simp only [ne_eq, not_true_eq_false, if_false, hzero, if_true]

/-- A result that has to be proved stands or falls with one proof text, the derived code. -/
theorem evaluate_of_nonzero (hresult : o.result = some c.expected) (hnonzero : c.expected ≠ 0) :
    let code := ProofCode.derive secret.value c.task salt c.expected
    evaluate secret c salt o =
      if o.proof = some code.hex then .ok () else .error (.proofMismatch code o.proof) := by
  intro code
  rw [evaluate, hresult]
  simp only [ne_eq, not_true_eq_false, if_false, hnonzero]
  cases o.proof with
  | none => rfl
  | some reported =>
    have hsame : ProofCode.verify secret.value c.task salt c.expected reported = true ↔
        some reported = some code.hex := by
      rw [ProofCode.verify_eq_true_iff, Option.some.injEq]
      exact eq_comm
    simp only [hsame, code]

end

/-- How an outcome is judged, and why. -/
inductive Judgement (secret : Secret) (c : Case) (salt : Salt) (o : Outcome) :
    Except Failure Unit → Prop where
  | missing (unreported : o.result = none) : Judgement secret c salt o (.error .missingResult)
  | wrong {actual : Int64} (reported : o.result = some actual) (differs : c.expected ≠ actual) :
    Judgement secret c salt o (.error (.resultMismatch c.expected actual))
  | accepted (reported : o.result = some c.expected)
    (proved : c.expected = 0 ∨
      o.proof = some (ProofCode.derive secret.value c.task salt c.expected).hex) :
    Judgement secret c salt o (.ok ())
  | unproved (reported : o.result = some c.expected) (nonzero : c.expected ≠ 0)
    (refused : o.proof ≠ some (ProofCode.derive secret.value c.task salt c.expected).hex) :
    Judgement secret c salt o
      (.error (.proofMismatch (ProofCode.derive secret.value c.task salt c.expected) o.proof))

section
variable {secret : Secret} {c : Case} {salt : Salt} {o : Outcome}

theorem judgement_evaluate (secret : Secret) (c : Case) (salt : Salt) (o : Outcome) :
    Judgement secret c salt o (evaluate secret c salt o) := by
  cases hresult : o.result with
  | none =>
    rw [evaluate_of_none hresult]
    exact .missing hresult
  | some actual =>
    by_cases hdiffers : c.expected = actual
    · subst hdiffers
      by_cases hzero : c.expected = 0
      · rw [evaluate_of_zero hresult hzero]
        exact .accepted hresult (.inl hzero)
      · rw [evaluate_of_nonzero hresult hzero]
        split
        · next hproof => exact .accepted hresult (.inr hproof)
        · next hproof => exact .unproved hresult hzero hproof
    · rw [evaluate_of_ne hresult hdiffers]
      exact .wrong hresult hdiffers

theorem evaluate_eq_iff {verdict : Except Failure Unit} :
    evaluate secret c salt o = verdict ↔ Judgement secret c salt o verdict := by
  constructor
  · rintro rfl
    exact judgement_evaluate secret c salt o
  · intro h
    cases h with
    | missing hresult => exact evaluate_of_none hresult
    | wrong hresult hdiffers => exact evaluate_of_ne hresult hdiffers
    | accepted hresult hproved =>
      by_cases hzero : c.expected = 0
      · exact evaluate_of_zero hresult hzero
      · rw [evaluate_of_nonzero hresult hzero, if_pos (hproved.resolve_left hzero)]
    | unproved hresult hnonzero hrefused =>
      rw [evaluate_of_nonzero hresult hnonzero, if_neg hrefused]

theorem evaluate_eq_ok_iff :
    evaluate secret c salt o = .ok () ↔
      o.result = some c.expected ∧
        (c.expected = 0 ∨
          o.proof = some (ProofCode.derive secret.value c.task salt c.expected).hex) := by
  rw [evaluate_eq_iff]
  constructor
  · intro h
    cases h with
    | accepted hresult hproved => exact ⟨hresult, hproved⟩
  · rintro ⟨hresult, hproved⟩
    exact .accepted hresult hproved

/-- The code that a refused proof is held against is the one for the salt of the verdict. -/
theorem expected_of_proofMismatch {expected : ProofCode} {actual : Option String}
    (h : evaluate secret c salt o = .error (.proofMismatch expected actual)) :
    expected = ProofCode.derive secret.value c.task salt c.expected := by
  cases evaluate_eq_iff.mp h with
  | unproved => rfl

theorem evaluate_eq_missingResult_iff :
    evaluate secret c salt o = .error .missingResult ↔ o.result = none := by
  rw [evaluate_eq_iff]
  constructor
  · intro h
    cases h with
    | missing hresult => exact hresult
  · exact .missing

/-- The proof is looked at only where one is required and the result is the expected one. -/
theorem evaluate_proof_irrelevant (h : ¬ (c.requiresProof = true ∧ o.result = some c.expected))
    (proof : Option String) :
    evaluate secret c salt { o with proof } = evaluate secret c salt o := by
  rw [evaluate_eq_iff]
  have hjudged := judgement_evaluate secret c salt o
  generalize evaluate secret c salt o = verdict at hjudged ⊢
  have hzero (hresult : o.result = some c.expected) : c.expected = 0 := by
    simpa [Case.requiresProof, hresult] using h
  cases hjudged with
  | missing hresult => exact .missing hresult
  | wrong hresult hdiffers => exact .wrong hresult hdiffers
  | accepted hresult _ => exact .accepted hresult (.inl (hzero hresult))
  | unproved hresult hnonzero _ => exact absurd (hzero hresult) hnonzero

theorem isDigit_or_le_of_mem_digits {d : Char} (h : d ∈ Text.Hex.digits) :
    d.isDigit = true ∨ 'a' ≤ d ∧ d ≤ 'f' := by
  have hall : Text.Hex.digits.all
      (fun d => d.isDigit || (decide ('a' ≤ d) && decide (d ≤ 'f'))) = true := by
    decide
  have hd := List.all_eq_true.mp hall d h
  simpa using hd

end

/-- An outcome passes exactly when its result is the expected one and, unless that is zero, its
proof is the derived code. Where a proof is required one text of sixty-four hexadecimal digits passes and
nothing else does; elsewhere the proof does not matter, and output and exit code never do. A failure
says what is the matter: no result, a result that differs from the expected one, or a proof that
differs from the derived code. -/
theorem evaluate_sound_and_truthful (secret : Secret) (c : Case) (salt : Salt) (o : Outcome) :
    let code := ProofCode.derive secret.value c.task salt c.expected
    let verdict := evaluate secret c salt
    (verdict o = .ok () ↔
      o.result = some c.expected ∧ (c.expected = 0 ∨ o.proof = some code.hex)) ∧
    (c.requiresProof = true → o.result = some c.expected →
      (∀ reported, verdict { o with proof := some reported } = .ok () ↔ reported = code.hex) ∧
      code.hex.length = 64 ∧
      (∀ d ∈ code.hex.toList, d.isDigit = true ∨ 'a' ≤ d ∧ d ≤ 'f') ∧
      ∀ proof, proof ≠ some code.hex →
        verdict { o with proof } = .error (.proofMismatch code proof)) ∧
    (¬ (c.requiresProof = true ∧ o.result = some c.expected) →
      ∀ proof, verdict { o with proof } = verdict o) ∧
    (∀ output exitCode, verdict { o with output, exitCode } = verdict o) ∧
    (verdict o = .error .missingResult ↔ o.result = none) ∧
    (∀ expected actual, verdict o = .error (.resultMismatch expected actual) →
      expected = c.expected ∧ o.result = some actual ∧ expected ≠ actual) ∧
    (∀ expected actual, verdict o = .error (.proofMismatch expected actual) →
      expected = code ∧ actual = o.proof ∧ actual ≠ some expected.hex) ∧
    ∀ error, verdict o ≠ .error (.invoke error) := by
  intro code verdict
  refine ⟨evaluate_eq_ok_iff, fun hrequired hresult => ?_, evaluate_proof_irrelevant,
    fun output exitCode => rfl, evaluate_eq_missingResult_iff, fun expected actual h => ?_,
    fun expected actual h => ?_, fun error h => ?_⟩
  · have hnonzero : c.expected ≠ 0 := by simpa [Case.requiresProof] using hrequired
    refine ⟨fun reported => ⟨fun hpass => ?_, ?_⟩, ProofCode.length_hex_derive _ _ _ _,
      fun d hd => isDigit_or_le_of_mem_digits (ProofCode.mem_digits_of_mem_hex hd),
      fun proof hproof => evaluate_eq_iff.mpr (.unproved hresult hnonzero hproof)⟩
    · exact Option.some.inj ((evaluate_eq_ok_iff.mp hpass).2.resolve_left hnonzero)
    · rintro rfl
      exact evaluate_eq_ok_iff.mpr ⟨hresult, .inr rfl⟩
  · cases evaluate_eq_iff.mp h with
    | wrong hresult hdiffers => exact ⟨rfl, hresult, hdiffers⟩
  · cases evaluate_eq_iff.mp h with
    | unproved _ _ hrefused => exact ⟨rfl, rfl, hrefused⟩
  · cases evaluate_eq_iff.mp h

/-- An outcome that carries what an output text reports. Its captured text and exit code are
free. -/
structure Outcome.Reports (o : Outcome) (stdout : String) : Prop where
  read : ∃ t, Transcript.read stdout = .ok t ∧ o.result = t.result ∧ o.proof = t.proof

/-- Two outcomes that carry what one text reports carry the same proof. -/
theorem Outcome.Reports.proof_eq {o o' : Outcome} {stdout : String} (h : o.Reports stdout)
    (h' : o'.Reports stdout) : o.proof = o'.proof := by
  obtain ⟨t, ht, -, hp⟩ := h.read
  obtain ⟨t', ht', -, hp'⟩ := h'.read
  obtain rfl := Except.ok.inj (ht.symm.trans ht')
  rw [hp, hp']

end CheckerAudit
