import CheckerAudit.Proofs.Verdict

/-!
# What a proof code binds

A code that is accepted twice under one secret was made for one task, one salt and one result, so
an old code is of no use for a new salt. Two secrets are not kept apart in the same way: a colon in
a secret can stand for the one that ends a shorter secret, and then both accept the same codes, each
for a task of its own. All statements are up to an explicit collision of the digest.
-/
namespace CheckerAudit.ProofCode

open Digest.Sha256 (Collision)

/-- Two accepted outcomes with one proof answer the same challenge. In particular a fixed output
text is accepted for one salt at most. -/
theorem accepted_proof_names_challenge (secret : Secret) :
    (∀ (c c' : Case) (salt salt' : Salt) (o o' : Outcome),
      c.expected ≠ 0 → c'.expected ≠ 0 → o.proof = o'.proof →
      evaluate secret c salt o = .ok () → evaluate secret c' salt' o' = .ok () →
        c.task = c'.task ∧ salt = salt' ∧ c.expected = c'.expected ∨
        Collision (preimage secret.value c.task salt c.expected)
          (preimage secret.value c'.task salt' c'.expected)) ∧
    (∀ (stdout : String) (c : Case) (salt salt' : Salt) (o o' : Outcome),
      c.expected ≠ 0 → o.Reports stdout → o'.Reports stdout →
      evaluate secret c salt o = .ok () → evaluate secret c salt' o' = .ok () →
        salt = salt' ∨
        Collision (preimage secret.value c.task salt c.expected)
          (preimage secret.value c.task salt' c.expected)) := by
  have hbound (c c' : Case) (salt salt' : Salt) (o o' : Outcome) (hc : c.expected ≠ 0)
      (hc' : c'.expected ≠ 0) (hproof : o.proof = o'.proof)
      (h : evaluate secret c salt o = .ok ()) (h' : evaluate secret c' salt' o' = .ok ()) :
      c.task = c'.task ∧ salt = salt' ∧ c.expected = c'.expected ∨
        Collision (preimage secret.value c.task salt c.expected)
          (preimage secret.value c'.task salt' c'.expected) := by
    have hcode := (evaluate_eq_ok_iff.mp h).2.resolve_left hc
    have hcode' := (evaluate_eq_ok_iff.mp h').2.resolve_left hc'
    have hhex := Option.some.inj (hcode.symm.trans (hproof.trans hcode'))
    rcases derive_eq_iff.mp (hex_inj hhex) with heq | hcollision
    · exact .inl (preimage_inj heq)
    · exact .inr hcollision
  refine ⟨hbound, ?_⟩
  intro stdout c salt salt' o o' hc ho ho' h h'
  rcases hbound c c salt salt' o o' hc hc (ho.proof_eq ho') h h' with ⟨-, hsalt, -⟩ | hcollision
  · exact .inl hsalt
  · exact .inr hcollision

/-- The reference code, printed for the salt it was made for. -/
theorem accepted_proof_names_challenge_reference :
    let secret : Secret := ⟨"s3cr3t"⟩
    let c : Case := ⟨"task1", 5, "a.log", 1⟩
    let salt := Salt.nearest 42
    let code := "fe7b43d7996452901d6b71b13d6d7337fc6a4750dd4000c840f23a420535ab18"
    let stdout := "Result code: 5\nCode string: " ++ code ++ "\n"
    let o : Outcome := { result := some 5, proof := some code }
    c.expected ≠ 0 ∧ o.Reports stdout ∧ evaluate secret c salt o = .ok () ∧
      (c.task = c.task ∧ salt = salt ∧ c.expected = c.expected ∨
        Collision (preimage secret.value c.task salt c.expected)
          (preimage secret.value c.task salt c.expected)) ∧
      (salt = salt ∨
        Collision (preimage secret.value c.task salt c.expected)
          (preimage secret.value c.task salt c.expected)) := by
  intro secret c salt code stdout o
  have hc : c.expected ≠ 0 := by decide
  have hreports : o.Reports stdout := by
    have hread : (Transcript.read stdout).toOption = some ⟨some 5, some code, stdout⟩ := by
      decide +kernel
    cases h : Transcript.read stdout with
    | error m => simp [h, Except.toOption] at hread
    | ok t =>
      rw [h] at hread
      obtain rfl := Option.some.inj hread
      exact ⟨⟨_, h, rfl, rfl⟩⟩
  have hcode : o.proof = some (derive secret.value c.task salt c.expected).hex := by
    decide +kernel
  have hpass := evaluate_eq_ok_iff.mpr ⟨rfl, .inr hcode⟩
  obtain ⟨hbound, hprinted⟩ := accepted_proof_names_challenge secret
  exact ⟨hc, hreports, hpass, hbound c c salt salt o o hc hc rfl hpass hpass,
    hprinted stdout c salt salt o o hc hreports hreports hpass hpass⟩

/-- A colon and what is before it have moved from the task to the end of the secret. -/
def Shifted (secret task secret' task' : String) : Prop :=
  ∃ moved, secret' = secret ++ ":" ++ moved ∧ task = moved ++ ":" ++ task'

theorem joined_of_shifted {secret task secret' task' : String}
    (h : Shifted secret task secret' task') :
    secret ++ ":" ++ task = secret' ++ ":" ++ task' := by
  obtain ⟨moved, rfl, rfl⟩ := h
  simp only [String.append_assoc]

/-- Only a longer secret, with as much less in its task, reads the same as a shorter one. -/
theorem shifted_of_joined {secret task secret' task' : String} {moved : List Char}
    (different : secret ≠ secret') (hsecret : secret'.toList = secret.toList ++ moved)
    (htask : ':' :: task.toList = moved ++ ':' :: task'.toList) :
    Shifted secret task secret' task' := by
  cases moved with
  | nil =>
    rw [List.append_nil] at hsecret
    exact absurd (String.toList_inj.mp hsecret.symm) different
  | cons sep moved =>
    rw [List.cons_append] at htask
    obtain ⟨rfl, htail⟩ := List.cons.inj htask
    refine ⟨.ofList moved, ?_, ?_⟩ <;> apply String.toList_inj.mp
    · simp [hsecret]
    · simp [htail]

/-- Different secrets read the same with a task exactly when one is the other with a part of the
task moved into it. -/
theorem joined_eq_iff {secret task secret' task' : String} (different : secret ≠ secret') :
    secret ++ ":" ++ task = secret' ++ ":" ++ task' ↔
      Shifted secret task secret' task' ∨ Shifted secret' task' secret task := by
  constructor
  · intro h
    have hlist : secret.toList ++ ':' :: task.toList = secret'.toList ++ ':' :: task'.toList := by
      simpa using congrArg String.toList h
    rcases List.append_eq_append_iff.mp hlist with ⟨moved, hs, ht⟩ | ⟨moved, hs, ht⟩
    · exact .inl (shifted_of_joined different hs ht)
    · exact .inr (shifted_of_joined different.symm hs ht)
  · rintro (h | h)
    · exact joined_of_shifted h
    · exact (joined_of_shifted h).symm

/-- A code made with another secret is accepted exactly when salt and result are the same and a
part of one task has moved into the other secret, or the preimages collide. -/
theorem verify_other_secret_iff {secret secret' : String} (different : secret ≠ secret')
    (task task' : String) (salt salt' : Salt) (result result' : Int64) :
    verify secret' task' salt' result' (derive secret task salt result).hex = true ↔
      (Shifted secret task secret' task' ∨ Shifted secret' task' secret task) ∧
          salt = salt' ∧ result = result' ∨
        Collision (preimage secret task salt result) (preimage secret' task' salt' result') := by
  rw [verify_derive_iff, derive_eq_iff, preimage_eq_iff, joined_eq_iff different]

/-- A code made with another secret is refused, collisions apart, exactly unless salt and result
are the same and a part of one task has moved into the other secret. -/
theorem other_secret_refused_iff {secret secret' : String} (different : secret ≠ secret')
    (task task' : String) (salt salt' : Salt) (result result' : Int64) :
    (verify secret' task' salt' result' (derive secret task salt result).hex = false ∨
        Collision (preimage secret task salt result) (preimage secret' task' salt' result')) ↔
      ¬ ((Shifted secret task secret' task' ∨ Shifted secret' task' secret task) ∧
        salt = salt' ∧ result = result') := by
  have hverify := verify_other_secret_iff different task task' salt salt' result result'
  constructor
  · rintro (hrefused | hcollision) hmoved
    · rw [hverify.mpr (.inl hmoved)] at hrefused
      exact Bool.noConfusion hrefused
    · exact hcollision.1 (preimage_eq_iff.mpr ⟨(joined_eq_iff different).mpr hmoved.1, hmoved.2⟩)
  · intro hfixed
    cases h : verify secret' task' salt' result' (derive secret task salt result).hex with
    | false => exact .inl rfl
    | true => exact .inr ((hverify.mp h).resolve_left hfixed)

theorem other_secret_refused_without_colon :
    ("k1" : String) ≠ "k2" ∧
      (verify "k2" "t" default 5 (derive "k1" "t" default 5).hex = false ∨
        Collision (preimage "k1" "t" default 5) (preimage "k2" "t" default 5)) := by
  have hlength {s s' : String} : ¬ Shifted s "t" s' "t" := by
    rintro ⟨moved, -, ht⟩
    have := congrArg String.length ht
    simp at this
  refine ⟨by decide, (other_secret_refused_iff (by decide) "t" "t" default default 5 5).mpr ?_⟩
  rintro ⟨h | h, -⟩
  · exact hlength h
  · exact hlength h

/-- A config can carry the secret `a:b` and a catalog the task `b:c`. The secret `a` accepts for
that task the code that `a:b` gives for the task `c`, and there is no collision. -/
theorem other_secret_accepted :
    (Secret.parse "secret:\"a:b\"\n" "a.cfg").value.toOption = some ⟨"a:b"⟩ ∧
      (Catalog.parse "\"b:c\":5:a.log\n" "a.csv").value.toOption =
        some [⟨"b:c", 5, "a.log", 1⟩] ∧
      ("a:b" : String) ≠ "a" ∧
      verify "a" "b:c" default 5 (derive "a:b" "c" default 5).hex = true ∧
      ¬ Collision (preimage "a:b" "c" default 5) (preimage "a" "b:c" default 5) := by
  have hpreimage : preimage "a:b" "c" default 5 = preimage "a" "b:c" default 5 := by decide
  refine ⟨by decide +kernel, by decide +kernel, by decide, ?_, fun h => h.1 hpreimage⟩
  exact verify_derive_iff.mpr (derive_eq_iff.mpr (.inl hpreimage))

end CheckerAudit.ProofCode
