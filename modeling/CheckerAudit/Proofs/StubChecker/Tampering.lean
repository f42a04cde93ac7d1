import CheckerAudit.Proofs.ProofCode.Preimage
import CheckerAudit.Proofs.StubChecker.Agreement

/-!
# A tampering stand-in is caught unless its wrong secret is the shared one

It signs with a secret of its own, which is a fixed text. For one task, salt and verdict the forged
preimage differs from the genuine one exactly when the shared secret is not that text. A config that
declares just that text makes the forgery genuine.
-/
namespace CheckerAudit.StubChecker

open Digest.Sha256 (Collision)

/-- A log that the stand-in can follow, that tells a verdict other than zero and asks for a report
of it with a tampered proof. -/
structure TamperingLog (files : Files) (path : String) : Prop where
  isScript : ∃ script, Script.load files path = .ok script
  tampers : hasWord "tamper" (logRecords files path) = true
  reports : ∀ word ∈ ["silent", "garbled"], hasWord word (logRecords files path) = false
  nonzero : toldVerdict (logRecords files path) ≠ 0

/-- A tampering log is answered with the verdict that it tells and with a forged proof of it. -/
theorem read_tampered {files : Files} {config log : String} {secret : Secret}
    (hsecret : (Secret.load files config).value = .ok secret) (hlog : TamperingLog files log)
    (name task : String) (salt : Salt) :
    ∃ text, Transcript.read (run files [name, config, task, salt.text, log]).stdout =
      .ok ⟨some (toldVerdict (logRecords files log)),
        some (ProofCode.derive wrongSecret task salt (toldVerdict (logRecords files log))).hex,
        text⟩ := by
  obtain ⟨text, hread⟩ :=
    read_run (i := ⟨config, task, salt, log⟩) hsecret hlog.isScript hlog.reports name
  rw [hlog.tampers, if_pos rfl] at hread
  exact ⟨text, hread⟩

/-- The forged preimage is the genuine one only under the wrong secret. -/
theorem forged_preimage_eq_iff (secret task : String) (salt : Salt) (result : Int64) :
    ProofCode.preimage wrongSecret task salt result =
        ProofCode.preimage secret task salt result ↔ secret = wrongSecret := by
  rw [ProofCode.preimage_eq_iff]
  constructor
  · rintro ⟨hjoined, -⟩
    have hlist := congrArg String.toList hjoined
    simp only [String.toList_append] at hlist
    have hsame := List.append_cancel_right (List.append_cancel_right hlist)
    exact (String.toList_inj.mp hsame).symm
  · rintro rfl
    exact ⟨rfl, rfl, rfl⟩

theorem forged_hex_eq_iff (secret task : String) (salt : Salt) (result : Int64) :
    (ProofCode.derive wrongSecret task salt result).hex =
        (ProofCode.derive secret task salt result).hex ↔
      secret = wrongSecret ∨ Collision (ProofCode.preimage wrongSecret task salt result)
        (ProofCode.preimage secret task salt result) := by
  rw [← forged_preimage_eq_iff secret task salt result, ← ProofCode.derive_eq_iff]
  exact ⟨ProofCode.hex_inj, congrArg ProofCode.hex⟩

/-- What a tampering stand-in writes is read. Judged for the verdict that its log tells, it is
refused by its proof exactly when the shared secret is not the wrong one and the forged and the
genuine preimage do not collide; otherwise it passes. -/
theorem tampered_proof_refused_iff {files : Files} {config log : String} {secret : Secret}
    (hsecret : (Secret.load files config).value = .ok secret) (hlog : TamperingLog files log)
    (name task : String) (salt : Salt) :
    let v := toldVerdict (logRecords files log)
    let stdout := (run files [name, config, task, salt.text, log]).stdout
    let genuine := ProofCode.derive secret.value task salt v
    let forged := ProofCode.derive wrongSecret task salt v
    let collide := Collision (ProofCode.preimage wrongSecret task salt v)
      (ProofCode.preimage secret.value task salt v)
    (∃ t, Transcript.read stdout = .ok t) ∧
      ∀ c : Case, c.task = task → c.expected = v → ∀ o : Outcome, o.Reports stdout →
        (evaluate secret c salt o = .error (.proofMismatch genuine (some forged.hex)) ↔
          secret.value ≠ wrongSecret ∧ ¬collide) ∧
        (evaluate secret c salt o = .ok () ↔ secret.value = wrongSecret ∨ collide) := by
  intro v stdout genuine forged collide
  obtain ⟨text, hread⟩ := read_tampered hsecret hlog name task salt
  refine ⟨⟨_, hread⟩, ?_⟩
  rintro c rfl hexpected o ⟨t, ht, hresult, hproof⟩
  obtain rfl := Except.ok.inj (ht.symm.trans hread)
  have hresult : o.result = some c.expected := hresult.trans (congrArg some hexpected.symm)
  have hproof : o.proof = some forged.hex := hproof
  have hnonzero : c.expected ≠ 0 := hexpected ▸ hlog.nonzero
  have hgenuine : ProofCode.derive secret.value c.task salt c.expected = genuine := by
    rw [hexpected]
  have hforged : forged.hex = genuine.hex ↔ secret.value = wrongSecret ∨ collide :=
    forged_hex_eq_iff secret.value c.task salt v
  have hpasses : evaluate secret c salt o = .ok () ↔ secret.value = wrongSecret ∨ collide := by
    rw [evaluate_eq_ok_iff, hgenuine, hproof, ← hforged]
    constructor
    · rintro ⟨-, hzero | hsame⟩
      · exact absurd hzero hnonzero
      · exact Option.some.inj hsame
    · intro hsame
      exact ⟨hresult, .inr (congrArg some hsame)⟩
  refine ⟨?_, hpasses⟩
  rw [← not_or, ← hpasses]
  constructor
  · intro hrefused hpassed
    cases hrefused.symm.trans hpassed
  · intro hnot
    rw [← hgenuine, ← hproof, evaluate_eq_iff]
    refine .unproved hresult hnonzero fun hsame => hnot ?_
    exact evaluate_eq_ok_iff.mpr ⟨hresult, .inr hsame⟩

/-- Two configs, one of which declares the wrong secret, and a log that asks for a forged proof. -/
def forgery : FileTree :=
  let text (s : String) : FileNode := ⟨Text.Utf8.encode s.toList, none⟩
  let tree : FileTree := {}
  ((tree.insert "shared.cfg" (text "secret:old\nsecret:\" s:3 \"\n")).insert "wrong.cfg"
    (text "secret:not-the-secret\n")).insert "forged.log"
      (text "noise:1\ntamper\nverdict: -4\nverdict:9\n")

theorem tamperingLog_forgery : TamperingLog forgery.read "forged.log" where
  isScript := ⟨⟨some (-4), true, false, false, none, 1⟩, eq_ok_of_toOption (by decide +kernel)⟩
  tampers := by decide +kernel
  reports := by decide +kernel
  nonzero := by decide +kernel

theorem toldVerdict_forgery : toldVerdict (logRecords forgery.read "forged.log") = -4 := by
  decide +kernel

theorem tampered_proof_refused_with_colon :
    (Secret.load forgery.read "shared.cfg").value = .ok ⟨"s:3"⟩ ∧
      TamperingLog forgery.read "forged.log" ∧
      ∃ o : Outcome,
        o.Reports (run forgery.read
          ["stub", "shared.cfg", "a:b", Salt.text default, "forged.log"]).stdout ∧
        evaluate ⟨"s:3"⟩ ⟨"a:b", -4, "forged.log", 1⟩ default o =
          .error (.proofMismatch (ProofCode.derive "s:3" "a:b" default (-4))
            (some (ProofCode.derive "not-the-secret" "a:b" default (-4)).hex)) := by
  have hsecret : (Secret.load forgery.read "shared.cfg").value = .ok ⟨"s:3"⟩ :=
    eq_ok_of_toOption (by decide +kernel)
  have hapart : ¬ Collision (ProofCode.preimage wrongSecret "a:b" default (-4))
      (ProofCode.preimage "s:3" "a:b" default (-4)) := by
    rintro ⟨-, hdigest⟩
    revert hdigest
    decide +kernel
  obtain ⟨⟨t, hread⟩, hjudged⟩ :=
    tampered_proof_refused_iff hsecret tamperingLog_forgery "stub" "a:b" default
  have hreports : Outcome.Reports { result := t.result, proof := t.proof } _ :=
    ⟨⟨t, hread, rfl, rfl⟩⟩
  have hrefused := hjudged ⟨"a:b", -4, "forged.log", 1⟩ rfl toldVerdict_forgery.symm _ hreports
  rw [toldVerdict_forgery] at hrefused
  exact ⟨hsecret, tamperingLog_forgery, _, hreports, hrefused.1.mpr ⟨by decide, hapart⟩⟩

/-- Under the secret that forges, a forged proof passes, and the preimages do not collide. -/
theorem tampered_proof_accepted :
    (Secret.load forgery.read "wrong.cfg").value = .ok ⟨"not-the-secret"⟩ ∧
      TamperingLog forgery.read "forged.log" ∧
      ∃ o : Outcome,
        o.Reports (run forgery.read
          ["stub", "wrong.cfg", "a:b", Salt.text default, "forged.log"]).stdout ∧
        evaluate ⟨"not-the-secret"⟩ ⟨"a:b", -4, "forged.log", 1⟩ default o = .ok () ∧
        ¬ Collision (ProofCode.preimage wrongSecret "a:b" default (-4))
          (ProofCode.preimage "not-the-secret" "a:b" default (-4)) := by
  have hsecret : (Secret.load forgery.read "wrong.cfg").value = .ok ⟨"not-the-secret"⟩ :=
    eq_ok_of_toOption (by decide +kernel)
  obtain ⟨text, hread⟩ := read_tampered hsecret tamperingLog_forgery "stub" "a:b" default
  rw [toldVerdict_forgery] at hread
  exact ⟨hsecret, tamperingLog_forgery, { result := _, proof := _ }, ⟨⟨_, hread, rfl, rfl⟩⟩,
    evaluate_eq_ok_iff.mpr ⟨rfl, .inr rfl⟩, fun hcollide => hcollide.1 rfl⟩

end CheckerAudit.StubChecker
