import CheckerAudit.Proofs.Process.Output
import CheckerAudit.Proofs.Run.Program
import CheckerAudit.Proofs.Run.Protocol
import CheckerAudit.Proofs.StubChecker.Report
import CheckerAudit.Proofs.StubChecker.Script
import CheckerAudit.Proofs.Verdict

/-!
# The stand-in and the verdict agree

Both sides read one config, so the proof is signed with the secret that it is checked with, for the
salt that was drawn. The result is what the log tells. So a case passes exactly when it expects what
its log tells, and otherwise fails by that result and nothing else.
-/
namespace CheckerAudit

theorem Completion.completes (c : Completion) :
    Completes (Text.Utf8.encode c.stdout.toList) (Text.Utf8.encode c.stderr.toList) c.status
      (c.events .unbounded) where
  stdout := by simp [events, outputOn, ProcessEvent.bytesOn]
  stderr := by simp [events, outputOn, ProcessEvent.bytesOn]
  noDeadline := by simp [events]
  exits := rfl
  closes := by simp [events, AllClosed]
  closedIsLast s := by cases s <;> simp [events, ProcessEvent.bytesOn]

namespace ProcessChecker

/-- Without a limit a program that completes with valid text is answered for by that text. -/
theorem invoke_completes (checker : ProcessChecker) (launch : Launcher) (i : Invocation)
    {events : List ProcessEvent} {stdout stderr : String} {code : Option Int32}
    (hlaunch : launch ⟨checker.program, i.arguments⟩ checker.wait = .ok events)
    (h : Completes (Text.Utf8.encode stdout.toList) (Text.Utf8.encode stderr.toList) code events) :
    (checker.invoke launch i).value = Outcome.ofOutput stdout stderr code := by
  obtain ⟨received, hstops, houtput⟩ := h.stops checker.wait
  have hgathered : Gathered.ofEvents received true = ⟨stdout, stderr, true⟩ := by
    simp [Gathered.ofEvents, houtput, h.stdout, h.stderr]
  have hfollow := Watch.follow_of_stops hstops
  rw [hgathered] at hfollow
  simp only [invoke, hlaunch, hfollow, judgeProcess_complete]

end ProcessChecker

namespace StubChecker

/-! ### One launch -/

theorem readSalt?_text (salt : Salt) : readSalt? salt.text = some salt := by
  have hspan : Numeral.unsigned32.Spans salt.toNat :=
    { least_le_zero := by decide
      zero_le_greatest := by decide
      least_le := Int.natCast_nonneg _
      le_greatest := by
        have hle := salt.toNat_le
        simp only [Numeral.unsigned32]
        omega }
  have hword : UInt32.ofNat (salt.toNat : Int).toNat = salt.word := by
    simp [Salt.toNat]
  rw [readSalt?, Salt.text, Numeral.read_natText hspan]
  simp only [hword]
  exact dif_pos ⟨salt.least_le, salt.le_greatest⟩

theorem holdsNul_saltText (salt : Salt) : FileTree.holdsNul salt.text = false := by
  rw [FileTree.holdsNul, Salt.text, List.contains_eq_mem, decide_eq_false_iff_not]
  intro hnul
  have hbounds := Numeral.isDigit_of_mem_natText hnul
  exact absurd hbounds (by decide)

theorem run_arguments {files : Files} {i : Invocation} {secret : Secret} {script : Script}
    (hsecret : (Secret.load files i.config).value = .ok secret)
    (hscript : Script.load files i.log = .ok script) (name : String) :
    run files (name :: i.arguments) = script.perform secret i.task i.salt := by
  simp only [run, Invocation.arguments, hsecret, readSalt?_text, hscript]

/-- A tree with the stand-in at a path with a slash starts it there. -/
theorem startedBy_launch {t : FileTree} {path : String} {place : List String}
    (hnul : FileTree.holdsNul path = false) (hslash : path.toList.contains '/' = true)
    (hplace : t.locate path = .ok (.inside place))
    (hprogram : (t.file? place).bind (·.program) = some program) :
    StartedBy t.launch path t.read := by
  intro arguments harguments
  have hany : arguments.any FileTree.holdsNul = false :=
    List.any_eq_false.mpr fun a ha => by rw [harguments a ha]; exact Bool.false_ne_true
  refine ⟨(run t.read (path :: arguments)).events .unbounded, ?_, Completion.completes _⟩
  simp only [FileTree.launch, hnul, hany, hslash, hplace, hprogram]
  rfl

/-- A log that asks for a report is answered with the verdict that it tells. The proof is signed by
the secret of the config, or by a wrong one when the log asks for that. -/
theorem read_run {files : Files} {i : Invocation} {secret : Secret}
    (hsecret : (Secret.load files i.config).value = .ok secret)
    (hscript : ∃ script, Script.load files i.log = .ok script)
    (hreports : ∀ word ∈ ["silent", "garbled"], hasWord word (logRecords files i.log) = false)
    (name : String) :
    ∃ text, Transcript.read (run files (name :: i.arguments)).stdout =
      .ok ⟨some (toldVerdict (logRecords files i.log)),
        some (ProofCode.derive
          (if hasWord "tamper" (logRecords files i.log) then wrongSecret else secret.value)
          i.task i.salt (toldVerdict (logRecords files i.log))).hex, text⟩ := by
  obtain ⟨script, hscript⟩ := hscript
  have hrecords := Script.ofRecords_of_load hscript
  obtain ⟨htamper, hsilent, hgarbled⟩ := Script.ofRecords_flags hrecords
  have hverdict : script.verdict.getD 0 = toldVerdict (logRecords files i.log) :=
    Script.ofRecords_verdict hrecords
  rw [hreports "silent" (by decide)] at hsilent
  rw [hreports "garbled" (by decide)] at hgarbled
  obtain ⟨text, hread⟩ := script.read_stdout hsilent hgarbled secret i.task i.salt
  rw [htamper, Bool.false_or, hverdict] at hread
  rw [run_arguments hsecret hscript name]
  exact ⟨text, hread⟩

/-- An honest log is answered with the verdict that it tells, proved with the secret of the config
and for the salt of the launch. -/
theorem invoke_honest {launch : Launcher} {name : String} {files : Files} {i : Invocation}
    {secret : Secret} (hstart : StartedBy launch name files)
    (hsecret : (Secret.load files i.config).value = .ok secret) (hlog : HonestLog files i.log)
    (harguments : ∀ a ∈ i.arguments, FileTree.holdsNul a = false) :
    ∃ outcome, (ProcessChecker.invoke ⟨name, .unbounded⟩ launch i).value = .ok outcome ∧
      outcome.result = some (toldVerdict (logRecords files i.log)) ∧
      outcome.proof = some (ProofCode.derive secret.value i.task i.salt
        (toldVerdict (logRecords files i.log))).hex := by
  obtain ⟨text, hread⟩ := read_run hsecret hlog.isScript
    (fun word hword => hlog.honest word (List.mem_cons_of_mem _ hword)) name
  rw [hlog.honest "tamper" (by decide)] at hread
  obtain ⟨events, hlaunch, hcompletes⟩ := hstart i.arguments harguments
  have hanswer := ProcessChecker.invoke_completes ⟨name, .unbounded⟩ launch i hlaunch hcompletes
  rw [Outcome.ofOutput, hread] at hanswer
  exact ⟨_, hanswer, rfl, rfl⟩

/-! ### One attempt -/

section Attempts

variable {σ : Type} {launch : Launcher} {name : String} {files : Files} {plan : Plan}

/-- The runner of a plan with the stand-in as its checker and any salts. -/
def setup (launch : Launcher) (name : String) (plan : Plan) (salts : SaltSource σ) :
    Setup Unit σ where
  plan := plan
  checker := ProcessChecker.checker ⟨name, .unbounded⟩ launch
  salts := salts

variable {source : SaltSource σ} {salts : σ} {a : Attempt} (h : Prepared launch name files plan)
  (ha : a ∈ (setup launch name plan source).attempts () salts plan.cases)

include h ha

theorem outcome_of_mem_attempts :
    ∃ outcome, a.answer = .ok outcome ∧ outcome.result = some (told files a.case) ∧
      outcome.proof = some (ProofCode.derive plan.secret.value a.case.task a.salt
        (told files a.case)).hex := by
  obtain ⟨hcase, hanswer⟩ := Setup.answer_of_mem_attempts rfl ha
  obtain ⟨htask, hlog⟩ := h.arguments a.case hcase
  have harguments : ∀ x ∈ (a.invocation plan).arguments, FileTree.holdsNul x = false := by
    simp only [Invocation.arguments, Attempt.invocation, Plan.invocation, List.forall_mem_cons]
    exact ⟨h.config, htask, holdsNul_saltText a.salt, hlog, nofun⟩
  rw [hanswer]
  exact invoke_honest h.started h.secret (h.logs a.case hcase) harguments

theorem passes_iff : a.passes plan.secret ↔ a.case.expected = told files a.case := by
  obtain ⟨outcome, hanswer, hresult, hproof⟩ := outcome_of_mem_attempts h ha
  constructor
  · rintro ⟨other, hother, hverdict⟩
    obtain rfl : other = outcome := Except.ok.inj (hother.symm.trans hanswer)
    have hexpected := (evaluate_eq_ok_iff.mp hverdict).1
    exact Option.some.inj (hexpected.symm.trans hresult)
  · intro hexpected
    refine ⟨outcome, hanswer, evaluate_eq_ok_iff.mpr ⟨?_, .inr ?_⟩⟩
    · rw [hresult, hexpected]
    · rw [hproof, hexpected]

/-- There is a result, and the proof goes with it, so only the result can be refused. -/
theorem failure_eq {f : CaseFailure} (hfails : a.Fails plan.secret f) :
    f.failure = .resultMismatch a.case.expected (told files a.case) := by
  obtain ⟨outcome, hanswer, hresult, -⟩ := outcome_of_mem_attempts h ha
  have hne : a.case.expected ≠ told files a.case :=
    fun hexpected => Attempt.not_passes_iff.mpr ⟨f, hfails⟩ ((passes_iff h ha).mpr hexpected)
  cases hfails with
  | @refused c salt other failure verdict =>
    obtain rfl : other = outcome := Except.ok.inj hanswer
    exact Except.error.inj (verdict.symm.trans (evaluate_of_ne hresult hne))
  | unanswered c salt keeps => cases hanswer

end Attempts

/-! ### The run -/

/-- A run with the stand-in passes exactly when every case expects what its log tells. Otherwise it
is aborted at the first case that does not, by the result that was told there. -/
theorem run_follows_logs {σ : Type} {launch : Launcher} {name : String} {files : Files}
    {plan : Plan} (h : Prepared launch name files plan) (source : SaltSource σ) (timing : Timing)
    (r : Runner Unit σ) :
    let run := (setup launch name plan source).run timing r
    (run.outcome = .allPassed plan.cases.length ↔
      ∀ c ∈ plan.cases, c.expected = told files c) ∧
    ((∀ c ∈ plan.cases, c.expected = told files c) ∧ run.outcome = .allPassed plan.cases.length ∨
      ∃ k f, plan.cases[k]? = some f.case ∧
        (∀ c ∈ plan.cases.take k, c.expected = told files c) ∧
        f.case.expected ≠ told files f.case ∧ run.outcome = .aborted k f ∧
        f.failure = .resultMismatch f.case.expected (told files f.case)) := by
  intro run
  let s := setup launch name plan source
  have hcases : (s.attempts () r.salts plan.cases).map Attempt.case = plan.cases :=
    s.map_case_attempts () r.salts plan.cases
  rcases s.run_outcome timing r with ⟨hall, houtcome⟩ | ⟨k, a, f, ha, hbefore, hfails, houtcome⟩
  · have hexpected : ∀ c ∈ plan.cases, c.expected = told files c := by
      rw [← hcases]
      exact List.forall_mem_map.mpr fun a ha => (passes_iff h ha).mp (hall a ha)
    exact ⟨iff_of_true houtcome hexpected, .inl ⟨hexpected, houtcome⟩⟩
  · have hmem : a ∈ s.attempts () r.salts plan.cases := List.mem_of_getElem? ha
    have hcase : plan.cases[k]? = some f.case := by
      rw [hfails.case_eq]
      exact s.getElem?_case_attempts ha
    have hearlier : ∀ c ∈ plan.cases.take k, c.expected = told files c := by
      rw [← hcases, ← List.map_take]
      exact List.forall_mem_map.mpr fun b hb =>
        (passes_iff h (List.mem_of_mem_take hb)).mp (hbefore b hb)
    have hdiffers : f.case.expected ≠ told files f.case := by
      rw [hfails.case_eq]
      exact fun hexpected => Attempt.not_passes_iff.mpr ⟨f, hfails⟩
        ((passes_iff h hmem).mpr hexpected)
    have hfailure : f.failure = .resultMismatch f.case.expected (told files f.case) := by
      rw [hfails.case_eq]
      exact failure_eq h hmem hfails
    have haborted : run.outcome ≠ .allPassed plan.cases.length := by
      change (s.run timing r).outcome ≠ _
      rw [houtcome]
      exact RunOutcome.noConfusion
    have hnot : ¬ ∀ c ∈ plan.cases, c.expected = told files c :=
      fun hexpected => hdiffers (hexpected f.case (List.mem_of_getElem? hcase))
    exact ⟨iff_of_false haborted hnot,
      .inr ⟨k, f, hcase, hearlier, hdiffers, houtcome, hfailure⟩⟩

theorem eq_ok_of_toOption {ε α : Type} {x : Except ε α} {v : α} (h : x.toOption = some v) :
    x = .ok v := by
  cases x with
  | error e => cases h
  | ok w => exact congrArg Except.ok (Option.some.inj h)

/-- A tree with the stand-in, a secret with a colon in it, a log with noise and a second verdict that
is no integer, and an empty log. -/
def workshop : FileTree :=
  let text (s : String) : FileNode := ⟨Text.Utf8.encode s.toList, none⟩
  let tree : FileTree := {}
  (((tree.insert "stub" ⟨[], some program⟩).insert "test.cfg"
    (text "noise\nsecret:\" s:3 \"\n")).insert "long.log"
      (text "noise:12\nverdict: -7\nsleep:5\nverdict:many\nTamper\n")).insert "empty.log" (text "")

theorem prepared_workshop (cases : List Case)
    (hcases : ∀ c ∈ cases, FileTree.holdsNul c.task = false ∧
      (c.log = "long.log" ∨ c.log = "empty.log")) :
    Prepared workshop.launch "./stub" workshop.read ⟨⟨"s:3"⟩, "test.cfg", cases⟩ := by
  have hlog : ∀ log, log = "long.log" ∨ log = "empty.log" →
      FileTree.holdsNul log = false ∧ HonestLog workshop.read log := by
    rintro log (rfl | rfl)
    · exact ⟨by decide, ⟨_, eq_ok_of_toOption (v := ⟨some (-7), false, false, false, some 5, 12⟩)
        (by decide +kernel)⟩, by decide +kernel⟩
    · exact ⟨by decide, ⟨{}, eq_ok_of_toOption (by decide +kernel)⟩, by decide +kernel⟩
  have hplace : workshop.locate "./stub" = .ok (.inside ["stub"]) := eq_ok_of_toOption (by decide +kernel)
  have hsecret : (Secret.load workshop.read "test.cfg").value = .ok ⟨"s:3"⟩ :=
    eq_ok_of_toOption (by decide +kernel)
  have hconfig : FileTree.holdsNul "test.cfg" = false := by decide
  exact
    { started := startedBy_launch (by decide) (by decide) hplace rfl
      secret := hsecret
      config := hconfig
      arguments := fun c hc => ⟨(hcases c hc).1, (hlog c.log (hcases c hc).2).1⟩
      logs := fun c hc => (hlog c.log (hcases c hc).2).2 }

theorem run_follows_logs_workshop :
    let first : Case := ⟨"a:b", -7, "long.log", 1⟩
    let second : Case := ⟨"", 3, "empty.log", 2⟩
    let third : Case := ⟨"c", 0, "empty.log", 3⟩
    let plan : Plan := ⟨⟨"s:3"⟩, "test.cfg", [first, second, third]⟩
    let s := setup workshop.launch "./stub" plan .random
    let timing : Timing := ⟨fun _ => .zero, .zero⟩
    Prepared workshop.launch "./stub" workshop.read plan ∧
      ∃ f, (s.run timing (s.start () [])).outcome = .aborted 1 f ∧ f.case = second ∧
        f.failure = .resultMismatch 3 0 := by
  intro first second third plan s timing
  have hprepared := prepared_workshop plan.cases (by decide)
  have hfirst : told workshop.read first = -7 := by decide +kernel
  have hsecond : told workshop.read second = 0 := by decide +kernel
  have hdiffers : ¬second.expected = told workshop.read second := by rw [hsecond]; decide
  obtain ⟨-, ⟨hall, -⟩ | ⟨k, f, hcase, hbefore, hne, houtcome, hfailure⟩⟩ :=
    run_follows_logs hprepared .random timing (s.start () [])
  · exact absurd (hall second (by simp [plan])) hdiffers
  · refine ⟨hprepared, f, ?_⟩
    match k with
    | 0 =>
      have hcase : first = f.case := Option.some.inj hcase
      rw [← hcase, hfirst] at hne
      exact absurd rfl hne
    | 1 =>
      have hcase : second = f.case := Option.some.inj hcase
      rw [← hcase, hsecond] at hfailure
      exact ⟨houtcome, hcase.symm, hfailure⟩
    | k + 2 => exact absurd (hbefore second (by simp [plan])) hdiffers

end StubChecker

end CheckerAudit
