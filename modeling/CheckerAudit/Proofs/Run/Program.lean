import CheckerAudit.Proofs.Process.Output
import CheckerAudit.Proofs.Run.Protocol
import CheckerAudit.Proofs.Transcript.Last
import CheckerAudit.Suite

/-!
# A program as the checker of a run

A program has no state between launches, so each attempt of a run is answered as if it were the
only one. What an answer keeps of the standard output is normalised: a program that wrote just that
would have been answered the same.
-/
namespace CheckerAudit

/-- A program keeps nothing from one launch to the next. -/
theorem Setup.answer_of_mem_attempts {σ : Type} {s : Setup Unit σ} {p : ProcessChecker}
    {launch : Launcher} (hchecker : s.checker = p.checker launch) {cases : List Case} {salts : σ}
    {a : Attempt} (h : a ∈ s.attempts () salts cases) :
    a.case ∈ cases ∧ a.answer = (p.invoke launch (a.invocation s.plan)).value := by
  induction cases generalizing salts with
  | nil => cases h
  | cons c rest ih =>
    rcases List.mem_cons.mp h with rfl | hrest
    · refine ⟨List.mem_cons_self, ?_⟩
      simp only [hchecker]
      rfl
    · obtain ⟨hcase, hanswer⟩ := ih hrest
      exact ⟨List.mem_cons_of_mem c hcase, hanswer⟩

/-! ### The answer to its output -/

namespace Outcome

variable {stdout stderr : String} {code : Option Int32}

/-- A program that wrote what an outcome keeps, and exited in the same way, would give that
outcome. -/
theorem ofOutput_kept {o : Outcome} (h : ofOutput stdout stderr code = .ok o) :
    o.output.stdout = Transcript.textOf stdout ∧
      ofOutput o.output.stdout o.output.stderr o.exitCode = .ok o := by
  unfold ofOutput at h
  cases hread : Transcript.read stdout with
  | ok t =>
    rw [hread] at h
    obtain rfl := Except.ok.inj h
    simp only [ofOutput, Transcript.textOf, hread, Transcript.read_text_of_ok hread, and_self]
  | error m =>
    rw [hread] at h
    cases h

/-- A malformed result is malformed in what is kept with it, however the program exits. -/
theorem ofOutput_captured {e : InvokeError} (h : ofOutput stdout stderr code = .error e) :
    ∃ output, e.captured = some output ∧ output.stdout = Transcript.textOf stdout ∧
      ∀ code, ofOutput output.stdout output.stderr code = .error e := by
  unfold ofOutput at h
  cases hread : Transcript.read stdout with
  | ok t =>
    rw [hread] at h
    cases h
  | error m =>
    rw [hread] at h
    obtain rfl := Except.error.inj h
    refine ⟨_, rfl, ?_, fun code => ?_⟩
    · simp only [Transcript.textOf, hread]
    · simp only [ofOutput, Transcript.read_text_of_error hread]

end Outcome

/-- How a launch is answered: by its output, by its limit with the text of its output, or by an
error that came before any output. -/
inductive AnswerOfLaunch : Except InvokeError Outcome → Prop where
  | judged (stdout stderr : String) (code : Option Int32) :
    AnswerOfLaunch (Outcome.ofOutput stdout stderr code)
  | overrun (limit : Duration) (stdout stderr : String) :
    AnswerOfLaunch (.error (.timedOut limit ⟨Transcript.textOf stdout, stderr⟩))
  | nothing {e : InvokeError} (h : e.captured = none) : AnswerOfLaunch (.error e)

theorem answerOfLaunch_judgeProcess (wait : WaitPolicy) (ending : Ending) (g : Gathered) :
    AnswerOfLaunch (judgeProcess wait ending g) := by
  have hread (code : Option Int32) := AnswerOfLaunch.judged g.stdout g.stderr code
  cases wait with
  | unbounded =>
    cases ending with
    | exited code => exact hread code
    | killed => exact hread none
  | limit time =>
    cases ending with
    | killed => exact .overrun time g.stdout g.stderr
    | exited code =>
      obtain ⟨stdout, stderr, complete⟩ := g
      cases complete with
      | false => exact .overrun time stdout stderr
      | true => exact hread code

theorem answerOfLaunch_invoke (p : ProcessChecker) (launch : Launcher) (i : Invocation) :
    AnswerOfLaunch (p.invoke launch i).value := by
  unfold ProcessChecker.invoke
  split
  · exact .nothing rfl
  · split
    · exact .nothing rfl
    · exact answerOfLaunch_judgeProcess ..

/-! ### What a failed case shows -/

/-- What a recorded failure shows of a program's output is normalised, and is judged to the same
failure again unless the program ran over its limit. -/
theorem Attempt.Fails.reads_back {secret : Secret} {a : Attempt} {f : CaseFailure}
    (h : a.Fails secret f) (hanswer : AnswerOfLaunch a.answer) {output : Captured}
    (houtput : f.output = some output) :
    Transcript.textOf output.stdout = output.stdout ∧
      (f.failure.kind = .timedOut ∨
        CaseFailure.ofAnswer? secret f.case f.salt
          (Outcome.ofOutput output.stdout output.stderr f.exitCode) = some f) := by
  have hsame := Attempt.ofAnswer?_eq_some_iff.mpr h
  cases h with
  | @refused c salt outcome failure verdict =>
    obtain rfl : outcome.output = output := Option.some.inj houtput
    generalize hkept : Except.ok (ε := InvokeError) outcome = answer at hanswer
    cases hanswer with
    | judged stdout stderr code =>
      obtain ⟨htext, hback⟩ := Outcome.ofOutput_kept hkept.symm
      refine ⟨by rw [htext, Transcript.textOf_textOf], .inr ?_⟩
      rw [hback]
      exact hsame
    | overrun | nothing => cases hkept
  | @unanswered c salt e kept keeps =>
    obtain rfl : kept = some output := houtput
    have houtput : e.captured = some output := InvokeError.keeps_iff.mp keeps
    generalize hkept : Except.error (α := Outcome) e = answer at hanswer
    cases hanswer with
    | judged stdout stderr code =>
      obtain ⟨captured, hcaptured, htext, hback⟩ := Outcome.ofOutput_captured hkept.symm
      obtain rfl : captured = output := Option.some.inj (hcaptured.symm.trans houtput)
      refine ⟨by rw [htext, Transcript.textOf_textOf], .inr ?_⟩
      rw [hback]
      exact hsame
    | overrun limit stdout stderr =>
      obtain rfl := Except.error.inj hkept
      obtain rfl := Option.some.inj houtput
      exact ⟨Transcript.textOf_textOf stdout, .inl rfl⟩
    | nothing hnone =>
      obtain rfl := Except.error.inj hkept
      rw [hnone] at houtput
      cases houtput

/-- Reading the text of a transcript gives the same transcript, or the same malformed result. So
whatever a failed case of a run shows of its checker's output is the text that it would be for a
checker that wrote just that, and is judged to the failure that was recorded, unless the checker ran
over its limit and was not judged. -/
theorem shown_output_reads_back :
    (∀ stdout, (∀ t, Transcript.read stdout = .ok t → Transcript.read t.text = .ok t) ∧
      ∀ m, Transcript.read stdout = .error m → Transcript.read m.text = .error m) ∧
    ∀ {σ : Type} (s : Setup Unit σ) (p : ProcessChecker) (launch : Launcher) (timing : Timing)
      (r : Runner Unit σ) (f : CaseFailure) (output : Captured), s.checker = p.checker launch →
      .caseFailed f ∈ (s.run timing r).reports → f.output = some output →
      Transcript.textOf output.stdout = output.stdout ∧
        (f.failure.kind = .timedOut ∨
          CaseFailure.ofAnswer? s.plan.secret f.case f.salt
            (Outcome.ofOutput output.stdout output.stderr f.exitCode) = some f) := by
  refine ⟨fun stdout => ⟨fun t => Transcript.read_text_of_ok,
    fun m => Transcript.read_text_of_error⟩, ?_⟩
  intro σ s p launch timing r f output hchecker hreported houtput
  have hfailure := s.failure?_of_mem_reports timing r hreported
  rcases s.run_outcome timing r with ⟨-, houtcome⟩ | ⟨k, a, g, ha, -, hfails, houtcome⟩
  · rw [houtcome] at hfailure
    cases hfailure
  · rw [houtcome] at hfailure
    obtain rfl := Option.some.inj hfailure
    obtain ⟨-, hanswer⟩ := Setup.answer_of_mem_attempts hchecker (List.mem_of_getElem? ha)
    refine hfails.reads_back ?_ houtput
    rw [hanswer]
    exact answerOfLaunch_invoke p launch _

/-- Output with blanks around its lines, carriage returns at their ends and in them, and no end of
the last one. -/
def untidy : String :=
  "\u3000 Result code: +5\r\r\n\r\n\tCode string: \u00a0a b\r\nlast\rline \r"

theorem shown_output_reads_back_untidy :
    let p : ProcessChecker := ⟨"checker", .unbounded⟩
    let launch : Launcher := fun _ _ =>
      .ok [.chunk .stdout (Text.Utf8.encode untidy.toList), .closed .stdout, .closed .stderr,
        .exited (some 0)]
    let c : Case := ⟨"task", 3, "a.log", 1⟩
    let s : Setup Unit Unit :=
      ⟨⟨⟨"s3cr3t"⟩, "test.cfg", [c]⟩, p.checker launch, ⟨fun _ => (.nearest 7, ())⟩⟩
    let timing : Timing := ⟨fun _ => .zero, .zero⟩
    let output : Captured := ⟨"Result code: +5\n\nCode string: \u00a0a b\nlast\rline\n", ""⟩
    let f : CaseFailure := ⟨c, .nearest 7, .resultMismatch 3 5, some output, some 0⟩
    .caseFailed f ∈ (s.run timing (s.start () ())).reports ∧
      (∃ t, Transcript.read untidy = .ok t ∧ Transcript.read t.text = .ok t) ∧
      Transcript.textOf output.stdout = output.stdout ∧
      CaseFailure.ofAnswer? s.plan.secret f.case f.salt
        (Outcome.ofOutput output.stdout output.stderr f.exitCode) = some f := by
  intro p launch c s timing output f
  have hreported : .caseFailed f ∈ (s.run timing (s.start () ())).reports := by decide +kernel
  have hread : (Transcript.read untidy).toOption.isSome = true := by decide +kernel
  obtain ⟨hstable, hshown⟩ := shown_output_reads_back
  obtain ⟨htext, hkind | hjudged⟩ := hshown s p launch timing _ f output rfl hreported rfl
  · cases hkind
  · refine ⟨hreported, ?_, htext, hjudged⟩
    cases h : Transcript.read untidy with
    | ok t => exact ⟨t, rfl, (hstable untidy).1 t h⟩
    | error m =>
      rw [h] at hread
      cases hread

end CheckerAudit
