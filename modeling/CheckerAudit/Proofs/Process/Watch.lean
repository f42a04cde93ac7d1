import CheckerAudit.Process.Schedule

/-!
# Where the watch over a process stops

A watch remembers of the events that have arrived only the bytes of each stream, which streams are
closed, and how the process ended. So following a schedule can be told by what has arrived so far:
first while the process is awaited, then while its output is. A schedule either stops the watch at
one place or runs out before it.
-/
namespace CheckerAudit

variable {wait : WaitPolicy} {ending : Ending} {e : ProcessEvent}
  {events received more rest : List ProcessEvent}

@[simp] theorem outputOn_append (s : Stream) (first later : List ProcessEvent) :
    outputOn s (first ++ later) = outputOn s first ++ outputOn s later :=
  List.flatMap_append

theorem allClosed_iff : AllClosed events ↔ ∀ s, .closed s ∈ events :=
  ⟨fun h s => match s with
    | .stdout => h.1
    | .stderr => h.2, fun h => ⟨h _, h _⟩⟩

theorem AllClosed.mono (h : AllClosed received) (hsub : received ⊆ events) : AllClosed events :=
  ⟨hsub h.1, hsub h.2⟩

@[simp] theorem openUntil_nil (received : List ProcessEvent) : OpenUntil received [] :=
  fun _ hshort _ => List.prefix_nil.mp hshort

theorem openUntil_cons_iff :
    OpenUntil received (e :: more) ↔ ¬ AllClosed received ∧ OpenUntil (received ++ [e]) more := by
  have hstart (later : List ProcessEvent) :
      received ++ [e] ++ later = received ++ e :: later := by simp
  constructor
  · intro h
    refine ⟨fun hclosed => ?_, fun shorter hshort hclosed => ?_⟩
    · have hnil := h [] List.nil_prefix (by rwa [List.append_nil])
      exact List.cons_ne_nil e more hnil.symm
    · have hcons := h (e :: shorter) (List.cons_prefix_cons.mpr ⟨rfl, hshort⟩)
        (hstart shorter ▸ hclosed)
      exact (List.cons.inj hcons).2
  · rintro ⟨hopen, h⟩ shorter hshort hclosed
    rcases List.prefix_cons_iff.mp hshort with rfl | ⟨tail, rfl, htail⟩
    · exact absurd (by rwa [List.append_nil] at hclosed) hopen
    · rw [h tail htail (hstart tail ▸ hclosed)]

/-- A closed stream stays closed, so one that is open in the end was open all the time. -/
theorem openUntil_of_open (h : ¬ AllClosed (received ++ more)) : OpenUntil received more := by
  intro shorter hshort hclosed
  have hsub : received ++ shorter ⊆ received ++ more :=
    ((List.prefix_append_right_inj received).mpr hshort).subset
  exact absurd (hclosed.mono hsub) h

namespace Watch

/-- The watch after some events have arrived. -/
def seen (ending : Option Ending) (received : List ProcessEvent) : Watch where
  stdout := outputOn .stdout received
  stderr := outputOn .stderr received
  stdoutOpen := decide (.closed .stdout ∉ received)
  stderrOpen := decide (.closed .stderr ∉ received)
  ending := ending

@[simp] theorem record_seen (ending : Option Ending) (received : List ProcessEvent)
    (e : ProcessEvent) :
    (seen ending received).record e = seen ending (received ++ [e]) := by
  cases e with
  | chunk s bytes => cases s <;> simp [seen, record, outputOn, ProcessEvent.bytesOn]
  | closed s => cases s <;> simp [seen, record, outputOn, ProcessEvent.bytesOn]
  | exited code => simp [seen, record, outputOn, ProcessEvent.bytesOn]
  | deadline => simp [seen, record, outputOn, ProcessEvent.bytesOn]

@[simp] theorem allClosed_seen (ending : Option Ending) (received : List ProcessEvent) :
    (seen ending received).allClosed = true ↔ AllClosed received := by
  simp [seen, allClosed, AllClosed]

/-! ### One event -/

theorem follow_awaited (h : wait.ending? e = none) :
    follow wait (seen none received) (e :: rest) =
      follow wait (seen none (received ++ [e])) rest := by
  rw [← record_seen]
  cases wait <;> cases e <;> first | rfl | cases h

/-- The event that ends the process is remembered as its ending only. -/
theorem follow_ended (h : wait.ending? e = some ending) :
    follow wait (seen none received) (e :: rest) = follow wait (seen (some ending) received) rest := by
  cases wait <;> cases e <;> cases h <;> rfl

theorem follow_gone_nil :
    follow wait (seen (some ending) received) [] =
      if AllClosed received then some (ending, .ofEvents received true) else none := by
  simp only [← allClosed_seen (some ending) received]
  rfl

/-- Once the process is gone, an event finds the output complete, gives it up or adds to it. -/
theorem follow_gone_cons :
    follow wait (seen (some ending) received) (e :: rest) =
      if AllClosed received then some (ending, .ofEvents received true)
      else if wait.expires e then some (ending, .ofEvents received false)
      else follow wait (seen (some ending) (received ++ [e])) rest := by
  simp only [← allClosed_seen (some ending) received, ← record_seen]
  cases wait <;> cases e <;> rfl

theorem follow_closed (h : AllClosed received) :
    follow wait (seen (some ending) received) rest =
      some (ending, .ofEvents received true) := by
  cases rest with
  | nil => rw [follow_gone_nil, if_pos h]
  | cons e rest => rw [follow_gone_cons, if_pos h]

theorem follow_expired (h : ¬ AllClosed received) (hlate : wait.expires e = true) :
    follow wait (seen (some ending) received) (e :: rest) =
      some (ending, .ofEvents received false) := by
  rw [follow_gone_cons, if_neg h, if_pos hlate]

theorem follow_collecting (h : ¬ AllClosed received) (htime : wait.expires e = false) :
    follow wait (seen (some ending) received) (e :: rest) =
      follow wait (seen (some ending) (received ++ [e])) rest := by
  rw [follow_gone_cons, if_neg h, if_neg (Bool.eq_false_iff.mp htime)]

/-! ### Many events -/

theorem follow_awaited_append (h : ∀ e ∈ more, wait.ending? e = none) :
    follow wait (seen none received) (more ++ rest) =
      follow wait (seen none (received ++ more)) rest := by
  induction more generalizing received with
  | nil => rw [List.nil_append, List.append_nil]
  | cons e more ih =>
    have hnow := h e List.mem_cons_self
    have hlater : ∀ e ∈ more, wait.ending? e = none := fun e he => h e (List.mem_cons_of_mem _ he)
    rw [List.cons_append, follow_awaited hnow, ih hlater, List.append_assoc,
      List.singleton_append]

theorem follow_collecting_append (htime : ∀ e ∈ more, wait.expires e = false)
    (hopen : OpenUntil received more) :
    follow wait (seen (some ending) received) (more ++ rest) =
      follow wait (seen (some ending) (received ++ more)) rest := by
  induction more generalizing received with
  | nil => rw [List.nil_append, List.append_nil]
  | cons e more ih =>
    obtain ⟨hnow, hlater⟩ := openUntil_cons_iff.mp hopen
    have hearly := htime e List.mem_cons_self
    have htail : ∀ e ∈ more, wait.expires e = false :=
      fun e he => htime e (List.mem_cons_of_mem _ he)
    rw [List.cons_append, follow_collecting hnow hearly, ih htail hlater, List.append_assoc,
      List.singleton_append]

theorem follow_runs_out (htime : ∀ e ∈ events, wait.expires e = false)
    (hopen : ¬ AllClosed (received ++ events)) :
    follow wait (seen (some ending) received) events = none := by
  -- All events are taken in, and then a stream is still open.
  rw [← List.append_nil events, follow_collecting_append htime (openUntil_of_open hopen),
    follow_gone_nil, if_neg hopen]

/-- A watch that stops gives the ending and the output that arrived until then. -/
theorem follow_of_stops {complete : Bool} (h : Stops wait events ending complete received) :
    follow wait {} events = some (ending, .ofEvents received complete) := by
  have hstart : ({} : Watch) = seen none [] := rfl
  cases h with
  | complete order awaited ends inTime unclosed closed =>
    rw [order, hstart, follow_awaited_append awaited, follow_ended ends, List.nil_append,
      follow_collecting_append inTime unclosed, follow_closed closed]
  | abandoned order awaited ends inTime expired unclosed =>
    rw [order, hstart, follow_awaited_append awaited, follow_ended ends, List.nil_append,
      follow_collecting_append inTime (openUntil_of_open unclosed), follow_expired unclosed expired]

end Watch

/-! ### Every schedule -/

/-- After the process is gone the output is complete, or given up at a deadline, or still awaited
when the events run out. -/
theorem collecting_cases (wait : WaitPolicy) (received events : List ProcessEvent) :
    (∃ after rest, events = after ++ rest ∧ (∀ e ∈ after, wait.expires e = false) ∧
      OpenUntil received after ∧ AllClosed (received ++ after)) ∨
    (∃ after late rest, events = after ++ late :: rest ∧ (∀ e ∈ after, wait.expires e = false) ∧
      wait.expires late = true ∧ ¬ AllClosed (received ++ after)) ∨
    (∀ e ∈ events, wait.expires e = false) ∧ ¬ AllClosed (received ++ events) := by
  by_cases hclosed : AllClosed received
  · exact .inl ⟨[], events, rfl, by simp, openUntil_nil received, by rwa [List.append_nil]⟩
  -- A stream is open now. What holds after the next event is told for what has arrived by then, so
  -- the induction is over the events with `received` general.
  induction events generalizing received with
  | nil => exact .inr (.inr ⟨by simp, by rwa [List.append_nil]⟩)
  | cons e events ih =>
    cases htime : wait.expires e with
    | true => exact .inr (.inl ⟨[], e, events, rfl, by simp, htime, by rwa [List.append_nil]⟩)
    | false =>
      have hin (after : List ProcessEvent) (h : ∀ a ∈ after, wait.expires a = false) :
          ∀ a ∈ e :: after, wait.expires a = false :=
        List.forall_mem_cons.mpr ⟨htime, h⟩
      have hstart (after : List ProcessEvent) :
          received ++ [e] ++ after = received ++ e :: after := by simp
      by_cases hnow : AllClosed (received ++ [e])
      · refine .inl ⟨[e], events, rfl, hin [] (by simp), ?_, hnow⟩
        exact openUntil_cons_iff.mpr ⟨hclosed, openUntil_nil _⟩
      rcases ih (received ++ [e]) hnow with ⟨after, rest, rfl, hafter, hopen, hall⟩ |
        ⟨after, late, rest, rfl, hafter, hlate, hopen⟩ | ⟨hafter, hopen⟩
      · exact .inl ⟨e :: after, rest, rfl, hin after hafter,
          openUntil_cons_iff.mpr ⟨hclosed, hopen⟩, hstart after ▸ hall⟩
      · exact .inr (.inl ⟨e :: after, late, rest, rfl, hin after hafter, hlate,
          hstart after ▸ hopen⟩)
      · exact .inr (.inr ⟨hin events hafter, hstart events ▸ hopen⟩)

/-- A schedule stops the watch somewhere or runs out before. -/
theorem stops_or_runs_out (wait : WaitPolicy) (events : List ProcessEvent) :
    (∃ ending complete received, Stops wait events ending complete received) ∨
      Watch.follow wait {} events = none := by
  have hstart : ({} : Watch) = .seen none [] := rfl
  -- The first event that ends the process cuts the schedule in two.
  cases hfirst : events.findSome? wait.ending? with
  | none =>
    have hawaited := List.findSome?_eq_none_iff.mp hfirst
    refine .inr ?_
    rw [hstart, ← List.append_nil events, Watch.follow_awaited_append hawaited]
    rfl
  | some ending =>
    obtain ⟨before, cause, later, rfl, hends, hawaited⟩ := List.findSome?_eq_some_iff.mp hfirst
    rcases collecting_cases wait before later with ⟨after, rest, rfl, hin, hopen, hall⟩ |
      ⟨after, late, rest, rfl, hin, hlate, hopen⟩ | ⟨hin, hopen⟩
    · exact .inl ⟨ending, true, _, .complete rfl hawaited hends hin hopen hall⟩
    · exact .inl ⟨ending, false, _, .abandoned rfl hawaited hends hin hlate hopen⟩
    · refine .inr ?_
      rw [hstart, Watch.follow_awaited_append hawaited, Watch.follow_ended hends]
      exact Watch.follow_runs_out hin hopen

end CheckerAudit
