import CheckerAudit.Record.Line

/-!
# The line counter and the direct count

A counter moves forward only, and an offset it is given may lie in a run of terminators that it has
passed before. Such an offset leads to the end of the same run, so the counter gives the line that
counting from the start gives, for all offsets that do not decrease.
-/
namespace CheckerAudit.Record

variable {α : Type} [DecidableEq α] [Alphabet α]

/-! ### Passing over terminators -/

theorem skipTerminators_of_terminator {text : Array α} {i : Nat} (hi : i < text.size)
    (h : isTerminator text[i] = true) : skipTerminators text i = skipTerminators text (i + 1) := by
  rw [skipTerminators, dif_pos hi, if_pos h]

theorem skipTerminators_of_other {text : Array α} {i : Nat} (hi : i < text.size)
    (h : isTerminator text[i] = false) : skipTerminators text i = i := by
  rw [skipTerminators, dif_pos hi, h, if_neg Bool.false_ne_true]

theorem skipTerminators_of_size_le {text : Array α} {i : Nat} (h : text.size ≤ i) :
    skipTerminators text i = i := by
  rw [skipTerminators, dif_neg (by omega)]

theorem le_skipTerminators (text : Array α) (i : Nat) : i ≤ skipTerminators text i := by
  fun_induction skipTerminators text i with
  | case1 i hi hterminator ih => omega
  | case2 i hi hother => exact Nat.le_refl i
  | case3 i hi => exact Nat.le_refl i

theorem skipTerminators_le {text : Array α} {i : Nat} (h : i ≤ text.size) :
    skipTerminators text i ≤ text.size := by
  fun_induction skipTerminators text i with
  | case1 i hi hterminator ih => exact ih hi
  | case2 i hi hother => exact h
  | case3 i hi => exact h

/-- From anywhere inside a run of terminators the run ends at the same place. -/
theorem skipTerminators_of_inside {text : Array α} {i j : Nat} (hij : i ≤ j)
    (hj : j ≤ skipTerminators text i) : skipTerminators text j = skipTerminators text i := by
  fun_induction skipTerminators text i with
  | case1 i hi hterminator ih =>
    by_cases heq : i = j
    · subst heq
      exact skipTerminators_of_terminator hi hterminator
    · exact ih (by omega) hj
  | case2 i hi hother =>
    obtain rfl : j = i := by omega
    exact skipTerminators_of_other hi (by simpa using hother)
  | case3 i hi =>
    obtain rfl : j = i := by omega
    exact skipTerminators_of_size_le (by omega)

theorem lineFeeds_add (text : Array α) {low mid high : Nat} (hlow : low ≤ mid)
    (hhigh : mid ≤ high) :
    lineFeeds text low mid + lineFeeds text mid high = lineFeeds text low high := by
  rw [lineFeeds, lineFeeds, ← Array.count_append, Array.extract_append_extract,
    Nat.min_eq_left hlow, Nat.max_eq_right hhigh, lineFeeds]

/-! ### The counter -/

namespace LineCounter

theorem target_le_size (c : LineCounter α) (offset : Nat) : c.target offset ≤ c.text.size :=
  skipTerminators_le (Nat.min_le_right _ _)

/-- Within its text a counter moves forward only. -/
theorem le_target {c : LineCounter α} (h : c.offset ≤ c.text.size) (offset : Nat) :
    c.offset ≤ c.target offset := by
  refine Nat.le_trans ?_ (le_skipTerminators c.text (c.clamp offset))
  rw [clamp]
  omega

/-- What a counter has counted, when it is next asked for an offset from `reached` on. -/
structure Counts (c : LineCounter α) (reached : Nat) : Prop where
  bound : c.offset ≤ c.text.size
  line : c.line = 1 + lineFeeds c.text 0 c.offset
  target : ∀ offset, reached ≤ offset →
    c.target offset = skipTerminators c.text (min offset c.text.size)

theorem counts_start (text : Array α) : Counts ⟨text, 0, 1⟩ 0 where
  bound := Nat.zero_le _
  line := by simp [lineFeeds]
  target := by
    intro offset _
    rw [target, clamp, Nat.max_eq_left (Nat.zero_le offset)]

/-- A counter that has moved counts from there on, and stands on the line at the offset. -/
theorem Counts.seek {c : LineCounter α} {reached offset : Nat} (h : c.Counts reached)
    (hoffset : reached ≤ offset) :
    (c.seek offset).Counts offset ∧ (c.seek offset).line = lineAt c.text offset := by
  have htarget := h.target offset hoffset
  have hsize := c.target_le_size offset
  have hforward := le_target h.bound offset
  have hline : c.line + lineFeeds c.text c.offset (c.target offset) =
      1 + lineFeeds c.text 0 (c.target offset) := by
    rw [h.line, Nat.add_assoc, lineFeeds_add c.text (Nat.zero_le _) hforward]
  refine ⟨⟨hsize, hline, ?_⟩, ?_⟩
  · intro later hlater
    change skipTerminators c.text (min (max later (c.target offset)) c.text.size) =
      skipTerminators c.text (min later c.text.size)
    -- an offset that the counter has passed lies in the run at whose end the counter stands
    by_cases hpassed : later < c.target offset
    · have hend : skipTerminators c.text (c.target offset) =
          skipTerminators c.text (min offset c.text.size) :=
        skipTerminators_of_inside (by rw [htarget]; exact le_skipTerminators _ _)
          (Nat.le_of_eq htarget)
      have hsame : skipTerminators c.text (min later c.text.size) =
          skipTerminators c.text (min offset c.text.size) :=
        skipTerminators_of_inside (by omega) (by omega)
      rw [Nat.max_eq_right (Nat.le_of_lt hpassed), Nat.min_eq_left hsize, hend, hsame]
    · rw [Nat.max_eq_left (by omega)]
  · rw [lineAt, ← htarget]
    exact hline

theorem Counts.lines_eq {c : LineCounter α} {reached : Nat} (h : c.Counts reached)
    {offsets : List Nat} (hsorted : (reached :: offsets).Pairwise (· ≤ ·)) :
    c.lines offsets = offsets.map (lineAt c.text) := by
  induction offsets generalizing c reached with
  | nil => rfl
  | cons offset offsets ih =>
    obtain ⟨hfirst, hrest⟩ := List.pairwise_cons.mp hsorted
    obtain ⟨hnext, hline⟩ := h.seek (hfirst offset List.mem_cons_self)
    rw [lines, List.map_cons, hline, ih hnext hrest]
    rfl

end LineCounter

/-! ### The line at an offset of a list -/

theorem skipTerminators_run {text run rest : List α} {n : Nat} (hn : n ≤ text.length)
    (htext : text.drop n = run ++ rest) (hrun : ∀ a ∈ run, isTerminator a = true)
    (hrest : ∀ a, rest.head? = some a → isTerminator a = false) :
    skipTerminators text.toArray n = n + run.length := by
  induction run generalizing n with
  | nil =>
    cases rest with
    | nil =>
      have hlength := List.drop_eq_nil_iff.mp htext
      exact skipTerminators_of_size_le hlength
    | cons b rest =>
      obtain ⟨hi, hget⟩ := List.getElem?_eq_some_iff.mp
        (show text[n]? = some b by rw [← List.head?_drop, htext]; rfl)
      refine skipTerminators_of_other hi ?_
      rw [List.getElem_toArray, hget]
      exact hrest b rfl
  | cons a run ih =>
    obtain ⟨hi, hget⟩ := List.getElem?_eq_some_iff.mp
      (show text[n]? = some a by rw [← List.head?_drop, htext]; rfl)
    have hnext : text.drop (n + 1) = run ++ rest := by
      rw [← List.drop_drop, htext]
      rfl
    have hterminator : isTerminator text.toArray[n] = true := by
      rw [List.getElem_toArray, hget]
      exact hrun a List.mem_cons_self
    rw [skipTerminators_of_terminator hi hterminator,
      ih hi hnext fun b hb => hrun b (List.mem_cons_of_mem a hb), List.length_cons]
    omega

theorem lineFeeds_zero (text : List α) (n : Nat) :
    lineFeeds text.toArray 0 n = (text.take n).count Alphabet.lineFeed := by
  simp [lineFeeds]

/-- The terminators that follow an offset count with what stands before it. -/
theorem lineAt_run {text run rest : List α} {n : Nat} (htext : text.drop n = run ++ rest)
    (hrun : ∀ a ∈ run, isTerminator a = true)
    (hrest : ∀ a, rest.head? = some a → isTerminator a = false) :
    lineAt text.toArray n = 1 + (text.take n ++ run).count Alphabet.lineFeed := by
  have hdrop : text.drop (min n text.length) = run ++ rest := by
    rw [← htext]
    by_cases hn : n ≤ text.length
    · rw [Nat.min_eq_left hn]
    · rw [Nat.min_eq_right (by omega), List.drop_length, List.drop_of_length_le (by omega)]
  have htake : text.take (min n text.length) = text.take n := by
    rw [List.take_eq_take_iff]
    omega
  rw [lineAt, List.size_toArray, skipTerminators_run (Nat.min_le_right _ _) hdrop hrun hrest,
    lineFeeds_zero, List.take_add, hdrop, List.take_left, htake]

end CheckerAudit.Record
