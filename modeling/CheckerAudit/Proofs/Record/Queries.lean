import CheckerAudit.Proofs.Record.Line
import CheckerAudit.Record.Line.Checked
import Mathlib.Data.List.Forall2
import Mathlib.Order.Bounds.Basic

/-!
# A line counter under any queries

A counter stays within its text whatever it is asked, so no clamp and no slice is ever out of range,
and its line never decreases. For offsets that do not decrease, each answer counts the line feeds
before the first position from the offset on that holds no terminator.
-/
namespace CheckerAudit.Record

variable {α : Type} [DecidableEq α] [Alphabet α]

/-! ### Where the terminators end -/

theorem skipTerminators_eq_self_iff {text : List α} {p : Nat} :
    skipTerminators text.toArray p = p ↔ ∀ a, text[p]? = some a → isTerminator a = false := by
  constructor
  · intro h a ha
    obtain ⟨hp, rfl⟩ := List.getElem?_eq_some_iff.mp ha
    by_contra hother
    have hpassed : skipTerminators text.toArray p = skipTerminators text.toArray (p + 1) :=
      skipTerminators_of_terminator hp (Bool.eq_true_of_not_eq_false hother)
    have hbehind := le_skipTerminators text.toArray (p + 1)
    omega
  · intro h
    by_cases hp : p < text.length
    · exact skipTerminators_of_other hp (h _ (List.getElem?_eq_getElem hp))
    · exact skipTerminators_of_size_le (Nat.le_of_not_lt hp)

/-- Passing over terminators leads to the first position that holds none. -/
theorem isLeast_skipTerminators (text : List α) (i : Nat) :
    IsLeast {p | i ≤ p ∧ ∀ a, text[p]? = some a → isTerminator a = false}
      (skipTerminators text.toArray i) := by
  constructor
  · have hend := skipTerminators_of_inside (le_skipTerminators text.toArray i) (Nat.le_refl _)
    exact ⟨le_skipTerminators _ _, skipTerminators_eq_self_iff.mp hend⟩
  · rintro p ⟨hip, hp⟩
    by_contra hbefore
    -- a position before the end of the run leads to that end and not to itself
    have hsame := skipTerminators_of_inside hip (Nat.le_of_not_le hbefore)
    rw [skipTerminators_eq_self_iff.mpr hp] at hsame
    exact hbefore (Nat.le_of_eq hsame.symm)

namespace LineCounter

/-! ### Bounds -/

/-- From within its text no query leaves it. -/
theorem seek?_eq_some {c : LineCounter α} (h : c.offset ≤ c.text.size) (offset : Nat) :
    c.seek? offset = some (c.seek offset) := by
  have hclamp : clamp? offset c.offset c.text.size = some (c.clamp offset) := if_pos h
  have hslice : lineFeeds? c.text c.offset (skipTerminators c.text (c.clamp offset)) =
      some (lineFeeds c.text c.offset (c.target offset)) :=
    if_pos ⟨le_target h offset, c.target_le_size offset⟩
  simp only [seek?, hclamp, hslice, Option.bind_eq_bind, Option.bind_some]
  rfl

theorem lines?_eq_some {c : LineCounter α} (h : c.offset ≤ c.text.size) (offsets : List Nat) :
    c.lines? offsets = some (c.lines offsets) := by
  induction offsets generalizing c with
  | nil => rfl
  | cons offset offsets ih =>
    have hnext : (c.seek offset).lines? offsets = some ((c.seek offset).lines offsets) :=
      ih (c.target_le_size offset)
    simp only [lines?, seek?_eq_some h, hnext, Option.bind_eq_bind, Option.bind_some]
    rfl

/-! ### Answers -/

/-- No answer is below the line that the counter stands on, or below an earlier answer. -/
theorem lines_sorted (c : LineCounter α) (offsets : List Nat) :
    (c.line :: c.lines offsets).Pairwise (· ≤ ·) := by
  induction offsets generalizing c with
  | nil => exact List.pairwise_singleton _ _
  | cons offset offsets ih =>
    have hnext : c.line ≤ (c.seek offset).line := Nat.le_add_right _ _
    have hrest := ih (c.seek offset)
    have hlater : ∀ line ∈ (c.seek offset).lines offsets, c.line ≤ line := fun line hline =>
      Nat.le_trans hnext ((List.pairwise_cons.mp hrest).1 line hline)
    exact List.pairwise_cons.mpr ⟨List.forall_mem_cons.mpr ⟨hnext, hlater⟩, hrest⟩

/-- What counting from the start answers for an offset: one more than the line feeds before the
first position from the offset on that holds neither 13 nor 10. An offset behind the end counts as
the end. -/
def CountsFromStart (bytes : List UInt8) (offset answer : Nat) : Prop :=
  ∃ p, IsLeast {p | min offset bytes.length ≤ p ∧ ∀ b, bytes[p]? = some b → b ≠ 13 ∧ b ≠ 10} p ∧
    answer = 1 + (bytes.take p).count 10

theorem countsFromStart_lineAt (bytes : List UInt8) (offset : Nat) :
    CountsFromStart bytes offset (lineAt bytes.toArray offset) := by
  have hbyte (b : UInt8) : isTerminator b = false ↔ b ≠ 13 ∧ b ≠ 10 := by
    rw [isTerminator, Bool.or_eq_false_iff, decide_eq_false_iff_not, decide_eq_false_iff_not]
    rfl
  have hleast := isLeast_skipTerminators bytes (min offset bytes.length)
  simp only [hbyte] at hleast
  refine ⟨_, hleast, ?_⟩
  rw [lineAt, lineFeeds_zero]
  rfl

/-- Whatever a counter is asked, no clamp and no slice has bounds that are out of order or outside
of the text, and no answer is below an earlier one. If the offsets do not decrease, each answer is
the one that counting from the start gives. -/
theorem answers_count_from_start (bytes : List UInt8) (offsets : List Nat) :
    let counter : LineCounter UInt8 := ⟨bytes.toArray, 0, 1⟩
    ∃ answers, counter.lines? offsets = some answers ∧ counter.lines offsets = answers ∧
      answers.Pairwise (· ≤ ·) ∧
      (offsets.Pairwise (· ≤ ·) → List.Forall₂ (CountsFromStart bytes) offsets answers) := by
  intro counter
  refine ⟨counter.lines offsets, lines?_eq_some (Nat.zero_le _) offsets, rfl,
    (List.pairwise_cons.mp (counter.lines_sorted offsets)).2, fun hsorted => ?_⟩
  have hfrom : (0 :: offsets).Pairwise (· ≤ ·) :=
    List.pairwise_cons.mpr ⟨fun offset _ => Nat.zero_le offset, hsorted⟩
  rw [(counts_start bytes.toArray).lines_eq hfrom, List.forall₂_map_right_iff, List.forall₂_same]
  exact fun offset _ => countsFromStart_lineAt bytes offset

/-- Offsets that are repeated, that lie in a run of terminators passed before, and that lie behind
the end. -/
theorem answers_count_from_start_in_runs :
    [0, 2, 2, 3, 5, 7, 99].Pairwise (· ≤ ·) ∧
      (⟨#[97, 10, 13, 10, 10, 98, 10], 0, 1⟩ : LineCounter UInt8).lines? [0, 2, 2, 3, 5, 7, 99] =
        some [1, 4, 4, 4, 4, 5, 5] ∧
      List.Forall₂ (CountsFromStart [97, 10, 13, 10, 10, 98, 10]) [0, 2, 2, 3, 5, 7, 99]
        [1, 4, 4, 4, 4, 5, 5] := by
  have hsorted : [0, 2, 2, 3, 5, 7, 99].Pairwise (· ≤ ·) := by decide
  obtain ⟨answers, hchecked, hlines, -, hcount⟩ :=
    answers_count_from_start [97, 10, 13, 10, 10, 98, 10] [0, 2, 2, 3, 5, 7, 99]
  have hanswers : answers = [1, 4, 4, 4, 4, 5, 5] := hlines.symm.trans (by decide +kernel)
  subst hanswers
  exact ⟨hsorted, hchecked, hcount hsorted⟩

end LineCounter

end CheckerAudit.Record
