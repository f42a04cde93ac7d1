import CheckerAudit.Proofs.Numeral.Decimal
import CheckerAudit.Text.Blank

/-!
# Trimming takes the padding and nothing else

A text with no blank character at its ends comes back from any white space around it.
-/
namespace CheckerAudit.Text

theorem dropWhile_padded {pad s : List Char} (hpad : ∀ c ∈ pad, isBlank c = true)
    (h : ∀ c ∈ s.head?, isBlank c = false) : (pad ++ s).dropWhile isBlank = s := by
  rw [List.dropWhile_append_of_pos hpad]
  cases s with
  | nil => rfl
  | cons c s => exact List.dropWhile_cons_of_neg (by rw [h c rfl]; exact Bool.false_ne_true)

theorem Tight.reverse {s : List Char} (h : Tight s) : Tight s.reverse where
  head := by rw [List.head?_reverse]; exact h.last
  last := by rw [List.getLast?_reverse]; exact h.head

theorem trimChars_padded {before s after : List Char} (hbefore : ∀ c ∈ before, isBlank c = true)
    (hs : Tight s) (hafter : ∀ c ∈ after, isBlank c = true) :
    trimChars (before ++ s ++ after) = s := by
  cases s with
  | nil =>
    -- Nothing stops the first pass here: it takes the pad at the end as well.
    have hall : ∀ c ∈ before ++ after, isBlank c = true :=
      List.forall_mem_append.mpr ⟨hbefore, hafter⟩
    have hempty : (before ++ after ++ []).dropWhile isBlank = [] := dropWhile_padded hall nofun
    rw [List.append_nil] at hempty ⊢
    rw [trimChars, hempty]
    rfl
  | cons c s =>
    have hback : ∀ c ∈ after.reverse, isBlank c = true :=
      fun c hc => hafter c (List.mem_reverse.mp hc)
    have hfirst : (before ++ (c :: s ++ after)).dropWhile isBlank = c :: s ++ after :=
      dropWhile_padded hbefore hs.head
    rw [trimChars, List.append_assoc, hfirst, List.reverse_append,
      dropWhile_padded hback hs.reverse.head, List.reverse_reverse]

theorem trimChars_tight {s : List Char} (hs : Tight s) : trimChars s = s := by
  have hpad : trimChars ([] ++ s ++ []) = s := trimChars_padded nofun hs nofun
  rwa [List.nil_append, List.append_nil] at hpad

theorem Tight.map_head? {s : List Char} (h : Tight s) (hne : s ≠ []) :
    s.head?.map isBlank = some false := by
  cases s with
  | nil => exact absurd rfl hne
  | cons c s => exact congrArg some (h.head c rfl)

theorem Tight.map_getLast? {s : List Char} (h : Tight s) (hne : s ≠ []) :
    s.getLast?.map isBlank = some false := by
  rw [← List.head?_reverse]
  apply h.reverse.map_head?
  rwa [ne_eq, List.reverse_eq_nil_iff]

theorem tight_append {a b : List Char} (hhead : a.head?.map isBlank = some false)
    (hlast : b.getLast?.map isBlank = some false) : Tight (a ++ b) := by
  obtain ⟨first, hfirst, hinked⟩ := Option.map_eq_some_iff.mp hhead
  obtain ⟨final, hfinal, hink⟩ := Option.map_eq_some_iff.mp hlast
  constructor
  · intro c hc
    rw [List.head?_append, hfirst] at hc
    obtain rfl := Option.some.inj hc
    exact hinked
  · intro c hc
    rw [List.getLast?_append, hfinal] at hc
    obtain rfl := Option.some.inj hc
    exact hink

/-! ### Any text is padding around what is left of it -/

theorem head?_dropWhile_isBlank (s : List Char) :
    ∀ c ∈ (s.dropWhile isBlank).head?, isBlank c = false := by
  intro c hc
  have hstop := List.head?_dropWhile_not isBlank s
  rw [Option.mem_def.mp hc] at hstop
  exact hstop

theorem isBlank_of_mem_takeWhile {s : List Char} {c : Char} (h : c ∈ s.takeWhile isBlank) :
    isBlank c = true :=
  List.all_eq_true.mp (List.all_takeWhile (l := s)) c h

/-- What the first pass leaves is what trimming leaves, and blank characters after it. -/
theorem dropWhile_eq_trimChars_append (s : List Char) :
    s.dropWhile isBlank =
      trimChars s ++ ((s.dropWhile isBlank).reverse.takeWhile isBlank).reverse := by
  rw [trimChars, ← List.reverse_append, List.takeWhile_append_dropWhile, List.reverse_reverse]

theorem exists_padding (s : List Char) :
    ∃ before after, s = before ++ trimChars s ++ after ∧ (∀ c ∈ before, isBlank c = true) ∧
      ∀ c ∈ after, isBlank c = true := by
  refine ⟨s.takeWhile isBlank, ((s.dropWhile isBlank).reverse.takeWhile isBlank).reverse, ?_, ?_, ?_⟩
  · rw [List.append_assoc, ← dropWhile_eq_trimChars_append, List.takeWhile_append_dropWhile]
  · intro c hc
    exact isBlank_of_mem_takeWhile hc
  · intro c hc
    exact isBlank_of_mem_takeWhile (List.mem_reverse.mp hc)

theorem tight_trimChars (s : List Char) : Tight (trimChars s) where
  head := by
    intro c hc
    apply head?_dropWhile_isBlank s
    rw [dropWhile_eq_trimChars_append, List.head?_append, Option.mem_def.mp hc]
    rfl
  last := by
    rw [trimChars, List.getLast?_reverse]
    exact head?_dropWhile_isBlank _

/-- A text without the white space around it, of which there is all that stands at its ends. -/
inductive Trimmed : List Char → List Char → Prop where
  | intro {before kept after : List Char} (blankBefore : ∀ c ∈ before, isBlank c = true)
    (tight : Tight kept) (blankAfter : ∀ c ∈ after, isBlank c = true) :
    Trimmed (before ++ kept ++ after) kept

theorem trimmed_iff {s t : List Char} : Trimmed s t ↔ trimChars s = t := by
  constructor
  · rintro ⟨hbefore, htight, hafter⟩
    exact trimChars_padded hbefore htight hafter
  · rintro rfl
    obtain ⟨before, after, hs, hbefore, hafter⟩ := exists_padding s
    have htrimmed := Trimmed.intro hbefore (tight_trimChars s) hafter
    rwa [← hs] at htrimmed

theorem trimChars_append_blank (s : List Char) {pad : List Char}
    (hpad : ∀ c ∈ pad, isBlank c = true) : trimChars (s ++ pad) = trimChars s := by
  obtain ⟨before, after, hs, hbefore, hafter⟩ := exists_padding s
  have hback : ∀ c ∈ after ++ pad, isBlank c = true := List.forall_mem_append.mpr ⟨hafter, hpad⟩
  have htrimmed := trimChars_padded hbefore (tight_trimChars s) hback
  rwa [← List.append_assoc, ← hs] at htrimmed

/-- Before a text, one with no blank character at its ends takes no padding but the text's own. -/
theorem trimChars_append {a : List Char} (hne : a ≠ []) (ha : Tight a) (s : List Char) :
    ∃ rest, trimChars (a ++ s) = a ++ rest ∧ trimChars rest = trimChars s := by
  obtain ⟨before, after, hs, hbefore, hafter⟩ := exists_padding s
  cases htrimmed : trimChars s with
  | nil =>
    -- All of the text is padding, and goes with the end of it.
    rw [htrimmed, List.append_nil] at hs
    have hblank : ∀ c ∈ s, isBlank c = true := by
      rw [hs]
      exact List.forall_mem_append.mpr ⟨hbefore, hafter⟩
    refine ⟨[], ?_, rfl⟩
    have hpad : trimChars ([] ++ a ++ s) = a := trimChars_padded nofun ha hblank
    rw [List.append_nil]
    exact hpad
  | cons c t =>
    rw [htrimmed] at hs
    have ht : Tight (c :: t) := htrimmed ▸ tight_trimChars s
    refine ⟨before ++ c :: t, ?_, ?_⟩
    · have hlast : (before ++ c :: t).getLast?.map isBlank = some false := by
        rw [List.getLast?_append, List.getLast?_cons, Option.some_or, ← List.getLast?_cons]
        exact ht.map_getLast? (List.cons_ne_nil c t)
      have hwhole : Tight (a ++ (before ++ c :: t)) := tight_append (ha.map_head? hne) hlast
      have hpad : trimChars ([] ++ (a ++ (before ++ c :: t)) ++ after) = a ++ (before ++ c :: t) :=
        trimChars_padded nofun hwhole hafter
      rwa [List.nil_append, List.append_assoc, ← hs] at hpad
    · have hpad : trimChars (before ++ c :: t ++ []) = c :: t := trimChars_padded hbefore ht nofun
      rwa [List.append_nil] at hpad

/-- Characters of ASCII that leave ink, at least one of them. -/
structure Inked (s : List Char) : Prop where
  nonempty : s ≠ []
  visible : ∀ c ∈ s, 0x20 < c.toNat ∧ c.toNat < 0x7F

theorem isBlank_of_visible {c : Char} (low : 0x20 < c.toNat) (high : c.toNat < 0x7F) :
    isBlank c = false := by
  rw [isBlank, List.any_eq_false]
  intro range hrange
  have hends : range.2 ≤ 0x20 ∨ 0x7F ≤ range.1 := by
    revert range
    decide
  simp only [Bool.and_eq_true, decide_eq_true_eq]
  omega

theorem Inked.tight {s : List Char} (h : Inked s) : Tight s := by
  have hink (c : Char) (hc : c ∈ s) : isBlank c = false :=
    isBlank_of_visible (h.visible c hc).1 (h.visible c hc).2
  exact ⟨fun c hc => hink c (List.mem_of_head? hc), fun c hc => hink c (List.mem_of_getLast? hc)⟩

theorem inked_intText (n : Int) : Inked (toString n).toList where
  nonempty := by
    rw [Numeral.intText_eq]
    split
    · exact Numeral.natText_ne_nil _
    · exact List.cons_ne_nil _ _
  visible c hc := by
    have hbounds := Numeral.bounds_of_mem_intText hc
    omega

end CheckerAudit.Text
