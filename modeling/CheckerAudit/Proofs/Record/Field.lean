import CheckerAudit.Record.Layout

/-!
# The field that a text starts with

Every text starts with exactly one field form, up to where that field ends. Content in quotes runs
to the first quote that is not followed by another one; a part outside of quotes runs to the first
delimiter or terminator. These are statements about the grammar, no reader occurs in them.
-/
namespace CheckerAudit.Record

variable {α : Type}

/-- Every list starts with a run of symbols that have a property, as long as can be. -/
theorem exists_run (P : α → Prop) (s : List α) :
    ∃ part rest, s = part ++ rest ∧ (∀ a ∈ part, P a) ∧ ∀ a, rest.head? = some a → ¬P a := by
  induction s with
  | nil => exact ⟨[], [], rfl, by simp, by simp⟩
  | cons b s ih =>
    by_cases hb : P b
    · obtain ⟨part, rest, rfl, hpart, hrest⟩ := ih
      refine ⟨b :: part, rest, rfl, ?_, hrest⟩
      intro a ha
      rcases List.mem_cons.mp ha with rfl | ha
      · exact hb
      · exact hpart a ha
    · refine ⟨[], b :: s, rfl, by simp, ?_⟩
      rintro a ha
      rw [List.head?_cons, Option.some.injEq] at ha
      rwa [← ha]

theorem run_unique {P : α → Prop} {part part' rest rest' : List α}
    (hpart : ∀ a ∈ part, P a) (hrest : ∀ a, rest.head? = some a → ¬P a)
    (hpart' : ∀ a ∈ part', P a) (hrest' : ∀ a, rest'.head? = some a → ¬P a)
    (h : part ++ rest = part' ++ rest') : part = part' ∧ rest = rest' := by
  induction part generalizing part' with
  | nil =>
    cases part' with
    | nil => exact ⟨rfl, h⟩
    | cons b part' =>
      rw [List.nil_append] at h
      exact absurd (hpart' b List.mem_cons_self) (hrest b (by rw [h]; rfl))
  | cons a part ih =>
    cases part' with
    | nil =>
      rw [List.nil_append] at h
      exact absurd (hpart a List.mem_cons_self) (hrest' a (by rw [← h]; rfl))
    | cons b part' =>
      rw [List.cons_append, List.cons_append] at h
      obtain ⟨rfl, htail⟩ := List.cons.inj h
      obtain ⟨rfl, hrests⟩ := ih (fun c hc => hpart c (List.mem_cons_of_mem a hc))
        (fun c hc => hpart' c (List.mem_cons_of_mem a hc)) htail
      exact ⟨rfl, hrests⟩

variable [DecidableEq α] [Alphabet α]

/-! ### The four symbols differ -/

@[simp] theorem delimiter_ne_quote : (Alphabet.delimiter : α) ≠ Alphabet.quote := by
  have h := Alphabet.nodup (α := α)
  simp only [List.nodup_cons, List.mem_cons, not_or] at h
  exact h.1.1

@[simp] theorem isTerminator_quote : isTerminator (Alphabet.quote : α) = false := by
  have h := Alphabet.nodup (α := α)
  simp only [List.nodup_cons, List.mem_cons, not_or] at h
  simp only [isTerminator, Bool.or_eq_false_iff, decide_eq_false_iff_not]
  exact ⟨h.2.1.1, h.2.1.2.1⟩

@[simp] theorem isTerminator_delimiter : isTerminator (Alphabet.delimiter : α) = false := by
  have h := Alphabet.nodup (α := α)
  simp only [List.nodup_cons, List.mem_cons, not_or] at h
  simp only [isTerminator, Bool.or_eq_false_iff, decide_eq_false_iff_not]
  exact ⟨h.1.2.1, h.1.2.2.1⟩

theorem ne_delimiter_of_isTerminator {a : α} (h : isTerminator a = true) :
    a ≠ Alphabet.delimiter := by
  rintro rfl
  simp at h

/-! ### Content in quotes -/

@[simp] theorem double_cons_quote (body : List α) :
    double (Alphabet.quote :: body) = Alphabet.quote :: Alphabet.quote :: double body := by
  simp [double]

@[simp] theorem double_cons_of_ne {a : α} (h : a ≠ Alphabet.quote) (body : List α) :
    double (a :: body) = a :: double body := by
  simp [double, h]

/-- Quoted content stops at the end of the text or at a quote that no other quote follows. -/
def StopsContent (stop : List α) : Prop :=
  stop = [] ∨ ∃ rest, stop = Alphabet.quote :: rest ∧ rest.head? ≠ some Alphabet.quote

theorem StopsContent.ne_double_cons {stop : List α} (h : StopsContent stop) (a : α)
    (body rest : List α) : stop ≠ double (a :: body) ++ rest := by
  intro heq
  by_cases ha : a = Alphabet.quote
  · subst ha
    rw [double_cons_quote] at heq
    rcases h with rfl | ⟨after, rfl, hafter⟩
    · cases heq
    · obtain ⟨_, rfl⟩ := List.cons.inj heq
      exact hafter rfl
  · rw [double_cons_of_ne ha] at heq
    rcases h with rfl | ⟨after, rfl, _⟩
    · cases heq
    · exact ha (List.cons.inj heq).1.symm

/-- Whatever follows an opening quote has content up to where it stops. -/
theorem exists_content (s : List α) :
    ∃ body stop, s = double body ++ stop ∧ StopsContent stop := by
  match s with
  | [] => exact ⟨[], [], rfl, .inl rfl⟩
  | a :: s =>
    by_cases ha : a = Alphabet.quote
    · subst ha
      -- A quote is content only together with the quote after it, so two symbols go at once.
      match s with
      | [] => exact ⟨[], [Alphabet.quote], rfl, .inr ⟨[], rfl, by simp⟩⟩
      | b :: s =>
        by_cases hb : b = Alphabet.quote
        · obtain ⟨body, stop, rfl, hstop⟩ := exists_content s
          subst hb
          exact ⟨Alphabet.quote :: body, stop, by simp, hstop⟩
        · refine ⟨[], Alphabet.quote :: b :: s, rfl, .inr ⟨b :: s, rfl, ?_⟩⟩
          rw [List.head?_cons]
          exact fun h => hb (Option.some.inj h)
    · obtain ⟨body, stop, rfl, hstop⟩ := exists_content s
      exact ⟨a :: body, stop, by simp [ha], hstop⟩
termination_by s.length

theorem content_unique {body body' stop stop' : List α} (hstop : StopsContent stop)
    (hstop' : StopsContent stop') (h : double body ++ stop = double body' ++ stop') :
    body = body' ∧ stop = stop' := by
  induction body generalizing body' with
  | nil =>
    cases body' with
    | nil => exact ⟨rfl, h⟩
    | cons b body' => exact absurd h (hstop.ne_double_cons b body' stop')
  | cons a body ih =>
    cases body' with
    | nil => exact absurd h.symm (hstop'.ne_double_cons a body stop)
    | cons b body' =>
      have hcons : a = b ∧ double body ++ stop = double body' ++ stop' := by
        by_cases ha : a = Alphabet.quote <;> by_cases hb : b = Alphabet.quote
        · subst ha hb
          exact ⟨rfl, by simpa using h⟩
        · subst ha
          simp [hb, Ne.symm hb] at h
        · subst hb
          simp [ha] at h
        · simpa [ha, hb] using h
      obtain ⟨rfl, htail⟩ := hcons
      obtain ⟨rfl, hstops⟩ := ih htail
      exact ⟨rfl, hstops⟩

/-! ### Parts outside of quotes -/

/-- A symbol that ends a field outside of quotes. -/
def EndsField (a : α) : Prop :=
  a = Alphabet.delimiter ∨ isTerminator a = true

theorem not_endsField_iff {a : α} :
    ¬EndsField a ↔ a ≠ Alphabet.delimiter ∧ isTerminator a = false := by
  unfold EndsField
  rw [not_or, Bool.not_eq_true]

@[simp] theorem not_endsField_quote : ¬EndsField (Alphabet.quote : α) :=
  not_endsField_iff.mpr ⟨delimiter_ne_quote.symm, isTerminator_quote⟩

theorem Unbroken.not_endsField {part : List α} (h : Unbroken part) :
    ∀ a ∈ part, ¬EndsField a :=
  fun a ha => not_endsField_iff.mpr (h a ha)

/-- A text starts with an unbroken part that a delimiter, a terminator or its end stops. -/
theorem exists_unbroken (s : List α) :
    ∃ part rest, s = part ++ rest ∧ Unbroken part ∧ ∀ a, rest.head? = some a → EndsField a := by
  obtain ⟨part, rest, hs, hpart, hrest⟩ := exists_run (fun a : α => ¬EndsField a) s
  refine ⟨part, rest, hs, fun a ha => not_endsField_iff.mp (hpart a ha), ?_⟩
  intro a ha
  exact Classical.not_not.mp (hrest a ha)

theorem unbroken_unique {part part' rest rest' : List α} (hpart : Unbroken part)
    (hrest : ∀ a, rest.head? = some a → EndsField a) (hpart' : Unbroken part')
    (hrest' : ∀ a, rest'.head? = some a → EndsField a) (h : part ++ rest = part' ++ rest') :
    part = part' ∧ rest = rest' :=
  run_unique hpart.not_endsField (fun a ha hn => hn (hrest a ha)) hpart'.not_endsField
    (fun a ha hn => hn (hrest' a ha)) h

/-! ### Fields -/

namespace FieldForm

/-- A field form stops before `rest`: a delimiter, a terminator or the end of the text follows it,
and only the end when its quotes are open. -/
structure Stops (f : FieldForm α) (rest : List α) : Prop where
  wellFormed : f.WellFormed
  ends : ∀ a, rest.head? = some a → EndsField a
  unclosed : f.isClosed = false → rest = []

/-- What follows closed quotes up to `rest` does not start with another quote. -/
theorem stopsContent_tail {body tail rest : List α}
    (h : (quoted body tail).Stops rest) : StopsContent (Alphabet.quote :: (tail ++ rest)) := by
  refine .inr ⟨tail ++ rest, rfl, ?_⟩
  cases tail with
  | nil => exact fun hquote => not_endsField_quote (h.ends _ hquote)
  | cons a tail => exact h.wellFormed.1

/-- A bare field does not start like a field in quotes. -/
theorem bare_ne_quote {symbols rest : List α} (h : (bare symbols).Stops rest) (s : List α) :
    symbols ++ rest ≠ Alphabet.quote :: s := by
  intro heq
  cases symbols with
  | nil =>
    rw [List.nil_append] at heq
    exact not_endsField_quote (h.ends _ (by rw [heq]; rfl))
  | cons a symbols =>
    rw [List.cons_append] at heq
    exact h.wellFormed.1 (congrArg some (List.cons.inj heq).1)

theorem exists_stops (s : List α) :
    ∃ (f : FieldForm α) (rest : List α), s = f.written ++ rest ∧ f.Stops rest := by
  by_cases hquote : s.head? = some Alphabet.quote
  · obtain ⟨s, rfl⟩ := List.head?_eq_some_iff.mp hquote
    obtain ⟨body, stop, rfl, rfl | ⟨after, rfl, hafter⟩⟩ := exists_content s
    · exact ⟨unclosed body, [], rfl, trivial, by simp, fun _ => rfl⟩
    · obtain ⟨tail, rest, rfl, htail, hrest⟩ := exists_unbroken after
      refine ⟨quoted body tail, rest, by simp [written], ⟨?_, htail⟩, hrest, nofun⟩
      intro h
      cases tail with
      | nil => cases h
      | cons a tail => exact hafter h
  · obtain ⟨symbols, rest, rfl, hsymbols, hrest⟩ := exists_unbroken s
    refine ⟨bare symbols, rest, rfl, ⟨?_, hsymbols⟩, hrest, nofun⟩
    intro h
    cases symbols with
    | nil => cases h
    | cons a symbols => exact hquote h

theorem stops_unique {f f' : FieldForm α} {rest rest' : List α} (h : f.Stops rest)
    (h' : f'.Stops rest') (heq : f.written ++ rest = f'.written ++ rest') :
    f = f' ∧ rest = rest' := by
  cases f with
  | bare symbols =>
    cases f' with
    | bare symbols' =>
      obtain ⟨rfl, rfl⟩ := unbroken_unique h.wellFormed.2 h.ends h'.wellFormed.2 h'.ends heq
      exact ⟨rfl, rfl⟩
    | quoted body' tail' => exact absurd heq (bare_ne_quote h _)
    | unclosed body' => exact absurd heq (bare_ne_quote h _)
  | quoted body tail =>
    cases f' with
    | bare symbols' => exact absurd heq.symm (bare_ne_quote h' _)
    | quoted body' tail' =>
      simp only [written, List.cons_append, List.append_assoc, List.cons.injEq, true_and] at heq
      obtain ⟨rfl, hstop⟩ := content_unique (stopsContent_tail h) (stopsContent_tail h') heq
      obtain ⟨rfl, rfl⟩ := unbroken_unique h.wellFormed.2 h.ends h'.wellFormed.2 h'.ends
        (List.cons.inj hstop).2
      exact ⟨rfl, rfl⟩
    | unclosed body' =>
      obtain rfl := h'.unclosed rfl
      simp only [written, List.cons_append, List.append_assoc, List.cons.injEq, true_and] at heq
      obtain ⟨_, hstop⟩ := content_unique (stopsContent_tail h) (.inl rfl) heq
      cases hstop
  | unclosed body =>
    obtain rfl := h.unclosed rfl
    cases f' with
    | bare symbols' => exact absurd heq.symm (bare_ne_quote h' _)
    | quoted body' tail' =>
      simp only [written, List.cons_append, List.append_assoc, List.cons.injEq, true_and] at heq
      obtain ⟨_, hstop⟩ := content_unique (.inl rfl) (stopsContent_tail h') heq
      cases hstop
    | unclosed body' =>
      obtain rfl := h'.unclosed rfl
      simp only [written, List.cons_append, List.cons.injEq, true_and] at heq
      obtain ⟨rfl, _⟩ := content_unique (.inl rfl) (.inl rfl) heq
      exact ⟨rfl, rfl⟩

end FieldForm

end CheckerAudit.Record
