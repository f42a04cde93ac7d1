import CheckerAudit.Proofs.Record.Decomposition

/-!
# The reader finds the records of a layout

A reader at the start of a field takes the symbols of one field form and holds its value; from there
on it goes on as if the value had stood there bare. So it takes the fields of a record, then its
terminators, then the next record, and what it finds are the values of the layout with the offsets
where the searches began.
-/
namespace CheckerAudit.Record

variable {α : Type} [DecidableEq α] [Alphabet α]

namespace Reader

theorem readFrom_cons_none {r next : Reader α} {a : α} (h : r.step a = (next, none))
    (rest : List α) : r.readFrom (a :: rest) = next.readFrom rest := by
  rw [readFrom, h]

theorem readFrom_cons_some {r next : Reader α} {a : α} {record : Found α}
    (h : r.step a = (next, some record)) (rest : List α) :
    r.readFrom (a :: rest) = record :: next.readFrom rest := by
  rw [readFrom, h]

/-- Outside of quotes a symbol that ends no field is kept. -/
theorem step_bare {r : Reader α} (hplace : r.place = .bare) {a : α} (h : ¬EndsField a) :
    r.step a = (r.keep .bare a, none) := by
  obtain ⟨hdelimiter, hterminator⟩ := not_endsField_iff.mp h
  simp only [step, hplace]
  rw [plain, if_neg hdelimiter, hterminator, if_neg Bool.false_ne_true]

theorem step_quoted {r : Reader α} (hplace : r.place = .quoted) {a : α} (h : a ≠ Alphabet.quote) :
    r.step a = (r.keep .quoted a, none) := by
  simp only [step, hplace]
  rw [if_neg h]

theorem step_quoted_quote {r : Reader α} (hplace : r.place = .quoted) :
    r.step Alphabet.quote = (r.skip .quoteSeen, none) := by
  simp only [step, hplace, if_true]

/-- Of two quotes in quotes the second one is kept. -/
theorem step_quoteSeen_quote {r : Reader α} (hplace : r.place = .quoteSeen) :
    r.step Alphabet.quote = (r.keep .quoted Alphabet.quote, none) := by
  simp only [step, hplace, if_true]

theorem step_opening_quote {r : Reader α} (hplace : r.place = .fieldStart) :
    r.step Alphabet.quote = (r.skip .quoted, none) := by
  simp only [step, hplace]
  rw [opening, if_pos rfl]

theorem readFrom_unbroken {part : List α} (h : Unbroken part) (position start : Nat)
    (field : List α) (fields : List (List α)) (rest : List α) :
    readFrom ⟨position, start, .bare, field, fields⟩ (part ++ rest) =
      readFrom ⟨position + part.length, start, .bare, part.reverse ++ field, fields⟩ rest := by
  induction part generalizing position field with
  | nil => rfl
  | cons a part ih =>
    have htail : Unbroken part := fun b hb => h b (List.mem_cons_of_mem a hb)
    have hposition : position + (a :: part).length = position + 1 + part.length := by
      rw [List.length_cons]
      omega
    rw [List.cons_append, readFrom_cons_none (step_bare rfl (h.not_endsField a List.mem_cons_self)),
      hposition, List.reverse_cons, List.append_assoc, List.singleton_append]
    exact ih htail (position + 1) (a :: field)

/-- Doubled content is kept with every quote halved. -/
theorem readFrom_double (body : List α) (position start : Nat) (field : List α)
    (fields : List (List α)) (rest : List α) :
    readFrom ⟨position, start, .quoted, field, fields⟩ (double body ++ rest) =
      readFrom ⟨position + (double body).length, start, .quoted, body.reverse ++ field, fields⟩
        rest := by
  induction body generalizing position field with
  | nil => rfl
  | cons a body ih =>
    rw [List.reverse_cons, List.append_assoc, List.singleton_append]
    by_cases ha : a = Alphabet.quote
    · subst ha
      have hposition : position + (double (Alphabet.quote :: body)).length =
          position + 1 + 1 + (double body).length := by
        simp only [double_cons_quote, List.length_cons]
        omega
      rw [hposition, double_cons_quote, List.cons_append, List.cons_append,
        readFrom_cons_none (step_quoted_quote rfl), readFrom_cons_none (step_quoteSeen_quote rfl)]
      exact ih (position + 1 + 1) (Alphabet.quote :: field)
    · have hposition : position + (double (a :: body)).length =
          position + 1 + (double body).length := by
        rw [double_cons_of_ne ha, List.length_cons]
        omega
      rw [hposition, double_cons_of_ne ha, List.cons_append,
        readFrom_cons_none (step_quoted rfl ha)]
      exact ih (position + 1) (a :: field)

/-- Before anything but a quote, the start of a field and the place after closing quotes read like
the middle of a bare part. -/
theorem readFrom_of_ne_quote {place : Place} (hplace : place = .fieldStart ∨ place = .quoteSeen)
    {s : List α} (hs : s.head? ≠ some Alphabet.quote) (position start : Nat) (field : List α)
    (fields : List (List α)) :
    readFrom ⟨position, start, place, field, fields⟩ s =
      readFrom ⟨position, start, .bare, field, fields⟩ s := by
  cases s with
  | nil => rcases hplace with rfl | rfl <;> rfl
  | cons a s =>
    have ha : a ≠ Alphabet.quote := fun h => hs (congrArg some h)
    have hstep : step ⟨position, start, place, field, fields⟩ a =
        step ⟨position, start, .bare, field, fields⟩ a := by
      rcases hplace with rfl | rfl
      · exact if_neg ha
      · exact if_neg ha
    rw [readFrom, readFrom, hstep]

/-- What stops a field does not open quotes. -/
theorem head_ne_quote {part rest : List α} (hpart : part.head? ≠ some Alphabet.quote)
    (hrest : ∀ a, rest.head? = some a → EndsField a) :
    (part ++ rest).head? ≠ some Alphabet.quote := by
  cases part with
  | nil => exact fun h => not_endsField_quote (hrest _ h)
  | cons a part => exact hpart

/-- A reader at the start of a field takes its form and holds its value. -/
theorem readFrom_field {f : FieldForm α} {rest : List α} (h : f.Stops rest) (position start : Nat)
    (fields : List (List α)) :
    readFrom ⟨position, start, .fieldStart, [], fields⟩ (f.written ++ rest) =
      readFrom ⟨position + f.written.length, start, .bare, f.value.reverse, fields⟩ rest := by
  cases f with
  | bare symbols =>
    obtain ⟨hquote, hunbroken⟩ := h.wellFormed
    rw [FieldForm.written, FieldForm.value, readFrom_of_ne_quote (.inl rfl)
      (head_ne_quote hquote h.ends), readFrom_unbroken hunbroken, List.append_nil]
  | quoted body tail =>
    obtain ⟨hquote, hunbroken⟩ := h.wellFormed
    have hposition : position + (FieldForm.quoted body tail).written.length =
        position + 1 + (double body).length + 1 + tail.length := by
      rw [FieldForm.written, List.length_append, List.length_cons, List.length_cons]
      omega
    have hclosing : readFrom ⟨position + 1 + (double body).length, start, .quoted,
          body.reverse ++ [], fields⟩ (Alphabet.quote :: (tail ++ rest)) =
        readFrom ⟨position + 1 + (double body).length + 1, start, .bare, body.reverse ++ [],
          fields⟩ (tail ++ rest) := by
      rw [readFrom_cons_none (step_quoted_quote rfl)]
      exact readFrom_of_ne_quote (.inr rfl) (head_ne_quote hquote h.ends) _ _ _ _
    rw [hposition, FieldForm.written, FieldForm.value, List.cons_append, List.cons_append,
      readFrom_cons_none (step_opening_quote rfl), List.append_assoc, List.cons_append]
    refine (readFrom_double body (position + 1) start [] fields _).trans ?_
    rw [hclosing, readFrom_unbroken hunbroken, List.append_nil, List.reverse_append]
  | unclosed body =>
    obtain rfl := h.unclosed rfl
    rw [FieldForm.written, FieldForm.value, List.cons_append,
      readFrom_cons_none (step_opening_quote rfl)]
    refine (readFrom_double body (position + 1) start [] fields _).trans ?_
    rw [List.append_nil]
    rfl

/-- A terminator, or the end of the text, ends the record; the search for the next one begins after
that terminator. -/
theorem readFrom_ends {rest : List α} (h : ∀ a, rest.head? = some a → isTerminator a = true)
    (position start : Nat) (field : List α) (fields : List (List α)) :
    readFrom ⟨position, start, .bare, field, fields⟩ rest =
      ⟨start, fields.reverse ++ [field.reverse]⟩ ::
        readFrom { position := position + 1, start := position + 1 } rest.tail := by
  cases rest with
  | nil =>
    simp only [readFrom, finish, found, List.reverse_cons, List.tail_nil]
  | cons a rest =>
    have ha := h a rfl
    have hstep : step ⟨position, start, .bare, field, fields⟩ a =
        ({ position := position + 1, start := position + 1 },
          some ⟨start, fields.reverse ++ [field.reverse]⟩) := by
      simp only [step]
      rw [plain, if_neg (ne_delimiter_of_isTerminator ha), if_pos ha, found, List.reverse_cons]
      rfl
    exact readFrom_cons_some hstep rest

theorem readFrom_fields {fields : List (FieldForm α)} {rest : List α} (h : FieldsStop fields rest)
    (position start : Nat) (before : List (List α)) :
    readFrom ⟨position, start, .fieldStart, [], before⟩ (writtenFields fields ++ rest) =
      ⟨start, before.reverse ++ fields.map FieldForm.value⟩ ::
        readFrom { position := position + (writtenFields fields).length + 1,
                   start := position + (writtenFields fields).length + 1 } rest.tail := by
  induction fields generalizing position before with
  | nil => exact absurd rfl h.nonempty
  | cons f fields ih =>
    cases fields with
    | nil =>
      rw [writtenFields_singleton, readFrom_field h.stops, readFrom_ends h.ends,
        List.reverse_reverse]
      rfl
    | cons g fields =>
      obtain ⟨hf, hclosed, htail⟩ := fieldsStop_cons_cons_iff.mp h
      have hstops := FieldForm.stops_delimiter hf hclosed (writtenFields (g :: fields) ++ rest)
      have hposition : position + (writtenFields (f :: g :: fields)).length =
          position + f.written.length + 1 + (writtenFields (g :: fields)).length := by
        rw [writtenFields_cons_cons, List.length_append, List.length_cons]
        omega
      have hdelimiter : step ⟨position + f.written.length, start, .bare, f.value.reverse, before⟩
            (Alphabet.delimiter : α) =
          (⟨position + f.written.length + 1, start, .fieldStart, [], f.value :: before⟩, none) := by
        simp only [step]
        rw [plain, if_pos rfl, endField, List.reverse_reverse]
      rw [hposition, writtenFields_cons_cons, List.append_assoc, List.cons_append,
        readFrom_field hstops, readFrom_cons_none hdelimiter, ih htail, List.reverse_cons,
        List.append_assoc]
      rfl

/-- Between records terminators are passed over; the search has begun where it was. -/
theorem readFrom_terminators {run : List α} (h : ∀ a ∈ run, isTerminator a = true)
    (position start : Nat) (rest : List α) :
    readFrom { position, start } (run ++ rest) =
      readFrom { position := position + run.length, start } rest := by
  induction run generalizing position with
  | nil => rfl
  | cons a run ih =>
    have hstep : step ({ position, start } : Reader α) a =
        ({ position := position + 1, start }, none) := by
      simp only [step]
      rw [if_pos (h a List.mem_cons_self), skip]
    have hposition : position + (a :: run).length = position + 1 + run.length := by
      rw [List.length_cons]
      omega
    rw [List.cons_append, readFrom_cons_none hstep,
      ih (fun b hb => h b (List.mem_cons_of_mem a hb)), hposition]

/-- Between records anything but a terminator starts the first field of the next one. -/
theorem readFrom_between {s : List α} (hne : s ≠ [])
    (hs : ∀ a, s.head? = some a → isTerminator a = false) (position start : Nat) :
    readFrom { position, start } s = readFrom ⟨position, start, .fieldStart, [], []⟩ s := by
  cases s with
  | nil => exact absurd rfl hne
  | cons a s =>
    have hstep : step ({ position, start } : Reader α) a =
        step ⟨position, start, .fieldStart, [], []⟩ a := by
      simp only [step]
      rw [hs a rfl, if_neg Bool.false_ne_true]
      rfl
    rw [readFrom, readFrom, hstep]

end Reader

/-- What is found for the records of a layout, when the first one stands at `offset` and the search
for it began at `start`: after a record the search begins behind its first terminator. -/
def foundFrom (start offset : Nat) : List (RecordForm α) → List (Found α)
  | [] => []
  | r :: records => ⟨start, r.values⟩ ::
      foundFrom (offset + r.written.length + 1) (offset + r.written.length + r.ending.length)
        records

@[simp] theorem map_fields_foundFrom (records : List (RecordForm α)) (start offset : Nat) :
    (foundFrom start offset records).map Found.fields = records.map RecordForm.values := by
  induction records generalizing start offset with
  | nil => rfl
  | cons r records ih => rw [foundFrom, List.map_cons, List.map_cons, ih]

theorem Reader.readFrom_records {records : List (RecordForm α)} (h : Sequence records)
    (position start : Nat) :
    Reader.readFrom { position, start } (writtenRecords records) =
      foundFrom start position records := by
  induction records generalizing position start with
  | nil => rfl
  | cons r records ih =>
    have hne : writtenRecords (r :: records) ≠ [] := by
      intro hnil
      exact absurd (h.eq_nil hnil) (List.cons_ne_nil r records)
    rw [readFrom_between hne fun _ ha => h.head_not_terminator ha, writtenRecords_cons]
    refine (readFrom_fields h.fieldsStop position start []).trans ?_
    have hlast := h.eq_nil_of_ending
    obtain ⟨hr, _, _, hrecords⟩ := h
    rw [foundFrom, List.reverse_nil, List.nil_append]
    refine congrArg (List.cons (⟨start, r.values⟩ : Found α)) ?_
    cases hending : r.ending with
    | nil =>
      rw [hlast hending]
      rfl
    | cons a ending =>
      have hrun : ∀ b ∈ ending, isTerminator b = true := fun b hb =>
        hr.ending b (by rw [hending]; exact List.mem_cons_of_mem a hb)
      have hposition : position + r.written.length + (a :: ending).length =
          position + r.written.length + 1 + ending.length := by
        rw [List.length_cons]
        omega
      rw [List.cons_append, List.tail_cons, hposition]
      exact (readFrom_terminators hrun _ _ _).trans (ih hrecords _ _)

/-- A text without the mark that may open it. -/
def unmarked (source : List α) : List α :=
  if (Alphabet.mark : List α).isPrefixOf source then
    source.drop (Alphabet.mark : List α).length
  else source

/-- The symbols of the mark that opens a text. -/
def markWidth (source : List α) : Nat :=
  if (Alphabet.mark : List α).isPrefixOf source then (Alphabet.mark : List α).length else 0

theorem unmarked_of_not_mark {source : List α}
    (h : (Alphabet.mark : List α).isPrefixOf source = false) : unmarked source = source := by
  rw [unmarked, h, if_neg Bool.false_ne_true]

theorem markWidth_of_not_mark {source : List α}
    (h : (Alphabet.mark : List α).isPrefixOf source = false) : markWidth source = 0 := by
  rw [markWidth, h, if_neg Bool.false_ne_true]

/-- A text is read from behind its mark, and the first search begins before it. -/
theorem scan_eq (source : List α) :
    scan source = Reader.readFrom { position := markWidth source } (unmarked source) := by
  unfold scan markWidth unmarked
  by_cases h : (Alphabet.mark : List α).isPrefixOf source
  · rw [if_pos h, if_pos h, if_pos h]
  · rw [if_neg h, if_neg h, if_neg h]

/-- A reader between records finds what the layout of the rest says. -/
theorem readFrom_layout {l : Layout α} (h : l.WellFormed) (position : Nat) :
    Reader.readFrom { position } l.written = foundFrom 0 (position + l.leading.length) l.records := by
  obtain ⟨hleading, hrecords⟩ := l.wellFormed_iff.mp h
  exact (Reader.readFrom_terminators hleading position 0 (writtenRecords l.records)).trans
    (Reader.readFrom_records hrecords _ 0)

/-- What is found in a text is given by its layout. -/
theorem scan_layout {l : Layout α} (h : l.WellFormed) {source : List α}
    (hl : l.written = unmarked source) :
    scan source = foundFrom 0 (markWidth source + l.leading.length) l.records := by
  rw [scan_eq, ← hl, readFrom_layout h]

theorem fields_scan {l : Layout α} (h : l.WellFormed) {source : List α}
    (hl : l.written = unmarked source) : (scan source).map Found.fields = l.values := by
  rw [scan_layout h hl, map_fields_foundFrom, Layout.values]

end CheckerAudit.Record
