import CheckerAudit.Proofs.Record.Field

/-!
# Every text has exactly one layout

The forms of a record's fields and the records of a text are each found from left to right: what
follows a field, and what follows a record's terminators, is shorter. The layout of a text and its
uniqueness are facts about the grammar, so they hold for every alphabet.
-/
namespace CheckerAudit.Record

variable {α : Type} [DecidableEq α] [Alphabet α]

/-! ### The fields of one record -/

/-- The forms of a record's fields, which stop before `rest`: a terminator or the end of the text
follows, and only the end when the last field leaves its quotes open. -/
structure FieldsStop (fields : List (FieldForm α)) (rest : List α) : Prop where
  nonempty : fields ≠ []
  wellFormed : ∀ f ∈ fields, f.WellFormed
  closed : ∀ f ∈ fields.dropLast, f.isClosed = true
  unclosed : (∃ f ∈ fields, f.isClosed = false) → rest = []
  ends : ∀ a, rest.head? = some a → isTerminator a = true

theorem FieldsStop.stops {f : FieldForm α} {rest : List α} (h : FieldsStop [f] rest) :
    f.Stops rest where
  wellFormed := h.wellFormed f List.mem_cons_self
  ends := fun a ha => .inr (h.ends a ha)
  unclosed := fun hf => h.unclosed ⟨f, List.mem_cons_self, hf⟩

theorem fieldsStop_singleton {f : FieldForm α} {rest : List α} (h : f.Stops rest)
    (hends : ∀ a, rest.head? = some a → isTerminator a = true) : FieldsStop [f] rest where
  nonempty := List.cons_ne_nil f []
  wellFormed := by
    intro g hg
    obtain rfl := List.mem_singleton.mp hg
    exact h.wellFormed
  closed := by simp
  unclosed := by
    rintro ⟨g, hg, hopen⟩
    obtain rfl := List.mem_singleton.mp hg
    exact h.unclosed hopen
  ends := hends

/-- Of several fields the first one is closed, and the others are those of a record. -/
@[simp] theorem fieldsStop_cons_cons_iff {f g : FieldForm α} {fields : List (FieldForm α)}
    {rest : List α} : FieldsStop (f :: g :: fields) rest ↔
      f.WellFormed ∧ f.isClosed = true ∧ FieldsStop (g :: fields) rest := by
  constructor
  · intro h
    refine ⟨h.wellFormed f List.mem_cons_self, h.closed f List.mem_cons_self,
      List.cons_ne_nil g fields, ?_, ?_, ?_, h.ends⟩
    · exact fun k hk => h.wellFormed k (List.mem_cons_of_mem f hk)
    · exact fun k hk => h.closed k (List.mem_cons_of_mem f hk)
    · rintro ⟨k, hk, hopen⟩
      exact h.unclosed ⟨k, List.mem_cons_of_mem f hk, hopen⟩
  · rintro ⟨hf, hclosed, h⟩
    refine ⟨List.cons_ne_nil f (g :: fields), ?_, ?_, ?_, h.ends⟩
    · intro k hk
      rcases List.mem_cons.mp hk with rfl | hk
      · exact hf
      · exact h.wellFormed k hk
    · intro k hk
      rcases List.mem_cons.mp hk with rfl | hk
      · exact hclosed
      · exact h.closed k hk
    · rintro ⟨k, hk, hopen⟩
      rcases List.mem_cons.mp hk with rfl | hk
      · rw [hclosed] at hopen
        exact absurd hopen.symm Bool.false_ne_true
      · exact h.unclosed ⟨k, hk, hopen⟩

theorem FieldForm.stops_delimiter {f : FieldForm α} (hf : f.WellFormed)
    (hclosed : f.isClosed = true) (rest : List α) : f.Stops (Alphabet.delimiter :: rest) where
  wellFormed := hf
  ends := by
    intro a ha
    exact .inl (Option.some.inj ha).symm
  unclosed := by
    intro hopen
    rw [hclosed] at hopen
    exact absurd hopen.symm Bool.false_ne_true

/-- The text of some fields. -/
def writtenFields (fields : List (FieldForm α)) : List α :=
  joinFields (fields.map FieldForm.written)

@[simp] theorem writtenFields_singleton (f : FieldForm α) : writtenFields [f] = f.written := rfl

@[simp] theorem writtenFields_cons_cons (f g : FieldForm α) (fields : List (FieldForm α)) :
    writtenFields (f :: g :: fields) =
      f.written ++ Alphabet.delimiter :: writtenFields (g :: fields) := rfl

theorem exists_fields (s : List α) :
    ∃ fields rest, s = writtenFields fields ++ rest ∧ FieldsStop fields rest := by
  obtain ⟨f, rest, hs, hf⟩ := FieldForm.exists_stops s
  by_cases hdelimiter : rest.head? = some Alphabet.delimiter
  · obtain ⟨after, rfl⟩ := List.head?_eq_some_iff.mp hdelimiter
    have hclosed : f.isClosed = true := by
      cases hopen : f.isClosed with
      | true => rfl
      | false => exact absurd (hf.unclosed hopen) (List.cons_ne_nil _ _)
    have hshorter : after.length < s.length := by
      rw [hs, List.length_append, List.length_cons]
      omega
    obtain ⟨fields, rest, rfl, hfields⟩ := exists_fields after
    cases fields with
    | nil => exact absurd rfl hfields.nonempty
    | cons g fields =>
      refine ⟨f :: g :: fields, rest, ?_, fieldsStop_cons_cons_iff.mpr ⟨hf.wellFormed, hclosed,
        hfields⟩⟩
      simp [hs]
  · refine ⟨[f], rest, hs, fieldsStop_singleton hf ?_⟩
    intro a ha
    rcases hf.ends a ha with rfl | hterminator
    · exact absurd ha hdelimiter
    · exact hterminator
termination_by s.length

/-- A delimiter ends no record. -/
theorem FieldsStop.ne_delimiter {fields : List (FieldForm α)} {rest : List α}
    (h : FieldsStop fields rest) (after : List α) : rest ≠ Alphabet.delimiter :: after := by
  rintro rfl
  have hterminator := h.ends Alphabet.delimiter rfl
  simp at hterminator

theorem fields_unique {fields fields' : List (FieldForm α)} {rest rest' : List α}
    (h : FieldsStop fields rest) (h' : FieldsStop fields' rest')
    (heq : writtenFields fields ++ rest = writtenFields fields' ++ rest') :
    fields = fields' ∧ rest = rest' := by
  induction fields generalizing fields' with
  | nil => exact absurd rfl h.nonempty
  | cons f fields ih =>
    cases fields' with
    | nil => exact absurd rfl h'.nonempty
    | cons f' fields' =>
      -- A last field and one that others follow differ in what stops them.
      cases fields with
      | nil =>
        cases fields' with
        | nil =>
          obtain ⟨rfl, rfl⟩ := FieldForm.stops_unique h.stops h'.stops heq
          exact ⟨rfl, rfl⟩
        | cons g' fields' =>
          obtain ⟨hf', hclosed', _⟩ := fieldsStop_cons_cons_iff.mp h'
          rw [writtenFields_cons_cons, List.append_assoc] at heq
          obtain ⟨_, hrest⟩ := FieldForm.stops_unique h.stops
            (FieldForm.stops_delimiter hf' hclosed' _) heq
          exact absurd hrest (h.ne_delimiter _)
      | cons g fields =>
        obtain ⟨hf, hclosed, htail⟩ := fieldsStop_cons_cons_iff.mp h
        rw [writtenFields_cons_cons, List.append_assoc] at heq
        cases fields' with
        | nil =>
          obtain ⟨_, hrest⟩ := FieldForm.stops_unique (FieldForm.stops_delimiter hf hclosed _)
            h'.stops heq
          exact absurd hrest.symm (h'.ne_delimiter _)
        | cons g' fields' =>
          obtain ⟨hf', hclosed', htail'⟩ := fieldsStop_cons_cons_iff.mp h'
          rw [writtenFields_cons_cons, List.append_assoc] at heq
          obtain ⟨rfl, hrest⟩ := FieldForm.stops_unique (FieldForm.stops_delimiter hf hclosed _)
            (FieldForm.stops_delimiter hf' hclosed' _) heq
          obtain ⟨htails, rfl⟩ := ih htail htail' (List.cons.inj hrest).2
          exact ⟨by rw [htails], rfl⟩

/-! ### The records of a text -/

/-- The text of some records. -/
def writtenRecords (records : List (RecordForm α)) : List α :=
  records.flatMap fun r => r.written ++ r.ending

@[simp] theorem writtenRecords_cons (r : RecordForm α) (records : List (RecordForm α)) :
    writtenRecords (r :: records) = r.written ++ (r.ending ++ writtenRecords records) := by
  rw [writtenRecords, List.flatMap_cons, List.append_assoc, writtenRecords]

/-- Records that follow one another: only the last one may have no terminators after it, and open
quotes reach to the end. -/
def Sequence : List (RecordForm α) → Prop
  | [] => True
  | r :: records => r.WellFormed ∧ (records ≠ [] → r.ending ≠ []) ∧
      ((∃ f ∈ r.fields, f.isClosed = false) → r.ending = [] ∧ records = []) ∧ Sequence records

/-- The conditions on the records of a layout concern one record and its followers at a time. -/
theorem sequence_iff (records : List (RecordForm α)) :
    Sequence records ↔ (∀ r ∈ records, r.WellFormed) ∧ (∀ r ∈ records.dropLast, r.ending ≠ []) ∧
      ∀ r ∈ records, (∃ f ∈ r.fields, f.isClosed = false) →
        r.ending = [] ∧ records.getLast? = some r := by
  induction records with
  | nil => simp [Sequence]
  | cons r records ih =>
    rw [Sequence, ih]
    cases records with
    | nil => simp
    | cons q records =>
      simp only [List.forall_mem_cons, List.dropLast_cons_cons, List.getLast?_cons_cons]
      constructor
      · rintro ⟨hr, hseparated, hunclosed, hwf, hseparateds, huncloseds⟩
        refine ⟨⟨hr, hwf⟩, ⟨hseparated (List.cons_ne_nil q records), hseparateds⟩, ?_, huncloseds⟩
        intro hopen
        exact absurd (hunclosed hopen).2 (List.cons_ne_nil q records)
      · rintro ⟨⟨hr, hwf⟩, ⟨hseparated, hseparateds⟩, hunclosed, huncloseds⟩
        refine ⟨hr, fun _ => hseparated, ?_, hwf, hseparateds, huncloseds⟩
        intro hopen
        exact absurd (hunclosed hopen).1 hseparated

theorem Layout.wellFormed_iff (l : Layout α) :
    l.WellFormed ↔ (∀ a ∈ l.leading, isTerminator a = true) ∧ Sequence l.records := by
  rw [sequence_iff]
  constructor
  · intro h
    exact ⟨h.leading, h.records, h.separated, h.unclosed⟩
  · rintro ⟨hleading, hrecords, hseparated, hunclosed⟩
    exact ⟨hleading, hrecords, hseparated, hunclosed⟩

/-- A record starts with no terminator: with a delimiter, a quote or a bare symbol. -/
theorem RecordForm.WellFormed.head_not_terminator {r : RecordForm α} (h : r.WellFormed) {a : α}
    (ha : r.written.head? = some a) : isTerminator a = false := by
  obtain ⟨fields, ending⟩ := r
  cases fields with
  | nil => cases ha
  | cons f fields =>
    have hf : f.WellFormed := h.fields f List.mem_cons_self
    obtain ⟨rest, hrest⟩ : ∃ rest, (RecordForm.mk (f :: fields) ending).written =
        f.written ++ rest ∧ ∀ b, rest.head? = some b → b = Alphabet.delimiter := by
      cases fields with
      | nil => exact ⟨[], (List.append_nil f.written).symm, by simp⟩
      | cons g fields =>
        exact ⟨Alphabet.delimiter :: writtenFields (g :: fields), rfl,
          fun b hb => (Option.some.inj hb).symm⟩
    rw [hrest.1] at ha
    cases f with
    | bare symbols =>
      cases symbols with
      | nil =>
        rw [hrest.2 a ha]
        exact isTerminator_delimiter
      | cons b symbols =>
        obtain rfl := Option.some.inj ha
        exact (hf.2 b List.mem_cons_self).2
    | quoted body tail =>
      obtain rfl := Option.some.inj ha
      exact isTerminator_quote
    | unclosed body =>
      obtain rfl := Option.some.inj ha
      exact isTerminator_quote

theorem Sequence.head_not_terminator {records : List (RecordForm α)} (h : Sequence records) {a : α}
    (ha : (writtenRecords records).head? = some a) : isTerminator a = false := by
  cases records with
  | nil => cases ha
  | cons r records =>
    refine h.1.head_not_terminator ?_
    cases hwritten : r.written with
    | nil => exact absurd hwritten h.1.nonempty
    | cons b written =>
      rw [writtenRecords_cons, hwritten] at ha
      exact ha

theorem Sequence.eq_nil {records : List (RecordForm α)} (h : Sequence records)
    (hnil : writtenRecords records = []) : records = [] := by
  cases records with
  | nil => rfl
  | cons r records =>
    rw [writtenRecords_cons, List.append_eq_nil_iff] at hnil
    exact absurd hnil.1 h.1.nonempty

/-- A record without terminators is the last one. -/
theorem Sequence.eq_nil_of_ending {r : RecordForm α} {records : List (RecordForm α)}
    (h : Sequence (r :: records)) (hending : r.ending = []) : records = [] := by
  cases records with
  | nil => rfl
  | cons q records => exact absurd hending (h.2.1 (List.cons_ne_nil q records))

/-- The fields of a record in a sequence stop before its terminators. -/
theorem Sequence.fieldsStop {r : RecordForm α} {records : List (RecordForm α)}
    (h : Sequence (r :: records)) :
    FieldsStop r.fields (r.ending ++ writtenRecords records) := by
  have hlast := h.eq_nil_of_ending
  obtain ⟨hr, _, hunclosed, _⟩ := h
  refine ⟨?_, hr.fields, hr.closed, ?_, ?_⟩
  · intro hnil
    exact hr.nonempty (by rw [RecordForm.written, hnil]; rfl)
  · intro hopen
    obtain ⟨hending, rfl⟩ := hunclosed hopen
    rw [hending]
    rfl
  · intro a ha
    cases hending : r.ending with
    | nil =>
      rw [hending, hlast hending] at ha
      cases ha
    | cons b ending =>
      rw [hending] at ha
      obtain rfl := Option.some.inj ha
      exact hr.ending b (by rw [hending]; exact List.mem_cons_self)

theorem not_terminator_iff {rest : List α} :
    (∀ a, rest.head? = some a → ¬isTerminator a = true) ↔
      ∀ a, rest.head? = some a → isTerminator a = false := by
  simp only [Bool.not_eq_true]

/-- Every text that starts with no terminator is the text of some records. -/
theorem exists_records (s : List α) (hs : ∀ a, s.head? = some a → isTerminator a = false) :
    ∃ records, s = writtenRecords records ∧ Sequence records := by
  by_cases hnil : s = []
  · exact ⟨[], hnil, trivial⟩
  obtain ⟨fields, rest, htext, hfields⟩ := exists_fields s
  obtain ⟨ending, after, rfl, hending, hafter⟩ := exists_run (fun a : α => isTerminator a = true) rest
  have hnonempty : writtenFields fields ≠ [] := by
    intro hwritten
    rw [hwritten, List.nil_append] at htext
    cases s with
    | nil => exact hnil rfl
    | cons a s =>
      have hterminator := hfields.ends a (by rw [← htext]; rfl)
      rw [hs a rfl] at hterminator
      exact Bool.false_ne_true hterminator
  have hshorter : after.length < s.length := by
    have hpos := List.length_pos_iff.mpr hnonempty
    rw [htext, List.length_append, List.length_append]
    omega
  obtain ⟨records, rfl, hrecords⟩ := exists_records after (not_terminator_iff.mp hafter)
  refine ⟨⟨fields, ending⟩ :: records, by rw [writtenRecords_cons]; exact htext, ?_, ?_, ?_, hrecords⟩
  · exact ⟨hnonempty, hfields.wellFormed, hfields.closed, hending⟩
  · intro hrecs hnone
    subst hnone
    cases htail : writtenRecords records with
    | nil => exact hrecs (hrecords.eq_nil htail)
    | cons a tail =>
      have hterminator := hfields.ends a (by rw [htail]; rfl)
      rw [hrecords.head_not_terminator (a := a) (by rw [htail]; rfl)] at hterminator
      exact Bool.false_ne_true hterminator
  · intro hopen
    obtain ⟨hnone, htail⟩ := List.append_eq_nil_iff.mp (hfields.unclosed hopen)
    exact ⟨hnone, hrecords.eq_nil htail⟩
termination_by s.length

theorem records_unique {records records' : List (RecordForm α)} (h : Sequence records)
    (h' : Sequence records') (heq : writtenRecords records = writtenRecords records') :
    records = records' := by
  induction records generalizing records' with
  | nil => exact (h'.eq_nil heq.symm).symm
  | cons r records ih =>
    cases records' with
    | nil => exact h.eq_nil heq
    | cons r' records' =>
      rw [writtenRecords_cons, writtenRecords_cons] at heq
      obtain ⟨hfields, hrest⟩ := fields_unique h.fieldsStop h'.fieldsStop heq
      obtain ⟨hending, htail⟩ := run_unique h.1.ending
        (not_terminator_iff.mpr fun _ ha => h.2.2.2.head_not_terminator ha) h'.1.ending
        (not_terminator_iff.mpr fun _ ha => h'.2.2.2.head_not_terminator ha) hrest
      have hr : r = r' := by
        obtain ⟨fields, ending⟩ := r
        obtain ⟨fields', ending'⟩ := r'
        obtain rfl : fields = fields' := hfields
        obtain rfl : ending = ending' := hending
        rfl
      rw [hr, ih h.2.2.2 h'.2.2.2 htail]

/-! ### Layouts -/

/-- Every text has a layout. -/
theorem Layout.exists_written (s : List α) : ∃ l : Layout α, l.WellFormed ∧ l.written = s := by
  obtain ⟨leading, rest, rfl, hleading, hrest⟩ := exists_run (fun a : α => isTerminator a = true) s
  obtain ⟨records, rfl, hrecords⟩ := exists_records rest (not_terminator_iff.mp hrest)
  exact ⟨⟨leading, records⟩, (Layout.wellFormed_iff _).mpr ⟨hleading, hrecords⟩, rfl⟩

/-- A text has no two layouts. -/
theorem Layout.written_inj {l l' : Layout α} (h : l.WellFormed) (h' : l'.WellFormed)
    (heq : l.written = l'.written) : l = l' := by
  obtain ⟨leading, records⟩ := l
  obtain ⟨leading', records'⟩ := l'
  obtain ⟨hleading, hrecords⟩ := (Layout.wellFormed_iff _).mp h
  obtain ⟨hleading', hrecords'⟩ := (Layout.wellFormed_iff _).mp h'
  obtain ⟨rfl, hrest⟩ := run_unique hleading
    (not_terminator_iff.mpr fun _ ha => hrecords.head_not_terminator ha) hleading'
    (not_terminator_iff.mpr fun _ ha => hrecords'.head_not_terminator ha) heq
  obtain rfl := records_unique hrecords hrecords' hrest
  rfl

end CheckerAudit.Record
