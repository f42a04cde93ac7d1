import Mathlib.Data.List.Basic
import CheckerAudit.Proofs.Record.Numbering

/-!
# A text read in parts

Where a terminator outside of quotes has ended a record, a text can be taken apart: the records of
both parts follow one another, and those of the second part stand as many lines further down as the
first part has line feeds. Terminators that open the second part join those that end the first one,
so the layout of the whole is not the two layouts side by side.
-/
namespace CheckerAudit.Record

/-- The same record, with so many lines before its text. -/
def below (lines : Nat) (r : Record) : Record :=
  { r with line := lines + r.line }

theorem numbered_add (lines line : Nat) (records : List (RecordForm Char)) :
    numbered (lines + line) records = (numbered line records).map (below lines) := by
  induction records generalizing line with
  | nil => rfl
  | cons r records ih =>
    rw [numbered, numbered, List.map_cons, Nat.add_assoc, ih]
    rfl

/-- A text that ends between two records, told by its layout. -/
def Ended (text : List Char) : Prop :=
  ∃ l : Layout Char, l.WellFormed ∧ l.written = text ∧ ∀ r ∈ l.records, r.ending ≠ []

/-- Records with terminators behind each of them, then more terminators, then more records. -/
theorem exists_joined {records more : List (RecordForm Char)} {run : List Char}
    (h : Sequence records) (hne : records ≠ []) (hended : ∀ r ∈ records, r.ending ≠ [])
    (hrun : ∀ c ∈ run, isTerminator c = true) (hmore : Sequence more) :
    ∃ all, Sequence all ∧
      writtenRecords all = writtenRecords records ++ (run ++ writtenRecords more) ∧
      ∀ line, numbered line all = numbered line records ++
        numbered (line + (writtenRecords records ++ run).count Alphabet.lineFeed) more := by
  induction records with
  | nil => exact absurd rfl hne
  | cons r records ih =>
    obtain ⟨hr, -, hunclosed, hrecords⟩ := h
    have hending : r.ending ≠ [] := hended r List.mem_cons_self
    by_cases hlast : records = []
    · subst hlast
      have hwell : (RecordForm.mk r.fields (r.ending ++ run)).WellFormed :=
        ⟨hr.nonempty, hr.fields, hr.closed, List.forall_mem_append.mpr ⟨hr.ending, hrun⟩⟩
      have hrun_ne : r.ending ++ run ≠ [] := List.append_ne_nil_of_left_ne_nil hending run
      refine ⟨⟨r.fields, r.ending ++ run⟩ :: more, ⟨hwell, fun _ => hrun_ne, ?_, hmore⟩, ?_, ?_⟩
      · intro hopen
        exact absurd (hunclosed hopen).1 hending
      · simp [writtenRecords, RecordForm.written]
      · intro line
        simp [numbered, writtenRecords, RecordForm.written, RecordForm.values]
    · obtain ⟨all, hall, hwritten, hnumbered⟩ := ih hrecords hlast
        fun q hq => hended q (List.mem_cons_of_mem r hq)
      refine ⟨r :: all, ⟨hr, fun _ => hending, ?_, hall⟩, ?_, ?_⟩
      · intro hopen
        exact absurd (hunclosed hopen).1 hending
      · rw [writtenRecords_cons, hwritten, writtenRecords_cons]
        simp only [List.append_assoc]
      · intro line
        rw [numbered, numbered, hnumbered, List.cons_append, writtenRecords_cons]
        simp only [List.count_append, Nat.add_assoc]

/-- What follows an ended text is read as a text of its own, so many lines further down. -/
theorem Ended.continued_append {s : List Char} (hs : Ended s) (t : List Char) :
    continued (s ++ t) = continued s ++ (continued t).map (below (s.count Alphabet.lineFeed)) := by
  obtain ⟨l, hl, rfl, hended⟩ := hs
  obtain ⟨m, hm, rfl⟩ := Layout.exists_written t
  obtain ⟨hleading, hrecords⟩ := l.wellFormed_iff.mp hl
  obtain ⟨hmoreLeading, hmore⟩ := m.wellFormed_iff.mp hm
  have hlater : (continued m.written).map (below (l.written.count Alphabet.lineFeed)) =
      numbered (l.written.count Alphabet.lineFeed + (1 + m.leading.count Alphabet.lineFeed))
        m.records := by
    rw [numbered_add, continued_layout hm]
  rw [hlater, continued_layout hl]
  -- the terminators that open `t` join the last record's, or the leading ones if there is no record
  by_cases hnone : l.records = []
  · have hwritten : l.written = l.leading := by simp [Layout.written, hnone]
    have hwell : (Layout.mk (l.leading ++ m.leading) m.records).WellFormed :=
      (Layout.wellFormed_iff _).mpr ⟨List.forall_mem_append.mpr ⟨hleading, hmoreLeading⟩, hmore⟩
    have hjoined : l.written ++ m.written =
        (Layout.mk (l.leading ++ m.leading) m.records).written := by
      simp [Layout.written, hnone]
    rw [hjoined, continued_layout hwell, hwritten, hnone, numbered, List.nil_append]
    simp only [List.count_append, Nat.add_left_comm]
  · obtain ⟨all, hall, hwritten, hnumbered⟩ :=
      exists_joined hrecords hnone hended hmoreLeading hmore
    have hwell : (Layout.mk l.leading all).WellFormed :=
      (Layout.wellFormed_iff _).mpr ⟨hleading, hall⟩
    have hjoined : l.written ++ m.written = (Layout.mk l.leading all).written := by
      change l.leading ++ writtenRecords l.records ++ (m.leading ++ writtenRecords m.records) =
        l.leading ++ writtenRecords all
      rw [hwritten, List.append_assoc]
    have hcount : l.written.count Alphabet.lineFeed = l.leading.count Alphabet.lineFeed +
        (writtenRecords l.records).count Alphabet.lineFeed := List.count_append
    rw [hjoined, continued_layout hwell, hnumbered, hcount, List.count_append]
    simp only [Nat.add_left_comm, Nat.add_assoc]

/-! ### Texts that are ended -/

/-- A text that a new record may follow: it is empty, or a terminator outside of quotes ends it. -/
def Settled (text : List Char) : Prop :=
  text = [] ∨ (∃ c, text.getLast? = some c ∧ isTerminator c = true) ∧
    ∃ l : Layout Char, l.WellFormed ∧ l.written = unmarked text ∧
      ∀ r ∈ l.records, ∀ f ∈ r.fields, f.isClosed = true

theorem FieldForm.last_not_terminator {f : FieldForm Char} (h : f.WellFormed)
    (hclosed : f.isClosed = true) {c : Char} (hc : f.written.getLast? = some c) :
    isTerminator c = false := by
  cases f with
  | bare symbols => exact (h.2 c (List.mem_of_getLast? hc)).2
  | quoted body tail =>
    rw [written, List.getLast?_append_cons] at hc
    rcases List.mem_cons.mp (List.mem_of_getLast? hc) with rfl | htail
    · exact isTerminator_quote
    · exact (h.2 c htail).2
  | unclosed body => cases hclosed

theorem writtenFields_last_not_terminator {fields : List (FieldForm Char)}
    (h : ∀ f ∈ fields, f.WellFormed ∧ f.isClosed = true) {c : Char}
    (hc : (writtenFields fields).getLast? = some c) : isTerminator c = false := by
  induction fields with
  | nil => cases hc
  | cons f fields ih =>
    obtain ⟨hf, hclosed⟩ := h f List.mem_cons_self
    cases fields with
    | nil => exact f.last_not_terminator hf hclosed hc
    | cons g fields =>
      rw [writtenFields_cons_cons, List.getLast?_append_cons] at hc
      cases hrest : writtenFields (g :: fields) with
      | nil =>
        rw [hrest] at hc
        obtain rfl := Option.some.inj hc
        exact isTerminator_delimiter
      | cons b rest =>
        rw [hrest, List.getLast?_cons_cons, ← hrest] at hc
        exact ih (fun k hk => h k (List.mem_cons_of_mem f hk)) hc

theorem last_of_unmarked {text : List Char} (h : unmarked text ≠ []) :
    (unmarked text).getLast? = text.getLast? := by
  unfold unmarked at h ⊢
  split
  · next hmark =>
    rw [if_pos hmark] at h
    rw [List.getLast?_drop, if_neg (by rw [Nat.not_le]; simpa using h)]
  · rfl

/-- A layout that ends in a record without terminators ends with that record's last symbol. -/
theorem Layout.last_of_unended {l : Layout Char} (h : l.WellFormed) {r : RecordForm Char}
    (hr : r ∈ l.records) (hending : r.ending = []) :
    l.written.getLast? = r.written.getLast? := by
  have hne : l.records ≠ [] := List.ne_nil_of_mem hr
  have hsplit := (List.dropLast_concat_getLast hne).symm
  have hlast : r = l.records.getLast hne := by
    rw [hsplit] at hr
    rcases List.mem_append.mp hr with hinit | hfinal
    · exact absurd hending (h.separated r hinit)
    · exact List.mem_singleton.mp hfinal
  rw [← hlast] at hsplit
  obtain ⟨c, rest, hwritten⟩ := List.exists_cons_of_ne_nil (h.records r hr).nonempty
  rw [Layout.written, hsplit, List.flatMap_append, List.flatMap_singleton, hending, List.append_nil,
    ← List.append_assoc, hwritten, List.getLast?_append_cons]

/-- Behind its mark, a settled text has terminators after each of its records. -/
theorem Settled.ended {text : List Char} (h : Settled text) : Ended (unmarked text) := by
  rcases h with rfl | ⟨⟨c, hc, hterminator⟩, l, hl, hwritten, hclosed⟩
  · exact ⟨⟨[], []⟩, by decide, rfl, nofun⟩
  refine ⟨l, hl, hwritten, fun r hr hending => ?_⟩
  have hrecord := hl.records r hr
  have hlast := l.last_of_unended hl hr hending
  obtain ⟨a, ha⟩ := Option.ne_none_iff_exists'.mp (mt List.getLast?_eq_none_iff.mp hrecord.nonempty)
  have htext : unmarked text ≠ [] := by
    rintro hnil
    rw [hwritten, hnil, ha] at hlast
    cases hlast
  have hother : isTerminator a = false :=
    writtenFields_last_not_terminator (fun f hf => ⟨hrecord.fields f hf, hclosed r hr f hf⟩) ha
  rw [hwritten, last_of_unmarked htext, hc, ha] at hlast
  obtain rfl := Option.some.inj hlast
  rw [hterminator] at hother
  cases hother

/-- A record with its quotes closed, and a line feed behind it. -/
structure RecordForm.IsLine (r : RecordForm Char) : Prop where
  wellFormed : r.WellFormed
  closed : ∀ f ∈ r.fields, f.isClosed = true
  ending : r.ending = ['\n']

theorem RecordForm.IsLine.layout {r : RecordForm Char} (h : r.IsLine) :
    (Layout.mk [] [r]).WellFormed ∧ (Layout.mk [] [r]).written = r.written ++ r.ending := by
  have hunclosed : ¬ ∃ f ∈ r.fields, f.isClosed = false := by
    rintro ⟨f, hf, hopen⟩
    rw [h.closed f hf] at hopen
    cases hopen
  have hsequence : Sequence [r] :=
    ⟨h.wellFormed, fun hne => absurd rfl hne, fun hopen => absurd hopen hunclosed, trivial⟩
  exact ⟨(Layout.wellFormed_iff _).mpr ⟨nofun, hsequence⟩, List.append_nil _⟩

theorem RecordForm.IsLine.ended {r : RecordForm Char} (h : r.IsLine) :
    Ended (r.written ++ r.ending) := by
  refine ⟨⟨[], [r]⟩, h.layout.1, h.layout.2, List.forall_mem_singleton.mpr ?_⟩
  rw [h.ending]
  exact List.cons_ne_nil _ _

theorem RecordForm.IsLine.continued_eq {r : RecordForm Char} (h : r.IsLine) :
    continued (r.written ++ r.ending) = [⟨1, r.values.map String.ofList⟩] := by
  rw [← h.layout.2, continued_layout h.layout.1]
  rfl

/-! ### Sources -/

theorem unmarked_append {s : List Char} (hs : s ≠ []) (t : List Char) :
    unmarked (s ++ t) = unmarked s ++ t := by
  cases s with
  | nil => exact absurd rfl hs
  | cons c s =>
    by_cases hc : c = '\uFEFF'
    · subst hc
      rfl
    · have hmark {text : List Char} : (Alphabet.mark : List Char).isPrefixOf (c :: text) = false :=
        not_mark_of_head fun h => hc (Option.some.inj h)
      rw [List.cons_append, unmarked_of_not_mark hmark, unmarked_of_not_mark hmark,
        List.cons_append]

/-- The fields of a source are those of what follows its mark. -/
theorem map_fields_ofChars (source : List Char) :
    (Record.ofChars source).map Record.fields =
      (continued (unmarked source)).map Record.fields := by
  obtain ⟨l, hl, hwritten⟩ := Layout.exists_written (unmarked source)
  rw [← hwritten, continued_layout hl, map_fields_numbered, Record.ofChars, scan_layout hl hwritten,
    List.map_map]
  exact map_texts_foundFrom l.records _ _

end CheckerAudit.Record
