import CheckerAudit.Proofs.Record.Encoded
import CheckerAudit.Proofs.Record.Line

/-!
# The lines that records start on

The search for a record begins behind the first terminator of the record before it, so the symbols
from there to the record's own first symbol are terminators, and the line counter passes over all of
them. In a text that no mark opens this holds of the first record too. Behind a mark it does not:
the search for the first record begins before the mark, and the mark is no terminator.
-/
namespace CheckerAudit.Record

section Layout

variable {α : Type} [DecidableEq α] [Alphabet α]

/-- The lines of records, the first of which stands on `line`. -/
def recordLines (line : Nat) : List (RecordForm α) → List Nat
  | [] => []
  | r :: records =>
    line :: recordLines (line + (r.written ++ r.ending).count Alphabet.lineFeed) records

/-- The lines of found records, counted from the start of their text. -/
def foundLines (text : List α) (founds : List (Found α)) : List Nat :=
  founds.map fun found => lineAt text.toArray found.start

/-- The records behind a first one stand on the lines that their first symbols stand on. -/
theorem foundLines_behind {r : RecordForm α} {records : List (RecordForm α)}
    (h : Sequence (r :: records)) (before : List α) :
    foundLines (before ++ writtenRecords (r :: records))
        (foundFrom (before.length + r.written.length + 1)
          (before.length + r.written.length + r.ending.length) records) =
      recordLines (1 + (before ++ r.written ++ r.ending).count Alphabet.lineFeed) records := by
  induction records generalizing r before with
  | nil => rfl
  | cons q records ih =>
    obtain ⟨hr, hseparated, hunclosed, hrecords⟩ := h
    obtain ⟨a, ending, hending⟩ :=
      List.exists_cons_of_ne_nil (hseparated (List.cons_ne_nil q records))
    have hsplit : before ++ writtenRecords (r :: q :: records) =
        (before ++ r.written ++ [a]) ++ (ending ++ writtenRecords (q :: records)) := by
      rw [writtenRecords_cons, hending]
      simp
    have hlength : (before ++ r.written ++ [a]).length = before.length + r.written.length + 1 := by
      rw [List.length_append, List.length_append, List.length_singleton]
    -- the reading of `r` takes `a` only, the counter passes over the rest of the run
    have hhead : lineAt (before ++ writtenRecords (r :: q :: records)).toArray
          (before.length + r.written.length + 1) =
        1 + (before ++ r.written ++ r.ending).count Alphabet.lineFeed := by
      have hrun : ∀ b ∈ ending, isTerminator b = true := fun b hb =>
        hr.ending b (by rw [hending]; exact List.mem_cons_of_mem a hb)
      rw [hsplit, ← hlength, lineAt_run List.drop_left hrun fun _ ha =>
        hrecords.head_not_terminator ha, List.take_left, hending, List.append_assoc,
        List.singleton_append]
    have htail := ih hrecords (before ++ r.written ++ r.ending)
    have htext : before ++ r.written ++ r.ending ++ writtenRecords (q :: records) =
        before ++ writtenRecords (r :: q :: records) := by
      rw [writtenRecords_cons r, List.append_assoc, List.append_assoc]
    rw [htext, List.length_append, List.length_append] at htail
    rw [foundFrom, foundLines, List.map_cons, hhead, recordLines]
    rw [List.append_assoc _ q.written, List.count_append, ← Nat.add_assoc] at htail
    exact congrArg (List.cons _) htail

/-- In a text that no mark opens, every record stands on the line of its first symbol. -/
theorem foundLines_layout {l : Layout α} (h : l.WellFormed) :
    foundLines l.written (foundFrom 0 l.leading.length l.records) =
      recordLines (1 + l.leading.count Alphabet.lineFeed) l.records := by
  obtain ⟨hleading, hrecords⟩ := l.wellFormed_iff.mp h
  cases hl : l.records with
  | nil => rfl
  | cons r records =>
    rw [hl] at hrecords
    have hwritten : l.written = l.leading ++ writtenRecords (r :: records) := by
      rw [Layout.written, hl, writtenRecords]
    have hhead : lineAt l.written.toArray 0 = 1 + l.leading.count Alphabet.lineFeed :=
      lineAt_run hwritten hleading fun _ ha => hrecords.head_not_terminator ha
    have htail := foundLines_behind hrecords l.leading
    rw [← hwritten, List.append_assoc, List.count_append, ← Nat.add_assoc] at htail
    rw [foundFrom, foundLines, List.map_cons, hhead, recordLines]
    exact congrArg (List.cons _) htail

/-- Each record's line counts the line feeds before its first symbol. -/
theorem recordLines_eq_starts (records : List (RecordForm α)) (before : List α) :
    recordLines (1 + before.count Alphabet.lineFeed) records =
      (Layout.startsFrom before.length records).map fun n =>
        1 + ((before ++ writtenRecords records).take n).count Alphabet.lineFeed := by
  induction records generalizing before with
  | nil => rfl
  | cons r records ih =>
    have htail := ih (before ++ (r.written ++ r.ending))
    rw [List.count_append, List.append_assoc, List.append_assoc r.written, ← writtenRecords_cons,
      List.length_append, List.length_append, ← Nat.add_assoc, ← Nat.add_assoc] at htail
    rw [recordLines, Layout.startsFrom, List.map_cons, List.take_left, htail]

/-- Where the reading of each record stops: behind the first of its terminators, so between the two
of a carriage return with a line feed. -/
def Layout.stops (l : Layout α) : List Nat :=
  List.zipWith (fun n r => n + r.written.length + (r.ending.take 1).length) l.starts l.records

/-- Every search begins where the reading of the record before has stopped. -/
theorem starts_foundFrom {records : List (RecordForm α)} (h : Sequence records)
    (start offset : Nat) :
    (foundFrom start offset records).map Found.start =
      (start :: List.zipWith (fun n r => n + r.written.length + (r.ending.take 1).length)
        (Layout.startsFrom offset records) records).take records.length := by
  induction records generalizing start offset with
  | nil => rfl
  | cons r records ih =>
    have hlast := h.eq_nil_of_ending
    rw [foundFrom, List.map_cons, Layout.startsFrom, List.zipWith_cons_cons, List.length_cons,
      List.take_succ_cons]
    cases hending : r.ending with
    | nil =>
      rw [hlast hending]
      rfl
    | cons a ending => rw [ih h.2.2.2, List.take_succ_cons, List.take_zero, List.length_singleton]

/-- Searches begin in the order of their records, and none before `start`. -/
theorem starts_sorted {records : List (RecordForm α)} (h : Sequence records) {start offset : Nat}
    (hstart : start ≤ offset) :
    (start :: (foundFrom start offset records).map Found.start).Pairwise (· ≤ ·) := by
  induction records generalizing start offset with
  | nil => exact List.pairwise_singleton _ _
  | cons r records ih =>
    have hlast := h.eq_nil_of_ending
    have hrest : ((offset + r.written.length + 1) ::
        (foundFrom (offset + r.written.length + 1)
          (offset + r.written.length + r.ending.length) records).map Found.start).Pairwise
            (· ≤ ·) := by
      cases hending : r.ending with
      | nil =>
        rw [hlast hending]
        exact List.pairwise_singleton _ _
      | cons a ending =>
        apply ih h.2.2.2
        rw [List.length_cons]
        omega
    obtain ⟨hfirst, hsorted⟩ := List.pairwise_cons.mp hrest
    have hbehind : ∀ n ∈ (foundFrom (offset + r.written.length + 1)
        (offset + r.written.length + r.ending.length) records).map Found.start, start ≤ n := by
      intro n hn
      have hnext := hfirst n hn
      omega
    rw [foundFrom, List.map_cons]
    refine List.pairwise_cons.mpr ⟨?_, List.pairwise_cons.mpr ⟨hbehind, hsorted⟩⟩
    exact List.forall_mem_cons.mpr ⟨Nat.le_refl start, hbehind⟩

theorem scan_sorted (source : List α) :
    (0 :: (scan source).map Found.start).Pairwise (· ≤ ·) := by
  obtain ⟨l, hl, hwritten⟩ := Layout.exists_written (unmarked source)
  rw [scan_layout hl hwritten]
  exact starts_sorted (l.wellFormed_iff.mp hl).2 (Nat.zero_le _)

/-- Over the records of a text the line counter agrees with counting from the start. -/
theorem lines_scan (source : List α) :
    LineCounter.lines ⟨source.toArray, 0, 1⟩ ((scan source).map Found.start) =
      foundLines source (scan source) := by
  rw [(LineCounter.counts_start _).lines_eq (scan_sorted source), List.map_map]
  rfl

end Layout

/-! ### Line feeds in bytes and in characters -/

theorem isTerminator_encodeChar {c : Char} {b : UInt8} {bytes : Text.Bytes}
    (h : String.utf8EncodeChar c = b :: bytes) : isTerminator b = isTerminator c := by
  by_cases hc : c.val.toNat < 0x80
  · have hsymbol := sameSymbol_ascii hc
    rw [hsymbol.encoded] at h
    obtain ⟨rfl, _⟩ := List.cons.inj h
    exact hsymbol.terminator
  · obtain ⟨⟨_, hends⟩, hbytes⟩ := ordinary_wide hc
    have hb := (hbytes b (by rw [h]; exact List.mem_cons_self)).2
    rw [(not_endsField_iff.mp hends).2, (not_endsField_iff.mp hb).2]

theorem isTerminator_encode {run : List Char} (h : ∀ c ∈ run, isTerminator c = true) :
    ∀ b ∈ Text.Utf8.encode run, isTerminator b = true := by
  intro b hb
  obtain ⟨c, hc, hbyte⟩ := List.mem_flatMap.mp hb
  have hterminator := h c hc
  simp only [isTerminator, Bool.or_eq_true, decide_eq_true_eq] at hterminator
  rcases hterminator with rfl | rfl
  · rw [List.mem_singleton.mp hbyte]
    rfl
  · rw [List.mem_singleton.mp hbyte]
    rfl

theorem count_encode (text : List Char) :
    (Text.Utf8.encode text).count Alphabet.lineFeed = text.count Alphabet.lineFeed := by
  induction text with
  | nil => rfl
  | cons c text ih =>
    have hchar : (String.utf8EncodeChar c).count Alphabet.lineFeed =
        [c].count Alphabet.lineFeed := by
      by_cases hc : c = '\n'
      · subst hc
        rfl
      · have hbytes : (Alphabet.lineFeed : UInt8) ∉ Text.Utf8.encode [c] := by
          intro hb
          have hfeed := (Text.Utf8.mem_encode_ascii (c := '\n') (by decide)).mp hb
          exact hc (List.mem_singleton.mp hfeed).symm
        have hnone : (Text.Utf8.encode [c]).count Alphabet.lineFeed = 0 :=
          List.count_eq_zero.mpr hbytes
        have hother : [c].count Alphabet.lineFeed = 0 :=
          List.count_eq_zero.mpr fun hfeed => hc (List.mem_singleton.mp hfeed).symm
        rw [hother, ← hnone, Text.Utf8.encode, List.flatMap_singleton]
    rw [Text.Utf8.encode_cons, List.count_append, ih, hchar, ← List.count_append,
      List.singleton_append]

/-- Counting line feeds in the bytes of a text is counting them in its characters. -/
theorem lineAt_encode (source : List Char) (n : Nat) :
    lineAt (Text.Utf8.encode source).toArray (byteOffset source n) = lineAt source.toArray n := by
  obtain ⟨run, rest, hdrop, hrun, hrest⟩ :=
    exists_run (fun c : Char => isTerminator c = true) (source.drop n)
  have hsource : Text.Utf8.encode source =
      Text.Utf8.encode (source.take n) ++ Text.Utf8.encode (run ++ rest) := by
    rw [← Text.Utf8.encode_append, ← hdrop, List.take_append_drop]
  have hbytes : (Text.Utf8.encode source).drop (byteOffset source n) =
      Text.Utf8.encode run ++ Text.Utf8.encode rest := by
    rw [hsource, byteOffset, List.drop_left, Text.Utf8.encode_append]
  have hhead : ∀ b, (Text.Utf8.encode rest).head? = some b → isTerminator b = false := by
    intro b hb
    cases rest with
    | nil => cases hb
    | cons c rest =>
      rw [Text.Utf8.encode_cons] at hb
      cases hc : String.utf8EncodeChar c with
      | nil => exact absurd hc String.utf8EncodeChar_ne_nil
      | cons b' bytes =>
        rw [hc] at hb
        obtain rfl := Option.some.inj hb
        rw [isTerminator_encodeChar hc]
        exact not_terminator_iff.mp hrest c rfl
  rw [lineAt_run hdrop hrun (not_terminator_iff.mp hrest),
    lineAt_run hbytes (isTerminator_encode hrun) hhead, hsource, byteOffset, List.take_left,
    ← Text.Utf8.encode_append, count_encode]

theorem foundLines_encode (source : List Char) :
    foundLines (Text.Utf8.encode source) (scan (Text.Utf8.encode source)) =
      foundLines source (scan source) := by
  rw [foundLines, scan_encode, List.map_map]
  exact List.map_congr_left fun found _ => lineAt_encode source found.start

/-! ### The records of a text -/

theorem ext_lines_fields {records records' : List Record}
    (hlines : records.map Record.line = records'.map Record.line)
    (hfields : records.map Record.fields = records'.map Record.fields) : records = records' := by
  induction records generalizing records' with
  | nil => exact (List.map_eq_nil_iff.mp hlines.symm).symm
  | cons r records ih =>
    cases records' with
    | nil => cases hlines
    | cons r' records' =>
      obtain ⟨hline, hmoreLines⟩ := List.cons.inj hlines
      obtain ⟨hfield, hmoreFields⟩ := List.cons.inj hfields
      obtain ⟨line, fields⟩ := r
      obtain ⟨line', fields'⟩ := r'
      obtain rfl : line = line' := hline
      obtain rfl : fields = fields' := hfield
      rw [ih hmoreLines hmoreFields]

theorem lines_ofChars (source : List Char) :
    (Record.ofChars source).map Record.line =
      foundLines (Text.Utf8.encode source) (scan (Text.Utf8.encode source)) := by
  rw [foundLines_encode, Record.ofChars, List.map_map]
  rfl

/-- Reading never fails, and gives what reading the characters gives. -/
theorem read_eq_ofChars (source : String) :
    Record.read source = .ok (Record.ofChars source.toList) := by
  obtain ⟨records, hread, hlines, hfields⟩ :=
    decodeFrom_encoded source.toList (scan source.toList)
      ⟨(Text.Utf8.encode source.toList).toArray, 0, 1⟩
  have hstarts : (scan (Text.Utf8.encode source.toList)).map Found.start =
      (scan source.toList).map fun found => byteOffset source.toList found.start := by
    rw [scan_encode, List.map_map]
    rfl
  rw [← hstarts, lines_scan, ← lines_ofChars] at hlines
  rw [← scan_encode] at hread
  refine hread.trans (congrArg Except.ok (ext_lines_fields hlines ?_))
  rw [hfields, Record.ofChars, List.map_map]
  rfl

theorem fields_ofChars (source : List Char) :
    (Record.ofChars source).map (fun r => r.fields.map fun field => Text.Utf8.encode field.toList) =
      (scan (Text.Utf8.encode source)).map Found.fields := by
  rw [scan_encode, Record.ofChars, List.map_map, List.map_map]
  refine List.map_congr_left fun found _ => ?_
  simp only [Function.comp_apply, List.map_map, Found.encoded]
  refine List.map_congr_left fun field _ => ?_
  rw [Function.comp_apply, String.toList_ofList]

/-- The records of written ones, the first of which stands on `line`. -/
def numbered (line : Nat) : List (RecordForm Char) → List Record
  | [] => []
  | r :: records =>
    ⟨line, r.values.map String.ofList⟩ ::
      numbered (line + (r.written ++ r.ending).count Alphabet.lineFeed) records

@[simp] theorem map_line_numbered (line : Nat) (records : List (RecordForm Char)) :
    (numbered line records).map Record.line = recordLines line records := by
  induction records generalizing line with
  | nil => rfl
  | cons r records ih => rw [numbered, List.map_cons, ih, recordLines]

@[simp] theorem map_fields_numbered (line : Nat) (records : List (RecordForm Char)) :
    (numbered line records).map Record.fields =
      records.map fun r => r.values.map String.ofList := by
  induction records generalizing line with
  | nil => rfl
  | cons r records ih => rw [numbered, List.map_cons, ih, List.map_cons]

theorem map_texts_foundFrom (records : List (RecordForm Char)) (start offset : Nat) :
    (foundFrom start offset records).map (fun found => found.fields.map String.ofList) =
      records.map fun r => r.values.map String.ofList := by
  have hvalues := congrArg (List.map (List.map String.ofList))
    (map_fields_foundFrom records start offset)
  rwa [List.map_map, List.map_map] at hvalues

/-- The records of a text that is read from a place between records on: no mark is looked for. -/
def continued (text : List Char) : List Record :=
  (Reader.readFrom {} text).map fun found =>
    ⟨lineAt text.toArray found.start, found.fields.map String.ofList⟩

theorem continued_layout {l : Layout Char} (h : l.WellFormed) :
    continued l.written = numbered (1 + l.leading.count Alphabet.lineFeed) l.records := by
  have hfound := readFrom_layout h 0
  rw [Nat.zero_add] at hfound
  rw [continued, hfound]
  apply ext_lines_fields
  · rw [map_line_numbered, ← foundLines_layout h, foundLines, List.map_map]
    rfl
  · rw [map_fields_numbered, List.map_map]
    exact map_texts_foundFrom l.records 0 l.leading.length

theorem ofChars_of_not_mark {source : List Char}
    (h : (Alphabet.mark : List Char).isPrefixOf source = false) :
    Record.ofChars source = continued source := by
  rw [Record.ofChars, scan_eq, markWidth_of_not_mark h, unmarked_of_not_mark h]
  rfl

/-- In a text that no mark opens, a record stands on the line that its own first byte stands on: one
more than the line feeds before that byte. The search for it begins where the reading of the record
before has stopped. -/
theorem lines_count_preceding_line_feeds (source : String)
    (h : source.toList.head? ≠ some '\uFEFF') :
    ∃ layout : Layout UInt8,
      (layout.WellFormed ∧ layout.written = Text.Utf8.encode source.toList) ∧
      (∀ other : Layout UInt8, other.WellFormed → other.written = Text.Utf8.encode source.toList →
        other = layout) ∧
      (scan (Text.Utf8.encode source.toList)).map Found.start =
        (0 :: layout.stops).take layout.records.length ∧
      ∃ records, Record.read source = .ok records ∧
        records.map (fun r => r.fields.map fun field => Text.Utf8.encode field.toList) =
          layout.values ∧
        records.map Record.line = layout.starts.map fun n =>
          1 + ((Text.Utf8.encode source.toList).take n).count Alphabet.lineFeed := by
  have hmark : (Alphabet.mark : List UInt8).isPrefixOf (Text.Utf8.encode source.toList) =
      false := by
    rw [mark_startsWith, not_mark_of_head h]
  obtain ⟨layout, hwell, hwritten⟩ := Layout.exists_written (Text.Utf8.encode source.toList)
  have hunmarked : layout.written = unmarked (Text.Utf8.encode source.toList) := by
    rw [hwritten, unmarked_of_not_mark hmark]
  have hscan : scan (Text.Utf8.encode source.toList) =
      foundFrom 0 layout.leading.length layout.records := by
    rw [scan_layout hwell hunmarked, markWidth_of_not_mark hmark, Nat.zero_add]
  have hrecords := (layout.wellFormed_iff.mp hwell).2
  have hlines : foundLines layout.written (foundFrom 0 layout.leading.length layout.records) =
      layout.starts.map fun n => 1 + (layout.written.take n).count Alphabet.lineFeed := by
    rw [foundLines_layout hwell, recordLines_eq_starts]
    rfl
  refine ⟨layout, ⟨hwell, hwritten⟩, ?_, ?_, Record.ofChars source.toList, read_eq_ofChars source,
    ?_, ?_⟩
  · intro other hother hsame
    exact Layout.written_inj hother hwell (hsame.trans hwritten.symm)
  · rw [hscan, starts_foundFrom hrecords]
    rfl
  · rw [fields_ofChars, fields_scan hwell hunmarked]
  · rw [lines_ofChars, hscan, ← hwritten]
    exact hlines

/-- A blank line, a record with a line feed in quotes, then both symbols of a line end twice. -/
def twoRecords : Layout UInt8 where
  leading := [10]
  records := [⟨[.quoted [120, 10, 121] [], .bare [122]], [13, 10, 10, 13]⟩,
    ⟨[.bare [101], .bare [102]], []⟩]

theorem lines_count_preceding_line_feeds_two :
    "\n\"x\ny\":z\r\n\n\re:f".toList.head? ≠ some '\uFEFF' ∧
      (scan (Text.Utf8.encode "\n\"x\ny\":z\r\n\n\re:f".toList)).map Found.start = [0, 9] ∧
      ∃ records, Record.read "\n\"x\ny\":z\r\n\n\re:f" = .ok records ∧
        records.map Record.line = [2, 5] := by
  have hmark : "\n\"x\ny\":z\r\n\n\re:f".toList.head? ≠ some '\uFEFF' := by decide
  obtain ⟨layout, _, hunique, hstarts, records, hread, _, hlines⟩ :=
    lines_count_preceding_line_feeds _ hmark
  obtain rfl := hunique twoRecords (by decide) (by decide)
  exact ⟨hmark, hstarts, records, hread, hlines⟩

end CheckerAudit.Record
