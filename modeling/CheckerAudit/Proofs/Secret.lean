import CheckerAudit.Proofs.Record.Parts
import CheckerAudit.Secret

/-!
# The last declaration of the secret counts

The config gives the value of its last record with two fields of which the first is the key. A
declaration that is written where a terminator outside of quotes has ended the text before is such a
record, whatever that text and whatever the value, because its value stands in quotes.
-/
namespace CheckerAudit.Secret

open Record (continued Ended Settled FieldForm RecordForm)

/-- The last value that a list gives is given by an element behind which nothing gives one. -/
theorem getLast?_filterMap_eq_some_iff {α β : Type} {f : α → Option β} {l : List α} {b : β} :
    (l.filterMap f).getLast? = some b ↔
      ∃ before a after, l = before ++ a :: after ∧ f a = some b ∧ ∀ x ∈ after, f x = none := by
  rw [List.getLast?_eq_some_iff]
  constructor
  · rintro ⟨values, hvalues⟩
    obtain ⟨before, rest, rfl, -, hrest⟩ := List.filterMap_eq_append_iff.mp hvalues
    obtain ⟨passed, a, after, rfl, -, ha, hafter⟩ := List.filterMap_eq_cons_iff.mp hrest
    exact ⟨before ++ passed, a, after, (List.append_assoc ..).symm, ha,
      List.filterMap_eq_nil_iff.mp hafter⟩
  · rintro ⟨before, a, after, rfl, ha, hafter⟩
    refine ⟨before.filterMap f, ?_⟩
    rw [List.filterMap_append, List.filterMap_cons_some ha, List.filterMap_eq_nil_iff.mpr hafter]

section Records

variable {r : Record}

theorem ofRecord?_of_declares {value : String} (h : r.fields = [key, value]) :
    ofRecord? r = some ⟨Text.trim value⟩ := by
  rw [ofRecord?, h]
  exact if_pos rfl

theorem ofRecord?_eq_none_iff : ofRecord? r = none ↔ ∀ value, r.fields ≠ [key, value] := by
  constructor
  · intro h value hfields
    rw [ofRecord?_of_declares hfields] at h
    cases h
  · intro h
    unfold ofRecord?
    split
    · next name value hfields =>
      refine if_neg fun hname => ?_
      subst hname
      exact h value hfields
    · rfl

theorem ofRecord?_eq_some_iff {found : Secret} :
    ofRecord? r = some found ↔ ∃ value, r.fields = [key, value] ∧ found = ⟨Text.trim value⟩ := by
  constructor
  · intro h
    by_cases hr : ∃ value, r.fields = [key, value]
    · obtain ⟨value, hr⟩ := hr
      rw [ofRecord?_of_declares hr] at h
      exact ⟨value, hr, (Option.some.inj h).symm⟩
    · rw [ofRecord?_eq_none_iff.mpr (not_exists.mp hr)] at h
      cases h
  · rintro ⟨value, hr, rfl⟩
    exact ofRecord?_of_declares hr

end Records

section Parse

variable {source path : String} {records : List Record} {found : Secret}

theorem value_parse_of_none (h : Record.read source = .ok records)
    (hnone : ∀ r ∈ records, ∀ value, r.fields ≠ [key, value]) :
    (parse source path).value = .error (.missingSecret path) := by
  have hvalues : records.filterMap ofRecord? = [] :=
    List.filterMap_eq_nil_iff.mpr fun r hr => ofRecord?_eq_none_iff.mpr (hnone r hr)
  simp only [parse, h, hvalues, List.getLast?_nil]

theorem value_parse_eq_ok_iff_getLast? (h : Record.read source = .ok records) :
    (parse source path).value = .ok found ↔
      (records.filterMap ofRecord?).getLast? = some found := by
  simp only [parse, h]
  cases (records.filterMap ofRecord?).getLast? with
  | none => exact ⟨nofun, nofun⟩
  | some last => rw [Except.ok.injEq, Option.some.injEq]

theorem value_parse_eq_ok_iff (h : Record.read source = .ok records) :
    (parse source path).value = .ok found ↔
      ∃ before r after value, records = before ++ r :: after ∧ r.fields = [key, value] ∧
        (∀ q ∈ after, ∀ value, q.fields ≠ [key, value]) ∧ found = ⟨Text.trim value⟩ := by
  rw [value_parse_eq_ok_iff_getLast? h, getLast?_filterMap_eq_some_iff]
  simp only [ofRecord?_eq_some_iff, ofRecord?_eq_none_iff]
  constructor
  · rintro ⟨before, r, after, hsplit, ⟨value, hr, hfound⟩, hafter⟩
    exact ⟨before, r, after, value, hsplit, hr, hafter, hfound⟩
  · rintro ⟨before, r, after, value, hsplit, hr, hafter, hfound⟩
    exact ⟨before, r, after, hsplit, ⟨value, hr, hfound⟩, hafter⟩

theorem exists_value_parse_iff (h : Record.read source = .ok records) :
    (∃ found, (parse source path).value = .ok found) ↔
      ∃ r ∈ records, ∃ value, r.fields = [key, value] := by
  constructor
  · rintro ⟨found, hfound⟩
    obtain ⟨before, r, after, value, rfl, hr, -⟩ := (value_parse_eq_ok_iff h).mp hfound
    exact ⟨r, List.mem_append_right before List.mem_cons_self, value, hr⟩
  · rintro ⟨r, hmem, value, hr⟩
    have hdeclared : ⟨Text.trim value⟩ ∈ records.filterMap ofRecord? :=
      List.mem_filterMap.mpr ⟨r, hmem, ofRecord?_of_declares hr⟩
    have hlast : (records.filterMap ofRecord?).getLast? ≠ none :=
      mt List.getLast?_eq_none_iff.mp (List.ne_nil_of_mem hdeclared)
    obtain ⟨found, hfound⟩ := Option.ne_none_iff_exists'.mp hlast
    exact ⟨found, (value_parse_eq_ok_iff_getLast? h).mpr hfound⟩

/-- A config has a secret, or it is missing. -/
theorem value_parse_cases (source path : String) :
    (∃ found, (parse source path).value = .ok found) ∨
      (parse source path).value = .error (.missingSecret path) := by
  have hread := Record.read_eq_ofChars source
  by_cases hdeclared : ∃ r ∈ Record.ofChars source.toList, ∃ value, r.fields = [key, value]
  · exact .inl ((exists_value_parse_iff hread).mpr hdeclared)
  · refine .inr (value_parse_of_none hread fun r hr value hfields => ?_)
    exact hdeclared ⟨r, hr, value, hfields⟩

end Parse

/-- The record that declares a value in quotes. -/
def declaration (value : String) : RecordForm Char where
  fields := [.bare key.toList, .quoted value.toList []]
  ending := ['\n']

theorem written_declaration (value : String) :
    (declaration value).written ++ (declaration value).ending =
      ("secret:" ++ .ofList (Record.quoted value.toList) ++ "\n").toList := by
  simp only [String.toList_append, String.toList_ofList]
  rfl

theorem isLine_declaration (value : String) : (declaration value).IsLine where
  wellFormed := by
    refine ⟨List.cons_ne_nil _ _, ?_, ?_, ?_⟩
    · exact List.forall_mem_cons.mpr ⟨by decide, List.forall_mem_singleton.mpr ⟨nofun, nofun⟩⟩
    · exact List.forall_mem_singleton.mpr rfl
    · exact List.forall_mem_singleton.mpr rfl
  closed := List.forall_mem_cons.mpr ⟨rfl, List.forall_mem_singleton.mpr rfl⟩
  ending := rfl

/-- Behind a settled text the declaration is a record of its own. -/
theorem exists_records_around_declaration {s : List Char} (hs : Settled s) (value : String)
    (e : List Char) :
    ∃ before r after,
      Record.ofChars (s ++ ((declaration value).written ++ (declaration value).ending ++ e)) =
        before ++ r :: after ∧
      r.fields = [key, value] ∧ after.map Record.fields = (continued e).map Record.fields := by
  have hline := isLine_declaration value
  have hunmarked : Record.unmarked
      (s ++ ((declaration value).written ++ (declaration value).ending ++ e)) =
        Record.unmarked s ++ ((declaration value).written ++ (declaration value).ending ++ e) := by
    by_cases hempty : s = []
    · subst hempty
      rfl
    · exact Record.unmarked_append hempty _
  have hbelow (n : Nat) (records : List Record) :
      (records.map (Record.below n)).map Record.fields = records.map Record.fields :=
    List.map_map
  have hvalues : (declaration value).values.map String.ofList = [key, value] := by
    simp [declaration, RecordForm.values, FieldForm.value]
  have hfields := Record.map_fields_ofChars
    (s ++ ((declaration value).written ++ (declaration value).ending ++ e))
  rw [hunmarked, hs.ended.continued_append, List.map_append, hbelow, hline.ended.continued_append,
    List.map_append, hbelow, hline.continued_eq, hvalues] at hfields
  obtain ⟨before, rest, hsplit, -, hrest⟩ := List.map_eq_append_iff.mp hfields
  obtain ⟨r, after, rfl, hr, hafter⟩ := List.map_eq_cons_iff.mp hrest
  exact ⟨before, r, after, hsplit, hr, hafter⟩

/-- A secret is found exactly if some record has two fields with the key in front, and it is the
trimmed second field of the last such record. Behind a settled text, a declaration in quotes gives
the trimmed value if no such record follows. -/
theorem parse_finds_last_declaration (path : String) :
    (∀ source, ∃ records, Record.read source = .ok records ∧
      ((∃ found, (parse source path).value = .ok found) ↔
        ∃ r ∈ records, ∃ value, r.fields = ["secret", value]) ∧
      (∀ found, (parse source path).value = .ok found ↔
        ∃ before r after value, records = before ++ r :: after ∧ r.fields = ["secret", value] ∧
          (∀ q ∈ after, ∀ value, q.fields ≠ ["secret", value]) ∧ found = ⟨Text.trim value⟩) ∧
      ((∀ r ∈ records, ∀ value, r.fields ≠ ["secret", value]) →
        (parse source path).value = .error (.missingSecret path))) ∧
    ∀ s value e : String, Settled s.toList →
      (∀ r ∈ continued e.toList, ∀ value, r.fields ≠ ["secret", value]) →
      (parse (s ++ ("secret:" ++ .ofList (Record.quoted value.toList) ++ "\n") ++ e) path).value =
        .ok ⟨Text.trim value⟩ := by
  constructor
  · intro source
    have hread := Record.read_eq_ofChars source
    exact ⟨_, hread, exists_value_parse_iff hread, fun _ => value_parse_eq_ok_iff hread,
      value_parse_of_none hread⟩
  · intro s value e hs he
    obtain ⟨before, r, after, hsplit, hr, hafter⟩ :=
      exists_records_around_declaration hs value e.toList
    have hread :
        Record.read (s ++ ("secret:" ++ .ofList (Record.quoted value.toList) ++ "\n") ++ e) =
          .ok (before ++ r :: after) := by
      rw [Record.read_eq_ofChars, String.toList_append, String.toList_append,
        ← written_declaration, List.append_assoc, hsplit]
    refine (value_parse_eq_ok_iff hread).mpr ⟨before, r, after, value, rfl, hr, ?_, rfl⟩
    intro q hq v hv
    obtain ⟨p, hp, hfields⟩ := List.mem_map.mp (hafter ▸ List.mem_map_of_mem hq)
    exact he p hp v (hfields.trans hv)

/-- A config that opens with a mark, declares a secret, and goes on with a line feed in quotes. -/
def earlierRecords : Record.Layout Char where
  leading := []
  records := [⟨[.bare "secret".toList, .bare "old".toList], ['\r']⟩,
    ⟨[.quoted ['a', '\n', 'b'] [], .bare ['c', '"']], ['\n']⟩]

theorem parse_finds_last_declaration_amid :
    Settled "\uFEFFsecret:old\r\"a\nb\":c\"\n".toList ∧
      (∀ r ∈ continued "\uFEFFsecret:x\nsecret:a:b".toList,
        ∀ value, r.fields ≠ ["secret", value]) ∧
      (parse ("\uFEFFsecret:old\r\"a\nb\":c\"\n" ++
        ("secret:" ++ .ofList (Record.quoted " a:\"b\"\n ".toList) ++ "\n") ++
        "\uFEFFsecret:x\nsecret:a:b") "checker.cfg").value = .ok ⟨"a:\"b\""⟩ := by
  have hs : Settled "\uFEFFsecret:old\r\"a\nb\":c\"\n".toList :=
    .inr ⟨⟨'\n', by decide, by decide⟩, earlierRecords, by decide, by decide, by decide⟩
  have hrecords : continued "\uFEFFsecret:x\nsecret:a:b".toList =
      [⟨1, ["\uFEFFsecret", "x"]⟩, ⟨2, ["secret", "a", "b"]⟩] := by decide +kernel
  have he : ∀ r ∈ continued "\uFEFFsecret:x\nsecret:a:b".toList,
      ∀ value, r.fields ≠ ["secret", value] := by
    rw [hrecords]
    simp
  have htrim : Text.trim " a:\"b\"\n " = "a:\"b\"" := by decide +kernel
  exact ⟨hs, he, htrim ▸ (parse_finds_last_declaration "checker.cfg").2 _ _ _ hs he⟩

end CheckerAudit.Secret
