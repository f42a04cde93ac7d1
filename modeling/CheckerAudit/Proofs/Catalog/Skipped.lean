import CheckerAudit.Proofs.Catalog.Records
import CheckerAudit.Proofs.Record.Parts

/-!
# A record that is passed over changes nothing but lines

Between two parts of a catalog, a record without exactly three fields is passed over: the same cases
come out, or the same error. What stands behind that record stands further down by the line feeds
in it.
-/
namespace CheckerAudit

/-- The same case, with so many lines before its catalog. -/
def Case.below (lines : Nat) (c : Case) : Case :=
  { c with line := lines + c.line }

namespace Catalog

open Record (continued Ended Settled FieldForm RecordForm)

variable (path : String)

/-! ### Records in order -/

/-- What records give, and what they give further down. -/
theorem value_ofRecords_below (records : List Record) :
    (∃ cases, (ofRecords path records).value = .ok cases ∧
      ∀ lines, (ofRecords path (records.map (Record.below lines))).value =
        .ok (cases.map (Case.below lines))) ∨
    ∃ line value cause,
      (ofRecords path records).value = .error (.invalidExpectedResult path line value cause) ∧
      ∀ lines, (ofRecords path (records.map (Record.below lines))).value =
        .error (.invalidExpectedResult path (lines + line) value cause) := by
  induction records with
  | nil => exact .inl ⟨[], rfl, fun _ => rfl⟩
  | cons r records ih =>
    rcases record_cases r with hskipped | ⟨task, expected, log, hfields, ⟨fault, hfault⟩ | ⟨n, hn⟩⟩
    · have hbelow (lines : Nat) : (r.below lines).fields.length ≠ 3 := hskipped
      simp only [List.map_cons, value_ofRecords_skipped path hskipped,
        value_ofRecords_skipped path (hbelow _)]
      exact ih
    · have hbelow (lines : Nat) : (r.below lines).fields = [task, expected, log] := hfields
      refine .inr ⟨r.line, expected, fault, value_ofRecords_invalid path hfields hfault records, ?_⟩
      intro lines
      exact value_ofRecords_invalid path (hbelow lines) hfault _
    · have hbelow (lines : Nat) : (r.below lines).fields = [task, expected, log] := hfields
      simp only [List.map_cons, value_ofRecords_case path hfields hn,
        value_ofRecords_case path (hbelow _) hn]
      rcases ih with ⟨cases, hcases, hlater⟩ | ⟨line, value, cause, herror, hlater⟩
      · refine .inl ⟨⟨task, n, Text.trim log, r.line⟩ :: cases, by rw [hcases]; rfl, ?_⟩
        intro lines
        rw [hlater]
        rfl
      · refine .inr ⟨line, value, cause, by rw [herror]; rfl, ?_⟩
        intro lines
        rw [hlater]
        rfl

/-! ### Texts -/

theorem value_parse_of_unmarked {source : String} (h : source.toList.head? ≠ some '\uFEFF') :
    (parse source path).value = (ofRecords path (continued source.toList)).value := by
  rw [parse_eq, Record.ofChars_of_not_mark (Record.not_mark_of_head h)]

/-- Behind a settled text, a catalog gives what its own records give further down. -/
theorem value_parse_append {s₁ s₂ : String} (hs : Settled s₁.toList)
    (h₁ : s₁.toList.head? ≠ some '\uFEFF') (h₂ : s₂.toList.head? ≠ some '\uFEFF') :
    (parse (s₁ ++ s₂) path).value =
      (ofRecords path (continued s₁.toList ++
        (continued s₂.toList).map (Record.below (s₁.toList.count '\n')))).value := by
  have hended := hs.ended
  rw [Record.unmarked_of_not_mark (Record.not_mark_of_head h₁)] at hended
  have hhead : (s₁ ++ s₂).toList.head? ≠ some '\uFEFF' := by
    rw [String.toList_append, List.head?_append]
    cases hempty : s₁.toList.head? with
    | none => exact h₂
    | some c => rwa [hempty] at h₁
  rw [value_parse_of_unmarked path hhead, String.toList_append, hended.continued_append]
  rfl

/-- With a record of its own line between two parts, the second part stands further down. -/
theorem value_parse_inserted {s₁ s₂ : String} {r : RecordForm Char} (hs : Settled s₁.toList)
    (h₁ : s₁.toList.head? ≠ some '\uFEFF') (hr : r.IsLine) (hmark : r.written.head? ≠ some '\uFEFF')
    (hcount : r.fields.length ≠ 3) :
    (parse (s₁ ++ .ofList (r.written ++ r.ending) ++ s₂) path).value =
      match (ofRecords path (continued s₁.toList)).value with
      | .error e => .error e
      | .ok cases => (ofRecords path ((continued s₂.toList).map (Record.below
          (s₁.toList.count '\n' + (r.written ++ r.ending).count '\n')))).value.map (cases ++ ·) := by
  have hhead : (String.ofList (r.written ++ r.ending) ++ s₂).toList.head? ≠ some '\uFEFF' := by
    obtain ⟨c, rest, hwritten⟩ := List.exists_cons_of_ne_nil hr.wellFormed.nonempty
    rw [hwritten] at hmark
    simpa [hwritten] using hmark
  have hlater : continued (String.ofList (r.written ++ r.ending) ++ s₂).toList =
      ⟨1, r.values.map String.ofList⟩ ::
        (continued s₂.toList).map (Record.below ((r.written ++ r.ending).count '\n')) := by
    rw [String.toList_append, String.toList_ofList, hr.ended.continued_append, hr.continued_eq]
    rfl
  have hskipped (lines : Nat) :
      (Record.below lines ⟨1, r.values.map String.ofList⟩).fields.length ≠ 3 := by
    simpa [Record.below, RecordForm.values] using hcount
  have hbelow : Record.below (s₁.toList.count '\n') ∘
      Record.below ((r.written ++ r.ending).count '\n') =
        Record.below (s₁.toList.count '\n' + (r.written ++ r.ending).count '\n') := by
    funext q
    simp only [Function.comp_apply, Record.below, Nat.add_assoc]
  rw [String.append_assoc, value_parse_append path hs h₁ hhead, hlater, List.map_cons, List.map_map,
    hbelow]
  have hjoined := value_ofRecords_append path (continued s₁.toList)
    (Record.below (s₁.toList.count '\n') ⟨1, r.values.map String.ofList⟩ ::
      (continued s₂.toList).map (Record.below
        (s₁.toList.count '\n' + (r.written ++ r.ending).count '\n')))
  rw [value_ofRecords_skipped path (hskipped _)] at hjoined
  exact hjoined

/-- A record without three fields on a line of its own, put between two parts of a catalog, leaves
the outcome as it is: the same cases, or the same error. Only the lines of what stands behind it
grow, by the line feeds it brings. -/
theorem parse_past_skipped_record {s₁ s₂ : String} {r : RecordForm Char} (hs : Settled s₁.toList)
    (h₁ : s₁.toList.head? ≠ some '\uFEFF') (h₂ : s₂.toList.head? ≠ some '\uFEFF') (hr : r.IsLine)
    (hmark : r.written.head? ≠ some '\uFEFF') (hcount : r.fields.length ≠ 3) :
    let above := s₁.toList.count '\n'
    let added := (r.written ++ r.ending).count '\n'
    let joined := (parse (s₁ ++ s₂) path).value
    let inserted := (parse (s₁ ++ .ofList (r.written ++ r.ending) ++ s₂) path).value
    (∃ first later, (parse s₁ path).value = .ok first ∧ (parse s₂ path).value = .ok later ∧
      joined = .ok (first ++ later.map (Case.below above)) ∧
      inserted = .ok (first ++ later.map (Case.below (above + added)))) ∨
    (∃ line value cause,
      (parse s₁ path).value = .error (.invalidExpectedResult path line value cause) ∧
      joined = .error (.invalidExpectedResult path line value cause) ∧
      inserted = .error (.invalidExpectedResult path line value cause)) ∨
    ∃ first line value cause, (parse s₁ path).value = .ok first ∧
      (parse s₂ path).value = .error (.invalidExpectedResult path line value cause) ∧
      joined = .error (.invalidExpectedResult path (above + line) value cause) ∧
      inserted = .error (.invalidExpectedResult path (above + added + line) value cause) := by
  intro above added joined inserted
  have hjoined : joined = _ :=
    (value_parse_append path hs h₁ h₂).trans (value_ofRecords_append path _ _)
  have hinserted : inserted = _ := value_parse_inserted path hs h₁ hr hmark hcount
  have hfirst := value_parse_of_unmarked path h₁
  have hlater := value_parse_of_unmarked path h₂
  rcases value_ofRecords_below path (continued s₁.toList) with
    ⟨first, hcases, -⟩ | ⟨line, value, cause, herror, -⟩
  · rw [hcases] at hjoined hinserted hfirst
    rcases value_ofRecords_below path (continued s₂.toList) with
      ⟨later, hmore, hbelow⟩ | ⟨line, value, cause, herror, hbelow⟩
    · rw [hbelow] at hjoined hinserted
      rw [hmore] at hlater
      exact .inl ⟨first, later, hfirst, hlater, hjoined, hinserted⟩
    · rw [hbelow] at hjoined hinserted
      rw [herror] at hlater
      exact .inr (.inr ⟨first, line, value, cause, hfirst, hlater, hjoined, hinserted⟩)
  · rw [herror] at hjoined hinserted hfirst
    exact .inr (.inl ⟨line, value, cause, hfirst, hjoined, hinserted⟩)

/-- Two fields, a line feed and a quote in the first of them. -/
def quotedPair : RecordForm Char where
  fields := [.quoted ['\n', '"'] [], .bare ['b']]
  ending := ['\n']

theorem parse_past_skipped_record_pair :
    Settled "a:0:x\r\n".toList ∧ quotedPair.IsLine ∧
    String.ofList (quotedPair.written ++ quotedPair.ending) = "\"\n\"\"\":b\n" ∧
    ∃ first later, (parse "a:0:x\r\n" "cases").value = .ok first ∧
      (parse "\nc:-3:z" "cases").value = .ok later ∧
      (parse ("a:0:x\r\n" ++ "\nc:-3:z") "cases").value = .ok (first ++ later.map (Case.below 1)) ∧
      (parse ("a:0:x\r\n" ++ .ofList (quotedPair.written ++ quotedPair.ending) ++ "\nc:-3:z")
        "cases").value = .ok (first ++ later.map (Case.below 3)) := by
  have hs : Settled "a:0:x\r\n".toList :=
    .inr ⟨⟨'\n', by decide, by decide⟩, ⟨[], [⟨[.bare ['a'], .bare ['0'], .bare ['x']],
      ['\r', '\n']⟩]⟩, by decide, by decide, by decide⟩
  have hmark : "\nc:-3:z".toList.head? ≠ some '\uFEFF' := by decide
  have hr : quotedPair.IsLine := ⟨by decide, by decide, rfl⟩
  have hfirst : (parse "a:0:x\r\n" "cases").value.toOption.isSome = true := by decide +kernel
  have hlater : (parse "\nc:-3:z" "cases").value.toOption.isSome = true := by decide +kernel
  refine ⟨hs, hr, by decide, ?_⟩
  rcases parse_past_skipped_record "cases" hs (by decide) hmark hr (by decide) (by decide) with
    hok | ⟨line, value, cause, herror, -⟩ | ⟨first, line, value, cause, -, herror, -⟩
  · exact hok
  · rw [herror] at hfirst
    cases hfirst
  · rw [herror] at hlater
    cases hlater

end Catalog

end CheckerAudit
