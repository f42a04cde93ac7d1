import CheckerAudit.Proofs.Text.Blank
import CheckerAudit.Proofs.Text.Lines
import CheckerAudit.Proofs.Transcript.Last
import CheckerAudit.StubChecker

/-!
# What the stand-in prints is read as its verdict

Its lines begin and end with visible characters, so they are read back as they were printed, however
many there are. Unless the script is silent or garbled, only the last two begin with a marker, and a
transcript holds the verdict and the proof of these.
-/
namespace CheckerAudit.StubChecker

open Text (Inked inked_intText)

/-! ### Lines -/

theorem visible_hexDigit {c : Char} (h : c ∈ Text.Hex.digits) :
    0x20 < c.toNat ∧ c.toNat < 0x7F := by
  have hall : Text.Hex.digits.all
      (fun c => decide (0x20 < c.toNat) && decide (c.toNat < 0x7F)) = true := by
    decide
  have hc := List.all_eq_true.mp hall c h
  simpa using hc

theorem inked_derive (secret task : String) (salt : Salt) (result : Int64) :
    Inked (ProofCode.derive secret task salt result).hex.toList where
  nonempty hnil := by
    have hlength := ProofCode.length_hex_derive secret task salt result
    rw [← String.length_toList, hnil] at hlength
    cases hlength
  visible c hc := visible_hexDigit (ProofCode.mem_digits_of_mem_hex hc)

/-- A line that is read as it was printed, and that trimming leaves alone. -/
structure Plain (line : List Char) : Prop where
  tight : Text.Tight line
  noLineFeed : '\n' ∉ line

/-- Words of one's own with an inked text behind them. -/
theorem plain_labelled {label text : List Char} (hhead : label.head?.map Text.isBlank = some false)
    (hfeed : '\n' ∉ label) (htext : Inked text) : Plain (label ++ text) where
  tight := by
    refine Text.tight_append hhead ?_
    obtain ⟨c, hc⟩ := Option.ne_none_iff_exists'.mp fun hnone =>
      htext.nonempty (List.getLast?_eq_none_iff.mp hnone)
    rw [hc, Option.map_some, htext.tight.last c hc]
  noLineFeed hmem := by
    rcases List.mem_append.mp hmem with hmem | hmem
    · exact hfeed hmem
    · exact absurd (htext.visible _ hmem).1 (by decide)

theorem trimmedLines_printed {lines : List String} (h : ∀ line ∈ lines, Plain line.toList) :
    Transcript.trimmedLines (printed lines) = lines.map String.toList := by
  have hplain : ∀ line ∈ lines.map String.toList, Plain line := List.forall_mem_map.mpr h
  exact Transcript.trimmedLines_joinLines (fun line hline => (hplain line hline).tight)
    (fun line hline => (hplain line hline).noLineFeed)

/-! ### The report -/

/-- The noise that is printed before a report. -/
def noiseLines (count : Nat) : List String :=
  (List.range count).map fun i => "processing event " ++ toString i

theorem plain_noise (count : Nat) : ∀ line ∈ noiseLines count, Plain line.toList := by
  refine List.forall_mem_map.mpr fun i _ => ?_
  rw [String.toList_append]
  exact plain_labelled (by decide) (by decide) (inked_intText i)

theorem noise_unmarked (m : Marker) (count : Nat) :
    ((noiseLines count).map String.toList).filterMap m.rest? = [] := by
  rw [List.filterMap_eq_nil_iff, List.forall_mem_map]
  refine List.forall_mem_map.mpr fun i _ => Marker.rest?_eq_none_of_head ?_
  have hhead : ("processing event " ++ toString i).toList.head? = some 'p' := by
    rw [String.toList_append]
    rfl
  rw [hhead]
  cases m <;> decide

theorem plain_completed : Plain "Checking completed!".toList where
  tight := by decide
  noLineFeed := by decide

theorem resultLine_eq (value : String) :
    (resultLine value).toList = Marker.resultCode.spelling.toList ++ ' ' :: value.toList := by
  simp [resultLine]

theorem proofLine_eq (code : ProofCode) :
    (proofLine code).toList = Marker.proofCode.spelling.toList ++ ' ' :: code.hex.toList := by
  simp [proofLine]

/-- All lines that report a verdict and its proof. -/
def reportLines (noise : Nat) (v : Int64) (code : ProofCode) : List String :=
  noiseLines noise ++
    ["Checking completed!", resultLine (toString v.toInt), proofLine code]

variable (noise : Nat) (v : Int64) {code : ProofCode}

theorem plain_report (hcode : Inked code.hex.toList) :
    ∀ line ∈ reportLines noise v code, Plain line.toList := by
  have hresult : Plain (resultLine (toString v.toInt)).toList := by
    rw [resultLine, String.toList_append]
    exact plain_labelled (by decide) (by decide) (inked_intText v.toInt)
  have hproof : Plain (proofLine code).toList := by
    rw [proofLine, String.toList_append]
    exact plain_labelled (by decide) (by decide) hcode
  refine List.forall_mem_append.mpr ⟨plain_noise noise, ?_⟩
  simp only [List.forall_mem_cons]
  exact ⟨plain_completed, hresult, hproof, nofun⟩

theorem lastRest?_report (m : Marker) :
    Transcript.lastRest? m ((reportLines noise v code).map String.toList) =
      some (Text.trimChars (match m with
        | .resultCode => ' ' :: (toString v.toInt).toList
        | .proofCode => ' ' :: code.hex.toList)) := by
  have hresult : Marker.resultCode.rest? (resultLine (toString v.toInt)).toList =
      some (' ' :: (toString v.toInt).toList) := by
    simp [resultLine_eq]
  have hproof : Marker.proofCode.rest? (proofLine code).toList =
      some (' ' :: code.hex.toList) := by
    simp [proofLine_eq]
  rw [Transcript.lastRest?, reportLines, List.map_append, List.filterMap_append, noise_unmarked,
    List.nil_append, List.map_cons, List.map_cons, List.map_cons, List.map_nil]
  cases m with
  | resultCode =>
    have hcompleted : Marker.resultCode.rest? "Checking completed!".toList = none := by decide
    have hother : Marker.resultCode.rest? (proofLine code).toList = none :=
      Marker.rest?_eq_none_of_rest? (by decide) hproof
    rw [List.filterMap_cons_none hcompleted, List.filterMap_cons_some hresult,
      List.filterMap_cons_none hother]
    rfl
  | proofCode =>
    have hcompleted : Marker.proofCode.rest? "Checking completed!".toList = none := by decide
    have hother : Marker.proofCode.rest? (resultLine (toString v.toInt)).toList = none :=
      Marker.rest?_eq_none_of_rest? (by decide) hresult
    rw [List.filterMap_cons_none hcompleted, List.filterMap_cons_none hother,
      List.filterMap_cons_some hproof]
    rfl

/-- The printed lines of a report are read as its verdict and its proof. -/
theorem read_report (hcode : Inked code.hex.toList) :
    ∃ text, Transcript.read (printed (reportLines noise v code)) =
      .ok ⟨some v, some code.hex, text⟩ := by
  have hspace {text : List Char} (h : Inked text) : Text.trimChars (' ' :: text) = text := by
    have hpad : Text.trimChars ([' '] ++ text ++ []) = text :=
      Text.trimChars_padded (List.forall_mem_singleton.mpr (by decide)) h.tight nofun
    rwa [List.append_nil] at hpad
  have hlines := trimmedLines_printed (plain_report noise v hcode)
  have hread := Transcript.read_eq (printed (reportLines noise v code))
  simp only [hlines, lastRest?_report, hspace hcode, hspace (inked_intText v.toInt),
    String.ofList_toList, Numeral.readInt64_toString, Option.map_some] at hread
  exact ⟨_, hread⟩

/-- A script that is neither silent nor garbled reports its verdict, with a proof signed by the
shared secret or by a wrong one. -/
theorem Script.read_stdout {s : Script} (hsilent : s.silent = false) (hgarbled : s.garbled = false)
    (secret : Secret) (task : String) (salt : Salt) :
    ∃ text, Transcript.read (s.perform secret task salt).stdout =
      .ok ⟨some (s.verdict.getD 0),
        some (ProofCode.derive (if s.tamper then wrongSecret else secret.value) task salt
          (s.verdict.getD 0)).hex, text⟩ := by
  have hreport : s.report secret task salt =
      ["Checking completed!", resultLine (toString (s.verdict.getD 0).toInt),
        proofLine (ProofCode.derive (if s.tamper then wrongSecret else secret.value) task salt
          (s.verdict.getD 0))] := by
    rw [report, hsilent, hgarbled]
    rfl
  obtain ⟨text, htext⟩ := read_report s.noise (s.verdict.getD 0)
    (inked_derive (if s.tamper then wrongSecret else secret.value) task salt (s.verdict.getD 0))
  refine ⟨text, ?_⟩
  rw [← htext, perform, hreport]
  rfl

end CheckerAudit.StubChecker
