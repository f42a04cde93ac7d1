import CheckerAudit.Plan
import Mathlib.Data.List.DropRight
import Mathlib.Data.List.Forall2

/-!
# How an error is shown

A report stands in lines: the code, an empty line, the message behind a cross, and its cause and
hint. Each further line of the message has a bar before it. `Shows` says so without cutting the
message into lines, and an error has one report.
-/
namespace CheckerAudit.Diagnostic

/-- A line without the spaces at its end. -/
inductive Cleared : List Char → List Char → Prop where
  | intro {kept : List Char} (spaces : Nat) (ends : kept.getLast? ≠ some ' ') :
    Cleared (kept ++ List.replicate spaces ' ') kept

/-- A text shows an error. The lines of the message are what stands between its line feeds. -/
inductive Shows (d : Diagnostic) : String → Prop where
  | intro {raw : List (List Char)} {first : List Char} {others : List (List Char)}
    (message : d.message.toList = ['\n'].intercalate raw) (whole : ∀ line ∈ raw, '\n' ∉ line)
    (cleared : List.Forall₂ Cleared raw (first :: others)) :
    Shows d
      (d.code ++ "\n\n  × " ++ String.ofList first ++ "\n" ++
        String.join (others.map fun line => "  │ " ++ String.ofList line ++ "\n") ++
        String.join (d.cause.toList.map fun cause => "  ╰─▶ " ++ cause ++ "\n") ++
        String.join (d.help.toList.map fun help => "  help: " ++ help ++ "\n"))

/-! ### The lines of a message -/

theorem lineFeed_notMem_splitOn (cs : List Char) : ∀ line ∈ cs.splitOn '\n', '\n' ∉ line := by
  induction cs with
  | nil => simp
  | cons c cs ih =>
    rw [List.splitOn_cons_eq_if_modifyHead]
    split
    · exact List.forall_mem_cons.mpr ⟨List.not_mem_nil, ih⟩
    · next hc =>
      have hne : '\n' ≠ c := fun heq => hc (beq_iff_eq.mpr heq.symm)
      cases hparts : cs.splitOn '\n' with
      | nil => exact absurd hparts (List.splitOn_ne_nil _ _)
      | cons part parts =>
        rw [hparts] at ih
        obtain ⟨hpart, hparts⟩ := List.forall_mem_cons.mp ih
        exact List.forall_mem_cons.mpr ⟨by simp [hne, hpart], hparts⟩

theorem cleared_iff {line kept : List Char} :
    Cleared line kept ↔ line.rdropWhile (· = ' ') = kept := by
  constructor
  · rintro ⟨spaces, hends⟩
    have hkept : kept.rdropWhile (· = ' ') = kept :=
      List.rdropWhile_eq_self_iff.mpr fun hl hlast => hends (by
        rw [List.getLast?_eq_some_getLast hl, of_decide_eq_true hlast])
    induction spaces with
    | zero => rw [List.replicate_zero, List.append_nil, hkept]
    | succ n ih =>
      rw [List.replicate_succ', ← List.append_assoc, List.rdropWhile_concat_pos _ _ _ (by simp), ih]
  · rintro rfl
    have hspaces : line.rtakeWhile (· = ' ') =
        List.replicate (line.rtakeWhile (· = ' ')).length ' ' :=
      List.eq_replicate_of_mem fun c hc => by simpa using List.mem_rtakeWhile_imp hc
    have hends : (line.rdropWhile (· = ' ')).getLast? ≠ some ' ' := by
      intro hlast
      have hl : line.rdropWhile (· = ' ') ≠ [] := fun hnil => by simp [hnil] at hlast
      rw [List.getLast?_eq_some_getLast hl] at hlast
      exact List.rdropWhile_last_not _ _ hl (decide_eq_true (Option.some.inj hlast))
    have hline := List.rdropWhile_append_rtakeWhile (p := (· = ' ')) (l := line)
    rw [hspaces] at hline
    have hcleared := Cleared.intro (line.rtakeWhile (· = ' ')).length hends
    rwa [hline] at hcleared

/-! ### The one report of an error -/

theorem intercalate_bars (start : String) (first : List Char) (others : List (List Char)) :
    start ++ "\n  │ ".intercalate ((first :: others).map .ofList) ++ "\n" =
      start ++ String.ofList first ++ "\n" ++
        String.join (others.map fun line => "  │ " ++ String.ofList line ++ "\n") := by
  have hbar : "\n  │ " = "\n" ++ "  │ " := rfl
  induction others generalizing start first with
  | nil => simp
  | cons next rest ih =>
    simp only [List.map_cons, String.intercalate_cons_cons, String.join_cons, hbar,
      ← String.append_assoc] at ih ⊢
    rw [ih]

theorem forall₂_cleared_iff {raw kept : List (List Char)} :
    List.Forall₂ Cleared raw kept ↔ raw.map (·.rdropWhile (· = ' ')) = kept := by
  rw [← List.forall₂_eq_eq_eq, List.forall₂_map_left_iff]
  simp only [← cleared_iff]

theorem messageLines_of_cleared {message : String} {kept : List (List Char)}
    (h : List.Forall₂ Cleared (message.toList.splitOn '\n') kept) :
    messageLines message = kept.map .ofList := by
  rw [← forall₂_cleared_iff.mp h, List.map_map]
  rfl

theorem report_of_cleared {d : Diagnostic} {first : List Char} {others : List (List Char)}
    (h : List.Forall₂ Cleared (d.message.toList.splitOn '\n') (first :: others)) :
    d.report =
      d.code ++ "\n\n  × " ++ String.ofList first ++ "\n" ++
        String.join (others.map fun line => "  │ " ++ String.ofList line ++ "\n") ++
        String.join (d.cause.toList.map fun cause => "  ╰─▶ " ++ cause ++ "\n") ++
        String.join (d.help.toList.map fun help => "  help: " ++ help ++ "\n") := by
  rw [report, messageLines_of_cleared h, intercalate_bars]
  cases d.cause <;> cases d.help <;> simp [String.append_assoc]

/-- The texts that show an error are all the same, its report. -/
theorem shows_iff {d : Diagnostic} {text : String} : d.Shows text ↔ text = d.report := by
  constructor
  · rintro ⟨hmessage, hwhole, hcleared⟩
    rename_i raw first others
    have hne : raw ≠ [] := by
      rintro rfl
      cases hcleared
    have hraw : d.message.toList.splitOn '\n' = raw := by
      rw [hmessage, List.splitOn_intercalate '\n' hwhole hne]
    exact (report_of_cleared (hraw ▸ hcleared)).symm
  · rintro rfl
    obtain ⟨kept, hcleared⟩ : ∃ kept, List.Forall₂ Cleared (d.message.toList.splitOn '\n') kept :=
      ⟨_, forall₂_cleared_iff.mpr rfl⟩
    cases kept with
    | nil =>
      rw [List.forall₂_nil_right_iff] at hcleared
      exact absurd hcleared (List.splitOn_ne_nil _ _)
    | cons first others =>
      rw [report_of_cleared hcleared]
      exact .intro (List.intercalate_splitOn '\n').symm (lineFeed_notMem_splitOn _) hcleared

end CheckerAudit.Diagnostic
