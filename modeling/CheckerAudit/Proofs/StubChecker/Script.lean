import CheckerAudit.StubChecker.Log

/-!
# The script in a log

Each record that can be followed changes at most one part of a script. So the script has the flags
of the words in its log, and the verdict of the first record that tells one.
-/
namespace CheckerAudit.StubChecker

/-- What a record that can be followed makes of a script. -/
inductive Script.Step (s : Script) (r : Record) : Script → Prop where
  | tampers (h : r.fields = ["tamper"]) : Step s r { s with tamper := true }
  | silences (h : r.fields = ["silent"]) : Step s r { s with silent := true }
  | garbles (h : r.fields = ["garbled"]) : Step s r { s with garbled := true }
  | tells {text : String} {n : Int64} (h : verdictText? r = some text) (first : s.verdict = none)
    (reads : Numeral.readInt64 (Text.trim text) = .ok n) : Step s r { s with verdict := some n }
  | keeps (sleepMillis : Option Nat) (noise : Nat)
    (honest : ∀ word ∈ ["tamper", "silent", "garbled"], r.fields ≠ [word])
    (late : verdictText? r = none ∨ s.verdict ≠ none) : Step s r { s with sleepMillis, noise }

theorem verdictText?_pair {r : Record} {key value : String} (h : r.fields = [key, value]) :
    verdictText? r = if key = verdictKey then some value else none := by
  rw [verdictText?, h]

theorem Script.step_of_follow {s next : Script} {r : Record} (h : s.follow r = .ok next) :
    Step s r next := by
  unfold follow at h
  split at h
  · next word hfields =>
    split at h
    · next hword => cases h; exact .tampers (by rw [hfields, hword])
    split at h
    · next hword => cases h; exact .silences (by rw [hfields, hword])
    split at h
    · next hword => cases h; exact .garbles (by rw [hfields, hword])
    · next htamper hsilent hgarbled =>
      cases h
      refine .keeps s.sleepMillis s.noise ?_ (.inl (by rw [verdictText?, hfields]))
      simp [hfields, htamper, hsilent, hgarbled]
  · next key value hfields =>
    have hhonest : ∀ word ∈ ["tamper", "silent", "garbled"], r.fields ≠ [word] := by
      simp [hfields]
    have htext := verdictText?_pair hfields
    split at h
    · next hfirst =>
      rw [if_pos hfirst.1] at htext
      split at h
      · next n hn => cases h; exact .tells htext hfirst.2 hn
      · cases h
    · next hlater =>
      have hlate : verdictText? r = none ∨ s.verdict ≠ none := by
        rw [htext]
        by_cases hkey : key = verdictKey
        · exact .inr fun hnone => hlater ⟨hkey, hnone⟩
        · exact .inl (if_neg hkey)
      split at h
      · split at h
        · next n _ => cases h; exact .keeps (some n) s.noise hhonest hlate
        · cases h
      split at h
      · split at h
        · next n _ => cases h; exact .keeps s.sleepMillis n hhonest hlate
        · cases h
      · cases h
        exact .keeps s.sleepMillis s.noise hhonest hlate
  · next hone htwo =>
    cases h
    refine .keeps s.sleepMillis s.noise (fun word _ => hone word) (.inl ?_)
    unfold verdictText?
    split
    · next key value hfields => exact absurd hfields (htwo key value)
    · rfl

/-- A script has the flags of the words in its log. -/
theorem Script.ofRecords_flags {s script : Script} {records : List Record}
    (h : Script.ofRecords s records = .ok script) :
    script.tamper = (s.tamper || hasWord "tamper" records) ∧
      script.silent = (s.silent || hasWord "silent" records) ∧
      script.garbled = (s.garbled || hasWord "garbled" records) := by
  induction records generalizing s with
  | nil => cases h; simp [hasWord]
  | cons r rest ih =>
    unfold ofRecords at h
    split at h
    · next next hnext =>
      obtain ⟨htamper, hsilent, hgarbled⟩ := ih h
      have hword (word : String) : hasWord word (r :: rest) =
          (decide (r.fields = [word]) || hasWord word rest) := List.any_cons
      rw [htamper, hsilent, hgarbled, hword, hword, hword]
      cases step_of_follow hnext with
      | tampers hr => simp [hr]
      | silences hr => simp [hr]
      | garbles hr => simp [hr]
      | tells htext first reads =>
        have hne (word : String) : r.fields ≠ [word] := by
          intro hr
          rw [verdictText?, hr] at htext
          cases htext
        simp [hne]
      | keeps sleepMillis noise honest late =>
        simp at honest
        simp [honest]
    · cases h

theorem toldVerdict_cons (r : Record) (rest : List Record) :
    toldVerdict (r :: rest) =
      match verdictText? r with
      | none => toldVerdict rest
      | some text => (Numeral.readInt64 (Text.trim text)).toOption.getD 0 := by
  rw [toldVerdict, List.findSome?_cons]
  cases verdictText? r <;> rfl

/-- A script has the verdict that its log tells. -/
theorem Script.ofRecords_verdict {s script : Script} {records : List Record}
    (h : Script.ofRecords s records = .ok script) :
    script.verdict.getD 0 = s.verdict.getD (toldVerdict records) := by
  induction records generalizing s with
  | nil => cases h; rfl
  | cons r rest ih =>
    unfold ofRecords at h
    split at h
    · next next hnext =>
      have hskip (hr : verdictText? r = none) : toldVerdict (r :: rest) = toldVerdict rest := by
        rw [toldVerdict_cons, hr]
      have hword {word : String} (hr : r.fields = [word]) : verdictText? r = none := by
        rw [verdictText?, hr]
      rw [ih h]
      cases step_of_follow hnext with
      | tampers hr => rw [hskip (hword hr)]
      | silences hr => rw [hskip (hword hr)]
      | garbles hr => rw [hskip (hword hr)]
      | tells htext first reads =>
        rw [first, toldVerdict_cons, htext]
        simp [reads, Except.toOption]
      | keeps sleepMillis noise honest late =>
        rcases late with hr | hsome
        · rw [hskip hr]
        · obtain ⟨v, hv⟩ := Option.ne_none_iff_exists'.mp hsome
          simp [hv]
    · cases h

theorem Script.ofRecords_of_load {files : Files} {path : String} {script : Script}
    (h : Script.load files path = .ok script) :
    Script.ofRecords {} (logRecords files path) = .ok script := by
  unfold load at h
  unfold logRecords
  cases htext : files.readText path with
  | error cause => rw [htext] at h; cases h
  | ok source =>
    rw [htext] at h
    cases hrecords : Record.read source with
    | error fault => simp [hrecords] at h
    | ok records => simpa [hrecords, Except.toOption] using h

end CheckerAudit.StubChecker
