import CheckerAudit.Proofs.Numeral.Decimal
import CheckerAudit.Report.Json.Reader

/-!
# The text of a JSON value is read back

Every value is read from its own text, whatever its strings hold and whatever follows, as long as
that does not go on with a number. The texts hold no control character, so no value spreads over two
lines.
-/
namespace CheckerAudit.Report.Json

/-! ### Strings -/

theorem unit?_digits :
    ∀ n < 0x20, unit? '0' '0' (Text.Hex.digit (n / 16)) (Text.Hex.digit (n % 16)) = some n := by
  decide

theorem readString_plain {c : Char} (hquote : c ≠ '"') (hslash : c ≠ '\\') (hc : ¬c.toNat < 0x20)
    (rest : List Char) : readString (c :: rest) = found c (readString rest) := by
  rw [readString, if_neg hc]
  · exact hquote
  · exact fun _ _ _ _ _ h => absurd h hslash
  · exact fun _ _ h => absurd h hslash

/-- However a character is written, it is read as itself. -/
theorem readString_escape (c : Char) (rest : List Char) :
    readString (escape c ++ rest) = found c (readString rest) := by
  unfold escape
  iterate 7
    split
    · next h => subst h; rfl
  split
  · next hcontrol =>
    have hunit := unit?_digits c.toNat hcontrol
    have hchar : ofUnit? c.toNat = some c := by
      rw [ofUnit?, if_pos (by omega), Char.ofNat_toNat]
    simp only [List.cons_append, List.nil_append, readString, hunit, hchar]
  · next hquote hslash _ _ _ _ _ hcontrol => exact readString_plain hquote hslash hcontrol rest

theorem readString_quoted (s rest : List Char) :
    readString (s.flatMap escape ++ '"' :: rest) = some (s, rest) := by
  induction s with
  | nil => rfl
  | cons c s ih =>
    rw [List.flatMap_cons, List.append_assoc, readString_escape, ih]
    rfl

/-! ### Numbers -/

/-- What may follow a number: the end, or a character that no number goes on with. -/
def EndsNumber (rest : List Char) : Prop :=
  ∀ c, rest.head? = some c → c.isDigit = false ∧ c ≠ '.' ∧ c ≠ 'e' ∧ c ≠ 'E'

theorem readDigits_natText {rest : List Char} (hrest : EndsNumber rest) (n : Nat) :
    readDigits ((toString n).toList ++ rest) = some (n, rest) := by
  have hdigits : ∀ c ∈ (toString n).toList, c.isDigit = true :=
    fun c hc => Numeral.isDigit_of_mem_natText hc
  have hnone : rest.takeWhile Char.isDigit = [] ∧ rest.dropWhile Char.isDigit = rest := by
    cases rest with
    | nil => exact ⟨rfl, rfl⟩
    | cons c rest => simp [(hrest c rfl).1]
  have htake : ((toString n).toList ++ rest).takeWhile Char.isDigit = (toString n).toList := by
    rw [List.takeWhile_append_of_pos hdigits, hnone.1, List.append_nil]
  have hdrop : ((toString n).toList ++ rest).dropWhile Char.isDigit = rest := by
    rw [List.dropWhile_append_of_pos hdigits, hnone.2]
  have hvalue : Nat.ofDigitChars 10 (toString n).toList 0 = n := by
    rw [Nat.toString_eq_repr, Nat.toList_repr]
    exact Nat.ofDigitChars_ten_toDigits
  -- A zero in front is the whole text of the number zero.
  have hgood : ¬((toString n).toList.isEmpty = true ∨
      (toString n).toList.head? = some '0' ∧ 1 < (toString n).toList.length) := by
    rintro (hempty | ⟨hzero, hlong⟩)
    · exact Numeral.natText_ne_nil n (List.isEmpty_iff.mp hempty)
    · obtain rfl := Numeral.eq_zero_of_head_natText hzero
      exact absurd hlong (by decide)
  simp only [readDigits, htake, hdrop, if_neg hgood, hvalue]
  cases rest with
  | nil => rfl
  | cons c rest =>
    obtain ⟨-, hpoint, hlower, hupper⟩ := hrest c rfl
    simp only [hpoint, hlower, hupper, or_self, if_false]

theorem readInteger_of_ne_minus {c : Char} (hc : c ≠ '-') (rest : List Char) :
    readInteger (c :: rest) = (readDigits (c :: rest)).map fun (n, rest) => ((n : Int), rest) := by
  rw [readInteger]
  exact fun _ h => absurd (List.cons.inj h).1 hc

theorem readInteger_intText {rest : List Char} (hrest : EndsNumber rest) (n : Int) :
    readInteger ((toString n).toList ++ rest) = some (n, rest) := by
  rw [Numeral.intText_eq]
  split
  · next hn =>
    have hvalue : ((n.toNat : Nat) : Int) = n := Int.toNat_of_nonneg hn
    obtain ⟨c, cs, htext, hdigit⟩ := Numeral.exists_natText_cons n.toNat
    have hminus : c ≠ '-' := by rintro rfl; exact absurd hdigit (by decide)
    have hdigits := readDigits_natText hrest n.toNat
    rw [htext, List.cons_append] at hdigits ⊢
    simp only [readInteger_of_ne_minus hminus, hdigits, Option.map_some, hvalue]
  · next hn =>
    have hvalue : -(((-n).toNat : Nat) : Int) = n := by omega
    simp only [List.cons_append, readInteger, readDigits_natText hrest, Option.map_some, hvalue]

/-! ### Values -/

theorem skipBlanks_cons {c : Char} (hc : isBlank c = false) (s : List Char) :
    skipBlanks (c :: s) = c :: s := by
  rw [skipBlanks, List.dropWhile_cons_of_neg (by rw [hc]; exact Bool.false_ne_true)]

theorem readKey_quoted (key : String) (rest : List Char) :
    readKey (quoted key ++ ':' :: rest) = some (key, rest) := by
  have hquoted : quoted key ++ ':' :: rest =
      '"' :: (key.toList.flatMap escape ++ '"' :: ':' :: rest) := by simp [quoted]
  have hquote := skipBlanks_cons (c := '"') (by decide)
  have hcolon := skipBlanks_cons (c := ':') (by decide)
  simp only [hquoted, readKey, hquote, readString_quoted, hcolon, String.ofList_toList]

/-- Neither a digit nor a minus sign starts anything but a number. -/
theorem readValue_integer {rest : List Char} (hrest : EndsNumber rest) (n : Int) (fuel : Nat) :
    readValue (fuel + 1) ((toString n).toList ++ rest) = some (.integer n, rest) := by
  obtain ⟨c, cs, htext, hc⟩ : ∃ c cs, (toString n).toList = c :: cs ∧
      (c = '-' ∨ c.isDigit = true) := by
    rw [Numeral.intText_eq]
    split
    · obtain ⟨c, cs, htext, hdigit⟩ := Numeral.exists_natText_cons n.toNat
      exact ⟨c, cs, htext, .inr hdigit⟩
    · exact ⟨'-', _, rfl, .inl rfl⟩
  have hne (d : Char) (hd : d ≠ '-') (hdigit : d.isDigit = false) : c ≠ d := by
    rintro rfl
    rcases hc with rfl | hc
    · exact hd rfl
    · rw [hdigit] at hc
      exact Bool.false_ne_true hc
  have hblank : isBlank c = false := by
    simp only [isBlank, Bool.or_eq_false_iff, decide_eq_false_iff_not]
    exact ⟨⟨⟨hne ' ' (by decide) (by decide), hne '\t' (by decide) (by decide)⟩,
      hne '\n' (by decide) (by decide)⟩, hne '\r' (by decide) (by decide)⟩
  have hread := readInteger_intText hrest n
  rw [htext, List.cons_append] at hread ⊢
  rw [readValue, skipBlanks_cons hblank]
  split
  · next h => exact absurd (List.cons.inj h).1 (hne 'n' (by decide) (by decide))
  · next h => exact absurd (List.cons.inj h).1 (hne '"' (by decide) (by decide))
  · next h => exact absurd (List.cons.inj h).1 (hne '\x7b' (by decide) (by decide))
  · rw [hread]
    rfl

@[simp] theorem readValue_string (s : String) (fuel : Nat) (rest : List Char) :
    readValue (fuel + 1) (quoted s ++ rest) = some (.string s, rest) := by
  have hquoted : quoted s ++ rest = '"' :: (s.toList.flatMap escape ++ '"' :: rest) := by
    simp [quoted]
  simp only [hquoted, readValue, skipBlanks_cons (c := '"') (by decide), readString_quoted,
    Option.map_some, String.ofList_toList]

/-- An object that is not empty starts with a quote, where its end would be otherwise. -/
theorem readValue_members (key : String) (fuel : Nat) (rest : List Char) :
    readValue (fuel + 1) ('\x7b' :: (quoted key ++ rest)) =
      (readMembers fuel (quoted key ++ rest)).map fun (members, rest) => (.object members, rest) := by
  have hquoted : quoted key ++ rest = '"' :: (key.toList.flatMap escape ++ '"' :: rest) := by
    simp [quoted]
  rw [readValue, skipBlanks_cons (c := '\x7b') (by decide)]
  simp only [hquoted, skipBlanks_cons (c := '"') (by decide)]
  rfl

theorem endsNumber_renderMore (members : List (String × Json)) (rest : List Char) :
    EndsNumber (renderMore members ++ rest) := by
  intro c hc
  cases members with
  | nil =>
    obtain rfl := Option.some.inj hc
    decide
  | cons member more =>
    rw [renderMore] at hc
    obtain rfl := Option.some.inj hc
    decide

section Members

variable {key : String} {value : Json} {fuel : Nat} {more rest : List Char}
  (hvalue : readValue fuel (render value ++ more) = some (value, more))

include hvalue

theorem readMembers_last (hmore : skipBlanks more = '\x7d' :: rest) :
    readMembers (fuel + 1) (quoted key ++ ':' :: render value ++ more) =
      some ([(key, value)], rest) := by
  rw [readMembers, List.append_assoc, List.cons_append, readKey_quoted]
  simp only [hvalue, hmore]

theorem readMembers_more (hmore : skipBlanks more = ',' :: rest) :
    readMembers (fuel + 1) (quoted key ++ ':' :: render value ++ more) =
      (readMembers fuel rest).map fun (members, rest) => ((key, value) :: members, rest) := by
  rw [readMembers, List.append_assoc, List.cons_append, readKey_quoted]
  simp only [hvalue, hmore]

end Members

mutual

/-- A value is read from its text, with more fuel than the text is long. -/
theorem readValue_render (j : Json) (fuel : Nat) (rest : List Char) (hrest : EndsNumber rest)
    (hfuel : (render j).length < fuel) :
    readValue fuel (render j ++ rest) = some (j, rest) := by
  obtain ⟨fuel, rfl⟩ : ∃ less, fuel = less + 1 := ⟨fuel - 1, by omega⟩
  match j with
  | null => rfl
  | integer n =>
    rw [render]
    exact readValue_integer hrest n fuel
  | string s =>
    rw [render]
    exact readValue_string s fuel rest
  | object [] => rfl
  | object ((key, value) :: more) =>
    rw [render] at hfuel ⊢
    have hread := readMembers_render key value more fuel rest (by simp at hfuel ⊢; omega)
    have hvalue := readValue_members key fuel (':' :: (render value ++ (renderMore more ++ rest)))
    simp only [List.append_assoc, List.cons_append] at hread hvalue ⊢
    rw [hvalue, hread, Option.map_some]

theorem readMembers_render (key : String) (value : Json) (more : List (String × Json)) (fuel : Nat)
    (rest : List Char)
    (hfuel : (quoted key ++ ':' :: render value ++ renderMore more).length < fuel) :
    readMembers fuel (quoted key ++ ':' :: render value ++ (renderMore more ++ rest)) =
      some ((key, value) :: more, rest) := by
  obtain ⟨fuel, rfl⟩ : ∃ less, fuel = less + 1 := ⟨fuel - 1, by omega⟩
  have hvalue := readValue_render value fuel (renderMore more ++ rest)
    (endsNumber_renderMore more rest) (by simp at hfuel; omega)
  match more with
  | [] => exact readMembers_last hvalue (skipBlanks_cons (by decide) rest)
  | (key', value') :: more =>
    rw [renderMore] at hfuel hvalue ⊢
    have hread := readMembers_render key' value' more fuel rest (by simp at hfuel ⊢; omega)
    have hcomma : skipBlanks (',' :: quoted key' ++ ':' :: render value' ++ renderMore more ++
          rest) = ',' :: (quoted key' ++ ':' :: render value' ++ (renderMore more ++ rest)) := by
      simp only [List.append_assoc, List.cons_append]
      exact skipBlanks_cons (by decide) _
    rw [readMembers_more hvalue hcomma, hread, Option.map_some]

end

/-- Every value is read from its text. -/
@[simp] theorem read?_render (j : Json) : read? (render j) = some j := by
  have hread := readValue_render j ((render j).length + 1) [] nofun (Nat.lt_succ_self _)
  rw [List.append_nil] at hread
  simp only [read?, hread]
  rfl

/-! ### No line ends -/

theorem escape_printable {c d : Char} (hd : d ∈ escape c) : 0x20 ≤ d.toNat := by
  have hletter {e : Char} (he : 0x20 ≤ e.toNat) (h : d ∈ ['\\', e]) : 0x20 ≤ d.toNat := by
    simp only [List.mem_cons, List.not_mem_nil, or_false] at h
    rcases h with rfl | rfl
    · decide
    · exact he
  have hhex : ∀ n < 16, 0x20 ≤ (Text.Hex.digit n).toNat := by decide
  unfold escape at hd
  iterate 7
    split at hd
    · exact hletter (by decide) hd
  split at hd
  · simp only [List.mem_cons, List.not_mem_nil, or_false] at hd
    rcases hd with rfl | rfl | rfl | rfl | rfl | rfl
    · decide
    · decide
    · decide
    · decide
    · exact hhex _ (by omega)
    · exact hhex _ (by omega)
  · next hcontrol =>
    obtain rfl := List.mem_singleton.mp hd
    exact Nat.not_lt.mp hcontrol

theorem quoted_printable {s : String} {c : Char} (hc : c ∈ quoted s) : 0x20 ≤ c.toNat := by
  simp only [quoted, List.cons_append, List.mem_cons, List.mem_append, List.mem_flatMap,
    List.not_mem_nil, or_false] at hc
  rcases hc with rfl | ⟨d, -, hd⟩ | rfl
  · decide
  · exact escape_printable hd
  · decide

theorem printable_of_all {s : List Char} (h : s.all (0x20 ≤ ·.toNat) = true) {c : Char}
    (hc : c ∈ s) : 0x20 ≤ c.toNat :=
  of_decide_eq_true (List.all_eq_true.mp h c hc)

theorem member_printable (key : String) {value more : List Char}
    (hvalue : ∀ c ∈ value, 0x20 ≤ c.toNat) (hmore : ∀ c ∈ more, 0x20 ≤ c.toNat) :
    ∀ c ∈ quoted key ++ ':' :: value ++ more, 0x20 ≤ c.toNat := by
  intro c hc
  simp only [List.append_assoc, List.cons_append, List.mem_append, List.mem_cons] at hc
  rcases hc with hc | rfl | hc | hc
  · exact quoted_printable hc
  · decide
  · exact hvalue c hc
  · exact hmore c hc

mutual

theorem render_printable (j : Json) : ∀ c ∈ render j, 0x20 ≤ c.toNat := by
  match j with
  | null => rw [render]; exact fun _ => printable_of_all rfl
  | integer n =>
    rw [render]
    exact fun _ hc => Nat.le_trans (by decide) (Numeral.bounds_of_mem_intText hc).1
  | string s => rw [render]; exact fun _ => quoted_printable
  | object [] => rw [render]; exact fun _ => printable_of_all rfl
  | object ((key, value) :: more) =>
    have hmember := member_printable key (render_printable value)
      (renderMore_printable more)
    rw [render]
    exact List.forall_mem_cons.mpr ⟨by decide, hmember⟩

theorem renderMore_printable (members : List (String × Json)) :
    ∀ c ∈ renderMore members, 0x20 ≤ c.toNat := by
  match members with
  | [] => rw [renderMore]; exact fun _ => printable_of_all rfl
  | (key, value) :: more =>
    have hmember := member_printable key (render_printable value)
      (renderMore_printable more)
    rw [renderMore]
    exact List.forall_mem_cons.mpr ⟨by decide, hmember⟩

end

end CheckerAudit.Report.Json
