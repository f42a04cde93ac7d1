import CheckerAudit.Record.Reader

/-!
The grammar of record text, as the layouts that a text can have: terminators, then records of
fields with terminators after each. A layout says how each field is written and which value that
stands for; it knows nothing of a reader. Every value can be written in quotes, whatever symbols it
holds.
-/
namespace CheckerAudit.Record

variable {α : Type} [DecidableEq α] [Alphabet α]

/-- A value with every quote in it written twice. -/
def double (value : List α) : List α :=
  value.flatMap fun a => if a = Alphabet.quote then [a, a] else [a]

/-- A value between quotes. -/
def quoted (value : List α) : List α :=
  Alphabet.quote :: double value ++ [Alphabet.quote]

/-- Fields with delimiters between them. -/
def joinFields : List (List α) → List α
  | [] => []
  | [field] => field
  | field :: rest => field ++ Alphabet.delimiter :: joinFields rest

/-- No symbol that ends a field outside of quotes. -/
def Unbroken (s : List α) : Prop :=
  ∀ a ∈ s, a ≠ Alphabet.delimiter ∧ isTerminator a = false

instance (s : List α) : Decidable (Unbroken s) :=
  decidable_of_iff (s.all fun a => a ≠ Alphabet.delimiter && !isTerminator a) (by simp [Unbroken])

/-- A field as it is written: bare, in quotes with something after them, or in quotes that the end
of the text leaves open. -/
inductive FieldForm (α : Type) where
  | bare (symbols : List α)
  | quoted (body tail : List α)
  | unclosed (body : List α)
deriving Repr, DecidableEq

namespace FieldForm

/-- The symbols of a form. -/
def written : FieldForm α → List α
  | bare symbols => symbols
  | quoted body tail => Alphabet.quote :: double body ++ Alphabet.quote :: tail
  | unclosed body => Alphabet.quote :: double body

/-- The value that a form stands for. -/
def value : FieldForm α → List α
  | bare symbols => symbols
  | quoted body tail => body ++ tail
  | unclosed body => body

/-- A bare field does not start with a quote, nor does what follows closed quotes. -/
def WellFormed : FieldForm α → Prop
  | bare symbols => symbols.head? ≠ some Alphabet.quote ∧ Unbroken symbols
  | quoted _ tail => tail.head? ≠ some Alphabet.quote ∧ Unbroken tail
  | unclosed _ => True

instance : (f : FieldForm α) → Decidable f.WellFormed
  | bare symbols =>
    inferInstanceAs (Decidable (symbols.head? ≠ some Alphabet.quote ∧ Unbroken symbols))
  | quoted _ tail => inferInstanceAs (Decidable (tail.head? ≠ some Alphabet.quote ∧ Unbroken tail))
  | unclosed _ => inferInstanceAs (Decidable True)

/-- Whether the field's quotes are closed. -/
def isClosed : FieldForm α → Bool
  | unclosed _ => false
  | _ => true

end FieldForm

/-- A record as it is written, with the terminators after it. -/
structure RecordForm (α : Type) where
  fields : List (FieldForm α)
  ending : List α
deriving Repr, DecidableEq

namespace RecordForm

/-- The symbols of a record, without its terminators. -/
def written (r : RecordForm α) : List α :=
  joinFields (r.fields.map FieldForm.written)

/-- The fields' values. -/
def values (r : RecordForm α) : List (List α) :=
  r.fields.map FieldForm.value

/-- A record has at least one symbol, and only its last field may be unclosed. -/
structure WellFormed (r : RecordForm α) : Prop where
  nonempty : r.written ≠ []
  fields : ∀ f ∈ r.fields, f.WellFormed
  closed : ∀ f ∈ r.fields.dropLast, f.isClosed = true
  ending : ∀ a ∈ r.ending, isTerminator a = true

instance (r : RecordForm α) : Decidable r.WellFormed :=
  decidable_of_iff (r.written ≠ [] ∧ (∀ f ∈ r.fields, f.WellFormed) ∧
      (∀ f ∈ r.fields.dropLast, f.isClosed = true) ∧ r.ending.all isTerminator)
    ⟨fun h => ⟨h.1, h.2.1, h.2.2.1, List.all_eq_true.mp h.2.2.2⟩,
      fun h => ⟨h.nonempty, h.fields, h.closed, List.all_eq_true.mpr h.ending⟩⟩

end RecordForm

/-- A text as terminators and records. -/
structure Layout (α : Type) where
  leading : List α
  records : List (RecordForm α)
deriving Repr, DecidableEq

namespace Layout

/-- The text of a layout. -/
def written (l : Layout α) : List α :=
  l.leading ++ l.records.flatMap fun r => r.written ++ r.ending

/-- The fields' values, record by record. -/
def values (l : Layout α) : List (List (List α)) :=
  l.records.map RecordForm.values

/-- The offsets of first symbols when the first record starts at `offset`. -/
def startsFrom (offset : Nat) : List (RecordForm α) → List Nat
  | [] => []
  | r :: rest => offset :: startsFrom (offset + r.written.length + r.ending.length) rest

/-- The offsets of the records' first symbols. -/
def starts (l : Layout α) : List Nat :=
  startsFrom l.leading.length l.records

/-- Only the last record may do without terminators or leave its quotes open, and in the second
case nothing follows it. -/
structure WellFormed (l : Layout α) : Prop where
  leading : ∀ a ∈ l.leading, isTerminator a = true
  records : ∀ r ∈ l.records, r.WellFormed
  separated : ∀ r ∈ l.records.dropLast, r.ending ≠ []
  unclosed : ∀ r ∈ l.records, (∃ f ∈ r.fields, f.isClosed = false) →
    r.ending = [] ∧ l.records.getLast? = some r

instance (l : Layout α) : Decidable l.WellFormed :=
  decidable_of_iff (l.leading.all isTerminator ∧ (∀ r ∈ l.records, r.WellFormed) ∧
      (∀ r ∈ l.records.dropLast, r.ending ≠ []) ∧
      ∀ r ∈ l.records, ¬(∀ f ∈ r.fields, f.isClosed = true) →
        r.ending = [] ∧ l.records.getLast? = some r)
    ⟨fun h => ⟨List.all_eq_true.mp h.1, h.2.1, h.2.2.1, by simpa using h.2.2.2⟩,
      fun h => ⟨List.all_eq_true.mpr h.leading, h.records, h.separated, by simpa using h.unclosed⟩⟩

end Layout

end CheckerAudit.Record
