import CheckerAudit.ProofCode
import CheckerAudit.Proofs.Numeral.Decimal

/-!
# What a proof code is the digest of

The preimage is read from the right: neither a result nor a salt holds a colon, so both can be told
from the rest, whatever the task holds. Secret and task are only told apart when one of them is
known. Equal codes come from equal preimages or from a collision of the digest, which is a
conclusion here and never an assumption.
-/
namespace CheckerAudit

/-- Two different texts with one digest. -/
def Digest.Sha256.Collision (a b : String) : Prop :=
  a ≠ b ∧ digest (Text.Utf8.encode a.toList) = digest (Text.Utf8.encode b.toList)

theorem Salt.text_inj {s t : Salt} (h : s.text = t.text) : s = t :=
  Salt.ext (Numeral.natText_inj h)

namespace ProofCode

open Digest.Sha256 (Collision)

theorem hex_inj {a b : ProofCode} (h : a.hex = b.hex) : a = b := by
  cases a
  cases b
  exact congrArg ProofCode.mk h

/-- A separator can be found from the right when it is not in what follows it. -/
theorem append_sep_inj {α : Type} {sep : α} {a a' b b' : List α}
    (h : a ++ sep :: b = a' ++ sep :: b') (hb : sep ∉ b) (hb' : sep ∉ b') :
    a = a' ∧ b = b' := by
  rcases List.append_eq_append_iff.mp h with ⟨m, ha, hm⟩ | ⟨m, ha, hm⟩
  · cases m with
    | nil =>
      rw [List.append_nil] at ha
      exact ⟨ha.symm, List.tail_eq_of_cons_eq hm⟩
    | cons x m =>
      have hmem : sep ∈ b := by
        rw [List.tail_eq_of_cons_eq hm]
        simp
      exact absurd hmem hb
  · cases m with
    | nil =>
      rw [List.append_nil] at ha
      exact ⟨ha, (List.tail_eq_of_cons_eq hm).symm⟩
    | cons x m =>
      have hmem : sep ∈ b' := by
        rw [List.tail_eq_of_cons_eq hm]
        simp
      exact absurd hmem hb'

theorem toList_preimage (secret task : String) (salt : Salt) (result : Int64) :
    (preimage secret task salt result).toList =
      ((secret ++ ":" ++ task).toList ++ ':' :: salt.text.toList) ++
        ':' :: (toString result.toInt).toList := by
  simp [preimage]

/-- One preimage says which salt and which result it is for, and how secret and task read when a
colon joins them. -/
theorem preimage_eq_iff {secret secret' task task' : String} {salt salt' : Salt}
    {result result' : Int64} :
    preimage secret task salt result = preimage secret' task' salt' result' ↔
      secret ++ ":" ++ task = secret' ++ ":" ++ task' ∧ salt = salt' ∧ result = result' := by
  constructor
  · intro h
    have hlist := congrArg String.toList h
    rw [toList_preimage, toList_preimage] at hlist
    obtain ⟨hfront, hresult⟩ := append_sep_inj hlist
      (Numeral.colon_notMem_intText _) (Numeral.colon_notMem_intText _)
    obtain ⟨hjoined, hsalt⟩ := append_sep_inj hfront
      (Numeral.colon_notMem_natText _) (Numeral.colon_notMem_natText _)
    exact ⟨String.toList_inj.mp hjoined, Salt.text_inj (String.toList_inj.mp hsalt),
      Numeral.int64Text_inj (String.toList_inj.mp hresult)⟩
  · rintro ⟨hjoined, rfl, rfl⟩
    simp only [preimage, hjoined]

/-- Under one secret the preimage says the task as well. -/
theorem preimage_inj {secret task task' : String} {salt salt' : Salt} {result result' : Int64}
    (h : preimage secret task salt result = preimage secret task' salt' result') :
    task = task' ∧ salt = salt' ∧ result = result' := by
  obtain ⟨hjoined, hsalt, hresult⟩ := preimage_eq_iff.mp h
  have hlist := congrArg String.toList hjoined
  simp only [String.toList_append] at hlist
  exact ⟨String.toList_inj.mp (List.append_cancel_left hlist), hsalt, hresult⟩

/-- Equal codes have equal preimages, or their preimages collide. -/
theorem derive_eq_iff {secret secret' task task' : String} {salt salt' : Salt}
    {result result' : Int64} :
    derive secret task salt result = derive secret' task' salt' result' ↔
      preimage secret task salt result = preimage secret' task' salt' result' ∨
        Collision (preimage secret task salt result) (preimage secret' task' salt' result') := by
  constructor
  · intro h
    have hhex := String.ofList_injective (ProofCode.mk.inj h)
    by_cases heq : preimage secret task salt result = preimage secret' task' salt' result'
    · exact .inl heq
    · exact .inr ⟨heq, Text.Hex.encode_inj hhex⟩
  · rintro (heq | ⟨-, hdigest⟩)
    · simp only [derive, heq]
    · simp only [derive, hdigest]

theorem verify_eq_true_iff {secret task reported : String} {salt : Salt} {result : Int64} :
    verify secret task salt result reported = true ↔
      (derive secret task salt result).hex = reported := by
  simp [verify, accepts]

/-- A code is accepted for the values that derive the same code. -/
theorem verify_derive_iff {secret secret' task task' : String} {salt salt' : Salt}
    {result result' : Int64} :
    verify secret' task' salt' result' (derive secret task salt result).hex = true ↔
      derive secret task salt result = derive secret' task' salt' result' := by
  rw [verify_eq_true_iff]
  exact ⟨fun h => (hex_inj h).symm, fun h => congrArg hex h.symm⟩

end ProofCode

end CheckerAudit
