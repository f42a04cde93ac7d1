import CheckerAudit.Digest.Sha256
import CheckerAudit.Salt.Basic
import CheckerAudit.Text.Hex
import CheckerAudit.Text.Utf8

/-!
Proof codes: the digest that ties a verdict to the shared secret, the task and the salt of one
invocation.
-/
namespace CheckerAudit

/-- A derived proof code, as it is printed. -/
structure ProofCode where
  hex : String
deriving DecidableEq, Repr

namespace ProofCode

/-- The hashed text: secret, task, salt and result, with colons between them. -/
def preimage (secret task : String) (salt : Salt) (result : Int64) : String :=
  secret ++ ":" ++ task ++ ":" ++ salt.text ++ ":" ++ toString result.toInt

/-- The digest of the preimage in lower-case hexadecimal. -/
def derive (secret task : String) (salt : Salt) (result : Int64) : ProofCode :=
  let message := Text.Utf8.encode (preimage secret task salt result).toList
  ⟨.ofList (Text.Hex.encode (Digest.Sha256.digest message))⟩

/-- A reported code matches when it is the same text. -/
def accepts (code : ProofCode) (reported : String) : Bool :=
  code.hex = reported

/-- Checks a reported code against the one derived from the same values. -/
def verify (secret task : String) (salt : Salt) (result : Int64) (reported : String) : Bool :=
  (derive secret task salt result).accepts reported

/-- A derived code has sixty-four digits. -/
@[simp] theorem length_hex_derive (secret task : String) (salt : Salt) (result : Int64) :
    (derive secret task salt result).hex.length = 64 := by
  simp [derive, Text.Hex.length_encode, Digest.Sha256.length_digest]

theorem mem_digits_of_mem_hex {secret task : String} {salt : Salt} {result : Int64} {c : Char}
    (h : c ∈ (derive secret task salt result).hex.toList) : c ∈ Text.Hex.digits := by
  rw [derive, String.toList_ofList] at h
  exact Text.Hex.mem_digits_of_mem_encode h

end ProofCode

end CheckerAudit
