import Kolme.Shared.Types

/-!
# Signers of a text

Signatures are over a rendered text. Who made them is found by recovering the keys.
-/

namespace Kolme

variable (recover : String → SignatureWithRecovery → Option PublicKey)

/-- The keys that made the signatures, as signatures of the given text. -/
def signersOf (text : String) (signatures : List SignatureWithRecovery) : Finset PublicKey :=
  (signatures.filterMap (recover text)).toFinset

variable {recover}

theorem mem_signersOf {text : String} {signatures : List SignatureWithRecovery} {key : PublicKey} :
    key ∈ signersOf recover text signatures ↔ ∃ sig ∈ signatures, recover text sig = some key := by
  simp [signersOf]

/-- The processor of the set and a quorum of its approvers signed the text. -/
structure CoSigned (recover : String → SignatureWithRecovery → Option PublicKey) (text : String)
    (processor : SignatureWithRecovery) (approvers : List SignatureWithRecovery)
    (set : ValidatorSet) : Prop where
  processor : recover text processor = some set.processor
  approvers : set.neededApprovers.val ≤ (signersOf recover text approvers ∩ set.approvers).card

end Kolme
