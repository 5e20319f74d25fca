import Kolme.Lib.Result
import Kolme.Lib.Bytes
import Kolme.Lib.Quorum
import Mathlib.Data.Fintype.Pi
import Mathlib.Order.Fin.Basic

/-!
# Types shared by the chain and the bridge contracts

Keys and signatures as the byte arrays the contracts store, and the validator set with its own
well-formedness check.

`BridgeActionId` and `BridgeEventId` only ever advance by one, so they are natural numbers;
quorums are compared with sixteen-bit counters and keep their width.
-/

namespace Kolme

abbrev U16 := Fin (256 ^ 2)
abbrev U64 := Fin (256 ^ 8)

/-- A compressed secp256k1 key: its 33 bytes as a big-endian number, which orders keys as the
byte arrays are ordered. -/
abbrev PublicKey := Fin (256 ^ 33)

namespace PublicKey

instance lawfulBEq : LawfulBEq PublicKey := inferInstance

instance (priority := high) isTrans_le : IsTrans PublicKey (· ≤ ·) := inferInstance
instance (priority := high) antisymm_le : Std.Antisymm fun a b : PublicKey => a ≤ b := inferInstance
instance (priority := high) total_le : Std.Total fun a b : PublicKey => a ≤ b := inferInstance

end PublicKey

/-- The 64 bytes of a signature, `r` and then `s`. -/
abbrev Signature := Fin (256 ^ 64)

/-- The 32 bytes of a digest as a big-endian number. -/
abbrev Sha256Hash := Fin (2 ^ 256)

structure SignatureWithRecovery where
  recid : UInt8
  sig : Signature
deriving DecidableEq

abbrev BridgeActionId := Nat
abbrev BridgeEventId := Nat

inductive ValidatorType
  | listener
  | processor
  | approver
deriving DecidableEq

/-- The payload for self-replacing, passed along with its signature to the contracts. -/
structure SelfReplace where
  validatorType : ValidatorType
  replacement : PublicKey
deriving DecidableEq

/-- Definition of the validator set for a chain. -/
structure ValidatorSet where
  processor : PublicKey
  listeners : Finset PublicKey
  neededListeners : U16
  approvers : Finset PublicKey
  neededApprovers : U16
deriving DecidableEq

structure KeyRegistration where
  signature : SignatureWithRecovery
  key : PublicKey
deriving DecidableEq

inductive ValidatorSetError
  | notAValidator (key : PublicKey)
  | tooManyKeys
  | noListeners
  | invalidNeededListeners (provided : Nat) (needed : U16)
  | noApprovers
  | invalidNeededApprovers (provided : Nat) (needed : U16)
deriving DecidableEq

namespace ValidatorSet

open Except

def validate (self : ValidatorSet) : Except ValidatorSetError Unit := do
  let listeners := self.listeners.card
  let approvers := self.approvers.card
  ensure (listeners < 2 ^ 16) .tooManyKeys
  ensure (approvers < 2 ^ 16) .tooManyKeys
  ensure (listeners ≠ 0) .noListeners
  ensure (¬(listeners < self.neededListeners.val ∨ self.neededListeners = 0))
    (.invalidNeededListeners listeners self.neededListeners)
  ensure (approvers ≠ 0) .noApprovers
  ensure (¬(approvers < self.neededApprovers.val ∨ self.neededApprovers = 0))
    (.invalidNeededApprovers approvers self.neededApprovers)

/-- Ensure that the given public key is a member of one of the validator sets. -/
def ensureIsValidator (self : ValidatorSet) (key : PublicKey) : Except ValidatorSetError Unit :=
  ensure (key = self.processor ∨ key ∈ self.listeners ∨ key ∈ self.approvers) (.notAValidator key)

/-- What `validate` establishes: both quorums are at least one and can be met. -/
structure WellFormed (s : ValidatorSet) : Prop where
  listeners_lt : s.listeners.card < 2 ^ 16
  approvers_lt : s.approvers.card < 2 ^ 16
  neededListeners_pos : 0 < s.neededListeners.val
  neededListeners_le : s.neededListeners.val ≤ s.listeners.card
  neededApprovers_pos : 0 < s.neededApprovers.val
  neededApprovers_le : s.neededApprovers.val ≤ s.approvers.card

theorem validate_eq_ok {s : ValidatorSet} {u : Unit} : s.validate = .ok u ↔ s.WellFormed := by
  simp only [validate, bind_eq_ok, ensure_eq_ok, exists_and_left, exists_const, not_or, not_lt,
    Fin.ext_iff, Fin.val_zero, ← Nat.pos_iff_ne_zero]
  constructor
  · rintro ⟨h1, h2, -, ⟨h3, h4⟩, -, h5, h6⟩
    exact ⟨h1, h2, h4, h3, h6, h5⟩
  · rintro ⟨h1, h2, h3, h4, h5, h6⟩
    exact ⟨h1, h2, by omega, ⟨h4, h3⟩, by omega, h6, h5⟩

/-- The replacement of one key of a set of keys by another. -/
def replaceKey (keys : Finset PublicKey) (old new : PublicKey) : Finset PublicKey :=
  insert new (keys.erase old)

theorem card_replaceKey {keys : Finset PublicKey} {old new : PublicKey} (hold : old ∈ keys)
    (hnew : new ∉ keys) : (replaceKey keys old new).card = keys.card := by
  have hn : new ∉ keys.erase old := fun h => hnew (Finset.mem_of_mem_erase h)
  have hpos : 0 < keys.card := Finset.card_pos.mpr ⟨old, hold⟩
  rw [replaceKey, Finset.card_insert_of_notMem hn, Finset.card_erase_of_mem hold]
  omega

/-- Put a key in another's place, in the role it has. -/
def replaceValidator (self : ValidatorSet) (validatorType : ValidatorType)
    (sender replacement : PublicKey) : ValidatorSet :=
  match validatorType with
  | .processor => { self with processor := replacement }
  | .listener => { self with listeners := replaceKey self.listeners sender replacement }
  | .approver => { self with approvers := replaceKey self.approvers sender replacement }

/-- The keys with a role. -/
def membersOf (s : ValidatorSet) : ValidatorType → Finset PublicKey
  | .listener => s.listeners
  | .processor => {s.processor}
  | .approver => s.approvers

/-- All keys of the set, whatever their role. -/
def members (s : ValidatorSet) : Finset PublicKey :=
  insert s.processor (s.listeners ∪ s.approvers)

/-- The signers fill at least two of the three groups of the set. -/
def FilledBy (s : ValidatorSet) (signers : Finset PublicKey) : Prop :=
  TwoOfThree (s.processor ∈ signers) (s.neededListeners.val ≤ (signers ∩ s.listeners).card)
    (s.neededApprovers.val ≤ (signers ∩ s.approvers).card)

instance (s : ValidatorSet) (signers : Finset PublicKey) : Decidable (s.FilledBy signers) :=
  inferInstanceAs (Decidable (TwoOfThree _ _ _))

/-- Only the members of the set among the signers count. -/
theorem FilledBy.mono {s : ValidatorSet} {signers signers' : Finset PublicKey}
    (h : s.FilledBy signers) (hsub : ∀ k ∈ signers, k ∈ s.members → k ∈ signers') :
    s.FilledBy signers' := by
  refine TwoOfThree.mono (fun hp => ?_) (fun hl => hl.trans ?_) (fun ha => ha.trans ?_) h
  · exact hsub _ hp (by simp [members])
  · refine Finset.card_le_card fun k hk => ?_
    obtain ⟨hs, hl⟩ := Finset.mem_inter.mp hk
    exact Finset.mem_inter.mpr ⟨hsub k hs (by simp [members, hl]), hl⟩
  · refine Finset.card_le_card fun k hk => ?_
    obtain ⟨hs, ha⟩ := Finset.mem_inter.mp hk
    exact Finset.mem_inter.mpr ⟨hsub k hs (by simp [members, ha]), ha⟩

end ValidatorSet

/-! ## Compressed keys and normalized signatures -/

inductive CompressPublicKeyError
  | wrongUncompressedLen (expected actual : Nat)
  | wrongStartingByte (expected actual : UInt8)
deriving DecidableEq

/-- The 33 bytes of a key: a parity byte and then the 32 bytes of the `x` coordinate. -/
def PublicKey.ofBytes (parity : UInt8) (x : Bytes) : PublicKey :=
  Fin.ofNat _ (Bytes.ofBE (parity :: x))

/-- Compress the uncompressed 65 byte representation of a key. -/
def compressPublicKey (uncompressed : Bytes) : Except CompressPublicKeyError PublicKey := do
  Except.ensure (uncompressed.length = 65) (.wrongUncompressedLen 65 uncompressed.length)
  Except.ensure (uncompressed.headD 0 = 4) (.wrongStartingByte 4 (uncompressed.headD 0))
  let isEven := uncompressed.getD 64 0 &&& 1 = 0
  return PublicKey.ofBytes (if isEven then 2 else 3) ((uncompressed.drop 1).take 32)

/-- The 64 bytes of a point, `x` and then `y`. -/
abbrev PublicKeyUncompressed := Fin (256 ^ 64)

namespace PublicKeyUncompressed

/-- `2` if the `y` coordinate is even and `3` if it is odd. -/
def yParity (self : PublicKeyUncompressed) : UInt8 :=
  if self.val % 2 = 1 then 3 else 2

def toSec1Bytes (self : PublicKeyUncompressed) : PublicKey :=
  Fin.ofNat _ (self.yParity.toNat * 256 ^ 32 + self.val / 256 ^ 32)

end PublicKeyUncompressed

/-- `true` if the `s` component is low-S normalized. The four limbs of `s` are compared with those
of the group order and of its half, most significant first. -/
def Signature.isNormalized (self : Signature) : Bool :=
  let limb (i : Nat) := self.val / 2 ^ (64 * i) % 2 ^ 64
  let a0 := limb 0
  let a1 := limb 1
  let a2 := limb 2
  let a3 := limb 3
  if a0 = 0 ∧ a1 = 0 ∧ a2 = 0 ∧ a3 = 0 then false
  else
    let isLtQB :=
      if a3 < 0xffffffffffffffff then true
      else if a2 < 0xfffffffffffffffe then true
      else if 0xfffffffffffffffe < a2 then false
      else if a1 < 0xbaaedce6af48a03b then true
      else if 0xbaaedce6af48a03b < a1 then false
      else decide (a0 < 0xbfd25e8cd0364141)
    let isSLtQHalved :=
      if a3 < 0x7fffffffffffffff then true
      else if 0x7fffffffffffffff < a3 then false
      else if a2 < 0xffffffffffffffff then true
      else if a1 < 0x5d576e7357a4501d then true
      else if 0x5d576e7357a4501d < a1 then false
      else decide (a0 ≤ 0xdfe92f46681b20a0)
    isLtQB && isSLtQHalved

end Kolme
