import Kolme.Lib.Result
import Kolme.Lib.Abi
import Kolme.Shared.Types

/-!
# The base of the Ethereum bridge contract

The stored validator set, its checks, and the recovery of signers. Keys are 33-byte compressed
public keys; signatures are compared through the address derived from a key.

The hash functions and `ecrecover` are parameters, collected in `Crypto`; the curve arithmetic
that decompresses a key is spelled out. A call that reverts changes nothing.
-/

namespace Kolme.Ethereum

open Except

abbrev Address := Fin (2 ^ 160)
abbrev Word := Fin (2 ^ 256)

instance Address.lawfulBEq : LawfulBEq Address := inferInstance

/-- The functions of the virtual machine that the contract relies on. -/
structure Crypto where
  keccak256 : Bytes → Word
  sha256 : Bytes → Word
  ecrecover : (hash : Word) → (v : UInt8) → (r s : Word) → Address

inductive Error
  | emptyListeners
  | emptyApprovers
  | invalidListenerQuorum (needed : U16) (total : Nat)
  | invalidApproverQuorum (needed : U16) (total : Nat)
  | invalidProcessorKey (key : Bytes)
  | invalidValidatorKey (index : Nat) (key : Bytes)
  | duplicateValidatorKey (firstIndex secondIndex : Nat) (key : Bytes)
  | invalidCurvePoint (key : Bytes)
  | invalidSignatureLength (length : Nat)
  | invalidSignatureV (v : UInt8)
  | invalidApproverSignature (signer : Address)
  | duplicateApproverSignature (signer : Address)
  | insufficientApproverSignatures (needed : U16) (provided : Nat)
  | invalidActionType (actionType : Nat)
  | invalidValidatorType (validatorType : Nat)
  | currentValidatorNotFound (validatorType : Nat) (current : Bytes)
  | executeCallFailed (target : Address) (value : Word) (data : Bytes)
  | invalidNewSetApprovalSignature (signer : Address)
  | duplicateNewSetApprovalSignature (signer : Address)
  | insufficientNewSetGroupSignatures (needed provided : Nat)
  | incorrectActionId (expected received : U64)
  | invalidProcessorSignature (expected received : Address)
  | invalidDepositToken (token : Address)
  | insufficientAllowance (token owner : Address) (allowed required : Word)
  | erc20TransferFailed (token sender : Address) (amount : Word)
  | regularFundsLengthMismatch (tokens amounts : Nat)
  | invalidRegularKey (index : Nat) (key : Bytes)
  | invalidRegularKeySignature (index : Nat) (expected received : Address)
  /-- `abi.decode` reverts on input of the wrong shape. -/
  | malformedAbi
  /-- An arithmetic overflow or an index out of bounds. -/
  | panic
deriving DecidableEq

structure ValidatorSet where
  processor : Bytes
  listeners : List Bytes
  neededListeners : U16
  approvers : List Bytes
  neededApprovers : U16
deriving DecidableEq

structure State where
  validatorSet : ValidatorSet
  nextEventId : U64
  nextActionId : U64
deriving DecidableEq

/-! ## Keys and addresses -/

def secp256k1P : Nat := 0xFFFFFFFFFFFFFFFFFFFFFFFFFFFFFFFFFFFFFFFFFFFFFFFFFFFFFFFEFFFFFC2F

def secp256k1SqrtExp : Nat :=
  0x3FFFFFFFFFFFFFFFFFFFFFFFFFFFFFFFFFFFFFFFFFFFFFFFFFFFFFFFBFFFFF0C

/-- Square and multiply over the `bits` low-order bits of the exponent. -/
def modExpBits (modulus : Nat) : (bits base exponent : Nat) → Nat
  | 0, _, _ => 1 % modulus
  | bits + 1, base, exponent =>
    let rest := modExpBits modulus bits (base * base % modulus) (exponent / 2)
    if exponent % 2 = 1 then base * rest % modulus else rest

/-- The modular exponentiation of the virtual machine. -/
def modExp (base exponent modulus : Nat) : Nat := modExpBits modulus 256 base exponent

theorem modExpBits_eq (modulus bits : Nat) {base exponent : Nat} (h : exponent < 2 ^ bits) :
    modExpBits modulus bits base exponent = base ^ exponent % modulus := by
  induction bits generalizing base exponent with
  | zero =>
    obtain rfl : exponent = 0 := by simpa using h
    simp [modExpBits]
  | succ bits ih =>
    have hhalf : exponent / 2 < 2 ^ bits := by omega
    have hsquare : (base * base % modulus) ^ (exponent / 2) % modulus =
        base ^ (2 * (exponent / 2)) % modulus := by
      rw [Nat.pow_mod, Nat.mod_mod, ← Nat.pow_mod, ← pow_two, ← pow_mul]
    rw [modExpBits, ih hhalf, hsquare]
    split
    · have hodd : exponent = 2 * (exponent / 2) + 1 := by omega
      conv_rhs => rw [hodd, pow_succ, Nat.mul_comm]
      rw [Nat.mul_mod, Nat.mod_mod, ← Nat.mul_mod]
    · have heven : exponent = 2 * (exponent / 2) := by omega
      rw [← heven]

theorem modExp_eq {base exponent modulus : Nat} (h : exponent < 2 ^ 256) :
    modExp base exponent modulus = base ^ exponent % modulus := modExpBits_eq modulus 256 h

def isValidSecp256k1Pubkey (key : Bytes) : Prop :=
  key.length = 33 ∧ (key.headD 0 = 2 ∨ key.headD 0 = 3)

instance (key : Bytes) : Decidable (isValidSecp256k1Pubkey key) :=
  inferInstanceAs (Decidable (_ ∧ _))

variable (crypto : Crypto)

/-- The address of a compressed key: the key is decompressed, and its point is hashed. -/
def validatorAddress (key : Bytes) : Except Error Address := do
  ensure (isValidSecp256k1Pubkey key) (.invalidCurvePoint key)
  let x := Bytes.ofBE (key.drop 1)
  ensure (x < secp256k1P) (.invalidCurvePoint key)
  let ySquared := (x * x % secp256k1P * x % secp256k1P + 7) % secp256k1P
  let y := modExp ySquared secp256k1SqrtExp secp256k1P
  ensure (y * y % secp256k1P = ySquared) (.invalidCurvePoint key)
  let expectedOdd := decide (key.headD 0 = 3)
  let yOdd := decide (y % 2 = 1)
  let y := if yOdd ≠ expectedOdd then secp256k1P - y else y
  return Fin.ofNat _ (crypto.keccak256 (Bytes.toBE 32 x ++ Bytes.toBE 32 y)).val

/-- The address of the signer of a 65-byte signature. -/
def recoverSigner (payloadHash : Word) (signature : Bytes) : Except Error Address := do
  ensure (signature.length = 65) (.invalidSignatureLength signature.length)
  let r := Fin.ofNat _ (Bytes.ofBE (signature.take 32))
  let s := Fin.ofNat _ (Bytes.ofBE ((signature.drop 32).take 32))
  let v := signature.getD 64 0
  ensure (¬(v ≠ 27 ∧ v ≠ 28)) (.invalidSignatureV v)
  return crypto.ecrecover payloadHash v r s

/-- Whether the signer is the address of one of the keys. -/
def containsSigner (signer : Address) : List Bytes → Except Error Bool
  | [] => .ok false
  | key :: keys => do
    if (← validatorAddress crypto key) = signer then return true
    containsSigner signer keys

/-! ## The validator set -/

/-- Reverts at the first pair of keys with one hash; `i` is the index of the first key. -/
def requireUniqueKeysFrom (i : Nat) : List Bytes → Except Error Unit
  | [] => .ok ()
  | key :: keys =>
    match keys.findIdx? (fun other => crypto.keccak256 key = crypto.keccak256 other) with
    | some j => .error (.duplicateValidatorKey i (i + 1 + j) key)
    | none => requireUniqueKeysFrom (i + 1) keys

def requireUniqueKeys (keys : List Bytes) : Except Error Unit :=
  requireUniqueKeysFrom crypto 0 keys

/-- Reverts at the first key that is not a point of the curve; `i` is the index of the first key. -/
def requireValidKeysFrom (i : Nat) : List Bytes → Except Error Unit
  | [] => .ok ()
  | key :: keys => do
    ensure (isValidSecp256k1Pubkey key) (.invalidValidatorKey i key)
    let _ ← validatorAddress crypto key
    requireValidKeysFrom (i + 1) keys

/-- The checked validator set that replaces the stored one. -/
def setValidatorSet (set : ValidatorSet) : Except Error ValidatorSet := do
  ensure (isValidSecp256k1Pubkey set.processor) (.invalidProcessorKey set.processor)
  let _ ← validatorAddress crypto set.processor
  ensure (set.listeners.length ≠ 0) .emptyListeners
  requireValidKeysFrom crypto 0 set.listeners
  requireUniqueKeys crypto set.listeners
  ensure (¬(set.neededListeners = 0 ∨ set.listeners.length < set.neededListeners.val))
    (.invalidListenerQuorum set.neededListeners set.listeners.length)
  ensure (set.approvers.length ≠ 0) .emptyApprovers
  requireValidKeysFrom crypto 0 set.approvers
  requireUniqueKeys crypto set.approvers
  ensure (¬(set.neededApprovers = 0 ∨ set.approvers.length < set.neededApprovers.val))
    (.invalidApproverQuorum set.neededApprovers set.approvers.length)
  return set

/-! ## Approver signatures -/

/-- The distinct configured signers of the signatures, up to the quorum; the signatures behind
the one that completes the quorum are not looked at. -/
def collectApprovers (payloadHash : Word) (configured : List Address) (neededApprovers : U16) :
    (seen : List Address) → List Bytes → Except Error (List Address)
  | seen, [] => .ok seen
  | seen, signature :: signatures => do
    let signer ← recoverSigner crypto payloadHash signature
    ensure (signer ∈ configured) (.invalidApproverSignature signer)
    ensure (signer ∉ seen) (.duplicateApproverSignature signer)
    let seen := seen ++ [signer]
    if seen.length = neededApprovers.val then return seen
    collectApprovers payloadHash configured neededApprovers seen signatures

def verifyApproverSignatures (payloadHash : Word) (approvers : List Bytes)
    (configuredApproverSigners : List Address) (neededApprovers : U16) : Except Error Unit := do
  let seen ← collectApprovers crypto payloadHash configuredApproverSigners neededApprovers []
    approvers
  ensure (neededApprovers.val ≤ seen.length)
    (.insufficientApproverSignatures neededApprovers seen.length)

end Kolme.Ethereum
