import Kolme.Lib.Codec
import Kolme.Shared.Types

/-!
# Data of the Solana bridge program

The program's state, the instructions it receives and the payloads the chain signs for it, with
their binary layout. Keys and signatures are written as plain byte arrays.
-/

namespace Kolme.Solana

/-- The address of an account. -/
abbrev Pubkey := Fin (256 ^ 32)

def stateSeed : Bytes := "state".toByteArray.data.toList
def tokenHolderSeed : Bytes := "token_holder".toByteArray.data.toList
def gitRevSeed : Bytes := "git_rev".toByteArray.data.toList
def upgradeAuthoritySeed : Bytes := "upgrade_auth".toByteArray.data.toList

structure State where
  set : ValidatorSet
  /-- IDs for bridge events. -/
  nextEventId : U64
  /-- IDs for actions generated by the chain and submitted to this contract. -/
  nextActionId : U64
deriving DecidableEq

structure InstructionAccount where
  pubkey : Pubkey
  isWritable : Bool
deriving DecidableEq

structure SignerAccount where
  index : UInt8
  seeds : List Bytes
deriving DecidableEq

structure ExecuteAction where
  programId : Pubkey
  accounts : List InstructionAccount
  instructionData : Bytes
  signer : Option SignerAccount
deriving DecidableEq

inductive SignedAction
  | execute (action : ExecuteAction)
  | selfReplace (rendered : String) (signature : SignatureWithRecovery)
  | newSet (rendered : String) (approvals : List SignatureWithRecovery)
deriving DecidableEq

structure Payload where
  /-- Monotonically increasing ID to ensure messages are sent in the correct order. -/
  id : U64
  action : SignedAction
deriving DecidableEq

structure SignedMsgIxData where
  processor : SignatureWithRecovery
  approvers : List SignatureWithRecovery
  /-- Base64 encoded string of a serialized `Payload`. -/
  payload : String
deriving DecidableEq

structure RegularMsgIxData where
  keys : List KeyRegistration
  transferAmounts : List U64
deriving DecidableEq

structure Token where
  mint : Pubkey
  amount : U64
deriving DecidableEq

inductive Message
  | regular (funds : List Token) (keys : List PublicKey)
  | signed (actionId : U64)
deriving DecidableEq

structure BridgeMessage where
  id : U64
  wallet : Pubkey
  ty : Message
deriving DecidableEq

/-! ## Layout -/

open Codec

def publicKeyCodec : Codec PublicKey := array 33

def signatureCodec : Codec SignatureWithRecovery :=
  (pair byte (array 64)).xmap (fun p => some ⟨p.1, p.2⟩) (fun s => (s.recid, s.sig)) fun _ => rfl

def validatorSetCodec : Codec ValidatorSet :=
  (pair publicKeyCodec (pair (finset publicKeyCodec) (pair (uint 2)
    (pair (finset publicKeyCodec) (uint 2))))).xmap
    (fun p => some ⟨p.1, p.2.1, p.2.2.1, p.2.2.2.1, p.2.2.2.2⟩)
    (fun s => (s.processor, s.listeners, s.neededListeners, s.approvers, s.neededApprovers))
    fun _ => rfl

def stateCodec : Codec State :=
  (pair validatorSetCodec (pair (uint 8) (uint 8))).xmap
    (fun p => some ⟨p.1, p.2.1, p.2.2⟩) (fun s => (s.set, s.nextEventId, s.nextActionId))
    fun _ => rfl

def instructionAccountCodec : Codec InstructionAccount :=
  (pair (array 32) bool).xmap (fun p => some ⟨p.1, p.2⟩) (fun a => (a.pubkey, a.isWritable))
    fun _ => rfl

def signerAccountCodec : Codec SignerAccount :=
  (pair byte (list (list byte))).xmap (fun p => some ⟨p.1, p.2⟩) (fun a => (a.index, a.seeds))
    fun _ => rfl

def executeActionCodec : Codec ExecuteAction :=
  (pair (array 32) (pair (list instructionAccountCodec) (pair (list byte)
    (option signerAccountCodec)))).xmap
    (fun p => some ⟨p.1, p.2.1, p.2.2.1, p.2.2.2⟩)
    (fun a => (a.programId, a.accounts, a.instructionData, a.signer)) fun _ => rfl

/-- What each case of `SignedAction` carries. -/
def SignedAction.Case : Fin 3 → Type
  | 0 => ExecuteAction
  | 1 => String × SignatureWithRecovery
  | 2 => String × List SignatureWithRecovery

def SignedAction.caseCodec : (i : Fin 3) → Codec (SignedAction.Case i)
  | 0 => executeActionCodec
  | 1 => pair string signatureCodec
  | 2 => pair string (list signatureCodec)

def signedActionCodec : Codec SignedAction :=
  (enum 3 (by decide) SignedAction.caseCodec).xmap
    (fun
      | ⟨0, action⟩ => some (.execute action)
      | ⟨1, (rendered, signature)⟩ => some (.selfReplace rendered signature)
      | ⟨2, (rendered, approvals)⟩ => some (.newSet rendered approvals))
    (fun
      | .execute action => ⟨0, action⟩
      | .selfReplace rendered signature => ⟨1, (rendered, signature)⟩
      | .newSet rendered approvals => ⟨2, (rendered, approvals)⟩)
    (by rintro (_ | _ | _) <;> rfl)

def payloadCodec : Codec Payload :=
  (pair (uint 8) signedActionCodec).xmap (fun p => some ⟨p.1, p.2⟩) (fun p => (p.id, p.action))
    fun _ => rfl

def signedMsgIxDataCodec : Codec SignedMsgIxData :=
  (pair signatureCodec (pair (list signatureCodec) string)).xmap
    (fun p => some ⟨p.1, p.2.1, p.2.2⟩) (fun d => (d.processor, d.approvers, d.payload))
    fun _ => rfl

def keyRegistrationCodec : Codec KeyRegistration :=
  (pair signatureCodec publicKeyCodec).xmap (fun p => some ⟨p.1, p.2⟩)
    (fun r => (r.signature, r.key)) fun _ => rfl

def regularMsgIxDataCodec : Codec RegularMsgIxData :=
  (pair (list keyRegistrationCodec) (list (uint 8))).xmap (fun p => some ⟨p.1, p.2⟩)
    (fun d => (d.keys, d.transferAmounts)) fun _ => rfl

def tokenCodec : Codec Token :=
  (pair (array 32) (uint 8)).xmap (fun p => some ⟨p.1, p.2⟩) (fun t => (t.mint, t.amount))
    fun _ => rfl

/-- What each case of `Message` carries. -/
def Message.Case : Fin 2 → Type
  | 0 => List Token × List PublicKey
  | 1 => U64

def Message.caseCodec : (i : Fin 2) → Codec (Message.Case i)
  | 0 => pair (list tokenCodec) (list publicKeyCodec)
  | 1 => uint 8

def messageCodec : Codec Message :=
  (enum 2 (by decide) Message.caseCodec).xmap
    (fun
      | ⟨0, (funds, keys)⟩ => some (.regular funds keys)
      | ⟨1, actionId⟩ => some (.signed actionId))
    (fun
      | .regular funds keys => ⟨0, (funds, keys)⟩
      | .signed actionId => ⟨1, actionId⟩)
    (by rintro (_ | _) <;> rfl)

def bridgeMessageCodec : Codec BridgeMessage :=
  (pair (uint 8) (pair (array 32) messageCodec)).xmap (fun p => some ⟨p.1, p.2.1, p.2.2⟩)
    (fun m => (m.id, m.wallet, m.ty)) fun _ => rfl

/-! ## Sizes -/

theorem publicKeyCodec_fixed : publicKeyCodec.Fixed 33 := array_fixed 33

theorem signatureCodec_fixed : signatureCodec.Fixed 65 :=
  fun s => ⟨s.recid :: Bytes.toBE 64 s.sig.val, rfl, by simp⟩

/-- The bytes a validator set takes: only the number of its keys matters. -/
def validatorSetSize (set : ValidatorSet) : Nat :=
  33 + (4 + 33 * set.listeners.card) + 2 + (4 + 33 * set.approvers.card) + 2

theorem length_validatorSet {set : ValidatorSet} {bs : Bytes}
    (h : validatorSetCodec.encode set = some bs) : bs.length = validatorSetSize set := by
  obtain ⟨p, hp, _, h1, rfl⟩ := encode_pair.mp h
  obtain ⟨l, hl, _, h2, rfl⟩ := encode_pair.mp h1
  obtain ⟨nl, hnl, _, h3, rfl⟩ := encode_pair.mp h2
  obtain ⟨a, ha, na, hna, rfl⟩ := encode_pair.mp h3
  simp only [List.length_append, publicKeyCodec_fixed.length hp,
    publicKeyCodec_fixed.length_finset hl, (uint_fixed 2).length hnl,
    publicKeyCodec_fixed.length_finset ha, (uint_fixed 2).length hna, validatorSetSize]
  omega

/-- The bytes the program's state takes. -/
theorem length_state {s : State} {bs : Bytes} (h : stateCodec.encode s = some bs) :
    bs.length = validatorSetSize s.set + 16 := by
  obtain ⟨v, hv, r, hr, rfl⟩ := encode_pair.mp h
  obtain ⟨e, he, a, ha, rfl⟩ := encode_pair.mp hr
  simp only [List.length_append, length_validatorSet hv, (uint_fixed 8).length he,
    (uint_fixed 8).length ha]

theorem exists_encode_validatorSet {set : ValidatorSet} (hl : set.listeners.card < 256 ^ 4)
    (ha : set.approvers.card < 256 ^ 4) : ∃ bs, validatorSetCodec.encode set = some bs := by
  obtain ⟨l, hl⟩ := publicKeyCodec_fixed.exists_finset hl
  obtain ⟨a, ha⟩ := publicKeyCodec_fixed.exists_finset ha
  exact ⟨_, encode_pair.mpr ⟨_, rfl, _, encode_pair.mpr ⟨l, hl, _, encode_pair.mpr ⟨_, rfl, _,
    encode_pair.mpr ⟨a, ha, _, rfl, rfl⟩, rfl⟩, rfl⟩, rfl⟩⟩

/-- Every state whose sets have fewer than `2 ^ 32` keys has an encoding. -/
theorem exists_encode_state {s : State} (hl : s.set.listeners.card < 256 ^ 4)
    (ha : s.set.approvers.card < 256 ^ 4) : ∃ bs, stateCodec.encode s = some bs := by
  obtain ⟨v, hv⟩ := exists_encode_validatorSet hl ha
  exact ⟨_, encode_pair.mpr ⟨v, hv, _, encode_pair.mpr ⟨_, rfl, _, rfl, rfl⟩, rfl⟩⟩

theorem encode_newSet {rendered : String} {approvals : List SignatureWithRecovery} {r a : Bytes}
    (hr : string.encode rendered = some r) (ha : (list signatureCodec).encode approvals = some a) :
    signedActionCodec.encode (.newSet rendered approvals) = some (2 :: (r ++ a)) := by
  have hpair : (pair string (list signatureCodec)).encode (rendered, approvals) =
      some (r ++ a) := encode_pair.mpr ⟨r, hr, a, ha, rfl⟩
  simp [signedActionCodec, xmap, enum, SignedAction.caseCodec, hpair]

theorem exists_encode_newSet {id : U64} {rendered : String}
    {approvals : List SignatureWithRecovery} (hrendered : rendered.utf8ByteSize < 256 ^ 4)
    (happrovals : approvals.length < 256 ^ 4) :
    ∃ bs, payloadCodec.encode ⟨id, .newSet rendered approvals⟩ = some bs := by
  obtain ⟨r, hr⟩ := exists_string hrendered
  obtain ⟨a, ha⟩ := signatureCodec_fixed.exists_list happrovals
  exact ⟨_, encode_pair.mpr ⟨_, rfl, _, encode_newSet hr ha, rfl⟩⟩

theorem exists_encode_signedMsgIxData {data : SignedMsgIxData}
    (happrovers : data.approvers.length < 256 ^ 4)
    (hpayload : data.payload.utf8ByteSize < 256 ^ 4) :
    ∃ bs, signedMsgIxDataCodec.encode data = some bs := by
  obtain ⟨s, hs, -⟩ := signatureCodec_fixed data.processor
  obtain ⟨a, ha⟩ := signatureCodec_fixed.exists_list happrovers
  obtain ⟨p, hp⟩ := exists_string hpayload
  exact ⟨_, encode_pair.mpr ⟨s, hs, _, encode_pair.mpr ⟨a, ha, p, hp, rfl⟩, rfl⟩⟩

end Kolme.Solana
