import Kolme.Contracts.Cosmos.Signers
import Kolme.Contracts.Solana.Signers
import Kolme.Properties.SolanaStorage

/-!
# Approvals of a rotation that are used again

The approvals of a new validator set sign only its rendered text. Whether they count at a later
call depends on the set that is stored then: they are accepted again exactly if their signers fill
two of its three groups. This module proves, for the Cosmos contract and the Solana program, that
they are of no use as soon as they do not.

## Main results

* `rotation_single_use`: approvals that do not fill two groups of the stored set change nothing.
-/

namespace Kolme

open Except

/-! ## Signatures that are used again -/

section

variable (recover : String → SignatureWithRecovery → Option PublicKey)

/-- The signatures were made for the text: as signatures of another text they are nobody's among
the members of the set. -/
def MadeFor (text : String) (signatures : List SignatureWithRecovery) (set : ValidatorSet) :
    Prop :=
  ∀ sig ∈ signatures, ∀ other key, recover other sig = some key → key ∈ set.members → other = text

variable {recover}

/-- Signatures taken from those made for one text fill no more groups, whatever text they are shown
with. -/
theorem filledBy_of_reused {text other : String} {signatures reused : List SignatureWithRecovery}
    {set : ValidatorSet} (madeFor : MadeFor recover text signatures set)
    (hsub : ∀ sig ∈ reused, sig ∈ signatures)
    (h : set.FilledBy (signersOf recover other reused)) :
    set.FilledBy (signersOf recover text signatures) := by
  refine h.mono fun key hkey hmember => ?_
  obtain ⟨sig, hsig, hrec⟩ := mem_signersOf.mp hkey
  obtain rfl := madeFor sig (hsub sig hsig) other key hrec hmember
  exact mem_signersOf.mpr ⟨sig, hsub sig hsig, hrec⟩

end

/-! ## The Cosmos contract -/

namespace Cosmos

variable {api : Api}

/-- The call submits a new set with the given text and approvals. -/
def Proposes (api : Api) (call : MessageInfo × ExecuteMsg) (rendered : String)
    (approvals : List SignatureWithRecovery) : Prop :=
  ∃ processor approvers payload id, call.2 = .signed processor approvers payload ∧
    api.payloadFromJson payload = some ⟨id, .newSet rendered approvals⟩

theorem Proposes.filledBy {storage storage' : Storage} {call : MessageInfo × ExecuteMsg}
    {rendered : String} {approvals : List SignatureWithRecovery}
    (proposes : Proposes api call rendered approvals)
    (h : (machine api).step storage call = .ok storage') :
    storage.state.set.FilledBy (signersOf (recover api) rendered approvals) := by
  obtain ⟨info, msg⟩ := call
  obtain ⟨processor, approvers, payload, id, rfl, hpayload⟩ := proposes
  simp only [machine, execute, signed, hpayload, fromOption_some, ok_bind, bind_eq_ok,
    ensure_eq_ok, exists_unit] at h
  obtain ⟨_, ⟨-, expected, hexpected, -⟩, -⟩ := h
  exact expect_newSet hexpected

/-- A rotation that passes every check replaces the stored set. -/
theorem step_newSet {s : Storage} {info : MessageInfo} {payload rendered : String}
    {processor : SignatureWithRecovery} {approvers approvals : List SignatureWithRecovery}
    {new : ValidatorSet} {tally : Tally} {used : List PublicKey}
    (hpayload : api.payloadFromJson payload =
      some ⟨s.state.nextActionId, .newSet rendered approvals⟩)
    (hnew : api.validatorSetFromJson rendered = some new)
    (htally : tallyApprovals api s.state.set (api.sha256 rendered) ⟨∅, false, 0, 0⟩ approvals =
      .ok tally)
    (hcount : 2 ≤ tally.count s.state.set)
    (hprocessor : validateSignature api (api.sha256 payload) processor = .ok new.processor)
    (hused : collectApprovers api (api.sha256 payload) new.approvers [] approvers = .ok used)
    (hneeded : new.neededApprovers.val ≤ used.length) :
    (machine api).step s (info, .signed processor approvers payload) =
      .ok ⟨⟨new, s.state.nextEventId + 1, s.state.nextActionId + 1⟩,
        s.events.insert s.state.nextEventId (.signed info.sender s.state.nextActionId)⟩ := by
  have hexpect : expect api s.state.set (.newSet rendered approvals) =
      .ok ⟨new.processor, new.approvers, new.neededApprovers, .newSet new⟩ := by
    simp only [expect, hnew, fromOption_some, ok_bind, htally, ensure_of hcount, pure_eq_ok]
  simp only [machine, execute, signed, hpayload, fromOption_some, ok_bind, ensure_of, hexpect,
    hprocessor, hused, ensure_of hneeded, ParsedAction.apply, pure_eq_ok]

end Cosmos

/-! ## The Solana program -/

namespace Solana

variable {sys : Sys} {programId : Pubkey}

theorem step_newSet {sender stateAcc systemAcc payer stateAcc' : AccountInfo}
    {ixAccounts : List AccountInfo} {instructionData bytes : Bytes} {data : SignedMsgIxData}
    {bump : UInt8} {state : State} {rendered : String} {approvals : List SignatureWithRecovery}
    {set : ValidatorSet} {nextActionId nextEventId : U64}
    (hsigner : sender.isSigner = true) (hwritable : stateAcc.isWritable = true)
    (hsystem : systemAcc.key = systemId)
    (hdata : signedMsgIxDataCodec.decodeAll instructionData = some data)
    (hload : loadPda sys.toRuntime stateCodec statePda programId stateAcc stateDerivation.seeds =
      .ok ⟨bump, state⟩)
    (hbytes : sys.base64Decode data.payload = some bytes)
    (hpayload : payloadCodec.decodeAll bytes =
      some ⟨state.nextActionId, .newSet rendered approvals⟩)
    (haction : increment state.nextActionId = .ok nextActionId)
    (hevent : increment state.nextEventId = .ok nextEventId)
    (hset : newSet sys state.set (sys.sha256 data.payload) data rendered approvals = .ok set)
    (hstore : (PdaData.mk bump (State.mk set nextEventId nextActionId)).serializeIntoGrowable
      sys.toRuntime stateCodec statePda sender stateAcc = .ok (payer, stateAcc')) :
    (machine sys programId).step stateAcc (.signed sender systemAcc ixAccounts instructionData) =
      .ok stateAcc' := by
  simp only [machine, Call.perform, signed, ensure_of hsigner, ensure_of hwritable,
    ensure_of hsystem, hdata, hload, hbytes, hpayload, fromOption_some, ok_bind, ensure_of, haction,
    hevent, applyAction, hset, hstore, pure_eq_ok]

/-- The validator set stored in an account, if the program can load it. -/
def storedSet (sys : Sys) (programId : Pubkey) (stateAcc : AccountInfo) : Option ValidatorSet :=
  (loadPda sys.toRuntime stateCodec statePda programId stateAcc
    stateDerivation.seeds).toOption.map fun pda => pda.data.set

/-- The instruction submits a new set with the given text and approvals. -/
def Proposes (sys : Sys) (call : Call) (rendered : String)
    (approvals : List SignatureWithRecovery) : Prop :=
  ∃ sender systemAcc ixAccounts instructionData data bytes id,
    call = .signed sender systemAcc ixAccounts instructionData ∧
    signedMsgIxDataCodec.decodeAll instructionData = some data ∧
    sys.base64Decode data.payload = some bytes ∧
    payloadCodec.decodeAll bytes = some ⟨id, .newSet rendered approvals⟩

theorem Proposes.filledBy {stateAcc stateAcc' : AccountInfo} {call : Call} {rendered : String}
    {approvals : List SignatureWithRecovery} (proposes : Proposes sys call rendered approvals)
    (h : (machine sys programId).step stateAcc call = .ok stateAcc') :
    ∃ set, storedSet sys programId stateAcc = some set ∧
      set.FilledBy (signersOf (recover sys) rendered approvals) := by
  obtain ⟨sender, systemAcc, ixAccounts, instructionData, data, bytes, id, rfl, hdata, hbytes,
    hpayload⟩ := proposes
  simp only [machine, Call.perform, signed, hdata, hbytes, hpayload, fromOption_some, ok_bind,
    bind_eq_ok, ensure_eq_ok, exists_unit] at h
  obtain ⟨_, ⟨-, -, -, pda, hload, -, _, -, _, -, set, hset, -⟩, -⟩ := h
  exact ⟨pda.data.set, by simp [storedSet, hload, Except.toOption], newSet_ok hset⟩

end Solana

/-- Approvals that were used to install a set change nothing at any later call, whatever has
happened in between, as long as their signers do not fill two groups of the set that is stored
then. -/
theorem rotation_single_use (api : Cosmos.Api) (sys : Solana.Sys) (programId : Solana.Pubkey) :
    (∀ (s₀ : Cosmos.Storage) calls₁ install calls₂ replay rendered approvals
      rendered' reused,
      let M := Cosmos.machine api
      let s₁ := M.run s₀ calls₁
      let s₃ := M.run s₀ (calls₁ ++ install :: calls₂)
      (∃ s₂, M.step s₁ install = .ok s₂) → Cosmos.Proposes api install rendered approvals →
      Cosmos.Proposes api replay rendered' reused → (∀ sig ∈ reused, sig ∈ approvals) →
      MadeFor (Cosmos.recover api) rendered approvals s₃.state.set →
      ¬s₃.state.set.FilledBy (signersOf (Cosmos.recover api) rendered approvals) →
      M.apply s₃ replay = s₃) ∧
    (∀ (s₀ : Solana.AccountInfo) calls₁ install calls₂ replay rendered approvals rendered' reused,
      let M := Solana.machine sys programId
      let s₁ := M.run s₀ calls₁
      let s₃ := M.run s₀ (calls₁ ++ install :: calls₂)
      (∃ s₂, M.step s₁ install = .ok s₂) → Solana.Proposes sys install rendered approvals →
      Solana.Proposes sys replay rendered' reused → (∀ sig ∈ reused, sig ∈ approvals) →
      (∀ set ∈ Solana.storedSet sys programId s₃,
        MadeFor (Solana.recover sys) rendered approvals set ∧
        ¬set.FilledBy (signersOf (Solana.recover sys) rendered approvals)) →
      M.apply s₃ replay = s₃) := by
  constructor
  · intro s₀ calls₁ install calls₂ replay rendered approvals rendered' reused M s₁ s₃ _ _
      proposes hsub madeFor notFilled
    refine M.apply_induction (P := (· = s₃)) rfl fun s₄ hstep => absurd ?_ notFilled
    exact filledBy_of_reused madeFor hsub (proposes.filledBy hstep)
  · intro s₀ calls₁ install calls₂ replay rendered approvals rendered' reused M s₁ s₃ _ _
      proposes hsub stored
    refine M.apply_induction (P := (· = s₃)) rfl fun s₄ hstep => ?_
    obtain ⟨set, hset, filled⟩ := proposes.filledBy hstep
    obtain ⟨madeFor, notFilled⟩ := stored set hset
    exact absurd (filledBy_of_reused madeFor hsub filled) notFilled

/-! ### A concrete history

Three sets of one key each: `v` installs `s`, and `s` is replaced by `t` or by `v` again. The secret
scalars of the keys are 11, 12 and 13, and all signatures use the nonce one, so their `r` is the
abscissa of the generator. The hash, the recovery and the parsers are tables of the texts that
occur. -/

namespace RotationSample

/-- The point of the key `v`. -/
def pointV : Nat :=
  0x774ae7f858a9411e5ef4246b70c65aac5649980be5c17891bbec17895da008cb * 2 ^ 256 +
    0xd984a032eb6b5e190243dd56d7b7b365372db1e2dff9d6a8301d74c9c953c61b

/-- The point of the key `s`. -/
def pointS : Nat :=
  0xd01115d548e7561b15c38f004d734633687cf4419620095bc5b0f47070afe85a * 2 ^ 256 +
    0xa9f34ffdc815e0d7a8b64537e17bd81579238c5dd9a86d526b051b13f4062327

/-- The point of the key `t`. -/
def pointT : Nat :=
  0xf28773c2d975288bc7d1d205c3748651b075fbc6610e58cddeeddf8f19405aa8 * 2 ^ 256 +
    0x0ab0902e8d880a89758212eb65cdaf473a1a06da521fa91f29b5cb52db03ed81

@[irreducible] def key (point : Nat) : PublicKey :=
  PublicKeyUncompressed.toSec1Bytes (Fin.ofNat _ point)

/-- The set of one key in every role. -/
@[irreducible] def set (point : Nat) : ValidatorSet where
  processor := key point
  listeners := {key point}
  neededListeners := 1
  approvers := {key point}
  neededApprovers := 1

def hexDigits (digits n : Nat) : List Char :=
  (Nat.toDigits 16 n).leftpad digits '0'

/-- The text of the set of one key, with the given quotation mark. -/
def setChars (quote : List Char) (point : Nat) : List Char :=
  let field (name : String) := quote ++ name.toList ++ quote ++ [':']
  let text := quote ++ hexDigits 66 (key point) ++ quote
  ['\x7b'] ++ field "processor" ++ text ++ [','] ++ field "listeners" ++ ['['] ++ text ++
    [']', ','] ++ field "needed_listeners" ++ ['1', ','] ++ field "approvers" ++ ['['] ++ text ++
    [']', ','] ++ field "needed_approvers" ++ ['1', '\x7d']

@[irreducible] def rendered (point : Nat) : String := String.ofList (setChars ['\"'] point)

def generatorX : Nat :=
  0x79be667ef9dcbbac55a06295ce870b07029bfcdb2dce28d959f2815b16f81798

def signature (recid : UInt8) (s : Nat) : SignatureWithRecovery :=
  ⟨recid, Fin.ofNat _ (generatorX * 2 ^ 256 + s)⟩

/-- A rotation to the set of the key of one point, which approves it by that of another: with the
hashes of the three texts that are signed and their signatures. -/
structure Rotation where
  id : Nat
  point : Nat
  approver : Nat
  setHash : Fin (2 ^ 256)
  approval : SignatureWithRecovery
  cosmosHash : Fin (2 ^ 256)
  cosmosSignature : SignatureWithRecovery
  solanaHash : Fin (2 ^ 256)
  solanaSignature : SignatureWithRecovery

/-- A text that is signed, its hash, its signature, and the point of the key that made it. -/
structure Text where
  chars : List Char
  hash : Fin (2 ^ 256)
  signature : SignatureWithRecovery
  point : Nat

namespace Rotation

def setText (r : Rotation) : Text :=
  ⟨setChars ['\"'] r.point, r.setHash, r.approval, r.approver⟩

theorem setText_chars (r : Rotation) : r.setText.chars = setChars ['\"'] r.point := rfl

def cosmosPayload (r : Rotation) : Cosmos.PayloadWithId :=
  ⟨r.id, .newSet (rendered r.point) [r.approval]⟩

/-- The payload of the Cosmos contract. -/
def cosmosText (r : Rotation) : Text where
  chars :=
    "\x7b\"id\":".toList ++ Nat.toDigits 10 r.id ++
      ",\"action\":\x7b\"new_set\":\x7b\"rendered\":\"".toList ++
      setChars ['\\', '\"'] r.point ++ "\",\"approvals\":[\x7b\"recid\":".toList ++
      Nat.toDigits 10 r.approval.recid.toNat ++ ",\"sig\":\"".toList ++
      hexDigits 128 r.approval.sig ++ "\"\x7d]\x7d\x7d\x7d".toList
  hash := r.cosmosHash
  signature := r.cosmosSignature
  point := r.point

def solanaPayload (r : Rotation) : Solana.Payload :=
  ⟨Fin.ofNat _ r.id, .newSet (rendered r.point) [r.approval]⟩

def solanaBytes (r : Rotation) : Bytes :=
  (Solana.payloadCodec.encode r.solanaPayload).getD []

/-- A digit of base 64; the letters come first. -/
def base64Digit (n : Nat) : Char :=
  let n := n % 64
  if n < 26 then Char.ofNat ('A'.toNat + n)
  else if n < 52 then Char.ofNat ('a'.toNat + (n - 26))
  else if n < 62 then Char.ofNat ('0'.toNat + (n - 52))
  else if n = 62 then '+' else '/'

def base64Digits : Bytes → List Char
  | a :: b :: c :: bytes =>
    let n := a.toNat * 2 ^ 16 + b.toNat * 2 ^ 8 + c.toNat
    base64Digit (n / 2 ^ 18) :: base64Digit (n / 2 ^ 12) :: base64Digit (n / 2 ^ 6) ::
      base64Digit n :: base64Digits bytes
  | [a, b] =>
    let n := a.toNat * 2 ^ 16 + b.toNat * 2 ^ 8
    [base64Digit (n / 2 ^ 18), base64Digit (n / 2 ^ 12), base64Digit (n / 2 ^ 6), '=']
  | [a] =>
    let n := a.toNat * 2 ^ 16
    [base64Digit (n / 2 ^ 18), base64Digit (n / 2 ^ 12), '=', '=']
  | [] => []

/-- The payload of the Solana program. -/
def solanaText (r : Rotation) : Text where
  chars := base64Digits r.solanaBytes
  hash := r.solanaHash
  signature := r.solanaSignature
  point := r.point

end Rotation

/-- The set of `v` installs that of `s`. -/
def install : Rotation where
  id := 0
  point := pointS
  approver := pointV
  setHash := 0xcc16d92c33ac5419387b701ee3905e42ea11042023ddada9b8f8d61a1b91ac87
  approval := signature 0 0x074540a0f0286480e65fac8ec35dd797a6abb4230005ad9a17762db736f52889
  cosmosHash := 0xfff0c32a1531227ad975e0f0c3e44b3b3800227de6d691cb9dbfa4b612e18051
  cosmosSignature := signature 1
    0x4b226ee234761171230580098dc73067c3780d8abe7be5a669a2e0de8af92d56
  solanaHash := 0xe67d3868856cb2139548d3380fb9501d0eb2677fac78e76284f26cdbf4f170c7
  solanaSignature := signature 1
    0x6495f9a3c43a81d867328dc241f22b85ecc5c888f8d9900f827018b8a8e93ce0

/-- The set of `s` is replaced by a new one. -/
def next : Rotation where
  id := 1
  point := pointT
  approver := pointS
  setHash := 0x7469fc4f07773819fc3ec88f10cda7b7435f905b89ff0b1646a7ac3ec9179c70
  approval := signature 0 0x2956ca42bdd0042dffc36794bf222c1302963d3993f533dfff178536fb73300a
  cosmosHash := 0x004b5a03f914aa1bca84f3d3e6d3894c3fcfeeacc6ad62b6f431bf02bf531866
  cosmosSignature := signature 0
    0x2ef68e76a94a31dc23a9f56f63af18af01a29865fe71b45a0694195608a6c398
  solanaHash := 0x0429b31bed85c05366a91813d2770d3c1bd5c02f3f3c362ccce8a33a1ca2366c
  solanaSignature := signature 0
    0x32d4e78e9dbb4813bfce19af4f529c9edda869e8770087cfdf4afd8d65f5e19e

/-- The set of `s` is replaced by the one that had installed it. -/
def back : Rotation where
  id := 1
  point := pointV
  approver := pointS
  setHash := 0xf748baf0794ca90428878784658907a2d9f1b53cd9039fe6c23d24abb37b7254
  approval := signature 1 0x53ca771bd05a8ae7d3f3d975ec22740021867acbcc4ed78b452560e8ea5f3b53
  cosmosHash := 0xaf5eef58679805d5d1b4b00d43be2868b2fa61d5ff174a7402e8ed25a3dec661
  cosmosSignature := signature 1
    0x1572a932dbebe9c280671382dc745e42906aee2724c0b59b9e99bb3d40bdbd9d
  solanaHash := 0xd23616a3bd9ac07a9bbfc8158ac4c38da361b2deae185f60c9d0d2f0c7869e6a
  solanaSignature := signature 0
    0x0d647e187a16d0e249a404856a923ce25ffc62e18a405f51284e2a8de2ea1a6c

/-- The set of `s` is installed with the old approval. -/
def replay : Rotation where
  __ := install
  id := 2
  cosmosHash := 0x19a9feb32d1b20024095dc74f32d23b7e22586ef0ee778a4f1fd51564ffe1bc3
  cosmosSignature := signature 1
    0x316933591c8c13e9bbe584855e7e57ec5ea3cc32e7225e915592d5b17da650a3
  solanaHash := 0x2cf52d82fce406452c9c8da5e2327f3d8a3b2516c5add8c5db90bb9c00fc6183
  solanaSignature := signature 1
    0x1e1e04894cc32da6cfded3546f78fc66b68e2e0b305bfe706bff6b6bcca80ae3

def rotations : List Rotation := [install, next, back, replay]

def texts : List Text :=
  [install, next, back].map Rotation.setText ++ rotations.map Rotation.cosmosText ++
    rotations.map Rotation.solanaText

@[irreducible] def sha256 (text : String) : Fin (2 ^ 256) :=
  ((texts.find? fun t => t.chars = text.toList).map (·.hash)).getD 0

/-- The point of the key that made a signature over a hash. -/
@[irreducible] def recoverPoint (hash : Fin (2 ^ 256)) (sig : SignatureWithRecovery) : Option Nat :=
  (texts.find? fun t => t.hash = hash ∧ t.signature = sig).map (·.point)

@[irreducible] def validatorSetFromJson (text : String) : Option ValidatorSet :=
  ([install, next, back].find? fun r => r.setText.chars = text.toList).map fun r => set r.point

def api : Cosmos.Api where
  sha256 := sha256
  secp256k1RecoverPubkey hash sig recid :=
    (recoverPoint hash ⟨recid, sig⟩).map fun point => 4 :: Bytes.toBE 64 point
  payloadFromJson text :=
    (rotations.find? fun r => r.cosmosText.chars = text.toList).map Rotation.cosmosPayload
  selfReplaceFromJson _ := none
  validatorSetFromJson := validatorSetFromJson

def sys : Solana.Sys where
  toRuntime := Solana.sampleRuntime
  sha256 := sha256
  solSecp256k1Recover hash recid sig :=
    match recoverPoint hash ⟨recid, sig⟩ with
    | some point => .ok (Fin.ofNat _ point)
    | none => .error 3
  base64Decode text :=
    (rotations.find? fun r => r.solanaText.chars = text.toList).map Rotation.solanaBytes
  selfReplaceFromJson _ := none
  validatorSetFromJson := validatorSetFromJson
  invoke _ _ := .ok ()

def Rotation.cosmosCall (r : Rotation) : Cosmos.MessageInfo × Cosmos.ExecuteMsg :=
  (⟨"relayer", []⟩,
    .signed r.cosmosSignature [r.cosmosSignature] (String.ofList r.cosmosText.chars))

def systemAcc : Solana.AccountInfo where
  key := Solana.systemId
  owner := Solana.systemId
  lamports := 1
  data := []
  isSigner := false
  isWritable := false
  borrowed := false

/-- The account that stores the set of one key and the id of the next action. -/
@[irreducible] def stateAcc (point id : Nat) : Solana.AccountInfo where
  key := Solana.sampleAddress
  owner := 7
  lamports := 10 ^ 9
  data := Solana.statePda :: 253 ::
    (Solana.stateCodec.encode ⟨set point, Fin.ofNat _ id + 1, Fin.ofNat _ id⟩).getD []
  isSigner := false
  isWritable := true
  borrowed := false

def Rotation.solanaData (r : Rotation) : Solana.SignedMsgIxData :=
  ⟨r.solanaSignature, [r.solanaSignature], String.ofList r.solanaText.chars⟩

def Rotation.solanaCall (r : Rotation) : Solana.Call :=
  .signed Solana.samplePayer systemAcc []
    ((Solana.signedMsgIxDataCodec.encode r.solanaData).getD [])

/-- The bytes of the payload of the Solana program, field by field. -/
def Rotation.solanaLayout (r : Rotation) : Bytes :=
  let text := (setChars ['\"'] r.point).flatMap String.utf8EncodeChar
  Bytes.toLE 8 (Fin.ofNat (256 ^ 8) r.id) ++ 2 :: ((Bytes.toLE 4 text.length ++ text) ++
    (Bytes.toLE 4 1 ++ (r.approval.recid :: Bytes.toBE 64 r.approval.sig)))

/-- What is computed of each rotation. -/
structure Rotation.Checked (r : Rotation) : Prop where
  text : (setChars ['\"'] r.point).length = 290
  base64 : (base64Digits r.solanaLayout).length = 496
  cosmos : Cosmos.validateSignature api r.setHash r.approval = .ok (key r.approver) ∧
    Cosmos.validateSignature api r.cosmosHash r.cosmosSignature = .ok (key r.point) ∧
    2 ≤ (Cosmos.Tally.of (set r.approver) {key r.approver}).count (set r.approver)
  solana : Solana.secp256k1Recover sys r.setHash r.approval = .ok (key r.approver) ∧
    Solana.secp256k1Recover sys r.solanaHash r.solanaSignature = .ok (key r.point)
  ids : Solana.increment (Fin.ofNat _ r.id) = .ok (Fin.ofNat _ (r.id + 1)) ∧
    Solana.increment (Fin.ofNat _ r.id + 1) = .ok (Fin.ofNat _ (r.id + 1) + 1)

theorem checked {r : Rotation} (hr : r ∈ rotations) : r.Checked := by
  have all : ∀ r ∈ rotations, (setChars ['\"'] r.point).length = 290 ∧
      (Rotation.base64Digits r.solanaLayout).length = 496 ∧
      (Cosmos.validateSignature api r.setHash r.approval = .ok (key r.approver) ∧
        Cosmos.validateSignature api r.cosmosHash r.cosmosSignature = .ok (key r.point) ∧
        2 ≤ (Cosmos.Tally.of (set r.approver) {key r.approver}).count (set r.approver)) ∧
      (Solana.secp256k1Recover sys r.setHash r.approval = .ok (key r.approver) ∧
        Solana.secp256k1Recover sys r.solanaHash r.solanaSignature = .ok (key r.point)) ∧
      Solana.increment (Fin.ofNat _ r.id) = .ok (Fin.ofNat _ (r.id + 1)) ∧
      Solana.increment (Fin.ofNat _ r.id + 1) = .ok (Fin.ofNat _ (r.id + 1) + 1) := by
    decide +kernel
  obtain ⟨text, base64, cosmos, solana, ids⟩ := all r hr
  exact ⟨text, base64, cosmos, solana, ids⟩

/-- Texts that differ are found in a table by their characters. -/
theorem find_chars {α : Type} (f : α → List Char) {table : List α} {a : α}
    (distinct : table.Pairwise fun a b => f a ≠ f b) (ha : a ∈ table) :
    table.find? (fun b => f b = (String.ofList (f a)).toList) = some a := by
  rw [String.toList_ofList]
  induction table with
  | nil => cases ha
  | cons b table ih =>
    obtain ⟨hb, distinct⟩ := List.pairwise_cons.mp distinct
    rcases List.mem_cons.mp ha with rfl | ha
    · simp
    · rw [List.find?_cons_of_neg (by simpa using hb a ha)]
      exact ih distinct ha

theorem flatMap_utf8 (chars : List Char) :
    (String.ofList chars).toByteArray.data.toList = chars.flatMap String.utf8EncodeChar := by
  rw [String.toByteArray_ofList, List.utf8Encode]
  simp

theorem length_utf8 (s : String) : s.toByteArray.data.toList.length = s.utf8ByteSize := by
  rw [Array.length_toList]
  exact s.size_toByteArray

theorem utf8ByteSize_ofList (chars : List Char) :
    (String.ofList chars).utf8ByteSize ≤ 4 * chars.length := by
  have h : (String.ofList chars).utf8ByteSize = (chars.flatMap String.utf8EncodeChar).length := by
    rw [← String.size_toByteArray, String.toByteArray_ofList, List.utf8Encode]
    simp
  rw [h]
  clear h
  induction chars with
  | nil => simp
  | cons c chars ih =>
    have hc := c.utf8Size_le_four
    simp only [List.flatMap_cons, List.length_append, String.length_utf8EncodeChar,
      List.length_cons]
    omega

theorem rendered_short {r : Rotation} (hr : r ∈ rotations) :
    (rendered r.point).utf8ByteSize < 256 ^ 4 := by
  have hsize := utf8ByteSize_ofList (setChars ['\"'] r.point)
  rw [(checked hr).text] at hsize
  unfold rendered
  omega

theorem Rotation.solanaBytes_eq {r : Rotation} (hr : r ∈ rotations) :
    r.solanaBytes = r.solanaLayout := by
  have hbytes : (rendered r.point).toByteArray.data.toList =
      (setChars ['\"'] r.point).flatMap String.utf8EncodeChar := by
    rw [rendered, flatMap_utf8]
  have hshort : (rendered r.point).toByteArray.data.toList.length < 256 ^ 4 := by
    rw [length_utf8]
    exact rendered_short hr
  have htext := Codec.encode_string_of hshort
  rw [hbytes] at htext
  have happrovals : (Codec.list Solana.signatureCodec).encode [r.approval] =
      some (Bytes.toLE 4 1 ++ (r.approval.recid :: Bytes.toBE 64 r.approval.sig)) := rfl
  have haction := Solana.encode_newSet htext happrovals
  have hpayload : Solana.payloadCodec.encode r.solanaPayload = some r.solanaLayout :=
    Codec.encode_pair.mpr ⟨_, rfl, _, haction, rfl⟩
  rw [solanaBytes, hpayload, Option.getD_some]

theorem texts_chars : texts.map Text.chars =
    [install, next, back].map (fun r => r.setText.chars) ++
      rotations.map (fun r => r.cosmosText.chars) ++
        rotations.map (fun r => Rotation.base64Digits r.solanaLayout) := by
  have hsolana : rotations.map (fun r => r.solanaText.chars) =
      rotations.map fun r => Rotation.base64Digits r.solanaLayout :=
    List.map_congr_left fun r hr => by rw [← Rotation.solanaBytes_eq hr]; rfl
  rw [← hsolana, texts, List.map_append, List.map_append, List.map_map, List.map_map, List.map_map]
  rfl

theorem texts_distinct : texts.Pairwise fun t t' => t.chars ≠ t'.chars := by
  have distinct : (texts.map Text.chars).Pairwise fun chars chars' => chars ≠ chars' := by
    rw [texts_chars]
    decide +kernel
  exact List.pairwise_map.mp distinct

theorem distinct_of_sublist {l : List Rotation} {f : Rotation → Text}
    (h : List.Sublist (l.map f) texts) : l.Pairwise fun r r' => (f r).chars ≠ (f r').chars := by
  have distinct := texts_distinct.sublist h
  rwa [List.pairwise_map] at distinct

theorem sha256_text {t : Text} (ht : t ∈ texts) : sha256 (String.ofList t.chars) = t.hash := by
  rw [sha256, find_chars (·.chars) texts_distinct ht]
  rfl

/-- The approval of the set of `s` is nobody's signature of any other text. -/
theorem text_of_recoverPoint {text : String} {point : Nat}
    (h : recoverPoint (sha256 text) install.approval = some point) : text = rendered pointS := by
  obtain ⟨others, unknown⟩ : (∀ t ∈ texts.tail, recoverPoint t.hash install.approval = none) ∧
      recoverPoint 0 install.approval = none := by
    decide +kernel
  unfold sha256 at h
  cases hfind : texts.find? fun t => t.chars = text.toList with
  | none =>
    rw [hfind] at h
    exact absurd (unknown.symm.trans h) (by simp)
  | some t =>
    rw [hfind] at h
    have hchars : t.chars = text.toList := by simpa using List.find?_some hfind
    have hmem : t ∈ install.setText :: texts.tail := List.mem_of_find?_eq_some hfind
    rcases List.mem_cons.mp hmem with rfl | hmem
    · rw [← String.ofList_toList (s := text), ← hchars, Rotation.setText_chars, rendered]
      rfl
    · exact absurd ((others t hmem).symm.trans h) (by simp)

theorem setText_mem {r : Rotation} (hr : r ∈ rotations) : r.setText ∈ texts := by
  simp only [rotations, List.mem_cons, List.not_mem_nil, or_false] at hr
  rcases hr with rfl | rfl | rfl | rfl
  · exact List.mem_cons_self
  · exact List.mem_cons_of_mem _ List.mem_cons_self
  · exact List.mem_cons_of_mem _ (List.mem_cons_of_mem _ List.mem_cons_self)
  · exact List.mem_cons_self

theorem cosmosText_mem {r : Rotation} (hr : r ∈ rotations) : r.cosmosText ∈ texts :=
  List.mem_append_left _ (List.mem_append_right _ (List.mem_map_of_mem hr))

theorem solanaText_mem {r : Rotation} (hr : r ∈ rotations) : r.solanaText ∈ texts :=
  List.mem_append_right _ (List.mem_map_of_mem hr)

theorem sha256_set {r : Rotation} (hr : r ∈ rotations) :
    sha256 (rendered r.point) = r.setHash := by
  rw [rendered, ← Rotation.setText_chars, sha256_text (setText_mem hr)]
  rfl

theorem sha256_cosmos {r : Rotation} (hr : r ∈ rotations) :
    sha256 (String.ofList r.cosmosText.chars) = r.cosmosHash := by
  rw [sha256_text (cosmosText_mem hr)]
  rfl

theorem sha256_solana {r : Rotation} (hr : r ∈ rotations) :
    sha256 (String.ofList r.solanaText.chars) = r.solanaHash := by
  rw [sha256_text (solanaText_mem hr)]
  rfl

theorem parsed_set {r : Rotation} (hr : r ∈ rotations) :
    validatorSetFromJson (rendered r.point) = some (set r.point) := by
  have distinct : [install, next, back].Pairwise fun r r' => r.setText.chars ≠ r'.setText.chars :=
    distinct_of_sublist ((List.sublist_append_left _ _).trans (List.sublist_append_left _ _))
  have found : ∀ r ∈ [install, next, back],
      validatorSetFromJson (rendered r.point) = some (set r.point) := by
    intro r hr
    rw [validatorSetFromJson, rendered, ← Rotation.setText_chars,
      find_chars (fun r => r.setText.chars) distinct hr, Option.map_some]
  simp only [rotations, List.mem_cons, List.not_mem_nil, or_false] at hr
  rcases hr with rfl | rfl | rfl | rfl
  · exact found install (by simp)
  · exact found next (by simp)
  · exact found back (by simp)
  · exact found install (by simp)

theorem parsed_cosmos {r : Rotation} (hr : r ∈ rotations) :
    api.payloadFromJson (String.ofList r.cosmosText.chars) = some r.cosmosPayload := by
  have distinct : rotations.Pairwise fun r r' => r.cosmosText.chars ≠ r'.cosmosText.chars :=
    distinct_of_sublist ((List.sublist_append_right _ _).trans (List.sublist_append_left _ _))
  simp only [api, find_chars (fun r => r.cosmosText.chars) distinct hr, Option.map_some]

theorem parsed_base64 {r : Rotation} (hr : r ∈ rotations) :
    sys.base64Decode (String.ofList r.solanaText.chars) = some r.solanaBytes := by
  have distinct : rotations.Pairwise fun r r' => r.solanaText.chars ≠ r'.solanaText.chars :=
    distinct_of_sublist (List.sublist_append_right _ _)
  simp only [sys, find_chars (fun r => r.solanaText.chars) distinct hr, Option.map_some]

theorem parsed_solana {r : Rotation} (hr : r ∈ rotations) :
    Solana.payloadCodec.decodeAll r.solanaBytes = some r.solanaPayload := by
  have hexists : ∃ bs, Solana.payloadCodec.encode r.solanaPayload = some bs := by
    unfold Rotation.solanaPayload
    exact Solana.exists_encode_newSet (rendered_short hr) (by simp)
  obtain ⟨bs, hbs⟩ := hexists
  rw [Rotation.solanaBytes, hbs, Option.getD_some]
  exact Solana.payloadCodec.decodeAll_encode hbs

theorem parsed_data {r : Rotation} (hr : r ∈ rotations) :
    Solana.signedMsgIxDataCodec.decodeAll
      ((Solana.signedMsgIxDataCodec.encode r.solanaData).getD []) = some r.solanaData := by
  have hsize := utf8ByteSize_ofList r.solanaText.chars
  have hchars : r.solanaText.chars = Rotation.base64Digits r.solanaLayout := by
    rw [← Rotation.solanaBytes_eq hr]
    rfl
  rw [hchars, (checked hr).base64, ← hchars] at hsize
  have happrovers : r.solanaData.approvers.length < 256 ^ 4 := by simp [Rotation.solanaData]
  obtain ⟨bs, hbs⟩ := Solana.exists_encode_signedMsgIxData happrovers (by unfold Rotation.solanaData; dsimp only; omega)
  rw [hbs]
  exact Solana.signedMsgIxDataCodec.decodeAll_encode hbs

theorem cosmos_proposes {r : Rotation} (hr : r ∈ rotations) :
    Cosmos.Proposes api r.cosmosCall (rendered r.point) [r.approval] :=
  ⟨_, _, _, _, rfl, parsed_cosmos hr⟩

theorem solana_proposes {r : Rotation} (hr : r ∈ rotations) :
    Solana.Proposes sys r.solanaCall (rendered r.point) [r.approval] :=
  ⟨_, _, _, _, _, _, _, rfl, parsed_data hr, parsed_base64 hr, parsed_solana hr⟩

theorem cosmos_madeFor (set : ValidatorSet) :
    MadeFor (Cosmos.recover api) (rendered pointS) [install.approval] set := by
  intro sig hsig other key hrec _
  obtain rfl := List.mem_singleton.mp hsig
  rw [Cosmos.recover_eq_some, Cosmos.validateSignature, bind_eq_ok] at hrec
  obtain ⟨bytes, hbytes, -⟩ := hrec
  obtain ⟨point, hpoint, -⟩ := Option.map_eq_some_iff.mp (fromOption_eq_ok.mp hbytes)
  exact text_of_recoverPoint hpoint

theorem solana_madeFor (set : ValidatorSet) :
    MadeFor (Solana.recover sys) (rendered pointS) [install.approval] set := by
  intro sig hsig other key hrec _
  obtain rfl := List.mem_singleton.mp hsig
  simp only [Solana.recover_eq_some, Solana.secp256k1Recover, bind_eq_ok, exists_unit] at hrec
  obtain ⟨-, point, hpoint, -⟩ := hrec
  cases hrecover : recoverPoint (sha256 other) install.approval with
  | none =>
    have : sys.solSecp256k1Recover (sha256 other) install.approval.recid install.approval.sig =
        .error 3 := by
      simp only [sys, hrecover]
    change (sys.solSecp256k1Recover (sha256 other) _ _).mapError _ = _ at hpoint
    rw [this] at hpoint
    cases hpoint
  | some point => exact text_of_recoverPoint hrecover

theorem api_sha256 : api.sha256 = sha256 := rfl

theorem api_validatorSetFromJson : api.validatorSetFromJson = validatorSetFromJson := rfl

theorem tally_single {set : ValidatorSet} {a : PublicKey} {text : String}
    {sig : SignatureWithRecovery} (h : Cosmos.recover api text sig = some a) :
    Cosmos.tallyApprovals api set (api.sha256 text) ⟨∅, false, 0, 0⟩ [sig] =
      .ok (Cosmos.Tally.of set {a}) := by
  rw [← Cosmos.Tally.of_empty set, Cosmos.tallyApprovals_eq_ok]
  exact ⟨[a], .cons h .nil, by simp, by simp, by simp⟩

theorem collectApprovers_single {hash : Cosmos.Hash} {sig : SignatureWithRecovery} {a : PublicKey}
    (h : Cosmos.validateSignature api hash sig = .ok a) :
    Cosmos.collectApprovers api hash {a} [] [sig] = .ok [a] := by
  simp [Cosmos.collectApprovers, h, ensure]

/-- A rotation signed by the key of the stored set succeeds. -/
theorem cosmos_step {r : Rotation} (hr : r ∈ rotations) (e : Nat)
    (events : SortedMap BridgeEventId Cosmos.BridgeEventMessage) :
    (Cosmos.machine api).step ⟨⟨set r.approver, e, r.id⟩, events⟩ r.cosmosCall =
      .ok ⟨⟨set r.point, e + 1, r.id + 1⟩, events.insert e (.signed "relayer" r.id)⟩ := by
  obtain ⟨happroval, hsignature, hcount⟩ := (checked hr).cosmos
  have hhash : api.sha256 (String.ofList r.cosmosText.chars) = r.cosmosHash := by
    rw [api_sha256, sha256_cosmos hr]
  have hset : api.sha256 (rendered r.point) = r.setHash := by rw [api_sha256, sha256_set hr]
  have htally : Cosmos.tallyApprovals api (set r.approver) (api.sha256 (rendered r.point))
      ⟨∅, false, 0, 0⟩ [r.approval] = .ok (Cosmos.Tally.of (set r.approver) {key r.approver}) :=
    tally_single (Cosmos.recover_eq_some.mpr (by rw [hset, happroval]))
  have hprocessor : (set r.point).processor = key r.point := by unfold set; rfl
  have happrovers : (set r.point).approvers = {key r.point} := by unfold set; rfl
  have hneeded : (set r.point).neededApprovers = 1 := by unfold set; rfl
  have hused : Cosmos.collectApprovers api (api.sha256 (String.ofList r.cosmosText.chars))
      (set r.point).approvers [] [r.cosmosSignature] = .ok [key r.point] := by
    rw [hhash, happrovers, collectApprovers_single hsignature]
  have hparsed : api.validatorSetFromJson (rendered r.point) = some (set r.point) := by
    rw [api_validatorSetFromJson, parsed_set hr]
  have hpayload : api.payloadFromJson (String.ofList r.cosmosText.chars) =
      some ⟨r.id, .newSet (rendered r.point) [r.approval]⟩ := parsed_cosmos hr
  rw [Rotation.cosmosCall]
  refine Cosmos.step_newSet (s := ⟨⟨set r.approver, e, r.id⟩, events⟩) hpayload hparsed htally
    hcount ?_ hused ?_
  · rw [hhash, hsignature, hprocessor]
  · rw [hneeded]
    simp

theorem sys_sha256 : sys.sha256 = sha256 := rfl

theorem sys_validatorSetFromJson : sys.validatorSetFromJson = validatorSetFromJson := rfl

theorem solana_tally_single {hash : Solana.Hash} {sig : SignatureWithRecovery} {a : PublicKey}
    {set : ValidatorSet} (h : Solana.secp256k1Recover sys hash sig = .ok a)
    (hset : set.processor = a ∧ set.listeners = {a} ∧ set.approvers = {a}) :
    Solana.tallyApprovals sys set hash ⟨[], false, 0, 0⟩ [sig] = .ok ⟨[a], true, 1, 1⟩ := by
  obtain ⟨hprocessor, hlisteners, happrovers⟩ := hset
  simp [Solana.tallyApprovals, h, hprocessor, hlisteners, happrovers, Solana.countIf, ensure]

theorem verifySignatures_single {hash : Solana.Hash} {sig : SignatureWithRecovery} {a : PublicKey}
    (h : Solana.secp256k1Recover sys hash sig = .ok a) :
    Solana.verifySignatures sys hash sig a [sig] {a} 1 = .ok () := by
  simp [Solana.verifySignatures, Solana.collectApprovers, h, ensure]

theorem set_eq (point : Nat) : set point = ⟨key point, {key point}, 1, {key point}, 1⟩ := by
  unfold set
  rfl

/-- All the sets have the same size, so one takes the place of another in the account. -/
theorem exists_encode (point id : Nat) :
    ∃ bs, Solana.stateCodec.encode ⟨set point, Fin.ofNat _ id + 1, Fin.ofNat _ id⟩ = some bs ∧
      bs.length = 127 := by
  have hset := set_eq point
  obtain ⟨bs, hbs⟩ := Solana.exists_encode_state
    (s := ⟨set point, Fin.ofNat _ id + 1, Fin.ofNat _ id⟩)
    (by rw [hset, Finset.card_singleton]; norm_num) (by rw [hset, Finset.card_singleton]; norm_num)
  refine ⟨bs, hbs, ?_⟩
  rw [Solana.length_state hbs, Solana.validatorSetSize, hset]
  simp

theorem stateAcc_data {point id : Nat} {bs : Bytes}
    (hbs : Solana.stateCodec.encode ⟨set point, Fin.ofNat _ id + 1, Fin.ofNat _ id⟩ = some bs) :
    (stateAcc point id).data = Solana.statePda :: 253 :: bs := by
  rw [stateAcc, hbs, Option.getD_some]

theorem stateAcc_holds {point id : Nat} {bs : Bytes}
    (hbs : Solana.stateCodec.encode ⟨set point, Fin.ofNat _ id + 1, Fin.ofNat _ id⟩ = some bs)
    (hlen : bs.length = 127) :
    Solana.Holds sys.toRuntime Solana.statePda 7 Solana.stateDerivation.seeds
      (stateAcc point id) 253 bs where
  owner := by simp [stateAcc]
  free := by simp [stateAcc]
  funded := by simp [stateAcc]
  rentExempt := by
    rw [stateAcc_data hbs]
    simp [stateAcc, sys, Solana.sampleRuntime, hlen]
  address := by simp [stateAcc, sys, Solana.sampleRuntime, Solana.sampleCreateProgramAddress,
    Solana.stateDerivation]
  data := stateAcc_data hbs

theorem release_stateAcc {point id point' id' : Nat} {bs : Bytes}
    (hbs : Solana.stateCodec.encode ⟨set point', Fin.ofNat _ id' + 1, Fin.ofNat _ id'⟩ =
      some bs) :
    (stateAcc point id).release (Solana.statePda :: 253 :: bs) = stateAcc point' id' := by
  unfold stateAcc
  rw [hbs]
  rfl

theorem solana_step {r : Rotation} (hr : r ∈ rotations) :
    (Solana.machine sys 7).step (stateAcc r.approver r.id) r.solanaCall =
      .ok (stateAcc r.point (r.id + 1)) := by
  obtain ⟨happroval, hsignature⟩ := (checked hr).solana
  obtain ⟨bs, hbs, hlen⟩ := exists_encode r.approver r.id
  obtain ⟨bs', hbs', hlen'⟩ := exists_encode r.point (r.id + 1)
  have holds := stateAcc_holds hbs hlen
  have hhash : sys.sha256 (String.ofList r.solanaText.chars) = r.solanaHash := by
    rw [sys_sha256, sha256_solana hr]
  have hset : sys.sha256 (rendered r.point) = r.setHash := by rw [sys_sha256, sha256_set hr]
  have hparsed : sys.validatorSetFromJson (rendered r.point) = some (set r.point) := by
    rw [sys_validatorSetFromJson, parsed_set hr]
  have htally : Solana.tallyApprovals sys (set r.approver) (sys.sha256 (rendered r.point))
      ⟨[], false, 0, 0⟩ [r.approval] = .ok ⟨[key r.approver], true, 1, 1⟩ := by
    rw [hset]
    exact solana_tally_single happroval (by rw [set_eq]; exact ⟨rfl, rfl, rfl⟩)
  have hnewSet : Solana.newSet sys (set r.approver) (sys.sha256 r.solanaData.payload) r.solanaData
      (rendered r.point) [r.approval] = .ok (set r.point) := by
    refine Solana.newSet_of hparsed htally (List.nodup_singleton _) ?_ ?_
    · rw [set_eq]
      simp [Solana.Tally.count]
    · rw [set_eq]
      change Solana.verifySignatures sys (sys.sha256 (String.ofList r.solanaText.chars))
        _ _ _ _ _ = _
      rw [hhash]
      exact verifySignatures_single hsignature
  have hstore : (Solana.PdaData.mk 253 (Solana.State.mk (set r.point) (Fin.ofNat _ (r.id + 1) + 1)
      (Fin.ofNat _ (r.id + 1)))).serializeIntoGrowable sys.toRuntime Solana.stateCodec
        Solana.statePda Solana.samplePayer (stateAcc r.approver r.id) =
      .ok (Solana.samplePayer, stateAcc r.point (r.id + 1)) := by
    have h : Solana.PdaData.store _ _ _ .growable ⟨253, _⟩ Solana.samplePayer _ = _ :=
      holds.store_of_le hbs' (hlen'.trans hlen.symm).le .growable
    rw [List.drop_of_length_le (hlen.trans hlen'.symm).le, List.append_nil] at h
    rw [release_stateAcc hbs'] at h
    exact h
  obtain ⟨haction, hevent⟩ := (checked hr).ids
  exact Solana.step_newSet rfl (by simp [stateAcc]) rfl (parsed_data hr) (holds.load hbs)
    (parsed_base64 hr) (parsed_solana hr) haction hevent hnewSet hstore

theorem storedSet_stateAcc (point id : Nat) :
    Solana.storedSet sys 7 (stateAcc point id) = some (set point) := by
  obtain ⟨bs, hbs, hlen⟩ := exists_encode point id
  rw [Solana.storedSet, (stateAcc_holds hbs hlen).load hbs]
  rfl

theorem not_filledBy {p q : Nat} (h : key p ≠ key q) : ¬(set q).FilledBy {key p} := by
  rw [set_eq]
  simp [ValidatorSet.FilledBy, TwoOfThree, h.symm]

theorem signersOf_single {recover : String → SignatureWithRecovery → Option PublicKey}
    {text : String} {sig : SignatureWithRecovery} {a : PublicKey} (h : recover text sig = some a) :
    signersOf recover text [sig] = {a} := by
  rw [signersOf, List.filterMap_cons_some h, List.filterMap_nil]
  simp

theorem cosmos_signersOf {r : Rotation} (hr : r ∈ rotations) :
    signersOf (Cosmos.recover api) (rendered r.point) [r.approval] = {key r.approver} := by
  refine signersOf_single (Cosmos.recover_eq_some.mpr ?_)
  rw [api_sha256, sha256_set hr, (checked hr).cosmos.1]

theorem solana_signersOf {r : Rotation} (hr : r ∈ rotations) :
    signersOf (Solana.recover sys) (rendered r.point) [r.approval] = {key r.approver} := by
  refine signersOf_single (Solana.recover_eq_some.mpr ?_)
  rw [sys_sha256, sha256_set hr, (checked hr).solana.1]

/-- Two rotations, the second approved by the key that the first one brought in. -/
theorem cosmos_run {r r' : Rotation} (hr : r ∈ rotations) (hr' : r' ∈ rotations)
    (hpoint : r'.approver = r.point) (hid : r'.id = r.id + 1) :
    ∃ events, (Cosmos.machine api).run ⟨⟨set r.approver, 1, r.id⟩, ∅⟩
      [r.cosmosCall, r'.cosmosCall] = ⟨⟨set r'.point, 3, r'.id + 1⟩, events⟩ := by
  have h := cosmos_step hr 1 ∅
  have h' := cosmos_step hr' 2 (SortedMap.insert ∅ 1 (.signed "relayer" r.id))
  rw [hpoint, hid] at h'
  exact ⟨_, by rw [Machine.run_cons, Machine.apply_of_ok _ h, Machine.run_cons,
    Machine.apply_of_ok _ h', Machine.run_nil, hid]⟩

theorem solana_run {r r' : Rotation} (hr : r ∈ rotations) (hr' : r' ∈ rotations)
    (hpoint : r'.approver = r.point) (hid : r'.id = r.id + 1) :
    (Solana.machine sys 7).run (stateAcc r.approver r.id)
      [r.solanaCall, r'.solanaCall] = stateAcc r'.point (r'.id + 1) := by
  have h := solana_step hr
  have h' := solana_step hr'
  rw [hpoint, hid] at h'
  rw [Machine.run_cons, Machine.apply_of_ok _ h, Machine.run_cons, Machine.apply_of_ok _ h',
    Machine.run_nil, hid]

theorem install_mem : install ∈ rotations := by simp [rotations]

theorem next_mem : next ∈ rotations := by simp [rotations]

theorem back_mem : back ∈ rotations := by simp [rotations]

theorem replay_mem : replay ∈ rotations := by simp [rotations]

end RotationSample

open RotationSample in
/-- The set of `s` has been replaced by a set of another key, and its old approval is of no use. -/
theorem rotation_single_use_example :
    (let M := Cosmos.machine api
      let s₃ := M.run ⟨⟨set install.approver, 1, install.id⟩, ∅⟩
        [install.cosmosCall, next.cosmosCall]
      M.apply s₃ replay.cosmosCall = s₃) ∧
    (let M := Solana.machine sys 7
      let s₃ := M.run (stateAcc install.approver install.id) [install.solanaCall, next.solanaCall]
      M.apply s₃ replay.solanaCall = s₃) := by
  have hne : key install.approver ≠ key next.point := by decide +kernel
  constructor
  · obtain ⟨events, hrun⟩ := cosmos_run install_mem next_mem rfl rfl
    refine (rotation_single_use api sys 7).1 _ [] install.cosmosCall [next.cosmosCall] replay.cosmosCall
      (rendered install.point) [install.approval] (rendered replay.point) [replay.approval]
      ⟨_, cosmos_step install_mem 1 ∅⟩ (cosmos_proposes install_mem) (cosmos_proposes replay_mem)
      (fun _ h => h) (cosmos_madeFor _) ?_
    rw [List.nil_append, hrun, cosmos_signersOf install_mem]
    exact not_filledBy hne
  · have hrun := solana_run install_mem next_mem rfl rfl
    refine (rotation_single_use api sys 7).2 _ [] install.solanaCall [next.solanaCall] replay.solanaCall
      (rendered install.point) [install.approval] (rendered replay.point) [replay.approval]
      ⟨_, solana_step install_mem⟩ (solana_proposes install_mem) (solana_proposes replay_mem)
      (fun _ h => h) ?_
    intro W hW
    rw [List.nil_append, hrun, storedSet_stateAcc] at hW
    obtain rfl := Option.some.inj hW
    refine ⟨solana_madeFor _, ?_⟩
    rw [solana_signersOf install_mem]
    exact not_filledBy hne

open RotationSample in
/-- Once `v` is back, the old approval installs the set of `s` again; everything else of the call
is signed by `s` alone. -/
theorem rotation_single_use_counterexample :
    key install.approver ≠ key install.point ∧
    (let M := Cosmos.machine api
      let s₃ := M.run ⟨⟨set install.approver, 1, install.id⟩, ∅⟩
        [install.cosmosCall, back.cosmosCall]
      Cosmos.Proposes api install.cosmosCall (rendered install.point) [install.approval] ∧
      Cosmos.Proposes api replay.cosmosCall (rendered install.point) [install.approval] ∧
      replay.cosmosCall.2 = .signed replay.cosmosSignature [replay.cosmosSignature]
        (String.ofList replay.cosmosText.chars) ∧
      Cosmos.recover api (String.ofList replay.cosmosText.chars) replay.cosmosSignature =
        some (key install.point) ∧
      s₃.state.set = set install.approver ∧
      (M.apply s₃ replay.cosmosCall).state.set = set install.point) ∧
    (let M := Solana.machine sys 7
      let s₃ := M.run (stateAcc install.approver install.id) [install.solanaCall, back.solanaCall]
      Solana.Proposes sys install.solanaCall (rendered install.point) [install.approval] ∧
      Solana.Proposes sys replay.solanaCall (rendered install.point) [install.approval] ∧
      Solana.storedSet sys 7 s₃ = some (set install.approver) ∧
      Solana.storedSet sys 7 (M.apply s₃ replay.solanaCall) = some (set install.point)) := by
  have hne : key install.approver ≠ key install.point := by decide +kernel
  obtain ⟨events, hcosmos⟩ := cosmos_run install_mem back_mem rfl rfl
  have hsolana := solana_run install_mem back_mem rfl rfl
  have hsigned : Cosmos.recover api (String.ofList replay.cosmosText.chars)
      replay.cosmosSignature = some (key install.point) := by
    rw [Cosmos.recover_eq_some, api_sha256, sha256_cosmos replay_mem]
    exact (checked replay_mem).cosmos.2.1
  have hagain := cosmos_step replay_mem 3 events
  refine ⟨hne, ⟨cosmos_proposes install_mem, cosmos_proposes replay_mem, rfl, hsigned, ?_, ?_⟩,
    solana_proposes install_mem, solana_proposes replay_mem, ?_, ?_⟩
  · rw [hcosmos]
    rfl
  · rw [hcosmos]
    exact congrArg (fun s : Cosmos.Storage => s.state.set) (Machine.apply_of_ok _ hagain)
  · rw [hsolana]
    exact storedSet_stateAcc _ _
  · rw [hsolana]
    have h := Machine.apply_of_ok _ (solana_step replay_mem)
    exact (congrArg (Solana.storedSet sys 7) h).trans (storedSet_stateAcc _ _)

end Kolme
