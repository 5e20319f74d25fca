import Kolme.Contracts.Solana.Bridge
import Kolme.Lib.Exec

/-!
# The bridge program on the ledger

The program as the runtime runs it, on the ledger of all accounts. The caller of an instruction
chooses its accounts, and an account may be passed more than once. What another program does to the
ledger is a parameter.

An action that is executed is an invocation of a program, which may be the bridge itself. A
transaction is a list of instructions, and one that fails is undone as a whole. Another program that
invokes the bridge is seen as the instructions it makes, one after another.
-/

namespace Kolme.Solana

open Exec

/-- Why a transaction fails. -/
inductive Abort
  | program (error : ProgramError)
  /-- An account is passed on as a signer or as writable without being one. -/
  | privilegeEscalation
  | callDepth
deriving DecidableEq

structure LedgerAccount where
  owner : Pubkey
  lamports : Nat
  data : Bytes

abbrev Ledger := Pubkey → LedgerAccount

structure AccountMeta where
  pubkey : Pubkey
  isSigner : Bool
  isWritable : Bool
deriving DecidableEq

structure Instruction where
  programId : Pubkey
  accounts : List AccountMeta
  data : Bytes
deriving DecidableEq

/-- What the program reads of a token account. -/
structure TokenAccount where
  mint : Pubkey
  owner : Pubkey
  hasDelegate : Bool
  hasCloseAuthority : Bool
deriving DecidableEq

/-- The state of an account of the program loader. -/
inductive LoaderState
  | uninitialized
  | buffer (authorityAddress : Option Pubkey)
  | program (programdataAddress : Pubkey)
  | programData (slot : U64) (upgradeAuthorityAddress : Option Pubkey)

/-- The libraries, and the other programs that can be invoked. -/
structure Platform extends Sys where
  gitRev : String
  tokenAccount : Bytes → TokenAccount
  mintDecimals : Bytes → UInt8
  loaderState : Bytes → Option LoaderState
  /-- What another program does to the ledger. Some addresses of the invoking program sign. -/
  invokeOther : Instruction → (signers : List Pubkey) → Ledger → Except ProgramError Ledger

/-- The documented behaviour of the runtime and of the system program: what a success means. -/
structure Platform.Documented (sys : Platform) (programId : Pubkey) : Prop where
  /-- The bump seed that was found recreates the address that was found. -/
  create_find : ∀ seeds, sys.createProgramAddress
    (seeds ++ [[(sys.findProgramAddress seeds programId).2]]) programId =
      .ok (sys.findProgramAddress seeds programId).1
  createAccount_ok : ∀ {signer payer acc lamports space owner payer' acc'},
    sys.createAccount signer payer acc lamports space owner = .ok (payer', acc') →
    acc.owner = systemId ∧ (∃ n, payer' = { payer with lamports := n }) ∧
      ∃ n, acc' = { acc with lamports := n, data := List.replicate space 0, owner := owner }
  transfer_ok : ∀ {payer acc lamports payer' acc'},
    sys.transfer payer acc lamports = .ok (payer', acc') →
    (∃ n, payer' = { payer with lamports := n }) ∧ ∃ n, acc' = { acc with lamports := n }
  allocate_ok : ∀ {signer acc space acc'}, sys.allocate signer acc space = .ok acc' →
    acc.owner = systemId ∧ acc' = { acc with data := List.replicate space 0 }
  assign_ok : ∀ {signer acc owner acc'}, sys.assign signer acc owner = .ok acc' →
    acc' = { acc with owner := owner }
  /-- An account whose data is mutably borrowed cannot be resized. -/
  resize_borrowed : ∀ {acc size},
    acc.borrowed = true → sys.resize acc size = .error .accountBorrowFailed
  /-- Only its owner can change the data of an account or give it away. -/
  invokeOther_keeps : ∀ {ix signers ledger ledger'},
    sys.invokeOther ix signers ledger = .ok ledger' → ∀ k, (ledger k).owner = programId →
    (ledger' k).owner = programId ∧ (ledger' k).data = (ledger k).data
  /-- An account that is given to the program is zeroed. An address of the program has no other
  key, so it is given away only if it signs. -/
  invokeOther_gives : ∀ {ix signers ledger ledger'},
    sys.invokeOther ix signers ledger = .ok ledger' → ∀ k, (ledger k).owner ≠ programId →
    (ledger' k).owner = programId → (∀ b ∈ (ledger' k).data, b = 0) ∧
      ∀ seeds, sys.createProgramAddress seeds programId = .ok k → k ∈ signers

/-- A transfer of tokens, made by the program that owns the mint. -/
structure TransferChecked where
  tokenProgram : Pubkey
  source : Pubkey
  mint : Pubkey
  destination : Pubkey
  authority : Pubkey
  amount : U64
  decimals : UInt8

/-- A transfer that was made, with the ledger it was made on and the account it was made for. -/
structure Deposit where
  ledger : Ledger
  senderAcc : AccountMeta
  transfer : TransferChecked

/-- The ledger and what the bridge has left in the log of the runtime. -/
structure Onchain where
  ledger : Ledger
  log : List BridgeMessage
  deposits : List Deposit
  /-- How often the bridge was initialized. -/
  initialized : Nat

namespace Ledger

def info (ledger : Ledger) (a : AccountMeta) : AccountInfo where
  key := a.pubkey
  owner := (ledger a.pubkey).owner
  lamports := (ledger a.pubkey).lamports
  data := (ledger a.pubkey).data
  isSigner := a.isSigner
  isWritable := a.isWritable
  borrowed := false

def store (ledger : Ledger) (acc : AccountInfo) : Ledger :=
  Function.update ledger acc.key ⟨acc.owner, acc.lamports, acc.data⟩

end Ledger

namespace Program

def initializeIx : UInt8 := 0
def regularIx : UInt8 := 1
def signedIx : UInt8 := 2

def gitRevDerivation : PdaDerivation := ⟨[gitRevSeed], none⟩
def upgradeAuthorityDerivation : PdaDerivation := ⟨[upgradeAuthoritySeed], none⟩

def tokenHolderPda : UInt8 := 1
def gitRevPda : UInt8 := 2
def upgradeAuthorityPda : UInt8 := 3

def tokenId : Pubkey := 0x06ddf6e1d765a193d9cbe146ceeb79ac1cb485ed5f5b37913a8cf5857eff00a9
def token2022Id : Pubkey := 0x06ddf6e1ee758fde18425dbce46ccddab61afc4d83b90d27febdf928d8a18bfc
def ataProgramId : Pubkey := 0x8c97258f4e2489f1bb3d1029148e0d830b5a1399daff1084048e7bd8dbe9f859
def loaderId : Pubkey := 0x02a8f6914e88a1b0e210153ef763ae2b00c2b93d16c124d2c0537a1004800000

def tokenAccountLen : Nat := 165
def mintLen : Nat := 82

def invalidBridgeProgramData : ProgramError := .custom 1
def bridgeNotUpgradeAuthority : ProgramError := .custom 2

def wrongATA : ProgramError := .custom 0
def transferAmountsMismatch : ProgramError := .custom 1
def cannotHaveCloseAuthorityOrDelegate : ProgramError := .custom 2
def programIsNotOwner : ProgramError := .custom 3

/-- A computation of the program that does not touch the ledger. -/
def run {α : Type} (x : Except ProgramError α) : Exec Abort Onchain α := lift (x.mapError .program)

/-- A check of the program. -/
def require (c : Prop) [Decidable c] (e : ProgramError) : Exec Abort Onchain Unit :=
  ensure c (.program e)

/-! ## Accounts -/

inductive AccountReq
  | empty
  | signer
  | writable

def AccountReq.met : AccountReq → AccountMeta → Bool
  | .empty, _ => true
  | .signer, a => a.isSigner
  | .writable, a => a.isWritable

def account (accounts : List AccountMeta) (index : Nat) (req : AccountReq) :
    Exec Abort Onchain AccountMeta := do
  -- An index out of bounds panics.
  let a ← fromOption (.program .panic) accounts[index]?
  require (req.met a = true) .invalidArgument
  return a

def assertIsSystemProgram (accounts : List AccountMeta) (index : Nat) : Exec Abort Onchain Unit := do
  let a ← account accounts index .empty
  require (a.pubkey = systemId) .invalidArgument

def assertIsTokenProgram (accounts : List AccountMeta) (index : Nat) : Exec Abort Onchain Unit := do
  let a ← account accounts index .empty
  require (a.pubkey = tokenId ∨ a.pubkey = token2022Id) .invalidArgument

def info (a : AccountMeta) : Exec Abort Onchain AccountInfo := gets fun w => w.ledger.info a

def store (acc : AccountInfo) : Exec Abort Onchain Unit :=
  modify fun w => { w with ledger := w.ledger.store acc }

section

variable {α : Type} (sys : Platform) (programId : Pubkey) (c : Codec α) (discriminant : UInt8)

def initPda (payer pda : AccountMeta) (derivation : PdaDerivation) (data : α) :
    Exec Abort Onchain (PdaData α) := do
  let (stored, payer, created) ←
    run (Solana.initPda sys.toRuntime c programId (← info payer) (← info pda) derivation data)
  store payer
  store created
  return stored

def loadPda (pda : AccountMeta) (seeds : List Bytes) : Exec Abort Onchain (PdaData α) := do
  run (Solana.loadPda sys.toRuntime c discriminant programId (← info pda) seeds)

def serializeInto (stored : PdaData α) (pda : AccountMeta) : Exec Abort Onchain Unit := do
  store (← run (stored.serializeInto c discriminant (← info pda)))

def serializeIntoGrowable (stored : PdaData α) (pda payer : AccountMeta) :
    Exec Abort Onchain Unit := do
  let (payer, acc) ←
    run (stored.serializeIntoGrowable sys.toRuntime c discriminant (← info payer) (← info pda))
  store payer
  store acc

/-- The account is created if the program does not own it. The initial value is then stored, which
is the only use the program makes of the result. -/
def loadOrInitPda (payer pda : AccountMeta) (derivation : PdaDerivation) (data : α) :
    Exec Abort Onchain Unit := do
  if (← info pda).owner = programId then
    let _ ← loadPda sys programId c discriminant pda derivation.seeds
  else
    let holder ← initPda sys programId c payer pda derivation data
    serializeInto c discriminant holder pda

end

/-! ## Token accounts -/

def isTokenProgram (owner : Pubkey) : Prop := owner = tokenId ∨ owner = token2022Id

instance (owner : Pubkey) : Decidable (isTokenProgram owner) := by
  unfold isTokenProgram; infer_instance

section

variable (sys : Platform)

def ataData (acc : AccountInfo) : Except ProgramError TokenAccount := do
  Except.ensure (tokenAccountLen ≤ acc.data.length) .invalidAccountData
  Except.ensure (isTokenProgram acc.owner) .invalidAccountData
  return sys.tokenAccount (acc.data.take tokenAccountLen)

def mintData (acc : AccountInfo) : Except ProgramError UInt8 := do
  Except.ensure (acc.data.length = mintLen) .invalidAccountData
  Except.ensure (isTokenProgram acc.owner) .invalidAccountData
  return sys.mintDecimals acc.data

def getProgramDataAddress (programId : Pubkey) : Pubkey :=
  (sys.findProgramAddress [Bytes.toBE 32 programId] loaderId).1

def getState (acc : AccountInfo) : Except ProgramError LoaderState := do
  Except.ensure (acc.owner = loaderId) .invalidAccountOwner
  Except.fromOption .invalidAccountData (sys.loaderState acc.data)

end

/-! ## Invocations -/

def TransferChecked.instruction (t : TransferChecked) : Instruction where
  programId := t.tokenProgram
  accounts := [⟨t.source, false, true⟩, ⟨t.mint, false, false⟩, ⟨t.destination, false, true⟩,
    ⟨t.authority, true, false⟩]
  data := 12 :: (Bytes.toLE 8 t.amount ++ [t.decimals])

def executeTransfer (sys : Platform) (senderAcc : AccountMeta) (t : TransferChecked) :
    Exec Abort Onchain Unit := do
  let before := (← get).ledger
  let ledger ← run (sys.invokeOther (TransferChecked.instruction t) [] before)
  modify fun w => { w with ledger, deposits := w.deposits ++ [⟨before, senderAcc, t⟩] }

/-- Only what was passed as a signer or as writable can be passed on as such; an address of the
program can sign besides. -/
def mayPass (accounts : List AccountMeta) (signers : List Pubkey) (a : AccountMeta) : Bool :=
  (!a.isSigner || decide (a.pubkey ∈ signers) ||
      accounts.any fun b => b.pubkey == a.pubkey && b.isSigner) &&
    (!a.isWritable || accounts.any fun b => b.pubkey == a.pubkey && b.isWritable)

section

variable (sys : Platform) (programId : Pubkey)
  (self : List AccountMeta → Bytes → Exec Abort Onchain Unit)

/-- An invocation by the program with the given accounts; `self` is the program itself. -/
def invoke (accounts : List AccountMeta) (signers : List Pubkey) (ix : Instruction) :
    Exec Abort Onchain Unit := do
  ensure ((ix.accounts.all (mayPass accounts signers)) = true) .privilegeEscalation
  if ix.programId = programId then self ix.accounts ix.data
  else
    let ledger ← run (sys.invokeOther ix signers (← get).ledger)
    modify fun w => { w with ledger }

def executeAction (accounts : List AccountMeta) (action : ExecuteAction)
    (ixAccounts : List AccountMeta) : Exec Abort Onchain Unit := do
  require (action.accounts.length = ixAccounts.length)
    SignedIxError.accountMetaAndPassedAccountsMismatch
  let metas := action.accounts.mapIdx fun i a =>
    { pubkey := a.pubkey
      isWritable := a.isWritable
      isSigner := action.signer.any fun x => x.index.toNat = i : AccountMeta }
  -- The library checks that the accounts are those that the instruction names.
  require (ixAccounts.map (·.pubkey) = metas.map (·.pubkey)) .invalidArgument
  let signers ← match action.signer with
    | none => pure []
    | some signer => do
      let address ← run (sys.createProgramAddress signer.seeds programId)
      pure [address]
  invoke sys programId self accounts signers ⟨action.programId, metas, action.instructionData⟩

/-! ## Instructions -/

def initializeBridge (accounts : List AccountMeta) (instructionData : Bytes) :
    Exec Abort Onchain Unit := do
  require (accounts.length = 6) .notEnoughAccountKeys
  let payerAcc ← account accounts 0 .signer
  assertIsSystemProgram accounts 1
  let stateAcc ← account accounts 2 .writable
  let gitRevAcc ← account accounts 3 .writable
  let upgradeAuthorityAcc ← account accounts 4 .writable
  let bridgeProgramDataAcc ← account accounts 5 .empty
  let set ← run (Except.fromOption .borshIoError (validatorSetCodec.decodeAll instructionData))
  run (set.validate.mapError fun _ => InitIxError.validatorSetError)
  -- Events start at ID 1, since the instantiation itself is event 0.
  let state : State := { set, nextEventId := 1, nextActionId := 0 }
  let stored ← initPda sys programId stateCodec payerAcc stateAcc stateDerivation state
  serializeInto stateCodec statePda stored stateAcc
  let gitRev ← initPda sys programId Codec.string payerAcc gitRevAcc gitRevDerivation sys.gitRev
  serializeInto Codec.string gitRevPda gitRev gitRevAcc
  require (bridgeProgramDataAcc.pubkey = getProgramDataAddress sys programId) .invalidAccountData
  let upgradeAuthority ← match ← run (getState sys (← info bridgeProgramDataAcc)) with
    | .programData _ upgradeAuthorityAddress => pure upgradeAuthorityAddress
    | _ => throw (.program invalidBridgeProgramData)
  let authority ←
    initPda sys programId Codec.unit payerAcc upgradeAuthorityAcc upgradeAuthorityDerivation ()
  serializeInto Codec.unit upgradeAuthorityPda authority upgradeAuthorityAcc
  require (upgradeAuthority = some upgradeAuthorityAcc.pubkey) bridgeNotUpgradeAuthority
  modify fun w => { w with initialized := w.initialized + 1 }

/-- The transfer of one token of a deposit, whose four accounts start at `index`. -/
def takeToken (accounts : List AccountMeta) (senderAcc : AccountMeta) (index : Nat) (amount : U64) :
    Exec Abort Onchain Token := do
  let mintAcc ← account accounts index .empty
  let senderAtaAcc ← account accounts (index + 1) .writable
  let holderAcc ← account accounts (index + 2) .writable
  let holderAtaAcc ← account accounts (index + 3) .writable
  let tokenProgram := (← info mintAcc).owner
  require (isTokenProgram tokenProgram) .illegalOwner
  let (holderAtaAccAddress, _) := sys.findProgramAddress
    [Bytes.toBE 32 holderAcc.pubkey, Bytes.toBE 32 tokenProgram, Bytes.toBE 32 mintAcc.pubkey]
    ataProgramId
  require (holderAtaAcc.pubkey = holderAtaAccAddress) .invalidArgument
  require ((← info holderAtaAcc).owner = tokenProgram) .illegalOwner
  require ((← info senderAtaAcc).owner = tokenProgram) .illegalOwner
  let senderAta ← run (ataData sys (← info senderAtaAcc))
  require (¬(senderAta.mint ≠ mintAcc.pubkey ∨ senderAta.owner ≠ senderAcc.pubkey)) wrongATA
  loadOrInitPda sys programId Codec.unit tokenHolderPda senderAcc holderAcc
    ⟨[tokenHolderSeed, Bytes.toBE 32 mintAcc.pubkey], none⟩ ()
  let holderAta ← run (ataData sys (← info holderAtaAcc))
  require (¬(holderAta.hasCloseAuthority = true ∨ holderAta.hasDelegate = true))
    cannotHaveCloseAuthorityOrDelegate
  require (¬(holderAta.mint ≠ mintAcc.pubkey ∨ holderAta.owner ≠ holderAcc.pubkey))
    programIsNotOwner
  let decimals ← run (mintData sys (← info mintAcc))
  executeTransfer sys senderAcc
    { tokenProgram, source := senderAtaAcc.pubkey, mint := mintAcc.pubkey
      destination := holderAtaAcc.pubkey, authority := senderAcc.pubkey, amount, decimals }
  return ⟨mintAcc.pubkey, amount⟩

/-- The transfers of a deposit from the one at `index` on. -/
def takeTokens (accounts : List AccountMeta) (senderAcc : AccountMeta) :
    Nat → List U64 → Exec Abort Onchain (List Token)
  | _, [] => return []
  | index, amount :: amounts => do
    let token ← takeToken sys programId accounts senderAcc index amount
    let funds ← takeTokens accounts senderAcc (index + 4) amounts
    return token :: funds

def takeFunds (accounts : List AccountMeta) (transferAmounts : List U64) :
    Exec Abort Onchain (AccountMeta × AccountMeta × List Token) := do
  if accounts.length = 2 then
    let senderAcc ← account accounts 0 .signer
    let stateAcc ← account accounts 1 .writable
    return (senderAcc, stateAcc, [])
  require (8 ≤ accounts.length) .notEnoughAccountKeys
  let senderAcc ← account accounts 0 .signer
  let stateAcc ← account accounts 1 .writable
  assertIsSystemProgram accounts 2
  assertIsTokenProgram accounts 3
  let tokenAccountsLen := accounts.length - 4
  require (tokenAccountsLen % 4 = 0) .notEnoughAccountKeys
  require (transferAmounts.length = tokenAccountsLen / 4) transferAmountsMismatch
  let funds ← takeTokens sys programId accounts senderAcc 4 transferAmounts
  return (senderAcc, stateAcc, funds)

def logMessage (msg : BridgeMessage) : Exec Abort Onchain Unit :=
  modify fun w => { w with log := w.log ++ [msg] }

def regular (accounts : List AccountMeta) (instructionData : Bytes) : Exec Abort Onchain Unit := do
  let data ←
    run (Except.fromOption .borshIoError (regularMsgIxDataCodec.decodeAll instructionData))
  let (senderAcc, stateAcc, funds) ← takeFunds sys programId accounts data.transferAmounts
  run (validateKeys sys.toSys senderAcc.pubkey data.keys)
  let stored ← loadPda sys programId stateCodec statePda stateAcc stateDerivation.seeds
  let id := stored.data.nextEventId
  let nextEventId ← run (increment id)
  serializeInto stateCodec statePda { stored with data := { stored.data with nextEventId } } stateAcc
  logMessage ⟨id, senderAcc.pubkey, .regular funds (data.keys.map (·.key))⟩

/-- The set after a signed action. The accounts after the fourth are those of an action to
execute. -/
def applyAction (accounts : List AccountMeta) (set : ValidatorSet) (hash : Hash)
    (data : SignedMsgIxData) : SignedAction → Exec Abort Onchain ValidatorSet
  | .execute action => do
    run (verifySignatures sys.toSys hash data.processor set.processor data.approvers set.approvers
      set.neededApprovers)
    require (4 ≤ accounts.length) .notEnoughAccountKeys
    executeAction sys programId self accounts action (accounts.drop 4)
    return set
  | .selfReplace rendered signature => run (selfReplace sys.toSys set hash data rendered signature)
  | .newSet rendered approvals => run (newSet sys.toSys set hash data rendered approvals)

def signed (accounts : List AccountMeta) (instructionData : Bytes) : Exec Abort Onchain Unit := do
  require (3 ≤ accounts.length) .notEnoughAccountKeys
  let senderAcc ← account accounts 0 .signer
  let stateAcc ← account accounts 1 .writable
  assertIsSystemProgram accounts 2
  let data ← run (Except.fromOption .borshIoError (signedMsgIxDataCodec.decodeAll instructionData))
  let stored ← loadPda sys programId stateCodec statePda stateAcc stateDerivation.seeds
  let payloadBytes ←
    run (Except.fromOption SignedIxError.invalidBase64Payload (sys.base64Decode data.payload))
  let payload ← run (Except.fromOption .borshIoError (payloadCodec.decodeAll payloadBytes))
  require (payload.id = stored.data.nextActionId) SignedIxError.incorrectOutgoingId
  let nextActionId ← run (increment stored.data.nextActionId)
  let incomingId := stored.data.nextEventId
  let nextEventId ← run (increment stored.data.nextEventId)
  let set ← applyAction sys programId self accounts stored.data.set (sys.sha256 data.payload) data
    payload.action
  -- The state in memory was loaded before the action was executed.
  serializeIntoGrowable sys stateCodec statePda
    { stored with data := { set, nextEventId, nextActionId } } stateAcc senderAcc
  logMessage ⟨incomingId, senderAcc.pubkey, .signed payload.id⟩

end

/-! ## The program as a machine -/

section

variable (sys : Platform) (programId : Pubkey)

/-- An instruction of the bridge, with as many invocations inside each other as the runtime
allows. -/
def processInstruction : Nat → List AccountMeta → Bytes → Exec Abort Onchain Unit
  | 0, _, _ => throw .callDepth
  | depth + 1, accounts, instructionData => do
    match instructionData with
    | [] => throw (.program .invalidInstructionData)
    | instruction :: instructionData =>
      if instruction = initializeIx then initializeBridge sys programId accounts instructionData
      else if instruction = regularIx then regular sys programId accounts instructionData
      else if instruction = signedIx then
        signed sys programId (processInstruction depth) accounts instructionData
      -- An unknown instruction is not an error.
      else pure ()

/-- An instruction of a transaction. -/
def processTopLevel (depth : Nat) (ix : Instruction) : Exec Abort Onchain Unit := do
  if ix.programId = programId then processInstruction sys programId depth ix.accounts ix.data
  else
    let ledger ← run (sys.invokeOther ix [] (← get).ledger)
    modify fun w => { w with ledger }

/-- The ledger with the bridge on it; a step is a transaction. -/
def machine (depth : Nat) : Machine Onchain (List Instruction) Abort where
  step w transaction :=
    match forEach (processTopLevel sys programId depth) transaction w with
    | (.ok (), w') => .ok w'
    | (.error e, _) => .error e

end

end Program

end Kolme.Solana
