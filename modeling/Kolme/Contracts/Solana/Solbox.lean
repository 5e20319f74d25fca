import Kolme.Lib.Result
import Kolme.Shared.Solana

/-!
# Accounts that store a value on Solana

The storage helpers the bridge program is built on: creating a program-derived account, writing a
value into it, in place or after growing it, and loading it back.

The runtime below the program is a parameter, `Runtime`, with the documented behaviour the program
relies on in `Runtime.Lawful`. An account carries the borrow flag of its data, because an account
whose data is mutably borrowed can neither be resized nor be passed to another program.
-/

namespace Kolme.Solana

open Except

inductive ProgramError
  | notEnoughAccountKeys
  | invalidArgument
  | invalidAccountData
  | invalidInstructionData
  | accountDataTooSmall
  | accountAlreadyInitialized
  | uninitializedAccount
  | accountBorrowFailed
  | borshIoError
  | invalidSeeds
  | insufficientFunds
  | illegalOwner
  | invalidAccountOwner
  | custom (code : Nat)
  /-- The program panics, which aborts the transaction like every other error. -/
  | panic
deriving DecidableEq

structure AccountInfo where
  key : Pubkey
  owner : Pubkey
  lamports : Nat
  data : Bytes
  isSigner : Bool
  isWritable : Bool
  /-- The data is mutably borrowed by a guard that is still alive. -/
  borrowed : Bool
deriving DecidableEq

/-- The address of the system program. -/
def systemId : Pubkey := 0

/-- The most bytes an account may grow by during one instruction. -/
def maxPermittedDataIncrease : Nat := 10240

/-! ## The runtime -/

/-- What the program calls of the runtime and of the system program. The accounts an instruction
changes are returned. -/
structure Runtime where
  createProgramAddress : List Bytes → Pubkey → Except ProgramError Pubkey
  findProgramAddress : List Bytes → Pubkey → Pubkey × UInt8
  minimumBalance : Nat → Nat
  createAccount : (signer : List Bytes) → (payer acc : AccountInfo) → (lamports space : Nat) →
    (owner : Pubkey) → Except ProgramError (AccountInfo × AccountInfo)
  transfer : (payer acc : AccountInfo) → (lamports : Nat) →
    Except ProgramError (AccountInfo × AccountInfo)
  allocate : (signer : List Bytes) → AccountInfo → (space : Nat) → Except ProgramError AccountInfo
  assign : (signer : List Bytes) → AccountInfo → (owner : Pubkey) →
    Except ProgramError AccountInfo
  resize : AccountInfo → Nat → Except ProgramError AccountInfo

/-- The transfer of what an account lacks, made only when it lacks something. -/
def Runtime.transferIfRequired (rt : Runtime) (payer acc : AccountInfo) (requiredLamports : Nat) :
    Except ProgramError (AccountInfo × AccountInfo) :=
  if 0 < requiredLamports then rt.transfer payer acc requiredLamports else .ok (payer, acc)

namespace AccountInfo

def tryBorrowData (acc : AccountInfo) : Except ProgramError Bytes := do
  ensure (acc.borrowed = false) .accountBorrowFailed
  return acc.data

/-- Take the mutable guard of the data. -/
def tryBorrowMutData (acc : AccountInfo) : Except ProgramError AccountInfo := do
  ensure (acc.borrowed = false) .accountBorrowFailed
  return { acc with borrowed := true }

/-- Drop the guard, leaving what was written through it. -/
def release (acc : AccountInfo) (data : Bytes) : AccountInfo :=
  { acc with data := data, borrowed := false }

/-- A wallet that signed the transaction: it can pay, and it stores no data. -/
structure IsPayer (acc : AccountInfo) : Prop where
  signer : acc.isSigner = true
  writable : acc.isWritable = true
  owner : acc.owner = systemId
  data : acc.data = []
  free : acc.borrowed = false

/-- An address at which no program has put anything yet. -/
structure IsFresh (acc : AccountInfo) : Prop where
  writable : acc.isWritable = true
  owner : acc.owner = systemId
  data : acc.data = []
  free : acc.borrowed = false

end AccountInfo

/-- The documented behaviour of the runtime that the program relies on. -/
structure Runtime.Lawful (rt : Runtime) (programId : Pubkey) : Prop where
  /-- The bump seed that was found recreates the address that was found. -/
  create_find : ∀ seeds, rt.createProgramAddress
    (seeds ++ [[(rt.findProgramAddress seeds programId).2]]) programId =
      .ok (rt.findProgramAddress seeds programId).1
  createAccount_ok : ∀ {signer payer acc lamports space},
    payer.IsPayer → acc.IsFresh → payer.key ≠ acc.key → acc.lamports = 0 →
    lamports ≤ payer.lamports → space ≤ maxPermittedDataIncrease →
    rt.createProgramAddress signer programId = .ok acc.key →
    rt.createAccount signer payer acc lamports space programId =
      .ok ({ payer with lamports := payer.lamports - lamports },
        { acc with lamports := lamports, data := List.replicate space 0, owner := programId })
  transfer_ok : ∀ {payer acc lamports},
    payer.IsPayer → acc.isWritable = true → acc.borrowed = false → payer.key ≠ acc.key →
    lamports ≤ payer.lamports →
    rt.transfer payer acc lamports =
      .ok ({ payer with lamports := payer.lamports - lamports },
        { acc with lamports := acc.lamports + lamports })
  allocate_ok : ∀ {signer acc space},
    acc.IsFresh → space ≤ maxPermittedDataIncrease →
    rt.createProgramAddress signer programId = .ok acc.key →
    rt.allocate signer acc space = .ok { acc with data := List.replicate space 0 }
  assign_ok : ∀ {signer acc},
    acc.isWritable = true → acc.owner = systemId → acc.borrowed = false →
    rt.createProgramAddress signer programId = .ok acc.key →
    rt.assign signer acc programId = .ok { acc with owner := programId }
  /-- An account whose data is mutably borrowed cannot be passed to another program. -/
  transfer_borrowed : ∀ {payer acc lamports},
    acc.borrowed = true → rt.transfer payer acc lamports = .error .accountBorrowFailed
  /-- An account whose data is mutably borrowed cannot be resized. -/
  resize_borrowed : ∀ {acc size},
    acc.borrowed = true → rt.resize acc size = .error .accountBorrowFailed

/-! ## The stored value -/

structure PdaData (α : Type) where
  bump : UInt8
  data : α

structure PdaDerivation where
  seeds : List Bytes
  bump : Option UInt8

section

variable {α : Type} (rt : Runtime) (c : Codec α) (discriminant : UInt8) (programId : Pubkey)

/-- The number of bytes the value takes; the program panics on a value that has no encoding. -/
def serializedSize (data : α) : Except ProgramError Nat :=
  match c.encode data with
  | some bs => .ok bs.length
  | none => .error .panic

/-- Write the value at the front of `storage` and leave what lies behind it. -/
def serialize (data : α) (storage : Bytes) : Except ProgramError Bytes := do
  let bs ← fromOption .borshIoError (c.encode data)
  ensure (bs.length ≤ storage.length) .borshIoError
  return bs ++ storage.drop bs.length

/-- Read a value that takes up all of `storage`. -/
def deserialize (storage : Bytes) : Except ProgramError α :=
  fromOption .borshIoError (c.decodeAll storage)

namespace PdaData

/-- The two header bytes and the value, written over `bytes`. -/
def write (self : PdaData α) (bytes : Bytes) : Except ProgramError Bytes := do
  let body ← serialize c self.data (bytes.drop 2)
  return discriminant :: self.bump :: body

def serializeInto (self : PdaData α) (acc : AccountInfo) : Except ProgramError AccountInfo := do
  let guarded ← acc.tryBorrowMutData
  ensure (2 ≤ guarded.data.length) .accountDataTooSmall
  let bytes ← self.write c discriminant guarded.data
  return guarded.release bytes

/-- Store the value, resizing the account when it has insufficient space. -/
def serializeIntoGrowable (self : PdaData α) (payer acc : AccountInfo) :
    Except ProgramError (AccountInfo × AccountInfo) := do
  let dataSize := (← serializedSize c self.data) + 2
  -- The guard is a temporary that lives until the function returns.
  let guarded ← acc.tryBorrowMutData
  ensure (guarded.data ≠ []) .uninitializedAccount
  if dataSize ≤ guarded.data.length then
    let bytes ← self.write c discriminant guarded.data
    return (payer, guarded.release bytes)
  let neededSpace := dataSize - guarded.data.length
  -- `let _ = bytes;` binds nothing and drops nothing: `guarded` is still borrowed below.
  let requiredLamports := max (rt.minimumBalance neededSpace) 1 - guarded.lamports
  let (payer, guarded) ← rt.transferIfRequired payer guarded requiredLamports
  let resized ← rt.resize guarded dataSize
  let again ← resized.tryBorrowMutData
  let bytes ← self.write c discriminant again.data
  return (payer, again.release bytes)

def deserializeFrom (acc : AccountInfo) : Except ProgramError (PdaData α) := do
  let bytes ← acc.tryBorrowData
  ensure (2 ≤ bytes.length) .accountDataTooSmall
  ensure (bytes.headD 0 = discriminant) .invalidAccountData
  let data ← deserialize c (bytes.drop 2)
  return ⟨bytes.getD 1 0, data⟩

end PdaData

/-! ## Creating and loading the account -/

/-- Create the account for the given data. Its bytes are zero until the value is written. -/
def initPda (payer pda : AccountInfo) (derivation : PdaDerivation) (data : α) :
    Except ProgramError (PdaData α × AccountInfo × AccountInfo) := do
  ensure (pda.owner ≠ programId) .accountAlreadyInitialized
  let (address, bump) ←
    match derivation.bump with
    | some bump => do
      let address ← rt.createProgramAddress (derivation.seeds ++ [[bump]]) programId
      pure (address, bump)
    | none => pure (rt.findProgramAddress derivation.seeds programId)
  ensure (pda.key = address) .invalidArgument
  let signer := derivation.seeds ++ [[bump]]
  let space := (← serializedSize c data) + 2
  let rentExempt := max (rt.minimumBalance space) 1
  if pda.lamports = 0 then
    let (payer, pda) ← rt.createAccount signer payer pda rentExempt space programId
    return (⟨bump, data⟩, payer, pda)
  -- Anyone can transfer lamports to the address before it is initialized.
  let requiredLamports := rentExempt - pda.lamports
  let (payer, pda) ← rt.transferIfRequired payer pda requiredLamports
  let pda ← rt.allocate signer pda space
  let pda ← rt.assign signer pda programId
  return (⟨bump, data⟩, payer, pda)

def loadPda (pda : AccountInfo) (seeds : List Bytes) : Except ProgramError (PdaData α) := do
  ensure (¬(pda.owner ≠ programId ∨ pda.data.length = 0)) .uninitializedAccount
  ensure (pda.lamports ≠ 0) .panic
  let data ← PdaData.deserializeFrom c discriminant pda
  let address ← rt.createProgramAddress (seeds ++ [[data.bump]]) programId
  ensure (pda.key = address) .invalidArgument
  return data

end

end Kolme.Solana
