import Kolme.Components.KolmeInner

/-!
# Queries of forks

The API server answers from which block to which a version of the chain was in force. Three binary
searches over the stored blocks share one helper for the middle of an interval, which refuses an
interval of one block.
-/

namespace Kolme

open Merkle (Sha256)
open Except

/-! ## Versions -/

/-- The result of a comparison. -/
inductive Cmp
  | eq | ne | lt | le | ge | gt
deriving DecidableEq

/-- The library that reads and compares versions. -/
structure VersionCompare where
  Version : Type
  from? : String → Option Version
  compare : Version → Version → Cmp

/-- Two versions are equal if they compare so. -/
def VersionCompare.beq (vc : VersionCompare) (a b : vc.Version) : Bool := vc.compare a b = .eq

/-! ## Blocks -/

/-- The middle of an interval of heights, rounded up. -/
def BlockHeight.increasingMiddle (self blockHeight : BlockHeight) : Except KolmeError BlockHeight :=
  if blockHeight ≤ self then .error (.invalidBlockHeight self blockHeight)
  else .ok (self + (blockHeight - self + 1) / 2)

theorem BlockHeight.increasingMiddle_bounds {start «end» middle : ℕ}
    (h : increasingMiddle start «end» = .ok middle) :
    start < middle ∧ middle ≤ «end» ∧ middle = start + («end» - start + 1) / 2 := by
  by_cases hle : «end» ≤ start
  · rw [increasingMiddle, if_pos hle] at h
    cases h
  · rw [increasingMiddle, if_neg hle] at h
    obtain rfl := ok.inj h
    omega

/-- What the queries read of a node. -/
structure BlockReader (M : Type) where
  nextHeight : BlockHeight
  getBlock : BlockHeight → Except Failure (Option (SignedBlock M))
  getFramework : Sha256Hash → Except Failure FrameworkState

/-- A node reads its blocks and states from its store. -/
def KolmeInner.reader {app : App} [MerkleHashed (StorableBlock (SignedBlock app.Message))]
    [Rendered (SignedBlock app.Message)] (codec : StateCodec app) (self : KolmeInner app) :
    BlockReader app.Message where
  nextHeight := self.currentBlock.node.nextHeight
  getBlock height := do
    let block ← (KolmeStore.loadBlock self.store height).mapError .store
    return block.map (·.block)
  getFramework hash := (do codec.loadFrameworkState (← self.layers.load hash)).mapError .merkle

structure BlockResponse where
  /-- Chain version at that specific block -/
  chainVersion : String
  blockHeight : BlockHeight
deriving DecidableEq

namespace BlockReader

variable {M : Type} (kolme : BlockReader M)

def blockResponse (block : BlockHeight) : Except Failure BlockResponse := do
  match ← kolme.getBlock block with
  | none => .error (.other "Block not found")
  | some signedBlock =>
    let state ← kolme.getFramework signedBlock.message.value.frameworkState
    return ⟨state.version, block⟩

/-- The last block that the node knows. -/
def latestBlock : Except Failure BlockHeight :=
  if kolme.nextHeight = 0 then .error (.other "No blocks in chain") else .ok (kolme.nextHeight - 1)

variable (vc : VersionCompare) (chainVersion : vc.Version)

/-- Search between two heights for a block of a version. -/
def findBlockHeightFrom (startBlock endBlock : BlockHeight) : Except Failure BlockResponse :=
  if startBlock ≤ endBlock then
    match _hmiddle : BlockHeight.increasingMiddle startBlock endBlock with
    | .error e => .error (.kolme e)
    | .ok middleBlock => do
      let response ← kolme.blockResponse middleBlock
      let existingVersion ←
        fromOption (.other "Invalid version from response") (vc.from? response.chainVersion)
      match vc.compare chainVersion existingVersion with
      | .eq => return response
      | .lt | .le =>
        -- The version we want is older than the one at the middle.
        if middleBlock = 0 then .error (.other "Chain version not found")
        else findBlockHeightFrom startBlock (middleBlock - 1)
      -- The version we want is newer than the one at the middle.
      | .gt | .ge => findBlockHeightFrom (middleBlock + 1) endBlock
      | .ne => .error (.other "Not able to compare version")
  else .error (.other "Could not find a block with chain version")
termination_by endBlock + 1 - startBlock
decreasing_by all_goals have := BlockHeight.increasingMiddle_bounds _hmiddle; omega

/-- Find an arbitrary block height with a particular chain version -/
def findBlockHeight : Except Failure BlockResponse := do
  let endBlock ← kolme.latestBlock
  kolme.findBlockHeightFrom vc chainVersion 0 endBlock

/-- Search between two heights for the first block of a version, when one was found above them. -/
def findFirstBlockFrom (startBlock endBlock : BlockHeight) (firstBlock : Option BlockHeight) :
    Except Failure (Option BlockHeight) :=
  if startBlock ≤ endBlock then
    match _hmiddle : BlockHeight.increasingMiddle startBlock endBlock with
    | .error e => .error (.kolme e)
    | .ok middleBlock => do
      let response ← kolme.blockResponse middleBlock
      let responseChainVersion ←
        fromOption (.other "Invalid chain version") (vc.from? response.chainVersion)
      if vc.beq responseChainVersion chainVersion then
        if middleBlock = 0 then return some middleBlock
        else findFirstBlockFrom startBlock (middleBlock - 1) (some middleBlock)
      else if vc.compare responseChainVersion chainVersion = .lt then
        findFirstBlockFrom (middleBlock + 1) endBlock firstBlock
      else if middleBlock = 0 then return firstBlock
      else findFirstBlockFrom startBlock (middleBlock - 1) firstBlock
  else .ok firstBlock
termination_by endBlock + 1 - startBlock
decreasing_by all_goals have := BlockHeight.increasingMiddle_bounds _hmiddle; omega

/-- Find the first block height with a particular chain version -/
def findFirstBlock (endBlock : BlockHeight) : Except Failure BlockHeight := do
  let firstBlock ← kolme.findFirstBlockFrom vc chainVersion 0 endBlock none
  fromOption (.other "Could not find first block for chain version") firstBlock

/-- Search between two heights for the last block of a version, when one was found below them. -/
def findLastBlockFrom (startBlock endBlock : BlockHeight) (lastBlock : Option BlockHeight) :
    Except Failure (Option BlockHeight) :=
  if startBlock ≤ endBlock then
    match _hmiddle : BlockHeight.increasingMiddle startBlock endBlock with
    | .error e => .error (.kolme e)
    | .ok middleBlock => do
      let response ← kolme.blockResponse middleBlock
      let responseChainVersion ←
        fromOption (.other "Invalid chain version") (vc.from? response.chainVersion)
      if vc.beq responseChainVersion chainVersion then
        findLastBlockFrom (middleBlock + 1) endBlock (some middleBlock)
      else if vc.compare responseChainVersion chainVersion = .gt then
        if middleBlock = 0 then return lastBlock
        else findLastBlockFrom startBlock (middleBlock - 1) lastBlock
      else findLastBlockFrom (middleBlock + 1) endBlock lastBlock
  else .ok lastBlock
termination_by endBlock + 1 - startBlock
decreasing_by all_goals have := BlockHeight.increasingMiddle_bounds _hmiddle; omega

/-- Find the last block height with a particular chain version -/
def findLastBlock (startBlock : BlockHeight) : Except Failure BlockHeight := do
  let endBlock ← kolme.latestBlock
  let lastBlock ← kolme.findLastBlockFrom vc chainVersion startBlock endBlock none
  fromOption (.other "Could not find last block for chain version") lastBlock

section

variable {kolme vc chainVersion} {startBlock endBlock middleBlock : BlockHeight}
  {found : Option BlockHeight} {response : BlockResponse} {existingVersion : vc.Version}

theorem le_of_middle
    (h : BlockHeight.increasingMiddle startBlock endBlock = .ok middleBlock) :
    startBlock ≤ endBlock := by
  have := BlockHeight.increasingMiddle_bounds h
  exact (this.1.trans_le this.2.1).le

/-- A single block has no middle. -/
theorem findBlockHeightFrom_single :
    kolme.findBlockHeightFrom vc chainVersion startBlock startBlock =
      .error (.kolme (.invalidBlockHeight startBlock startBlock)) := by
  rw [findBlockHeightFrom, if_pos le_rfl]
  split
  · rename_i e he
    obtain rfl := error.inj ((if_pos le_rfl).symm.trans he)
    rfl
  · rename_i middle hmiddle
    exact absurd (BlockHeight.increasingMiddle_bounds hmiddle) (by omega)

theorem findBlockHeightFrom_middle
    (hmiddle : BlockHeight.increasingMiddle startBlock endBlock = .ok middleBlock)
    (hresponse : kolme.blockResponse middleBlock = .ok response)
    (hversion : vc.from? response.chainVersion = some existingVersion) :
    kolme.findBlockHeightFrom vc chainVersion startBlock endBlock =
      match vc.compare chainVersion existingVersion with
      | .eq => .ok response
      | .lt | .le =>
        if middleBlock = 0 then .error (.other "Chain version not found")
        else kolme.findBlockHeightFrom vc chainVersion startBlock (middleBlock - 1)
      | .gt | .ge => kolme.findBlockHeightFrom vc chainVersion (middleBlock + 1) endBlock
      | .ne => .error (.other "Not able to compare version") := by
  rw [findBlockHeightFrom, if_pos (le_of_middle hmiddle)]
  split
  · rename_i e he
    cases hmiddle.symm.trans he
  · rename_i middle hmiddle'
    obtain rfl := ok.inj (hmiddle.symm.trans hmiddle')
    simp only [hresponse, ok_bind, hversion, fromOption_some, pure_eq_ok]

theorem findFirstBlockFrom_empty (h : (endBlock : ℕ) < startBlock) :
    kolme.findFirstBlockFrom vc chainVersion startBlock endBlock found = .ok found := by
  rw [findFirstBlockFrom, if_neg (Nat.not_le.mpr h)]

theorem findFirstBlockFrom_single :
    kolme.findFirstBlockFrom vc chainVersion startBlock startBlock found =
      .error (.kolme (.invalidBlockHeight startBlock startBlock)) := by
  rw [findFirstBlockFrom, if_pos le_rfl]
  split
  · rename_i e he
    obtain rfl := error.inj ((if_pos le_rfl).symm.trans he)
    rfl
  · rename_i middle hmiddle
    exact absurd (BlockHeight.increasingMiddle_bounds hmiddle) (by omega)

theorem findFirstBlockFrom_middle
    (hmiddle : BlockHeight.increasingMiddle startBlock endBlock = .ok middleBlock)
    (hresponse : kolme.blockResponse middleBlock = .ok response)
    (hversion : vc.from? response.chainVersion = some existingVersion) :
    kolme.findFirstBlockFrom vc chainVersion startBlock endBlock found =
      if vc.beq existingVersion chainVersion then
        kolme.findFirstBlockFrom vc chainVersion startBlock (middleBlock - 1) (some middleBlock)
      else if vc.compare existingVersion chainVersion = .lt then
        kolme.findFirstBlockFrom vc chainVersion (middleBlock + 1) endBlock found
      else kolme.findFirstBlockFrom vc chainVersion startBlock (middleBlock - 1) found := by
  have hne : ¬middleBlock = 0 := Nat.ne_of_gt (Nat.zero_lt_of_lt
    (BlockHeight.increasingMiddle_bounds hmiddle).1)
  rw [findFirstBlockFrom, if_pos (le_of_middle hmiddle)]
  split
  · rename_i e he
    cases hmiddle.symm.trans he
  · rename_i middle hmiddle'
    obtain rfl := ok.inj (hmiddle.symm.trans hmiddle')
    simp only [hresponse, ok_bind, hversion, fromOption_some, if_neg hne]

theorem findLastBlockFrom_empty (h : (endBlock : ℕ) < startBlock) :
    kolme.findLastBlockFrom vc chainVersion startBlock endBlock found = .ok found := by
  rw [findLastBlockFrom, if_neg (Nat.not_le.mpr h)]

theorem findLastBlockFrom_single :
    kolme.findLastBlockFrom vc chainVersion startBlock startBlock found =
      .error (.kolme (.invalidBlockHeight startBlock startBlock)) := by
  rw [findLastBlockFrom, if_pos le_rfl]
  split
  · rename_i e he
    obtain rfl := error.inj ((if_pos le_rfl).symm.trans he)
    rfl
  · rename_i middle hmiddle
    exact absurd (BlockHeight.increasingMiddle_bounds hmiddle) (by omega)

theorem findLastBlockFrom_middle
    (hmiddle : BlockHeight.increasingMiddle startBlock endBlock = .ok middleBlock)
    (hresponse : kolme.blockResponse middleBlock = .ok response)
    (hversion : vc.from? response.chainVersion = some existingVersion) :
    kolme.findLastBlockFrom vc chainVersion startBlock endBlock found =
      if vc.beq existingVersion chainVersion then
        kolme.findLastBlockFrom vc chainVersion (middleBlock + 1) endBlock (some middleBlock)
      else if vc.compare existingVersion chainVersion = .gt then
        kolme.findLastBlockFrom vc chainVersion startBlock (middleBlock - 1) found
      else kolme.findLastBlockFrom vc chainVersion (middleBlock + 1) endBlock found := by
  have hne : ¬middleBlock = 0 := Nat.ne_of_gt (Nat.zero_lt_of_lt
    (BlockHeight.increasingMiddle_bounds hmiddle).1)
  rw [findLastBlockFrom, if_pos (le_of_middle hmiddle)]
  split
  · rename_i e he
    cases hmiddle.symm.trans he
  · rename_i middle hmiddle'
    obtain rfl := ok.inj (hmiddle.symm.trans hmiddle')
    simp only [hresponse, ok_bind, hversion, fromOption_some, if_neg hne]

end

/-- The first and the last block of a version. -/
def forkInfo : Except Failure (BlockHeight × BlockHeight) := do
  let foundBlock ← kolme.findBlockHeight vc chainVersion
  let firstBlock ← kolme.findFirstBlock vc chainVersion foundBlock.blockHeight
  let lastBlock ← kolme.findLastBlock vc chainVersion foundBlock.blockHeight
  return (firstBlock, lastBlock)

end BlockReader

end Kolme
