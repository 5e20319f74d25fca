import Kolme.Components.SyncManager

/-!
# Forged blocks in a sync slot

A block that a peer provides is not checked when it arrives. A forged block changes nothing exactly
if the node does not wait for a block of that height; then it changes nothing in any run.
-/

namespace Kolme

open Merkle (Sha256)

variable {app : App}

/-- A block that is signed by the holder of a key. -/
def SignedBy (env : Externals) (key : PublicKey) (block : SignedBlock app.Message) : Prop :=
  block.message.value.processor = key ∧ block.validateSignature env = .ok ()

namespace SyncManager

variable [Sha256] [MerkleHashed (StorableBlock (SignedBlock app.Message))]
  [Rendered (SignedBlock app.Message)] (gossip : Gossip app)
  (honest : BlockHeight → Option (SignedBlock app.Message))

/-- A block that the node's processor did not sign, or that is not the honest one of its height. -/
def Forged (self : SyncManager app) (block : SignedBlock app.Message) : Prop :=
  ¬SignedBy gossip.tools.env self.kolme.currentBlock.processor block ∨
    honest block.height ≠ some block

/-- The node does not wait for a block of a height: if one is stored then it has no slot, and
otherwise its slot is not one that waits for the block. -/
def Settled (self : SyncManager app) (height : BlockHeight) : Prop :=
  match KolmeBackingStore.hasBlock self.kolme.store height with
  | .ok true => self.neededBlocks.get? height = none
  | .ok false => ∀ status, self.neededBlocks.get? height ≠ some (.needed status)
  | .error _ => True

variable {gossip honest} {self : SyncManager app} {block : SignedBlock app.Message}

omit [Sha256] in
/-- What becomes of a block that a peer provides. -/
theorem addPendingBlock_eq : (addPendingBlock block self).2 =
    match KolmeBackingStore.hasBlock self.kolme.store block.height with
    | .ok true => { self with neededBlocks := self.neededBlocks.erase block.height }
    | .ok false =>
      match self.neededBlocks.get? block.height with
      | some (.needed _) =>
        { self with neededBlocks := self.neededBlocks.insert block.height (.received block) }
      | _ => self
    | .error _ => self := by
  have hrun : onKolme (KolmeInner.hasBlock block.height) self =
      ((KolmeBackingStore.hasBlock self.kolme.store block.height).mapError .store, self) := rfl
  unfold addPendingBlock
  cases hfound : KolmeBackingStore.hasBlock self.kolme.store block.height with
  | error e =>
    rw [Exec.bind_of_error (hrun.trans (by rw [hfound]; rfl))]
  | ok found =>
    rw [Exec.bind_of_ok (hrun.trans (by rw [hfound]; rfl))]
    cases found with
    | true => rfl
    | false =>
      simp only [Bool.false_eq_true, if_false, Exec.get_bind]
      cases self.neededBlocks.get? block.height with
      | none => rfl
      | some waiting => cases waiting <;> rfl

omit [Sha256] in
/-- A block that a peer provides changes nothing exactly if the node does not wait for it. -/
theorem addPendingBlock_same :
    (addPendingBlock block self).2 = self ↔ self.Settled block.height := by
  rw [addPendingBlock_eq, Settled]
  split
  · rename_i hfound
    rw [← SortedMap.erase_eq_self]
    exact ⟨fun h => congrArg neededBlocks h, fun h => by rw [h]⟩
  · split
    · rename_i status hslot
      refine ⟨fun h => ?_, fun h => absurd hslot (h status)⟩
      have hget := congrArg (fun self => self.neededBlocks.get? block.height) h
      rw [SortedMap.get?_insert_self, hslot] at hget
      cases hget
    · rename_i hslot
      exact ⟨fun _ status hget => hslot status hget, fun _ => rfl⟩
  · exact ⟨fun _ => trivial, fun _ => rfl⟩

/-! ## Two runs -/

section

variable (gossip honest)

/-- The second list of events is the first one with forged blocks put in, each at a moment at which
the node does not wait for a block of its height. -/
inductive WithForged : SyncManager app → List (Event app) → List (Event app) → Prop
  | nil (self : SyncManager app) : WithForged self [] []
  | keep {self : SyncManager app} {events events' : List (Event app)} (event : Event app)
    (rest : WithForged (handle gossip self event).2 events events') :
    WithForged self (event :: events) (event :: events')
  | forge {self : SyncManager app} {events events' : List (Event app)}
    {block : SignedBlock app.Message} (forged : self.Forged gossip honest block)
    (settled : self.Settled block.height) (rest : WithForged self events events') :
    WithForged self events (.provideBlock block :: events')

/-- Two lists of events have the same effect: the same blocks and slots, and the same requests. -/
def SameEffect (self : SyncManager app) (events events' : List (Event app)) : Prop :=
  (service gossip).run self events' = (service gossip).run self events ∧
    ((service gossip).answers self events').flatten = ((service gossip).answers self events).flatten

end

/-- A forged block changes nothing, whatever follows, exactly if the node does not wait for it. And
then any number of forged blocks changes nothing. -/
theorem forged_blocks (gossip : Gossip app) (honest : BlockHeight → Option (SignedBlock app.Message))
    (self : SyncManager app) :
    (∀ block, self.Forged gossip honest block →
      ((∀ events, SameEffect gossip self events (.provideBlock block :: events)) ↔
        self.Settled block.height)) ∧
    ∀ events events', WithForged gossip honest self events events' →
      SameEffect gossip self events events' := by
  have skip {self : SyncManager app} {block : SignedBlock app.Message}
      (h : self.Settled block.height) (events : List (Event app)) :
      SameEffect gossip self events (.provideBlock block :: events) := by
    have hsame : (handle gossip self (.provideBlock block)).2 = self := addPendingBlock_same.mpr h
    constructor
    · rw [Service.run_cons]
      change (service gossip).run (handle gossip self (.provideBlock block)).2 events = _
      rw [hsame]
    · change ([] :: (service gossip).answers (handle gossip self (.provideBlock block)).2
        events).flatten = _
      rw [hsame]
      rfl
  refine ⟨fun block _ => ⟨fun h => ?_, skip⟩, fun events events' h => ?_⟩
  · exact addPendingBlock_same.mp (h []).1
  · induction h with
    | nil self => exact ⟨rfl, rfl⟩
    | keep event rest ih => exact ⟨ih.1, congrArg (_ ++ ·) ih.2⟩
    | forge forged settled rest ih =>
      have hskip := skip settled ‹_›
      exact ⟨hskip.1.trans ih.1, hskip.2.trans ih.2⟩

end SyncManager

/-! ## Samples -/

namespace SlotsSample

open Sample NodeSample

/-- No hash is computed. -/
scoped instance : Sha256 where
  hash _ := 0

/-- A block of a later height, which names someone else as the processor, with arbitrary hashes -/
def forged : SignedBlock chain.Message where
  message :=
    let block : Block Unit := {
      tx := genesisTx.text.tagged genesisTx.tx
      timestamp := 0
      processor := alice
      height := 5
      parent := 0
      frameworkState := 1
      appState := 2
      logs := 3
      loads := [] }
    ⟨Json.block block, block⟩
  signature := signature 1
  recoveryId := 0

def gossip : Gossip chain where
  tools := ⟨counterEnv [genesisTx.text], codec, "v1"⟩
  syncMode := .stateTransfer
  dataLoadValidation := .validateDataLoads
  concurrentRequestLimit := 8
  order := ⟨fun hashes => hashes.sort (· ≤ ·), Finset.mem_sort _⟩

/-- A new node -/
def node : SyncManager chain :=
  .new ⟨.new .inMemory, .empty, 0, start validators⟩

end SlotsSample

open SlotsSample NodeSample in
/-- A forged block takes the slot of the block that a new node waits for, so that the node asks for
layers of a block that does not exist and no longer for the block. -/
theorem SyncManager.forged_blocks_counterexample :
    let needed := ((service gossip).call node (.needBlock 5)).2
    needed.Forged gossip (fun _ => none) forged ∧
      (service gossip).answers needed [.poll 0 ()] = [[.block 5]] ∧
      (service gossip).answers needed [.provideBlock forged, .poll 0 ()] =
        [[], [.merkle 1, .merkle 2, .merkle 3]] := by
  refine ⟨.inl fun h => absurd h.1 (by decide), ?_, ?_⟩ <;> decide

end Kolme
