import Kolme.Core.Block
import Kolme.Core.Counter
import Kolme.Lib.LruCache

/-!
# Gossip and the mempool

What the messages of peers do to the mempool and to the latest known block. The handlers of the
three notifications check the processor's signature and log a bad one, and then go on as with a
good one; a notification of another signer is harmless only when it brings nothing new.
-/

namespace Kolme

/-! ## The mempool -/

/-- Why a transaction is not accepted any more. -/
inductive BlockReason (M : Type)
  | inBlock (block : SignedBlock M)
  | failed (failed : SignedTaggedJson FailedTransaction)

structure Mempool (M : Type) where
  txs : LruCache TxHash (SignedTransaction M)
  blocked : LruCache TxHash (BlockReason M)

inductive ProposeTransactionError (M : Type)
  | inMempool
  | inBlock (block : SignedBlock M)
  | failed (failed : SignedTaggedJson FailedTransaction)

namespace Mempool

variable {M : Type}

/-- Block a transaction for a reason, unless it is blocked, and drop it. -/
def block (self : Mempool M) (hash : TxHash) (reason : BlockReason M) : Mempool M × Bool :=
  if self.blocked.contains hash then (self, false)
  else ({ txs := self.txs.pop hash, blocked := self.blocked.put hash reason }, true)

section

variable (sha256 : ByteArray → Sha256Hash)

/-- Mark a transaction as blocked by already being in the chain. Returns whether this is a newly
added block. -/
def addSignedBlock (self : Mempool M) (block : SignedBlock M) : Mempool M × Bool :=
  self.block (block.tx.messageHash sha256) (.inBlock block)

/-- Mark a transaction as failed. Returns whether this is a newly added failed transaction. -/
def addFailedTransaction (self : Mempool M) (failed : SignedTaggedJson FailedTransaction) :
    Mempool M × Bool :=
  self.block failed.message.value.txhash (.failed failed)

def add (self : Mempool M) (tx : SignedTransaction M) :
    Mempool M × Except (ProposeTransactionError M) Unit :=
  let hash := tx.messageHash sha256
  match self.blocked.peek hash with
  | some reason =>
    -- Looking the reason up counts as a use.
    ({ self with blocked := self.blocked.promote hash }, .error (match reason with
      | .inBlock block => .inBlock block
      | .failed failed => .failed failed))
  | none =>
    if self.txs.contains hash then (self, .error .inMempool)
    else ({ self with txs := self.txs.put hash tx }, .ok ())

end

/-- Remember when an entry was gossiped, which counts as a use. -/
def markMempoolEntryGossiped (self : Mempool M) (hash : TxHash) : Mempool M :=
  { self with txs := self.txs.promote hash }

end Mempool

/-! ## Notifications -/

/-- What is known of pending transactions and of the chain's progress. -/
structure Notices (M : Type) where
  mempool : Mempool M
  latestBlock : Option (SignedTaggedJson LatestBlock)

/-- A message of a peer. -/
inductive GossipMessage (M : Type)
  /-- Provide the latest block information from the processor. -/
  | provideLatestBlock (latest : SignedTaggedJson LatestBlock)
  | requestBlock (height : BlockHeight)
  | provideBlock (height : BlockHeight) (block : Option (SignedBlock M))
  | requestLayer (hash : Sha256Hash)
  | provideLayer (hash : Sha256Hash) (contents : Option ByteArray)
  /-- Broadcast a transaction throughout the network -/
  | broadcastTx (tx : SignedTransaction M)
  /-- Notification from the processor that a transaction failed. -/
  | failedTransaction (failed : SignedTaggedJson FailedTransaction)
  /-- Notification from the processor that a transaction has landed. -/
  | landedTransaction (block : SignedBlock M)

namespace Notices

variable {M : Type} (env : Externals) (sha256 : ByteArray → Sha256Hash)

def verifyProcessorSignature {α : Type} (fs : FrameworkState) (signed : SignedTaggedJson α) :
    Except Error Unit := do
  let pubkey ← signed.verifySignature env
  Except.ensure (pubkey = fs.validatorSet.processor)
    (.conditionFailed "Latest block was signed by another key than the processor")

/-- Whether we can proceed with overwriting the old latest. -/
def checkHeightWhen (oldLatest latestBlock : LatestBlock) : Bool :=
  if latestBlock.height < oldLatest.height then false
  else if latestBlock.when ≤ oldLatest.when then false
  else true

def updateLatestBlock (fs : FrameworkState) (latestBlock : SignedTaggedJson LatestBlock)
    (self : Notices M) : Notices M :=
  -- An error is only logged.
  let _verified := verifyProcessorSignature env fs latestBlock
  match self.latestBlock with
  | some oldLatest =>
    if checkHeightWhen oldLatest.message.value latestBlock.message.value then
      { self with latestBlock := some latestBlock }
    else self
  | none => { self with latestBlock := some latestBlock }

/-- Log a failed transaction. -/
def addFailedTransaction (fs : FrameworkState) (failed : SignedTaggedJson FailedTransaction)
    (self : Notices M) : Notices M :=
  -- An error is only logged.
  let _verified := verifyProcessorSignature env fs failed
  { self with mempool := (self.mempool.addFailedTransaction failed).1 }

/-- Log a landed transaction. -/
def addLandedTransaction (fs : FrameworkState) (block : SignedBlock M) (self : Notices M) :
    Notices M :=
  -- An error is only logged.
  let _verified := verifyProcessorSignature env fs block
  { self with mempool := (self.mempool.addSignedBlock sha256 block).1 }

/-- Propose a new transaction for the processor to add to the chain. -/
def proposeTransaction (tx : SignedTransaction M) (self : Notices M) :
    Notices M × Except (ProposeTransactionError M) Unit :=
  let (mempool, result) := self.mempool.add sha256 tx
  ({ self with mempool }, result)

/-- What a message of a peer changes, when the node is in the given framework state. Requests are
answered from the store, and blocks and layers go to the manager of the synchronization. -/
def handleMessage (fs : FrameworkState) (message : GossipMessage M) (self : Notices M) :
    Notices M :=
  match message with
  | .provideLatestBlock latest => self.updateLatestBlock env fs latest
  | .requestBlock _ | .provideBlock _ _ | .requestLayer _ | .provideLayer _ _ => self
  | .broadcastTx tx =>
    match self.proposeTransaction sha256 tx with
    | (self, .ok ()) =>
      { self with mempool := self.mempool.markMempoolEntryGossiped (tx.messageHash sha256) }
    | (self, .error _) => self
  | .failedTransaction failed => self.addFailedTransaction env fs failed
  | .landedTransaction block => self.addLandedTransaction env sha256 fs block

end Notices

/-! ## Runs of messages -/

/-- What happens at a node: a peer's message arrives, in some framework state, or the node itself
adds a block. -/
inductive NoticeEvent (M : Type)
  | gossip (fs : FrameworkState) (message : GossipMessage M)
  | blockAdded (block : SignedBlock M)

namespace NoticeEvent

variable {M : Type} (env : Externals) (sha256 : ByteArray → Sha256Hash)

def apply (state : Notices M) : NoticeEvent M → Notices M
  | gossip fs message => state.handleMessage env sha256 fs message
  | blockAdded block => { state with mempool := (state.mempool.addSignedBlock sha256 block).1 }

def run (state : Notices M) (events : List (NoticeEvent M)) : Notices M :=
  events.foldl (apply env sha256) state

/-- Only notifications need the signature of the processor. -/
def authentic : NoticeEvent M → Bool
  | gossip fs (.provideLatestBlock latest) =>
    (Notices.verifyProcessorSignature env fs latest).isOk
  | gossip fs (.failedTransaction failed) =>
    (Notices.verifyProcessorSignature env fs failed).isOk
  | gossip fs (.landedTransaction block) =>
    (Notices.verifyProcessorSignature env fs block).isOk
  | gossip _ _ | blockAdded _ => true

/-- A notification that brings nothing new. -/
def Stale (state : Notices M) : NoticeEvent M → Prop
  | gossip _ (.provideLatestBlock latest) => ∃ old, state.latestBlock = some old ∧
      (latest.message.value.height < old.message.value.height ∨
        latest.message.value.when ≤ old.message.value.when)
  | gossip _ (.failedTransaction failed) =>
    state.mempool.blocked.contains failed.message.value.txhash = true
  | gossip _ (.landedTransaction block) =>
    state.mempool.blocked.contains (block.tx.messageHash sha256) = true
  | gossip _ _ | blockAdded _ => True

variable {env sha256}

/-- Blocking a transaction changes nothing exactly if it is blocked already. -/
theorem block_eq_self_iff {mempool : Mempool M} {hash : TxHash} {reason : BlockReason M} :
    (mempool.block hash reason).1 = mempool ↔ mempool.blocked.contains hash = true := by
  unfold Mempool.block
  split
  · rename_i hblocked
    exact iff_of_true rfl hblocked
  · rename_i hblocked
    refine iff_of_false (fun heq => hblocked ?_) hblocked
    have hblocked' : mempool.blocked.put hash reason = mempool.blocked :=
      congrArg Mempool.blocked heq
    rw [← hblocked']
    exact LruCache.contains_put ..

theorem checkHeightWhen_iff {old latest : LatestBlock} :
    Notices.checkHeightWhen old latest = false ↔
      latest.height < old.height ∨ latest.when ≤ old.when := by
  unfold Notices.checkHeightWhen
  split
  · rename_i hheight
    exact iff_of_true rfl (.inl hheight)
  · rename_i hheight
    split
    · rename_i hwhen
      exact iff_of_true rfl (.inr hwhen)
    · rename_i hwhen
      exact iff_of_false (by simp) (not_or.mpr ⟨hheight, hwhen⟩)

/-- The latest block is kept exactly if the new one is not newer. -/
theorem updateLatestBlock_eq_self_iff {fs : FrameworkState}
    {latest : SignedTaggedJson LatestBlock} {state : Notices M} :
    state.updateLatestBlock env fs latest = state ↔ ∃ old, state.latestBlock = some old ∧
      (latest.message.value.height < old.message.value.height ∨
        latest.message.value.when ≤ old.message.value.when) := by
  unfold Notices.updateLatestBlock
  cases hold : state.latestBlock with
  | none =>
    refine iff_of_false (fun heq => ?_) (by simp)
    have hlatest : some latest = state.latestBlock := congrArg Notices.latestBlock heq
    rw [hold] at hlatest
    cases hlatest
  | some old =>
    simp only [Option.some.injEq, exists_eq_left']
    rw [← checkHeightWhen_iff]
    cases hcheck : Notices.checkHeightWhen old.message.value latest.message.value with
    | false => exact iff_of_true (if_neg (by simp)) rfl
    | true =>
      refine iff_of_false (fun heq => ?_) (by simp)
      have hlatest : some latest = state.latestBlock := congrArg Notices.latestBlock heq
      rw [hold] at hlatest
      obtain rfl := Option.some.inj hlatest
      have hnever := checkHeightWhen_iff.mpr
        (.inr (le_refl (latest.message.value.when)) : latest.message.value.height <
          latest.message.value.height ∨ _)
      rw [hcheck] at hnever
      cases hnever

/-- A notification that the processor did not sign changes nothing exactly if it is stale. -/
theorem apply_eq_self_iff {state : Notices M} {e : NoticeEvent M}
    (hauthentic : e.authentic env = false) :
    e.apply env sha256 state = state ↔ e.Stale sha256 state := by
  have mempool {mempool : Mempool M} :
      ({ state with mempool } : Notices M) = state ↔ mempool = state.mempool :=
    ⟨congrArg Notices.mempool, fun heq => by rw [heq]⟩
  cases e with
  | blockAdded block => cases hauthentic
  | gossip fs message =>
    cases message with
    | provideLatestBlock latest =>
      change state.updateLatestBlock env fs latest = state ↔ _
      exact updateLatestBlock_eq_self_iff
    | failedTransaction failed => exact mempool.trans block_eq_self_iff
    | landedTransaction block => exact mempool.trans block_eq_self_iff
    | requestBlock | provideBlock | requestLayer | provideLayer | broadcastTx => cases hauthentic

end NoticeEvent

/-- In a run of messages only what the processor signed changes what is blocked, dropped or known
to be the latest block, and the other notifications could as well be missing. -/
structure Authenticated {M : Type} (env : Externals) (sha256 : ByteArray → Sha256Hash)
    (state : Notices M) (events : List (NoticeEvent M)) : Prop where
  changes : ∀ past e future, events = past ++ e :: future → e.authentic env = false →
    e.apply env sha256 (NoticeEvent.run env sha256 state past) =
      NoticeEvent.run env sha256 state past
  removal : NoticeEvent.run env sha256 state (events.filter (·.authentic env)) =
    NoticeEvent.run env sha256 state events

/-- Notifications are authenticated in exactly the runs in which those that the processor did not
sign bring nothing new. -/
theorem authenticated_iff {M : Type} (env : Externals) (sha256 : ByteArray → Sha256Hash)
    (state : Notices M) (events : List (NoticeEvent M)) :
    Authenticated env sha256 state events ↔
      ∀ past e future, events = past ++ e :: future → e.authentic env = false →
        e.Stale sha256 (NoticeEvent.run env sha256 state past) := by
  constructor
  · intro h past e future hevents hauthentic
    exact (NoticeEvent.apply_eq_self_iff hauthentic).mp (h.changes past e future hevents hauthentic)
  · intro hstale
    have hchanges : ∀ past e future, events = past ++ e :: future → e.authentic env = false →
        e.apply env sha256 (NoticeEvent.run env sha256 state past) =
          NoticeEvent.run env sha256 state past := fun past e future hevents hauthentic =>
      (NoticeEvent.apply_eq_self_iff hauthentic).mpr (hstale past e future hevents hauthentic)
    refine ⟨hchanges, ?_⟩
    clear hstale
    -- The states of both runs agree from one message to the next.
    induction events generalizing state with
    | nil => rfl
    | cons e events ih =>
      have hrest := ih (e.apply env sha256 state) fun past e' future hevents hauthentic =>
        hchanges (e :: past) e' future (by rw [hevents, List.cons_append]) hauthentic
      cases hauthentic : e.authentic env with
      | true =>
        rw [List.filter_cons_of_pos hauthentic]
        exact hrest
      | false =>
        rw [List.filter_cons_of_neg (by simp [hauthentic])]
        have hsame : e.apply env sha256 state = state := hchanges [] e events rfl hauthentic
        rw [hsame] at hrest
        refine hrest.trans ?_
        change _ = NoticeEvent.run env sha256 (e.apply env sha256 state) events
        rw [hsame]

namespace GossipSample

open Sample

def withdrawHash : TxHash :=
  0x9fcfd7b30729723271db7e182c9f5fecc90019c9425a092af4c082ae021a1fce

/-- Bob's signature of a notification that the withdrawal failed. -/
def forged : SignedText where
  text :=
    "\x7b\"txhash\":\"9fcfd7b30729723271db7e182c9f5fecc90019c9425a092af4c082ae021a1fce\"," ++
    "\"proposed_height\":2,\"error\":\x7b\"Other\":\"Insufficient funds\"\x7d\x7d"
  signature := signature
    0x523f573c2a0677626a97288412c02d2b83674850c069645aeb1ccf7cf11eb4a1
  recoveryId := 0
  key := bob

def table : List SignedText := [withdrawTx.text, forged]

/-- The hash of the withdrawal, as far as it is used here. -/
def sha256 (bytes : ByteArray) : Sha256Hash :=
  if bytes = withdrawTx.text.text.toByteArray then withdrawHash else 0

def noNotices : Notices Unit where
  mempool := ⟨.empty 1000 (by decide), .empty 1000 (by decide)⟩
  latestBlock := none

/-- Bob's notification. -/
def failed : SignedTaggedJson FailedTransaction :=
  forged.tagged ⟨withdrawHash, 2, .other "Insufficient funds"⟩

/-- Alice's withdrawal arrives, and then the notification. -/
def events : List (NoticeEvent Unit) :=
  [.gossip (FrameworkState.new (info validators))
      (.broadcastTx (withdrawTx.text.tagged withdrawTx.tx)),
    .gossip (FrameworkState.new (info validators)) (.failedTransaction failed)]

def run (events : List (NoticeEvent Unit)) : Mempool Unit :=
  (NoticeEvent.run (counterEnv table) sha256 noNotices events).mempool

end GossipSample

open Sample GossipSample in
/-- The notification of Bob, who is no validator, drops Alice's withdrawal and blocks it. -/
theorem authenticated_iff_counterexample :
    failed.verifySignature (counterEnv table) = .ok bob ∧ bob ≠ validators.processor ∧
    (run events).txs.contains withdrawHash = false ∧
    (run events).blocked.contains withdrawHash = true ∧
    (run (events.filter (·.authentic (counterEnv table)))).txs.contains withdrawHash = true ∧
    ¬Authenticated (counterEnv table) sha256 noNotices events := by
  have hrun : (run events).txs.contains withdrawHash = false := by decide +kernel
  have hfiltered : (run (events.filter (·.authentic (counterEnv table)))).txs.contains
      withdrawHash = true := by decide +kernel
  refine ⟨by decide +kernel, by decide, hrun, by decide, hfiltered, fun h => ?_⟩
  rw [run, h.removal] at hfiltered
  rw [run, hfiltered] at hrun
  cases hrun

end Kolme
