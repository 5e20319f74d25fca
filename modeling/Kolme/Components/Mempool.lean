import Kolme.Components.Gossip

/-!
# The pool of pending transactions

The mempool with the times at which its entries were gossiped. The cache of pending transactions
doubles as a queue: the entry that was used least recently is the one the processor takes next.
-/

namespace Kolme

/-- What the proposer of a blocked transaction is told. -/
def BlockReason.toError {M : Type} : BlockReason M → ProposeTransactionError M
  | .inBlock block => .inBlock block
  | .failed notice => .failed notice

/-- A point in time. -/
abbrev Instant := Nat

structure MempoolItem (M : Type) where
  tx : SignedTransaction M
  lastGossiped : Option Instant

structure MempoolState (M : Type) where
  txs : LruCache TxHash (MempoolItem M)
  blocked : LruCache TxHash (BlockReason M)

namespace MempoolState

variable {M : Type}

def new (txCount blockedTxCount : Nat) (htx : 0 < txCount) (hblocked : 0 < blockedTxCount) :
    MempoolState M :=
  ⟨.empty txCount htx, .empty blockedTxCount hblocked⟩

/-- The transaction that the processor takes next. -/
def peek (self : MempoolState M) : Option (SignedTransaction M) := self.txs.peekLru.map (·.2.tx)

def dropTx (self : MempoolState M) (hash : TxHash) : MempoolState M :=
  { self with txs := self.txs.pop hash }

/-- Block a transaction for a reason, unless it is blocked, and drop it. -/
def block (self : MempoolState M) (hash : TxHash) (reason : BlockReason M) :
    MempoolState M × Bool :=
  if self.blocked.contains hash then (self, false)
  else (({ self with blocked := self.blocked.put hash reason }).dropTx hash, true)

section

variable (sha256 : ByteArray → Sha256Hash)

/-- Mark a transaction as blocked by already being in the chain. Returns whether this is a newly
added block. -/
def addSignedBlock (self : MempoolState M) (block : SignedBlock M) : MempoolState M × Bool :=
  self.block (block.tx.messageHash sha256) (.inBlock block)

/-- Mark a transaction as failed. Returns whether this is a newly added failed transaction. -/
def addFailedTransaction (self : MempoolState M) (failed : SignedTaggedJson FailedTransaction) :
    MempoolState M × Bool :=
  self.block failed.message.value.txhash (.failed failed)

def add (self : MempoolState M) (tx : SignedTransaction M) :
    MempoolState M × Except (ProposeTransactionError M) Unit :=
  let hash := tx.messageHash sha256
  match self.blocked.peek hash with
  | some reason =>
    -- Looking the reason up counts as a use.
    ({ self with blocked := self.blocked.getMut hash id }, .error reason.toError)
  | none =>
    if self.txs.contains hash then (self, .error .inMempool)
    else ({ self with txs := self.txs.put hash ⟨tx, none⟩ }, .ok ())

end

def getEntries (self : MempoolState M) : List (SignedTransaction M) :=
  self.txs.entries.map (·.2.tx)

/-- The transactions that were not gossiped in the last while. -/
def getEntriesForGossip (self : MempoolState M) (gossipDelayDuration : Nat) (now : Instant) :
    List (SignedTransaction M) :=
  let cutoff := if gossipDelayDuration ≤ now then now - gossipDelayDuration else now
  self.txs.entries.filterMap fun p =>
    if p.2.lastGossiped.all (· < cutoff) then some p.2.tx else none

def markMempoolEntryGossiped (self : MempoolState M) (txhash : TxHash) (now : Instant) :
    MempoolState M :=
  { self with txs := self.txs.getMut txhash fun item => { item with lastGossiped := some now } }

def remove (self : MempoolState M) (hash : TxHash) : MempoolState M := self.dropTx hash

section

variable {sha256 : ByteArray → Sha256Hash} {self : MempoolState M} {tx : SignedTransaction M}

theorem add_of_blocked {reason : BlockReason M}
    (h : self.blocked.peek (tx.messageHash sha256) = some reason) : self.add sha256 tx =
      ({ self with blocked := self.blocked.getMut (tx.messageHash sha256) id },
        .error reason.toError) := by
  simp only [add, h]

theorem add_of_pending (h : self.blocked.peek (tx.messageHash sha256) = none)
    (hpending : self.txs.contains (tx.messageHash sha256) = true) :
    self.add sha256 tx = (self, .error .inMempool) := by
  simp only [add, h, hpending, if_true]

theorem add_of_new (h : self.blocked.peek (tx.messageHash sha256) = none)
    (hnew : self.txs.contains (tx.messageHash sha256) = false) : self.add sha256 tx =
      ({ self with txs := self.txs.put (tx.messageHash sha256) ⟨tx, none⟩ }, .ok ()) := by
  simp only [add, h, hnew, Bool.false_eq_true, if_false]

theorem block_of_blocked {hash : TxHash} {reason : BlockReason M}
    (h : self.blocked.contains hash = true) : self.block hash reason = (self, false) := if_pos h

theorem block_of_new {hash : TxHash} {reason : BlockReason M}
    (h : self.blocked.contains hash = false) : self.block hash reason =
      (({ self with blocked := self.blocked.put hash reason }).dropTx hash, true) :=
  if_neg (by simp [h])

end

end MempoolState

/-! ## Runs -/

/-- What happens to a mempool. -/
inductive MempoolCall (M : Type)
  | add (tx : SignedTransaction M)
  | addSignedBlock (block : SignedBlock M)
  | addFailedTransaction (failed : SignedTaggedJson FailedTransaction)
  | remove (hash : TxHash)
  | markMempoolEntryGossiped (txhash : TxHash) (now : Instant)
  | peek
  | getEntries
  | getEntriesForGossip (now : Instant)

namespace MempoolCall

variable {M : Type} (sha256 : ByteArray → Sha256Hash)

/-- The state after a call. The listing functions change nothing. -/
def apply (state : MempoolState M) : MempoolCall M → MempoolState M
  | add tx => (state.add sha256 tx).1
  | addSignedBlock block => (state.addSignedBlock sha256 block).1
  | addFailedTransaction failed => (state.addFailedTransaction failed).1
  | remove hash => state.remove hash
  | markMempoolEntryGossiped txhash now => state.markMempoolEntryGossiped txhash now
  | peek | getEntries | getEntriesForGossip _ => state

def run (state : MempoolState M) (calls : List (MempoolCall M)) : MempoolState M :=
  calls.foldl (apply sha256) state

@[simp] theorem run_nil (state : MempoolState M) : run sha256 state [] = state := rfl

@[simp] theorem run_concat (state : MempoolState M) (past : List (MempoolCall M))
    (call : MempoolCall M) : run sha256 state (past ++ [call]) =
      apply sha256 (run sha256 state past) call := by
  rw [run, List.foldl_append]
  rfl

end MempoolCall

/-! ## The mempool without times -/

namespace MempoolState

variable {M : Type} (sha256 : ByteArray → Sha256Hash)

/-- The same pool without the times, which decide nothing but what is gossiped. -/
def toMempool (self : MempoolState M) : Mempool M :=
  ⟨self.txs.mapValues MempoolItem.tx, self.blocked⟩

theorem toMempool_block (self : MempoolState M) (hash : TxHash) (reason : BlockReason M) :
    ((self.block hash reason).1.toMempool, (self.block hash reason).2) =
      self.toMempool.block hash reason := by
  cases hblocked : self.blocked.contains hash with
  | true => simp only [block, Mempool.block, toMempool, hblocked, if_true]
  | false =>
    simp only [block, Mempool.block, toMempool, dropTx, hblocked, Bool.false_eq_true, if_false,
      LruCache.mapValues_pop]

theorem toMempool_add (self : MempoolState M) (tx : SignedTransaction M) :
    ((self.add sha256 tx).1.toMempool, (self.add sha256 tx).2) =
      self.toMempool.add sha256 tx := by
  cases hreason : self.blocked.peek (tx.messageHash sha256) with
  | some reason =>
    rw [add_of_blocked hreason]
    simp only [Mempool.add, toMempool, hreason, LruCache.getMut_id]
    cases reason <;> rfl
  | none =>
    cases hpending : self.txs.contains (tx.messageHash sha256) with
    | true =>
      rw [add_of_pending hreason hpending]
      simp only [Mempool.add, toMempool, hreason, LruCache.contains_mapValues, hpending, if_true]
    | false =>
      rw [add_of_new hreason hpending]
      simp only [Mempool.add, toMempool, hreason, LruCache.contains_mapValues, hpending,
        Bool.false_eq_true, if_false, LruCache.mapValues_put]

theorem toMempool_markMempoolEntryGossiped (self : MempoolState M) (txhash : TxHash)
    (now : Instant) : (self.markMempoolEntryGossiped txhash now).toMempool =
      self.toMempool.markMempoolEntryGossiped txhash := by
  rw [Mempool.markMempoolEntryGossiped, ← LruCache.getMut_id]
  simp only [markMempoolEntryGossiped, toMempool]
  exact congrArg (Mempool.mk · self.blocked) (LruCache.mapValues_getMut _ _ _ _ _ fun _ => rfl)

end MempoolState

end Kolme
