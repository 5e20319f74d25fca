import Kolme.Components.Listener
import Kolme.Contracts.Ethereum.Bridge

/-!
# The Ethereum listener

The contract numbers its events, whatever their kind. The listener reads them from logs, in polls
and in subscriptions, and keeps the number of the event it expects and the place in the chain
where it goes on. It knows one of the two kinds of events.
-/

namespace Kolme.Ethereum

open Except

inductive ListenerMode
  | hybrid
  | subscriptionOnly
deriving DecidableEq

/-- A log of the bridge contract, as a provider reports it. -/
structure Log where
  blockNumber : Option Nat
  logIndex : Option Nat
  removed : Bool
  event : Event
deriving DecidableEq

/-- The readers and renderers of other libraries. -/
structure Formats where
  publicKeyFromBytes : Bytes → Except ListenerError PublicKey
  evmAddressToString : Address → String

/-! ## Events -/

/-- The events that the listener knows. -/
inductive BridgeEventLog
  | fundsReceived (eventId : U64) (sender : Address) (tokens : List Address) (amounts : List Word)
    (keys : List Bytes)

namespace BridgeEventLog

def eventId : BridgeEventLog → BridgeEventId
  | fundsReceived eventId .. => eventId.val

/-- Logs with another topic are ignored. -/
def fromLog (log : Log) : Option BridgeEventLog :=
  match log.event with
  | .fundsReceived eventId sender tokens amounts keys =>
    some (.fundsReceived eventId sender tokens amounts keys)
  | .signed .. => none

end BridgeEventLog

def u256ToU128 (value : Word) : Except ListenerError U128 :=
  if h : value.val < 2 ^ 128 then .ok ⟨value.val, h⟩
  else .error (.outside "Ethereum value does not fit into u128")

variable (formats : Formats) (chain : ExternalChain)

def tokenAddressToDenom (token : Address) : String :=
  if token = 0 then "eth" else formats.evmAddressToString token

def toFunds : List (Address × Word) → Except ListenerError (List BridgedAssetAmount)
  | [] => .ok []
  | (token, amount) :: rest => do
    let amount ← u256ToU128 amount
    let funds ← toFunds rest
    return ⟨tokenAddressToDenom formats token, amount⟩ :: funds

def BridgeEventLog.toKolmeMessage (eventId : BridgeEventId) :
    BridgeEventLog → Except ListenerError Proposal
  | .fundsReceived _ sender tokens amounts keys => do
    ensure (tokens.length = amounts.length) (.conditionFailed "tokens.len() == amounts.len()")
    let funds ← toFunds formats (tokens.zip amounts)
    let keys ← keys.mapM formats.publicKeyFromBytes
    return ⟨chain, eventId, .regular (formats.evmAddressToString sender) funds keys⟩

/-! ## The listener -/

/-- Where the listener is, and what it has proposed. -/
structure Listener where
  nextBridgeEventId : BridgeEventId
  nextBlock : Nat
  firstLogIndex : Option Nat
  proposed : List Proposal

def shouldSkipLog (log : Log) (nextBlock : Nat) (firstLogIndex : Option Nat) : Bool :=
  log.removed ||
    match firstLogIndex with
    | none => false
    | some minLogIndex =>
      log.blockNumber = some nextBlock && log.logIndex.any (· < minLogIndex)

/-- The node signs the message, proposes it and waits until it is in a block. -/
def signProposeAwaitTransaction (message : Proposal) : Exec ListenerError Listener Unit :=
  Exec.modify fun s => { s with proposed := s.proposed ++ [message] }

def processEvent (log : Log) : Exec ListenerError Listener Unit :=
  match BridgeEventLog.fromLog log with
  | none => pure ()
  | some event => do
    let nextBridgeEventId := (← Exec.get).nextBridgeEventId
    let actualEventId := event.eventId
    Exec.ensure (actualEventId = nextBridgeEventId)
      (.unexpectedEventId nextBridgeEventId actualEventId)
    let message ← Exec.lift (event.toKolmeMessage formats chain actualEventId)
    signProposeAwaitTransaction message
    Exec.modify fun s => { s with nextBridgeEventId := s.nextBridgeEventId + 1 }

/-- A log of a poll. -/
def pollLog (log : Log) : Exec ListenerError Listener Unit := do
  let s ← Exec.get
  if shouldSkipLog log s.nextBlock s.firstLogIndex then pure ()
  else processEvent formats chain log

/-- The logs of a range of blocks. -/
def getLogs (logs : List Log) (fromBlock toBlock : Nat) : List Log :=
  logs.filter fun log => log.blockNumber.any fun b => fromBlock ≤ b ∧ b ≤ toBlock

/-- A poll, when the provider has the given logs up to the block `latest`. -/
def listenPollingOnce (logs : List Log) (latest : Nat) : Exec ListenerError Listener Unit := do
  let nextBlock := (← Exec.get).nextBlock
  if latest < nextBlock then pure ()
  else do
    Exec.forEach (pollLog formats chain) (getLogs logs nextBlock latest)
    Exec.modify fun s => { s with nextBlock := latest + 1, firstLogIndex := none }

/-- A log of a subscription. -/
def subscriptionLog (log : Log) : Exec ListenerError Listener Unit := do
  let s ← Exec.get
  if shouldSkipLog log s.nextBlock s.firstLogIndex then pure ()
  else do
    processEvent formats chain log
    Exec.modify fun s =>
      { s with
        nextBlock := log.blockNumber.getD s.nextBlock
        firstLogIndex := log.logIndex.map (· + 1) }

/-- The logs that a subscription is for. -/
def subscribeLogs (logs : List Log) (fromBlock : Nat) : List Log :=
  logs.filter fun log =>
    (BridgeEventLog.fromLog log).isSome && log.blockNumber.any (fromBlock ≤ ·)

/-- A subscription that delivers the given logs and then ends, which is an error. -/
def tryWsSessionOnce (stream : List Log) : Exec ListenerError Listener Unit := do
  Exec.forEach (subscriptionLog formats chain) stream
  Exec.throw (.connection "Ethereum listener subscription ended")

/-- The place of the expected event, or the first block that has not been scanned. -/
def getResumeCursor (logs : List Log) (latest : Nat) (nextBridgeEventId : BridgeEventId) :
    Nat × Option Nat :=
  if nextBridgeEventId = 0 then (0, none)
  else
    let found := logs.find? fun log =>
      log.blockNumber.any (· ≤ latest) && !log.removed &&
        (BridgeEventLog.fromLog log).any fun event => event.eventId = nextBridgeEventId
    match found with
    | some log => (log.blockNumber.getD 0, log.logIndex)
    | none => (latest + 1, none)

/-- What happens to a listener. -/
inductive Delivery
  | poll (latest : Nat)
  | session (stream : List Log)
  | noConnection
  /-- The listener is started again. -/
  | restart (latest : Nat)

/-- The start of a listener that expects the given event. -/
def resume (logs : List Log) (latest : Nat) (s : Listener) : Listener :=
  let (nextBlock, firstLogIndex) := getResumeCursor logs latest s.nextBridgeEventId
  { s with nextBlock, firstLogIndex }

/-- A listener, and the error that has stopped it. -/
structure Run where
  listener : Listener
  stopped : Option ListenerError

def Run.attempt (x : Exec ListenerError Listener Unit) (run : Run) : Run :=
  match run.stopped, x run.listener with
  | some e, _ => ⟨run.listener, some e⟩
  | none, (.ok (), listener) => ⟨listener, none⟩
  | none, (.error e, listener) => ⟨listener, some e⟩

/-- Without polls every error of a subscription stops the listener. With polls none does. -/
def session (mode : ListenerMode) (x : Exec ListenerError Listener Unit) :
    Exec ListenerError Listener Unit :=
  fun s => (if mode = .subscriptionOnly then (x s).1 else .ok (), (x s).2)

def deliver (mode : ListenerMode) (logs : List Log) (run : Run) : Delivery → Run
  | .poll latest =>
    if mode = .subscriptionOnly then run
    else run.attempt (listenPollingOnce formats chain logs latest)
  | .session stream => run.attempt (session mode (tryWsSessionOnce formats chain stream))
  | .noConnection => run.attempt (session mode (Exec.throw (.connection "WebSocket")))
  | .restart latest => ⟨resume logs latest run.listener, none⟩

/-- A run of a listener from its first start, when the contract is deployed and no event has been
reported. -/
def listen (mode : ListenerMode) (logs : List Log) (latest : Nat) (deliveries : List Delivery) :
    Run :=
  deliveries.foldl (deliver formats chain mode logs) ⟨resume logs latest ⟨1, 0, none, []⟩, none⟩

end Kolme.Ethereum
