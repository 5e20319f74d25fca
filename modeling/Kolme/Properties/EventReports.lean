import Kolme.Components.EthereumListener
import Kolme.Properties.EthereumRotation

/-!
# Reports of Ethereum events

The contract numbers all its events in one sequence, and the listener expects the next number in
every event it knows. It reports every event in order exactly as long as all events are of the kind
it knows, with amounts and keys that it can represent.
-/

namespace Kolme.Ethereum

open Except

variable {crypto : Crypto}

/-! ## The events of the contract -/

namespace Event

def eventId : Event → U64
  | fundsReceived eventId .. => eventId
  | signed eventId .. => eventId

/-- Every token of a deposit comes with an amount. -/
def Balanced : Event → Prop
  | fundsReceived _ _ tokens amounts _ => tokens.length = amounts.length
  | signed .. => True

end Event

/-- The events of a run of calls, in order. -/
def emitted (crypto : Crypto) : State → List Call → List Event
  | _, [] => []
  | s, call :: calls =>
    match call.perform crypto s with
    | .ok (s', event) => event :: emitted crypto s' calls
    | .error _ => emitted crypto s calls

/-- An event carries the next number. -/
theorem perform_ok {s s' : State} {call : Call} {event : Event}
    (h : call.perform crypto s = .ok (s', event)) :
    event.eventId = s.nextEventId ∧ s'.nextEventId.val = s.nextEventId.val + 1 ∧
      event.Balanced := by
  cases call with
  | regular env tokens amounts keys =>
    simp only [Call.perform, regular, bind_eq_ok, ensure_eq_ok, exists_unit] at h
    obtain ⟨hlength, regularKeys, -, -, h⟩ := h
    simp only [pure_eq_ok, ok.injEq, Prod.mk.injEq] at h
    obtain ⟨next, hnext, rfl, rfl⟩ := h
    refine ⟨rfl, increment_ok hnext, ?_⟩
    simp only [Event.Balanced]
    split <;> simp [hlength]
  | executeSigned env payload processor approvers =>
    simp only [Call.perform, executeSigned, bind_eq_ok, ensure_eq_ok, exists_unit, pure_eq_ok,
      ok.injEq, Prod.mk.injEq] at h
    obtain ⟨⟨id, actionData⟩, -, -, expected, -, -, -, set', -, next, hnext, _, -, rfl, rfl⟩ := h
    exact ⟨rfl, increment_ok hnext, trivial⟩

theorem emitted_spec {calls : List Call} {s : State} {i : Nat} {event : Event}
    (h : (emitted crypto s calls)[i]? = some event) :
    event.eventId.val = s.nextEventId.val + i ∧ event.Balanced := by
  induction calls generalizing s i with
  | nil => simp [emitted] at h
  | cons call calls ih =>
    unfold emitted at h
    cases hperform : call.perform crypto s with
    | error e => exact ih (by simpa [hperform] using h)
    | ok p =>
      obtain ⟨s', event'⟩ := p
      obtain ⟨hid, hnext, hbalanced⟩ := perform_ok hperform
      simp only [hperform] at h
      cases i with
      | zero =>
        obtain rfl : event' = event := by simpa using h
        exact ⟨by rw [hid, Nat.add_zero], hbalanced⟩
      | succ i =>
        obtain ⟨hid', hbalanced'⟩ := ih (by simpa using h)
        exact ⟨by omega, hbalanced'⟩

/-! ## Logs -/

namespace Log

def block (log : Log) : Nat := log.blockNumber.getD 0

def index (log : Log) : Nat := log.logIndex.getD 0

/-- The order of the logs of a chain. -/
def Earlier (a b : Log) : Prop := a.block < b.block ∨ a.block = b.block ∧ a.index < b.index

/-- The log is part of the chain. -/
structure Mined (log : Log) : Prop where
  block : log.blockNumber = some log.block
  index : log.logIndex = some log.index
  kept : log.removed = false

end Log

/-- A run of the contract from its deployment, with the logs of its events in the chain. -/
structure History (crypto : Crypto) where
  set : ValidatorSet
  deployed : State
  deploy_ok : deploy crypto set = .ok deployed
  calls : List Call
  logs : List Log
  events : logs.map (·.event) = emitted crypto deployed calls
  mined : ∀ log ∈ logs, log.Mined
  sorted : logs.Pairwise Log.Earlier

namespace History

variable (self : History crypto) {i j : Nat} {log log' : Log}

theorem numbered (h : self.logs[i]? = some log) :
    log.event.eventId.val = i + 1 ∧ log.event.Balanced := by
  have hevent : (emitted crypto self.deployed self.calls)[i]? = some log.event := by
    rw [← self.events, List.getElem?_map, h]
    rfl
  obtain ⟨hid, hbalanced⟩ := emitted_spec hevent
  have hfirst : self.deployed.nextEventId.val = 1 := by
    have hdeploy := self.deploy_ok
    simp only [deploy, bind_eq_ok, pure_eq_ok, ok.injEq] at hdeploy
    obtain ⟨_, -, hdeployed⟩ := hdeploy
    rw [← hdeployed]
    rfl
  exact ⟨by omega, hbalanced⟩

theorem earlier (h : self.logs[i]? = some log) (h' : self.logs[j]? = some log') (hij : i < j) :
    log.Earlier log' := by
  obtain ⟨hi, rfl⟩ := List.getElem?_eq_some_iff.mp h
  obtain ⟨hj, rfl⟩ := List.getElem?_eq_some_iff.mp h'
  exact List.pairwise_iff_getElem.mp self.sorted i j hi hj hij

theorem sorted_of_le {k : Nat} (h : self.logs[i]? = some log) (h' : self.logs[k]? = some log')
    (hki : k ≤ i) : log'.block ≤ log.block := by
  rcases Nat.lt_or_eq_of_le hki with hlt | rfl
  · have := self.earlier h' h hlt
    unfold Log.Earlier at this
    omega
  · obtain rfl : log = log' := Option.some.inj (h.symm.trans h')
    exact Nat.le_refl _

end History

/-! ## Reports -/

section Listener

variable (formats : Formats) (chain : ExternalChain)

/-- What the core has to learn of an event. -/
def report : Event → Except ListenerError BridgeEvent
  | .fundsReceived _ sender tokens amounts keys => do
    let funds ← toFunds formats (tokens.zip amounts)
    let keys ← keys.mapM formats.publicKeyFromBytes
    return .regular (formats.evmAddressToString sender) funds keys
  | .signed _ sender actionId => .ok (.signed (formats.evmAddressToString sender) actionId.val)

/-- The proposal is the listener's message for the event of the log. -/
structure ReportOf (log : Log) (proposal : Proposal) : Prop where
  chain : proposal.chain = chain
  eventId : proposal.eventId = log.event.eventId.val
  event : report formats log.event = .ok proposal.event

/-- The event is of the kind that the listener knows, its amounts have at most 128 bits and its
keys can be read. -/
def Reportable : Event → Prop
  | .fundsReceived _ _ _ amounts keys =>
    (∀ amount ∈ amounts, amount.val < 2 ^ 128) ∧
      ∀ key ∈ keys, ∃ publicKey, formats.publicKeyFromBytes key = .ok publicKey
  | .signed .. => False

theorem toFunds_ok {tokens : List Address} {amounts : List Word}
    (hlength : tokens.length = amounts.length) :
    (∃ funds, toFunds formats (tokens.zip amounts) = .ok funds) ↔
      ∀ amount ∈ amounts, amount.val < 2 ^ 128 := by
  induction tokens generalizing amounts with
  | nil =>
    obtain rfl := List.length_eq_zero_iff.mp hlength.symm
    simp [toFunds]
  | cons token tokens ih =>
    cases amounts with
    | nil => simp at hlength
    | cons amount amounts =>
      have ih := ih (show tokens.length = amounts.length by simpa using hlength)
      rw [List.forall_mem_cons, ← ih]
      simp only [List.zip_cons_cons, toFunds, bind_eq_ok, pure_eq_ok, ok.injEq, u256ToU128]
      constructor
      · rintro ⟨_, a, ha, funds, hfunds, -⟩
        split at ha
        next h => exact ⟨h, funds, hfunds⟩
        next => cases ha
      · rintro ⟨h, funds, hfunds⟩
        exact ⟨_, ⟨amount.val, h⟩, dif_pos h, funds, hfunds, rfl⟩

theorem mapM_ok {ε α β : Type} {f : α → Except ε β} {as : List α} :
    (∃ bs, as.mapM f = .ok bs) ↔ ∀ a ∈ as, ∃ b, f a = .ok b := by
  induction as with
  | nil => simp
  | cons a as ih =>
    rw [List.forall_mem_cons, ← ih]
    simp only [List.mapM_cons, bind_eq_ok, pure_eq_ok, ok.injEq]
    constructor
    · rintro ⟨_, b, hb, bs, hbs, -⟩
      exact ⟨⟨b, hb⟩, bs, hbs⟩
    · rintro ⟨⟨b, hb⟩, bs, hbs⟩
      exact ⟨b :: bs, b, hb, bs, hbs, rfl⟩

/-- A known event can be reported exactly when it can be represented. -/
theorem report_ok {eventId : U64} {sender : Address} {tokens : List Address} {amounts : List Word}
    {keys : List Bytes} (hlength : tokens.length = amounts.length) :
    (∃ event, report formats (.fundsReceived eventId sender tokens amounts keys) = .ok event) ↔
      Reportable formats (.fundsReceived eventId sender tokens amounts keys) := by
  rw [Reportable, ← toFunds_ok formats hlength, ← mapM_ok]
  simp only [report, bind_eq_ok, pure_eq_ok, ok.injEq]
  constructor
  · rintro ⟨_, funds, hfunds, keys', hkeys, -⟩
    exact ⟨⟨funds, hfunds⟩, keys', hkeys⟩
  · rintro ⟨⟨funds, hfunds⟩, keys', hkeys⟩
    exact ⟨_, funds, hfunds, keys', hkeys, rfl⟩

/-! ## One event -/

section Events

variable {log : Log} {s : Listener}

theorem processEvent_next (h : Reportable formats log.event) (hbalanced : log.event.Balanced)
    (hid : log.event.eventId.val = s.nextBridgeEventId) :
    ∃ proposal, ReportOf formats chain log proposal ∧
      processEvent formats chain log s = (.ok (), { s with
        proposed := s.proposed ++ [proposal]
        nextBridgeEventId := s.nextBridgeEventId + 1 }) := by
  obtain ⟨blockNumber, logIndex, removed, event⟩ := log
  cases event with
  | signed => exact h.elim
  | fundsReceived eventId sender tokens amounts keys =>
    obtain ⟨event, hevent⟩ := (report_ok formats hbalanced).mpr h
    refine ⟨⟨chain, eventId.val, event⟩, ⟨rfl, rfl, hevent⟩, ?_⟩
    simp only [report, bind_eq_ok, pure_eq_ok, ok.injEq] at hevent
    obtain ⟨funds, hfunds, keys', hkeys, rfl⟩ := hevent
    let known : BridgeEventLog := .fundsReceived eventId sender tokens amounts keys
    have hmessage : known.toKolmeMessage formats chain known.eventId =
        .ok ⟨chain, eventId.val, .regular (formats.evmAddressToString sender) funds keys'⟩ := by
      simp only [BridgeEventLog.toKolmeMessage, known, bind_eq_ok, ensure_eq_ok, exists_unit]
      exact ⟨hbalanced, funds, hfunds, keys', hkeys, rfl⟩
    have hexpected : known.eventId = s.nextBridgeEventId := hid
    change (Exec.get >>= _) s = _
    rw [Exec.bind_of_ok (Exec.get_eq_ok.mpr ⟨rfl, rfl⟩),
      Exec.bind_of_ok (a := ()) (Exec.ensure_eq_ok.mpr ⟨hexpected, rfl⟩),
      Exec.bind_of_ok (Exec.lift_eq_ok.mpr ⟨hmessage, rfl⟩)]
    rfl

theorem processEvent_other (h : Reportable formats log.event)
    (hid : log.event.eventId.val ≠ s.nextBridgeEventId) :
    ∃ e, processEvent formats chain log s = (.error e, s) := by
  obtain ⟨blockNumber, logIndex, removed, event⟩ := log
  cases event with
  | signed => exact h.elim
  | fundsReceived eventId sender tokens amounts keys =>
    let known : BridgeEventLog := .fundsReceived eventId sender tokens amounts keys
    have hunexpected : known.eventId ≠ s.nextBridgeEventId := hid
    refine ⟨.unexpectedEventId s.nextBridgeEventId eventId.val, ?_⟩
    change (Exec.get >>= _) s = _
    rw [Exec.bind_of_ok (Exec.get_eq_ok.mpr ⟨rfl, rfl⟩),
      Exec.bind_of_error (Exec.ensure_eq_error.mpr ⟨⟨hunexpected, rfl⟩, rfl⟩)]
    rfl

theorem fromLog_eventId {known : BridgeEventLog} (h : BridgeEventLog.fromLog log = some known) :
    known.eventId = log.event.eventId.val := by
  unfold BridgeEventLog.fromLog at h
  cases hevent : log.event with
  | signed => simp [hevent] at h
  | fundsReceived =>
    simp only [hevent, Option.some.injEq] at h
    rw [← h]
    rfl

theorem fromLog_of_reportable (h : Reportable formats log.event) :
    ∃ known, BridgeEventLog.fromLog log = some known := by
  unfold BridgeEventLog.fromLog
  cases hevent : log.event with
  | signed => simp [hevent, Reportable] at h
  | fundsReceived => exact ⟨_, rfl⟩

end Events

/-! ## The place in the chain -/

/-- The listener goes on after the log. -/
def Listener.Past (s : Listener) (log : Log) : Prop :=
  log.block < s.nextBlock ∨
    log.block = s.nextBlock ∧ ∃ index, s.firstLogIndex = some index ∧ log.index < index

theorem shouldSkipLog_iff {log : Log} {s : Listener} (hmined : log.Mined)
    (hblock : s.nextBlock ≤ log.block) :
    shouldSkipLog log s.nextBlock s.firstLogIndex = true ↔ s.Past log := by
  unfold shouldSkipLog Listener.Past
  rw [hmined.kept, hmined.block, hmined.index]
  cases s.firstLogIndex with
  | none => simp [hblock]
  | some index => simp [Nat.not_lt.mpr hblock]

/-- The listener has reported the first `k` events, and goes on after them. -/
structure Reported (history : History crypto) (s : Listener) (k : Nat) : Prop where
  next : s.nextBridgeEventId = k + 1
  past : ∀ i log, history.logs[i]? = some log → (s.Past log ↔ i < k)
  proposed : List.Forall₂ (ReportOf formats chain) (history.logs.take k) s.proposed

/-- What a poll has reported while its place in the chain stays. -/
structure Polled (history : History crypto) (s t : Listener) (k : Nat) : Prop where
  next : t.nextBridgeEventId = k + 1
  proposed : List.Forall₂ (ReportOf formats chain) (history.logs.take k) t.proposed
  block : t.nextBlock = s.nextBlock
  index : t.firstLogIndex = s.firstLogIndex

section Steps

variable {history : History crypto} {s t : Listener} {i k : Nat} {log : Log}

theorem take_succ_of_getElem? (h : history.logs[k]? = some log) :
    history.logs.take (k + 1) = history.logs.take k ++ [log] := by
  rw [List.take_add_one, h]
  rfl

theorem drop_of_getElem? (h : history.logs[k]? = some log) :
    history.logs.drop k = log :: history.logs.drop (k + 1) := by
  obtain ⟨hk, rfl⟩ := List.getElem?_eq_some_iff.mp h
  exact List.drop_eq_getElem_cons hk

theorem Reported.polled (h : Reported formats chain history s k) :
    Polled formats chain history s s k :=
  ⟨h.next, h.proposed, rfl, rfl⟩

theorem Reported.unreported (h : Reported formats chain history s k)
    (hlog : history.logs[i]? = some log) (hki : k ≤ i) : ¬s.Past log := by
  rw [h.past i log hlog]
  omega

/-- The next log of a poll. -/
theorem Polled.step (hreport : ∀ log ∈ history.logs, Reportable formats log.event)
    (h : Polled formats chain history s t k) (hlog : history.logs[k]? = some log)
    (hpast : ¬s.Past log) :
    ∃ t', pollLog formats chain log t = (.ok (), t') ∧ Polled formats chain history s t' (k + 1) := by
  have hmem := List.mem_of_getElem? hlog
  have hskip : shouldSkipLog log t.nextBlock t.firstLogIndex ≠ true := by
    rw [h.block, h.index, ne_eq, shouldSkipLog_iff (history.mined log hmem)]
    · exact hpast
    · exact Nat.not_lt.mp fun hlt => hpast (.inl hlt)
  obtain ⟨hid, hbalanced⟩ := history.numbered hlog
  obtain ⟨proposal, hproposal, hrun⟩ := processEvent_next formats chain (s := t)
    (hreport log hmem) hbalanced (by rw [hid, h.next])
  refine ⟨{ t with
    proposed := t.proposed ++ [proposal]
    nextBridgeEventId := t.nextBridgeEventId + 1 }, ?_, ?_⟩
  · change (Exec.get >>= _) t = _
    rw [Exec.bind_of_ok (Exec.get_eq_ok.mpr ⟨rfl, rfl⟩), if_neg hskip]
    exact hrun
  · refine ⟨by simp only [h.next], ?_, h.block, h.index⟩
    rw [take_succ_of_getElem? hlog]
    exact List.rel_append h.proposed (.cons hproposal .nil)

/-- The logs from the next one on, up to the block `latest`. -/
theorem Polled.rest (hreport : ∀ log ∈ history.logs, Reportable formats log.event) (latest : Nat)
    (hpast : ∀ i log, history.logs[i]? = some log → k ≤ i → ¬s.Past log)
    (h : Polled formats chain history s t k) :
    ∃ t' k', Exec.forEach (pollLog formats chain)
        (getLogs (history.logs.drop k) s.nextBlock latest) t = (.ok (), t') ∧
      Polled formats chain history s t' k' ∧ k ≤ k' ∧
      ∀ i log, history.logs[i]? = some log → k ≤ i → (log.block ≤ latest ↔ i < k') := by
  induction hn : history.logs.length - k generalizing k t with
  | zero =>
    refine ⟨t, k, ?_, h, Nat.le_refl k, fun i log hi hki => ?_⟩
    · rw [List.drop_eq_nil_of_le (by omega)]
      rfl
    · have := (List.getElem?_eq_some_iff.mp hi).1
      omega
  | succ n ih =>
    have hk : k < history.logs.length := by omega
    have hlog : history.logs[k]? = some history.logs[k] := List.getElem?_eq_getElem hk
    by_cases hlatest : history.logs[k].block ≤ latest
    · -- The log is part of the poll.
      have hunread := hpast k _ hlog (Nat.le_refl k)
      obtain ⟨t₁, hrun, h₁⟩ := h.step formats chain hreport hlog hunread
      obtain ⟨t', k', hrest, h', hk', hblocks⟩ := ih
        (fun i log hi hki => hpast i log hi (by omega)) h₁ (by omega)
      refine ⟨t', k', ?_, h', by omega, fun i log hi hki => ?_⟩
      · rw [drop_of_getElem? hlog, getLogs, List.filter_cons_of_pos, Exec.forEach, Exec.bind_of_ok hrun]
        · exact hrest
        · rw [(history.mined _ (List.mem_of_getElem? hlog)).block]
          have : s.nextBlock ≤ history.logs[k].block := Nat.not_lt.mp fun hlt => hunread (.inl hlt)
          simp [this, hlatest]
      · rcases Nat.lt_or_eq_of_le hki with hlt | rfl
        · exact hblocks i log hi hlt
        · obtain rfl := Option.some.inj (hlog.symm.trans hi)
          exact ⟨fun _ => by omega, fun _ => hlatest⟩
    · -- This log and all later ones are in later blocks.
      have hlater : ∀ i log, history.logs[i]? = some log → k ≤ i → latest < log.block :=
        fun i log hi hki => by
          have := history.sorted_of_le hi hlog hki
          omega
      refine ⟨t, k, ?_, h, Nat.le_refl k, fun i log hi hki => ?_⟩
      · have hnone : getLogs (history.logs.drop k) s.nextBlock latest = [] := by
          rw [getLogs, List.filter_eq_nil_iff]
          intro log hmem
          obtain ⟨i, hi⟩ := List.mem_iff_getElem?.mp hmem
          rw [List.getElem?_drop] at hi
          have := hlater _ log hi (by omega)
          rw [(history.mined _ (List.mem_of_getElem? hi)).block]
          simp only [Option.any_some, decide_eq_true_eq]
          omega
        rw [hnone]
        rfl
      · have := hlater i log hi hki
        omega

/-- A poll reports all events up to the block `latest`. -/
theorem Reported.poll (hreport : ∀ log ∈ history.logs, Reportable formats log.event)
    (h : Reported formats chain history s k) (latest : Nat) :
    ∃ s' k', listenPollingOnce formats chain history.logs latest s = (.ok (), s') ∧
      Reported formats chain history s' k' ∧
      ∀ i log, history.logs[i]? = some log → log.block ≤ latest → i < k' := by
  by_cases hlatest : latest < s.nextBlock
  · refine ⟨s, k, ?_, h, fun i log hi hblock => ?_⟩
    · change (Exec.get >>= _) s = _
      rw [Exec.bind_of_ok (Exec.get_eq_ok.mpr ⟨rfl, rfl⟩), if_pos hlatest]
      rfl
    · exact (h.past i log hi).mp (.inl (by omega))
  · obtain ⟨t, k', hrest, ht, hk', hblocks⟩ := h.polled.rest formats chain hreport
      latest (fun i log hi hki => h.unreported formats chain hi hki)
    have hskip : Exec.forEach (pollLog formats chain)
        (getLogs (history.logs.take k) s.nextBlock latest) s = (.ok (), s) := by
      refine Exec.forEach_of_skip fun log hmem => ?_
      obtain ⟨hmem, hfilter⟩ := List.mem_filter.mp hmem
      obtain ⟨i, hi⟩ := List.mem_iff_getElem?.mp hmem
      obtain ⟨hik, hi⟩ : i < k ∧ history.logs[i]? = some log := by
        rwa [List.getElem?_take, Option.ite_none_right_eq_some] at hi
      have hmined := history.mined log (List.mem_of_getElem? hi)
      rw [hmined.block] at hfilter
      have hfilter : s.nextBlock ≤ log.block ∧ log.block ≤ latest := by simpa using hfilter
      have hpast := (shouldSkipLog_iff hmined hfilter.1).mpr ((h.past i log hi).mpr hik)
      change (Exec.get >>= _) s = _
      rw [Exec.bind_of_ok (Exec.get_eq_ok.mpr ⟨rfl, rfl⟩), if_pos hpast]
      rfl
    have hloop : Exec.forEach (pollLog formats chain)
        (getLogs history.logs s.nextBlock latest) s = (.ok (), t) := by
      have hsplit : getLogs history.logs s.nextBlock latest =
          getLogs (history.logs.take k) s.nextBlock latest ++
            getLogs (history.logs.drop k) s.nextBlock latest := by
        rw [getLogs, getLogs, getLogs, ← List.filter_append, List.take_append_drop]
      rw [hsplit, Exec.forEach_append_of_ok _ hskip, hrest]
    have hall : ∀ i log, history.logs[i]? = some log → (log.block ≤ latest ↔ i < k') :=
      fun i log hi => by
        rcases Nat.lt_or_ge i k with hlt | hge
        · have := (h.past i log hi).mpr hlt
          unfold Listener.Past at this
          omega
        · exact hblocks i log hi hge
    refine ⟨{ t with nextBlock := latest + 1, firstLogIndex := none }, k', ?_,
      ⟨ht.next, fun i log hi => ?_, ht.proposed⟩, fun i log hi => (hall i log hi).mp⟩
    · change (Exec.get >>= _) s = _
      rw [Exec.bind_of_ok (Exec.get_eq_ok.mpr ⟨rfl, rfl⟩), if_neg hlatest, Exec.bind_of_ok hloop]
      rfl
    · rw [← hall i log hi]
      simp [Listener.Past, Nat.lt_succ_iff]

/-! ## Subscriptions -/

/-- The next log of a subscription. -/
theorem Reported.next_log (hreport : ∀ log ∈ history.logs, Reportable formats log.event)
    (h : Reported formats chain history s k) (hlog : history.logs[k]? = some log) :
    ∃ s', subscriptionLog formats chain log s = (.ok (), s') ∧
      Reported formats chain history s' (k + 1) := by
  have hmem := List.mem_of_getElem? hlog
  have hmined := history.mined log hmem
  have hpast := h.unreported formats chain hlog (Nat.le_refl k)
  have hskip : shouldSkipLog log s.nextBlock s.firstLogIndex ≠ true := by
    rw [ne_eq, shouldSkipLog_iff hmined (Nat.not_lt.mp fun hlt => hpast (.inl hlt))]
    exact hpast
  obtain ⟨hid, hbalanced⟩ := history.numbered hlog
  obtain ⟨proposal, hproposal, hrun⟩ := processEvent_next formats chain (s := s)
    (hreport log hmem) hbalanced (by rw [hid, h.next])
  refine ⟨{ nextBridgeEventId := s.nextBridgeEventId + 1
            nextBlock := log.blockNumber.getD s.nextBlock
            firstLogIndex := log.logIndex.map (· + 1)
            proposed := s.proposed ++ [proposal] }, ?_, ?_⟩
  · change (Exec.get >>= _) s = _
    rw [Exec.bind_of_ok (Exec.get_eq_ok.mpr ⟨rfl, rfl⟩), if_neg hskip, Exec.bind_of_ok hrun]
    rfl
  · refine ⟨by simp only [h.next], fun i other hi => ?_, ?_⟩
    · unfold Listener.Past
      rw [hmined.block, hmined.index]
      simp only [Option.getD_some, Option.map_some, Option.some.injEq, exists_eq_left']
      rcases Nat.lt_trichotomy i k with hlt | rfl | hgt
      · have := history.earlier hi hlog hlt
        unfold Log.Earlier at this
        omega
      · obtain rfl := Option.some.inj (hlog.symm.trans hi)
        omega
      · have := history.earlier hlog hi hgt
        unfold Log.Earlier at this
        omega
    · rw [take_succ_of_getElem? hlog]
      exact List.rel_append h.proposed (.cons hproposal .nil)

/-- Another log of a subscription changes nothing, and is skipped if it is in the range of the
subscription and before the next one. -/
theorem Reported.other_log (hreport : ∀ log ∈ history.logs, Reportable formats log.event)
    (h : Reported formats chain history s k) (hlog : history.logs[i]? = some log) (hik : i ≠ k) :
    (subscriptionLog formats chain log s).2 = s ∧
      (i < k → s.nextBlock ≤ log.block → subscriptionLog formats chain log s = (.ok (), s)) := by
  have hmem := List.mem_of_getElem? hlog
  by_cases hskip : shouldSkipLog log s.nextBlock s.firstLogIndex = true
  · have hrun : subscriptionLog formats chain log s = (.ok (), s) := by
      change (Exec.get >>= _) s = _
      rw [Exec.bind_of_ok (Exec.get_eq_ok.mpr ⟨rfl, rfl⟩), if_pos hskip]
      rfl
    exact ⟨congrArg Prod.snd hrun, fun _ _ => hrun⟩
  · obtain ⟨e, he⟩ := processEvent_other formats chain (s := s) (hreport log hmem) (by
      rw [(history.numbered hlog).1, h.next]
      omega)
    have hrun : subscriptionLog formats chain log s = (.error e, s) := by
      change (Exec.get >>= _) s = _
      rw [Exec.bind_of_ok (Exec.get_eq_ok.mpr ⟨rfl, rfl⟩), if_neg hskip, Exec.bind_of_error he]
    refine ⟨congrArg Prod.snd hrun, fun hlt hblock => ?_⟩
    exact absurd ((shouldSkipLog_iff (history.mined log hmem) hblock).mpr
      ((h.past i log hlog).mpr hlt)) hskip

/-- Whatever a subscription delivers, the listener reports the events in order. -/
theorem Reported.keeps_session (hreport : ∀ log ∈ history.logs, Reportable formats log.event)
    {stream : List Log} (hstream : ∀ log ∈ stream, log ∈ history.logs) :
    Exec.Keeps (fun s => ∃ k, Reported formats chain history s k)
      (tryWsSessionOnce formats chain stream) := by
  refine (Exec.keeps_forEach fun log hlog => ?_).bind fun _ _ hs => hs
  rintro s ⟨k, hs⟩
  obtain ⟨i, hi⟩ := List.mem_iff_getElem?.mp (hstream log hlog)
  by_cases hik : i = k
  · subst hik
    obtain ⟨s', hrun, hs'⟩ := hs.next_log formats chain hreport hi
    rw [hrun]
    exact ⟨i + 1, hs'⟩
  · rw [(hs.other_log formats chain hreport hi hik).1]
    exact ⟨k, hs⟩

theorem Reported.rest (hreport : ∀ log ∈ history.logs, Reportable formats log.event)
    (h : Reported formats chain history s k) {stream : List Log}
    (hstream : stream <+: history.logs.drop k) :
    ∃ s', Exec.forEach (subscriptionLog formats chain) stream s = (.ok (), s') ∧
      Reported formats chain history s' (k + stream.length) := by
  induction stream generalizing s k with
  | nil => exact ⟨s, rfl, h⟩
  | cons log stream ih =>
    have hlog : history.logs[k]? = some log := by
      obtain ⟨rest, hrest⟩ := hstream
      have : (history.logs.drop k)[0]? = some log := by rw [← hrest]; rfl
      simpa using this
    rw [drop_of_getElem? hlog, List.cons_prefix_cons] at hstream
    obtain ⟨s₁, hrun, h₁⟩ := h.next_log formats chain hreport hlog
    obtain ⟨s', hrest, h'⟩ := ih h₁ hstream.2
    refine ⟨s', ?_, ?_⟩
    · rw [Exec.forEach, Exec.bind_of_ok hrun]
      exact hrest
    · rwa [List.length_cons, Nat.add_comm stream.length, ← Nat.add_assoc]

/-- A subscription that delivers logs without a gap reports their events. -/
theorem Reported.session (hreport : ∀ log ∈ history.logs, Reportable formats log.event)
    (h : Reported formats chain history s k) {stream : List Log}
    (hstream : stream <+: subscribeLogs history.logs s.nextBlock) :
    ∃ s' k' e, tryWsSessionOnce formats chain stream s = (.error (.connection e), s') ∧
      Reported formats chain history s' k' ∧
      (stream = subscribeLogs history.logs s.nextBlock → history.logs.length ≤ k') := by
  have hsplit : subscribeLogs history.logs s.nextBlock =
      subscribeLogs (history.logs.take k) s.nextBlock ++ history.logs.drop k := by
    have hdrop : subscribeLogs (history.logs.drop k) s.nextBlock = history.logs.drop k := by
      rw [subscribeLogs, List.filter_eq_self]
      intro log hmem
      obtain ⟨i, hi⟩ := List.mem_iff_getElem?.mp hmem
      rw [List.getElem?_drop] at hi
      have hmem := List.mem_of_getElem? hi
      have hpast := h.unreported formats chain hi (Nat.le_add_right k i)
      obtain ⟨known, hknown⟩ := fromLog_of_reportable formats (hreport log hmem)
      rw [(history.mined log hmem).block, hknown]
      simpa using Nat.not_lt.mp fun hlt => hpast (.inl hlt)
    conv_lhs => rw [← List.take_append_drop k history.logs]
    rw [subscribeLogs, List.filter_append, ← subscribeLogs, ← subscribeLogs, hdrop]
  rw [hsplit] at hstream ⊢
  generalize hbefore : subscribeLogs (history.logs.take k) s.nextBlock = before at *
  have hskip : ∀ n, Exec.forEach (subscriptionLog formats chain) (before.take n) s = (.ok (), s) := by
    refine fun n => Exec.forEach_of_skip fun log hmem => ?_
    have hmem := List.mem_of_mem_take hmem
    rw [← hbefore, subscribeLogs, List.mem_filter] at hmem
    obtain ⟨hmem, hrange⟩ := hmem
    obtain ⟨i, hi⟩ := List.mem_iff_getElem?.mp hmem
    obtain ⟨hik, hi⟩ : i < k ∧ history.logs[i]? = some log := by
      rwa [List.getElem?_take, Option.ite_none_right_eq_some] at hi
    refine (h.other_log formats chain hreport hi (Nat.ne_of_lt hik)).2 hik ?_
    rw [(history.mined log (List.mem_of_getElem? hi)).block] at hrange
    simpa using (Bool.and_eq_true_iff.mp hrange).2
  have hparts : stream = before.take stream.length ++
      (history.logs.drop k).take (stream.length - before.length) := by
    rw [← List.take_append]
    exact List.prefix_iff_eq_take.mp hstream
  obtain ⟨s', hrun, h'⟩ := h.rest formats chain hreport
    (List.take_prefix (stream.length - before.length) (history.logs.drop k))
  refine ⟨s', _, "Ethereum listener subscription ended", ?_, h', fun hfull => ?_⟩
  · change (Exec.forEach (subscriptionLog formats chain) stream >>= _) s = _
    have hloop := (Exec.forEach_append_of_ok _ (hskip stream.length)).trans hrun
    rw [← hparts] at hloop
    rw [Exec.bind_of_ok hloop]
    rfl
  · have := congrArg List.length hfull
    rw [List.length_append, List.length_drop] at this
    rw [List.length_take, List.length_drop]
    omega

/-! ## Restarts -/

theorem Reported.start : Reported formats chain history ⟨1, 0, none, []⟩ 0 :=
  ⟨rfl, fun i log _ => by simp [Listener.Past], .nil⟩

/-- A listener that is started again goes on where it was, if the provider has the logs that have
been reported. -/
theorem Reported.resume (hreport : ∀ log ∈ history.logs, Reportable formats log.event)
    (h : Reported formats chain history s k) {latest : Nat}
    (hlatest : ∀ log ∈ history.logs,
      log.event.eventId.val < s.nextBridgeEventId → log.block ≤ latest) :
    Reported formats chain history (resume history.logs latest s) k := by
  refine ⟨h.next, ?_, h.proposed⟩
  have hstart : s.nextBridgeEventId ≠ 0 := by
    rw [h.next]
    exact Nat.succ_ne_zero k
  intro i log hi
  unfold Listener.Past Ethereum.resume getResumeCursor
  simp only [if_neg hstart]
  split
  next found hfound =>
    have hmem := List.mem_of_find?_eq_some hfound
    have hmined := history.mined found hmem
    obtain ⟨j, hj⟩ := List.mem_iff_getElem?.mp hmem
    obtain rfl : j = k := by
      have htest := List.find?_some hfound
      simp only [Bool.and_eq_true, decide_eq_true_eq, Option.any_eq_true] at htest
      obtain ⟨-, known, hknown, hid⟩ := htest
      rw [fromLog_eventId hknown, h.next] at hid
      exact Nat.succ.inj ((history.numbered hj).1.symm.trans hid)
    simp only [hmined.block, hmined.index, Option.getD_some, Option.some.injEq, exists_eq_left']
    rcases Nat.lt_trichotomy i j with hlt | rfl | hgt
    · have := history.earlier hi hj hlt
      unfold Log.Earlier at this
      omega
    · obtain rfl := Option.some.inj (hj.symm.trans hi)
      omega
    · have := history.earlier hj hi hgt
      unfold Log.Earlier at this
      omega
  next hnone =>
    simp only [reduceCtorEq, false_and, exists_false, and_false, or_false, Nat.lt_succ_iff]
    constructor
    · intro hblock
      by_contra hki
      have hk : k < history.logs.length := by
        have := (List.getElem?_eq_some_iff.mp hi).1
        omega
      have hlog : history.logs[k]? = some history.logs[k] := List.getElem?_eq_getElem hk
      have hmem := List.mem_of_getElem? hlog
      have hmined := history.mined _ hmem
      have hearly := history.sorted_of_le hi hlog (Nat.not_lt.mp hki)
      obtain ⟨known, hknown⟩ := fromLog_of_reportable formats (hreport _ hmem)
      refine List.find?_eq_none.mp hnone _ hmem ?_
      simp only [Bool.and_eq_true, decide_eq_true_eq, Option.any_eq_true, Bool.not_eq_true']
      refine ⟨⟨⟨_, hmined.block, by omega⟩, hmined.kept⟩, known, hknown, ?_⟩
      rw [fromLog_eventId hknown, (history.numbered hlog).1, h.next]
    · intro hik
      refine hlatest log (List.mem_of_getElem? hi) ?_
      rw [(history.numbered hi).1, h.next]
      omega

end Steps

/-! ## Runs -/

/-- What can happen to a listener. A subscription of a listener with polls may deliver any logs of
the contract, one of a listener without polls delivers the logs that it is for. A provider has the
logs that have been reported. -/
def Possible (logs : List Log) (mode : ListenerMode) (run : Run) : Delivery → Prop
  | .poll _ => True
  | .session stream =>
    (∀ log ∈ stream, log ∈ logs) ∧
      (mode = .subscriptionOnly → stream <+: subscribeLogs logs run.listener.nextBlock)
  | .noConnection => True
  | .restart latest =>
    ∀ log ∈ logs, log.event.eventId.val < run.listener.nextBridgeEventId → log.block ≤ latest

def AllPossible (logs : List Log) (mode : ListenerMode) : Run → List Delivery → Prop
  | _, [] => True
  | run, delivery :: deliveries =>
    Possible logs mode run delivery ∧
      AllPossible logs mode (deliver formats chain mode logs run delivery) deliveries

/-- One message for each event, in order, and nothing stops the listener but the end of a
subscription without polls. -/
structure InOrder (history : History crypto) (mode : ListenerMode) (run : Run) : Prop where
  proposed : ∃ k, List.Forall₂ (ReportOf formats chain) (history.logs.take k) run.listener.proposed
  running : ∀ e, run.stopped = some e → mode = .subscriptionOnly ∧ ∃ text, e = .connection text

/-- The listener reports every event: in order, and all of them in its next poll or, without polls,
in its next subscription. -/
structure Faithful (history : History crypto) (mode : ListenerMode) (run : Run) : Prop
    extends InOrder formats chain history mode run where
  poll : mode = .hybrid → ∀ latest, ∀ log ∈ history.logs, log.block ≤ latest →
    ∃ proposal ∈ (deliver formats chain mode history.logs run (.poll latest)).listener.proposed,
      ReportOf formats chain log proposal
  session : mode = .subscriptionOnly → run.stopped = none → ∀ log ∈ history.logs,
    ∃ proposal ∈ (deliver formats chain mode history.logs run
      (.session (subscribeLogs history.logs run.listener.nextBlock))).listener.proposed,
      ReportOf formats chain log proposal

section Runs

variable {history : History crypto} {mode : ListenerMode} {run : Run} {k : Nat}

theorem Reported.exists_proposal {s : Listener} {i : Nat} {log : Log}
    (h : Reported formats chain history s k) (hi : history.logs[i]? = some log) (hik : i < k) :
    ∃ proposal ∈ s.proposed, ReportOf formats chain log proposal := by
  have htake : (history.logs.take k)[i]? = some log := by rw [List.getElem?_take, if_pos hik, hi]
  obtain ⟨hlength, rfl⟩ := List.getElem?_eq_some_iff.mp htake
  exact ⟨_, List.getElem_mem _, h.proposed.get hlength (by rw [← h.proposed.length_eq]; exact hlength)⟩

/-- The invariant of a run. -/
structure Going (history : History crypto) (mode : ListenerMode) (run : Run) (k : Nat) : Prop where
  reported : Reported formats chain history run.listener k
  running : ∀ e, run.stopped = some e → mode = .subscriptionOnly ∧ ∃ text, e = .connection text

theorem Going.poll (hreport : ∀ log ∈ history.logs, Reportable formats log.event)
    (h : Going formats chain history .hybrid run k) (latest : Nat) :
    ∃ k', Going formats chain history .hybrid
        (deliver formats chain .hybrid history.logs run (.poll latest)) k' ∧
      ∀ i log, history.logs[i]? = some log → log.block ≤ latest → i < k' := by
  obtain ⟨s, _ | e⟩ := run
  · obtain ⟨s', k', hrun, hs', hall⟩ := h.reported.poll formats chain hreport latest
    refine ⟨k', ?_, hall⟩
    simp only [deliver, Run.attempt, hrun, reduceCtorEq, if_false]
    exact ⟨hs', fun e he => nomatch he⟩
  · exact absurd (h.running e rfl).1 (by simp)

theorem Going.session (hreport : ∀ log ∈ history.logs, Reportable formats log.event)
    (h : Going formats chain history mode run k) {stream : List Log}
    (hpossible : Possible history.logs mode run (.session stream)) :
    ∃ k', Going formats chain history mode
        (deliver formats chain mode history.logs run (.session stream)) k' ∧
      (mode = .subscriptionOnly → run.stopped = none →
        stream = subscribeLogs history.logs run.listener.nextBlock → history.logs.length ≤ k') := by
  obtain ⟨s, _ | e⟩ := run
  · cases mode with
    | hybrid =>
      obtain ⟨k', hk'⟩ := Reported.keeps_session formats chain hreport hpossible.1 s ⟨k, h.reported⟩
      exact ⟨k', ⟨hk', fun e he => nomatch he⟩, fun hmode => nomatch hmode⟩
    | subscriptionOnly =>
      obtain ⟨s', k', e, hrun, hs', hall⟩ :=
        h.reported.session formats chain hreport (hpossible.2 rfl)
      refine ⟨k', ?_, fun _ _ => hall⟩
      simp only [deliver, Run.attempt, Ethereum.session, hrun, if_true]
      exact ⟨hs', fun e' he' => ⟨rfl, e, (Option.some.inj he').symm⟩⟩
  · exact ⟨k, h, fun _ hstopped => nomatch hstopped⟩

theorem Going.deliver (hreport : ∀ log ∈ history.logs, Reportable formats log.event)
    (h : Going formats chain history mode run k) {delivery : Delivery}
    (hpossible : Possible history.logs mode run delivery) :
    ∃ k', Going formats chain history mode
      (deliver formats chain mode history.logs run delivery) k' := by
  cases delivery with
  | poll latest =>
    cases mode with
    | hybrid =>
      obtain ⟨k', hk', -⟩ := h.poll formats chain hreport latest
      exact ⟨k', hk'⟩
    | subscriptionOnly => exact ⟨k, h⟩
  | session stream =>
    obtain ⟨k', hk', -⟩ := h.session formats chain hreport hpossible
    exact ⟨k', hk'⟩
  | noConnection =>
    refine ⟨k, ?_⟩
    obtain ⟨s, _ | e⟩ := run
    · cases mode with
      | hybrid => exact ⟨h.reported, fun e he => nomatch he⟩
      | subscriptionOnly =>
        exact ⟨h.reported, fun e he => ⟨rfl, "WebSocket", (Option.some.inj he).symm⟩⟩
    · exact h
  | restart latest =>
    exact ⟨k, h.reported.resume formats chain hreport hpossible, fun e he => nomatch he⟩

theorem Going.listen (hreport : ∀ log ∈ history.logs, Reportable formats log.event)
    (h : Going formats chain history mode run k) {deliveries : List Delivery}
    (hpossible : AllPossible formats chain history.logs mode run deliveries) :
    ∃ k', Going formats chain history mode
      (deliveries.foldl (Ethereum.deliver formats chain mode history.logs) run) k' := by
  induction deliveries generalizing run k with
  | nil => exact ⟨k, h⟩
  | cons delivery deliveries ih =>
    obtain ⟨k₁, h₁⟩ := h.deliver formats chain hreport hpossible.1
    exact ih h₁ hpossible.2

theorem Going.faithful (hreport : ∀ log ∈ history.logs, Reportable formats log.event)
    (h : Going formats chain history mode run k) : Faithful formats chain history mode run := by
  refine ⟨⟨⟨k, h.reported.proposed⟩, h.running⟩, ?_, ?_⟩
  · rintro rfl latest log hmem hblock
    obtain ⟨i, hi⟩ := List.mem_iff_getElem?.mp hmem
    obtain ⟨k', hk', hall⟩ := h.poll formats chain hreport latest
    exact hk'.reported.exists_proposal formats chain hi (hall i log hi hblock)
  · intro hmode hstopped log hmem
    obtain ⟨i, hi⟩ := List.mem_iff_getElem?.mp hmem
    have hpossible : Possible history.logs mode run
        (.session (subscribeLogs history.logs run.listener.nextBlock)) :=
      ⟨fun log hlog => (List.mem_filter.mp hlog).1, fun _ => List.prefix_refl _⟩
    obtain ⟨k', hk', hall⟩ := h.session formats chain hreport hpossible
    have := (List.getElem?_eq_some_iff.mp hi).1
    exact hk'.reported.exists_proposal formats chain hi
      (this.trans_le (hall hmode hstopped rfl))

end Runs

/-- All proposals are deposits. -/
def OnlyRegular (s : Listener) : Prop :=
  ∀ proposal ∈ s.proposed, ∃ wallet funds keys, proposal.event = .regular wallet funds keys

theorem processEvent_onlyRegular (log : Log) :
    Exec.Keeps OnlyRegular (processEvent formats chain log) := by
  unfold processEvent
  cases hknown : BridgeEventLog.fromLog log with
  | none => exact Exec.keeps_pure ()
  | some known =>
    refine Exec.Keeps.bind (fun _ h => h) fun t => ?_
    refine Exec.Keeps.bind (fun _ h => h) fun _ => Exec.keeps_lift_bind fun message hmessage => ?_
    refine Exec.Keeps.bind (Exec.keeps_modify fun s hs proposal hproposal => ?_) fun _ =>
      Exec.keeps_modify fun s hs => hs
    rcases List.mem_append.mp hproposal with hold | hnew
    · exact hs proposal hold
    · obtain rfl := List.mem_singleton.mp hnew
      obtain ⟨eventId, sender, tokens, amounts, keys⟩ := known
      simp only [BridgeEventLog.toKolmeMessage, bind_eq_ok, ensure_eq_ok, exists_unit, pure_eq_ok,
        ok.injEq] at hmessage
      obtain ⟨-, funds, -, keys, -, rfl⟩ := hmessage
      exact ⟨_, funds, keys, rfl⟩

/-- A poll can only report deposits. -/
theorem poll_onlyRegular (logs : List Log) (latest : Nat) :
    Exec.Keeps OnlyRegular (listenPollingOnce formats chain logs latest) := by
  refine Exec.Keeps.bind (fun _ h => h) fun s => ?_
  by_cases hlatest : latest < s.nextBlock
  · simp only [if_pos hlatest]
    exact Exec.keeps_pure ()
  · simp only [if_neg hlatest]
    refine Exec.Keeps.bind (Exec.keeps_forEach fun log _ => ?_) fun _ =>
      Exec.keeps_modify fun s hs => hs
    refine Exec.Keeps.bind (fun _ h => h) fun s => ?_
    split
    · exact Exec.keeps_pure ()
    · exact processEvent_onlyRegular formats chain log

/-- The listener reports every event in every run exactly when all events that the calls emit are
deposits with amounts and keys that it can represent. -/
theorem events_reported_iff (history : History crypto) :
    (∀ mode latest deliveries,
        AllPossible formats chain history.logs mode
          (listen formats chain mode history.logs latest []) deliveries →
        Faithful formats chain history mode
          (listen formats chain mode history.logs latest deliveries)) ↔
      ∀ event ∈ emitted crypto history.deployed history.calls, Reportable formats event := by
  rw [← history.events, List.forall_mem_map]
  constructor
  · intro h log hmem
    obtain ⟨proposal, hproposal, hreport⟩ :=
      (h .hybrid 0 [] trivial).poll rfl log.block log hmem (Nat.le_refl _)
    obtain ⟨wallet, funds, keys, hregular⟩ : ∃ wallet funds keys,
        proposal.event = .regular wallet funds keys := by
      refine poll_onlyRegular formats chain history.logs log.block
        (resume history.logs 0 ⟨1, 0, none, []⟩) (fun _ h => nomatch h) proposal ?_
      revert hproposal
      simp only [deliver, Run.attempt, listen, List.foldl_nil, reduceCtorEq, if_false]
      split <;> simp_all
    have hevent := hreport.event
    rw [hregular] at hevent
    obtain ⟨i, hi⟩ := List.mem_iff_getElem?.mp hmem
    have hbalanced := (history.numbered hi).2
    cases hlog : log.event with
    | signed => simp [hlog, report] at hevent
    | fundsReceived eventId sender tokens amounts keys =>
      rw [hlog] at hevent hbalanced
      exact (report_ok formats hbalanced).mp ⟨_, hevent⟩
  · intro hreport mode latest deliveries hpossible
    have hstart : Going formats chain history mode
        (listen formats chain mode history.logs latest []) 0 := by
      refine ⟨(Reported.start formats chain).resume formats chain hreport ?_, fun e he => nomatch he⟩
      intro log hmem hid
      obtain ⟨i, hi⟩ := List.mem_iff_getElem?.mp hmem
      rw [(history.numbered hi).1] at hid
      exact absurd (Nat.lt_of_succ_lt_succ hid) (Nat.not_lt_zero i)
    obtain ⟨k, hk⟩ := hstart.listen formats chain hreport hpossible
    exact hk.faithful formats chain hreport

end Listener

namespace Sample

def formats : Formats where
  publicKeyFromBytes _ := .error (.outside "the sample has no keys")
  evmAddressToString _ := "sender"

/-- A deposit of ether. -/
def depositCall : Call := .regular { env with value := 5 } [] [] []

def signedEvent : Event := .signed 1 1 0

def depositEvent : Event := .fundsReceived 2 1 [0] [5] []

/-- A rotation, and after it a deposit. -/
def history : History Sample.crypto where
  set := set
  deployed := state
  deploy_ok := evaluated.deployed
  calls := [approvedCall, depositCall]
  logs := [⟨some 5, some 0, false, signedEvent⟩, ⟨some 6, some 0, false, depositEvent⟩]
  events := by
    rw [emitted, newSets_installed.1.1]
    decide +kernel
  mined := by
    intro log hlog
    rcases List.mem_pair.mp hlog with rfl | rfl <;> exact ⟨rfl, rfl, rfl⟩
  sorted := by simp [Log.Earlier, Log.block]

end Sample

/-- A poll reads a rotation and a deposit, and stops at the deposit. -/
theorem events_reported_counterexample :
    emitted Sample.crypto Sample.state [Sample.approvedCall, Sample.depositCall] =
        [Sample.signedEvent, Sample.depositEvent] ∧
      (listen Sample.formats .ethereumSepolia .hybrid Sample.history.logs 0 [.poll 6]).stopped =
        some (.unexpectedEventId 1 2) ∧
      (listen Sample.formats .ethereumSepolia .hybrid Sample.history.logs 0
        [.poll 6]).listener.proposed = [] ∧
      ¬Faithful Sample.formats .ethereumSepolia Sample.history .hybrid
        (listen Sample.formats .ethereumSepolia .hybrid Sample.history.logs 0 [.poll 6]) := by
  have hstopped : (listen Sample.formats .ethereumSepolia .hybrid Sample.history.logs 0
      [.poll 6]).stopped = some (.unexpectedEventId 1 2) := by decide
  refine ⟨Sample.history.events.symm, hstopped, by decide, fun h => ?_⟩
  exact absurd (h.running _ hstopped).1 (by simp)

end Kolme.Ethereum
