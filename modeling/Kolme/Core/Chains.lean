import Kolme.Core.Runs
import Kolme.Lib.Queue

/-!
# What a run does to the chains

Each change updates at most one chain. The pending events of a chain and its pending actions are
queues: events enter when they are first reported and leave when they take effect, actions enter
when they are queued and leave when the contract has executed them.
-/

namespace Kolme

variable {env : Externals}

namespace Effect

/-- The chain that a change updates. -/
def chain? : Effect → Option ExternalChain
  | newEvent chain _ | attest chain _ _ _ | takeEvent chain _ _ | deploy chain _
  | deposit chain _ _ | confirmAction chain _ | approveAction chain _ _ _
  | processorApprove chain _ _ _ | withdraw chain _ _ | emit chain _ _ => some chain
  | account _ _ | replaceValidator _ _ | propose _ _ _ | vote _ _ _ | enact _ _
  | clearProposals => none

/-- What the change does to its chain. -/
def updated (env : Externals) (state : ChainState) : Effect → ChainState
  | newEvent _ event => state.addEvent event
  | attest _ eventId _ key => state.attest eventId key
  | takeEvent _ eventId _ => state.takeEvent eventId
  | deploy _ contract => state.deploy contract
  | deposit _ assetId amount => (state.deposit env.arith assetId amount).toOption.getD state
  | confirmAction _ actionId => state.removeAction actionId
  | approveAction _ actionId key signature => state.updateAction actionId fun action =>
      { action with approvals := action.approvals.insert key signature }
  | processorApprove _ actionId processor _ => state.updateAction actionId fun action =>
      { action with processor := some processor }
  | withdraw _ assetId amount => (state.withdraw env.arith assetId amount).toOption.getD state
  | emit _ _ payload => state.addAction payload
  | account _ _ | replaceValidator _ _ | propose _ _ _ | vote _ _ _ | enact _ _
  | clearProposals => state

/-- The chains after a change. -/
theorem chains_apply (fs : FrameworkState) (e : Effect) :
    (e.apply env fs).chains = match e.chain? with
      | none => fs.chains
      | some chain => (fs.updateChain chain (e.updated env ·)).chains := by
  cases e with
  | enact id payload => cases payload <;> rfl
  | account | replaceValidator | propose | vote | clearProposals | newEvent | attest | takeEvent
  | deploy | deposit | confirmAction | approveAction | processorApprove | withdraw | emit => rfl

theorem get?_chains_apply (fs : FrameworkState) (e : Effect) (c : ExternalChain) :
    (e.apply env fs).chains.get? c =
      if e.chain? = some c then (fs.chains.get? c).map (e.updated env ·) else fs.chains.get? c := by
  rw [chains_apply]
  cases e.chain? with
  | none => rfl
  | some chain =>
    rw [FrameworkState.get?_updateChain]
    simp only [Option.some.injEq, eq_comm]

/-- A chain after a change, and the same chain before it. -/
theorem exists_of_get?_apply {fs : FrameworkState} {e : Effect} {c : ExternalChain}
    {state' : ChainState} (h : (e.apply env fs).chains.get? c = some state') :
    ∃ state, fs.chains.get? c = some state ∧
      (e.chain? = some c ∧ state' = e.updated env state ∨ e.chain? ≠ some c ∧ state' = state) := by
  rw [get?_chains_apply] at h
  split at h
  · rename_i hc
    obtain ⟨state, hstate, rfl⟩ := Option.map_eq_some_iff.mp h
    exact ⟨state, hstate, .inl ⟨hc, rfl⟩⟩
  · rename_i hc
    exact ⟨state', h, .inr ⟨hc, rfl⟩⟩

/-- What a change does to the validator set. -/
theorem validatorSet_apply (fs : FrameworkState) (e : Effect) :
    (e.apply env fs).validatorSet = match e with
      | replaceValidator signed key => fs.validatorSet.replaceValidator
          signed.message.value.validatorType key signed.message.value.replacement
      | enact _ (.newSet set) => set.value
      | _ => fs.validatorSet := by
  cases e with
  | account | replaceValidator | propose | vote | clearProposals => rfl
  | enact id payload => cases payload <;> rfl
  | newEvent | attest | takeEvent | deploy | deposit | confirmAction | approveAction
  | processorApprove | withdraw | emit => exact FrameworkState.validatorSet_updateChain ..

/-- A chain of the genesis before the first change. -/
theorem exists_of_get?_new {info : GenesisInfo} {c : ExternalChain} {state : ChainState}
    (h : (FrameworkState.new info).chains.get? c = some state) :
    ∃ config, info.chains.get? c = some config ∧ state = config.intoState := by
  rw [FrameworkState.new, SortedMap.get?_map] at h
  obtain ⟨config, hconfig, rfl⟩ := Option.map_eq_some_iff.mp h
  exact ⟨config, hconfig, rfl⟩

end Effect

/-- What holds of the chain at genesis, and what every change of it keeps, holds at the end of a
trace from genesis. -/
theorem chain_induction {info : GenesisInfo} {c : ExternalChain}
    {I : List Effect → ChainState → Prop} {past : List Effect} {fs : FrameworkState}
    (htrace : (effects env).Trace (FrameworkState.new info) past fs)
    (genesis : ∀ config, info.chains.get? c = some config → I [] config.intoState)
    (other : ∀ past e state, e.chain? ≠ some c → I past state → I (past ++ [e]) state)
    (step : ∀ past e fs state, (effects env).Trace (FrameworkState.new info) past fs →
      fs.chains.get? c = some state → e.chain? = some c → e.Legal env fs →
      I past state → I (past ++ [e]) (e.updated env state))
    {state : ChainState} (hstate : fs.chains.get? c = some state) : I past state := by
  refine htrace.history_induction (I := fun past fs => ∀ state, fs.chains.get? c = some state →
    I past state) ?_ ?_ state hstate
  · intro state hstate
    obtain ⟨config, hconfig, rfl⟩ := Effect.exists_of_get?_new hstate
    exact genesis config hconfig
  · intro past e fs htrace hlegal ih state' hstate'
    obtain ⟨state, hstate, ⟨hc, rfl⟩ | ⟨hc, rfl⟩⟩ := Effect.exists_of_get?_apply hstate'
    · exact step past e fs state htrace hstate hc hlegal (ih state hstate)
    · exact other past e _ hc (ih _ hstate)

/-! ## The queue of events -/

/-- The change takes an event of the chain. -/
def Effect.takes (chain : ExternalChain) : Effect → Bool
  | takeEvent chain' _ _ => chain' = chain
  | _ => false

/-- The number of events of the chain that took effect. -/
def eventsTaken (chain : ExternalChain) (past : List Effect) : Nat :=
  past.countP (·.takes chain)

@[simp] theorem eventsTaken_nil (chain : ExternalChain) : eventsTaken chain [] = 0 := rfl

theorem eventsTaken_concat (chain : ExternalChain) (past : List Effect) (e : Effect) :
    eventsTaken chain (past ++ [e]) = eventsTaken chain past + (e.takes chain).toNat := by
  rw [eventsTaken, eventsTaken, List.countP_append, List.countP_singleton]
  cases e.takes chain <;> rfl

/-- The queue of the events of a chain, and where the attestations come from. -/
structure EventQueue (chain : ExternalChain) (past : List Effect) (state : ChainState) : Prop where
  queue : state.pendingEvents.Contiguous (eventsTaken chain past) state.nextEventId
  attested : ∀ {id pending key}, state.pendingEvents.get? id = some pending →
    key ∈ pending.attestations → .attest chain id pending.event key ∈ past

/-- What is found when an event is ready. -/
theorem FrameworkState.getNextReadyEvent_eq_some {fs : FrameworkState} {chain : ExternalChain}
    {eventId : BridgeEventId} (h : fs.getNextReadyEvent chain = .ok (some eventId)) :
    ∃ state pending, fs.chains.get? chain = some state ∧
      state.pendingEvents.first? = some (eventId, pending) ∧
      fs.validatorSet.neededListeners.val ≤
        (pending.attestations ∩ fs.validatorSet.listeners).card := by
  simp only [getNextReadyEvent, Except.bind_eq_ok, Except.fromOption_eq_ok] at h
  obtain ⟨state, hstate, h⟩ := h
  rcases hfirst : state.pendingEvents.first? with _ | ⟨id, pending⟩
  · simp [hfirst] at h
  · simp only [hfirst, Except.bind_eq_ok, Except.ensure_eq_ok, Except.pure_eq_ok,
      Except.ok.injEq] at h
    obtain ⟨-, -, h⟩ := h
    split at h
    · rename_i hneeded
      obtain rfl := Option.some.inj h
      exact ⟨state, pending, hstate, hfirst, hneeded⟩
    · cases h

/-- An event that takes effect was attested by enough of the current listeners. -/
theorem takeEvent_quorum {fs : FrameworkState} {chain : ExternalChain} {eventId : BridgeEventId}
    {event : BridgeEvent} (hlegal : (Effect.takeEvent chain eventId event).Legal env fs) :
    ∃ state pending, fs.chains.get? chain = some state ∧
      state.pendingEvents.first? = some (eventId, pending) ∧ pending.event = event ∧
      fs.validatorSet.neededListeners.val ≤
        (pending.attestations ∩ fs.validatorSet.listeners).card := by
  obtain ⟨hready, state', pending', hstate', hpending', hevent⟩ := hlegal
  obtain ⟨state, pending, hstate, hfirst, hneeded⟩ :=
    FrameworkState.getNextReadyEvent_eq_some hready
  obtain rfl := Option.some.inj (hstate.symm.trans hstate')
  obtain rfl := Option.some.inj ((SortedMap.first?_spec hfirst).1.symm.trans hpending')
  exact ⟨state, pending, hstate, hfirst, hevent, hneeded⟩

/-- Only reports, attestations and events that take effect change the queue of events. -/
theorem Effect.pendingEvents_updated {e : Effect} (state : ChainState)
    (hnew : ∀ chain event, e ≠ newEvent chain event)
    (hattest : ∀ chain id event key, e ≠ attest chain id event key)
    (htake : ∀ chain id event, e ≠ takeEvent chain id event) :
    (e.updated env state).pendingEvents = state.pendingEvents ∧
      (e.updated env state).nextEventId = state.nextEventId := by
  cases e with
  | newEvent chain event => exact absurd rfl (hnew chain event)
  | attest chain id event key => exact absurd rfl (hattest chain id event key)
  | takeEvent chain id event => exact absurd rfl (htake chain id event)
  | deposit chain assetId amount =>
    simp only [updated, ChainState.deposit]
    cases env.arith.checkedAdd (state.pool assetId) amount <;> exact ⟨rfl, rfl⟩
  | withdraw chain assetId amount =>
    simp only [updated, ChainState.withdraw]
    cases env.arith.checkedSub (state.pool assetId) amount <;> exact ⟨rfl, rfl⟩
  | approveAction | processorApprove =>
    simp only [updated, ChainState.updateAction]
    split <;> exact ⟨rfl, rfl⟩
  | account | deploy | confirmAction | emit | replaceValidator | propose | vote | enact
  | clearProposals => exact ⟨rfl, rfl⟩

/-- Only deposits and withdrawals change what is recorded of the assets. -/
theorem Effect.assets_updated {e : Effect} (state : ChainState)
    (hdeposit : ∀ chain assetId amount, e ≠ deposit chain assetId amount)
    (hwithdraw : ∀ chain assetId amount, e ≠ withdraw chain assetId amount) :
    (e.updated env state).assets = state.assets := by
  cases e with
  | deposit chain assetId amount => exact absurd rfl (hdeposit chain assetId amount)
  | withdraw chain assetId amount => exact absurd rfl (hwithdraw chain assetId amount)
  | attest =>
    simp only [updated, ChainState.attest]
    split <;> rfl
  | approveAction | processorApprove =>
    simp only [updated, ChainState.updateAction]
    split <;> rfl
  | newEvent | takeEvent | account | deploy | confirmAction | emit | replaceValidator | propose
  | vote | enact | clearProposals => rfl

/-- What a deposit or a withdrawal leaves of the assets. -/
theorem ChainState.pool_insert (state : ChainState) (assetId assetId' : AssetId)
    (amount : Decimal) :
    ({ state with assets := state.assets.insert assetId amount } : ChainState).pool assetId' =
      if assetId' = assetId then amount else state.pool assetId' := by
  rw [pool, SortedMap.get?_insert]
  split <;> rfl

theorem ChainState.deposit_eq_ok {ar : Arith} {state state' : ChainState} {assetId : AssetId}
    {amount : Decimal} : state.deposit ar assetId amount = .ok state' ↔
      ∃ new, ar.checkedAdd (state.pool assetId) amount = some new ∧
        state' = { state with assets := state.assets.insert assetId new } := by
  simp only [deposit, Except.bind_eq_ok, Except.fromOption_eq_ok, Except.pure_eq_ok,
    Except.ok.injEq]
  exact exists_congr fun new => and_congr_right fun _ => eq_comm

theorem ChainState.withdraw_eq_ok {ar : Arith} {state state' : ChainState} {assetId : AssetId}
    {amount : Decimal} : state.withdraw ar assetId amount = .ok state' ↔
      ∃ new, ar.checkedSub (state.pool assetId) amount = some new ∧
        state' = { state with assets := state.assets.insert assetId new } := by
  simp only [withdraw, Except.bind_eq_ok, Except.fromOption_eq_ok, Except.pure_eq_ok,
    Except.ok.injEq]
  exact exists_congr fun new => and_congr_right fun _ => eq_comm

/-- The chain after a legal deposit. -/
theorem Effect.updated_deposit {fs : FrameworkState} {chain : ExternalChain} {state : ChainState}
    {assetId : AssetId} {amount : Decimal} (hstate : fs.chains.get? chain = some state)
    (hlegal : (deposit chain assetId amount).Legal env fs) :
    ∃ new, env.arith.checkedAdd (state.pool assetId) amount = some new ∧
      (deposit chain assetId amount).updated env state =
        { state with assets := state.assets.insert assetId new } := by
  obtain ⟨state₁, state', hstate₁, hdeposit⟩ := hlegal
  obtain rfl := Option.some.inj (hstate.symm.trans hstate₁)
  obtain ⟨new, hnew, rfl⟩ := ChainState.deposit_eq_ok.mp hdeposit
  exact ⟨new, hnew, by rw [updated, hdeposit]; rfl⟩

/-- The chain after a legal withdrawal. -/
theorem Effect.updated_withdraw {fs : FrameworkState} {chain : ExternalChain} {state : ChainState}
    {assetId : AssetId} {amount : Decimal} (hstate : fs.chains.get? chain = some state)
    (hlegal : (withdraw chain assetId amount).Legal env fs) :
    ∃ new, env.arith.checkedSub (state.pool assetId) amount = some new ∧
      (withdraw chain assetId amount).updated env state =
        { state with assets := state.assets.insert assetId new } := by
  obtain ⟨state₁, state', hstate₁, hwithdraw⟩ := hlegal
  obtain rfl := Option.some.inj (hstate.symm.trans hstate₁)
  obtain ⟨new, hnew, rfl⟩ := ChainState.withdraw_eq_ok.mp hwithdraw
  exact ⟨new, hnew, by rw [updated, hwithdraw]; rfl⟩

namespace EventQueue

variable {chain : ExternalChain} {past : List Effect} {state : ChainState} {fs : FrameworkState}
  {e : Effect}

/-- Changes that leave the queue as it is. -/
theorem other {state' : ChainState} (h : EventQueue chain past state)
    (htakes : e.takes chain = false) (hsame : state'.pendingEvents = state.pendingEvents ∧
      state'.nextEventId = state.nextEventId) : EventQueue chain (past ++ [e]) state' := by
  refine ⟨?_, fun hget hkey => ?_⟩
  · rw [eventsTaken_concat, htakes, hsame.1, hsame.2]
    exact h.queue
  · rw [hsame.1] at hget
    exact List.mem_append_left _ (h.attested hget hkey)

/-- Every change of the chain keeps the queue. -/
theorem step (h : EventQueue chain past state) (hstate : fs.chains.get? chain = some state)
    (hchain : e.chain? = some chain) (hlegal : e.Legal env fs) :
    EventQueue chain (past ++ [e]) (e.updated env state) := by
  cases e with
  | newEvent chain' event =>
    refine ⟨?_, fun {id pending key} hget hkey => ?_⟩
    · rw [eventsTaken_concat]
      exact h.queue.push _
    · simp only [Effect.updated, ChainState.addEvent, SortedMap.get?_insert] at hget
      split at hget
      · obtain rfl := Option.some.inj hget
        simp at hkey
      · exact List.mem_append_left _ (h.attested hget hkey)
  | attest chain' eventId event key =>
    obtain rfl : chain' = chain := Option.some.inj hchain
    obtain ⟨-, state', pending, hstate', hpending, hevent, -⟩ := hlegal
    obtain rfl := Option.some.inj (hstate.symm.trans hstate')
    refine ⟨?_, fun {id pending' key'} hget hkey => ?_⟩
    · rw [eventsTaken_concat]
      simp only [Effect.updated, ChainState.attest, hpending]
      exact h.queue.update (SortedMap.contains_iff.mpr ⟨pending, hpending⟩) _
    · simp only [Effect.updated, ChainState.attest, hpending, SortedMap.get?_insert] at hget
      split at hget
      · rename_i hid
        obtain rfl := Option.some.inj hget
        subst hid
        rcases Finset.mem_insert.mp hkey with rfl | hkey
        · simp [hevent]
        · have hmem := h.attested hpending hkey
          exact List.mem_append_left _ hmem
      · exact List.mem_append_left _ (h.attested hget hkey)
  | takeEvent chain' eventId event =>
    obtain rfl : chain' = chain := Option.some.inj hchain
    obtain ⟨state', pending, hstate', hfirst, -, -⟩ := takeEvent_quorum hlegal
    obtain rfl := Option.some.inj (hstate.symm.trans hstate')
    refine ⟨?_, fun {id pending' key'} hget hkey => ?_⟩
    · have htakes : (Effect.takeEvent chain' eventId event).takes chain' = true := by
        simp [Effect.takes]
      rw [eventsTaken_concat, htakes]
      exact h.queue.pop hfirst
    · simp only [Effect.updated, ChainState.takeEvent, SortedMap.get?_erase] at hget
      split at hget
      · cases hget
      · exact List.mem_append_left _ (h.attested hget hkey)
  | account | deploy | deposit | confirmAction | approveAction | processorApprove | withdraw | emit
  | replaceValidator | propose | vote | enact | clearProposals =>
    exact h.other rfl (Effect.pendingEvents_updated state (by simp) (by simp) (by simp))

theorem of_trace {info : GenesisInfo}
    (htrace : (effects env).Trace (FrameworkState.new info) past fs)
    (hstate : fs.chains.get? chain = some state) : EventQueue chain past state :=
  chain_induction (I := EventQueue chain) htrace
    (fun _ _ => ⟨.empty 0, by rintro _ _ _ ⟨⟩⟩)
    (fun past e state hne h => h.other (by
      cases e <;> simp_all [Effect.takes, Effect.chain?]) ⟨rfl, rfl⟩)
    (fun _ _ _ _ _ hstate hchain hlegal h => h.step hstate hchain hlegal) hstate

end EventQueue

end Kolme
