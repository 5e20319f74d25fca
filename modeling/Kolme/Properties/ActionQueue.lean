import Kolme.Properties.EventOrder

/-!
# The queue of bridge actions

Every action of a chain is queued under the number of those queued before it and keeps its payload.
Actions leave in the order of their ids, each when enough listeners have attested that the contract
executed it.
-/

namespace Kolme

variable {env : Externals} {app : App}

/-- The change removes an action of the chain. -/
def Effect.confirms (chain : ExternalChain) : Effect → Bool
  | confirmAction chain' _ => chain' = chain
  | _ => false

/-- The change queues an action for the chain. -/
def Effect.emits (chain : ExternalChain) : Effect → Bool
  | emit chain' _ _ => chain' = chain
  | _ => false

/-- The number of actions of the chain that left the queue. -/
def actionsConfirmed (chain : ExternalChain) (past : List Effect) : Nat :=
  past.countP (·.confirms chain)

/-- The number of actions that were queued for the chain. -/
def actionsQueued (chain : ExternalChain) (past : List Effect) : Nat :=
  past.countP (·.emits chain)

theorem actionsConfirmed_concat (chain : ExternalChain) (past : List Effect) (e : Effect) :
    actionsConfirmed chain (past ++ [e]) =
      actionsConfirmed chain past + (e.confirms chain).toNat := by
  rw [actionsConfirmed, actionsConfirmed, List.countP_append, List.countP_singleton]
  cases e.confirms chain <;> rfl

theorem actionsQueued_concat (chain : ExternalChain) (past : List Effect) (e : Effect) :
    actionsQueued chain (past ++ [e]) = actionsQueued chain past + (e.emits chain).toNat := by
  rw [actionsQueued, actionsQueued, List.countP_append, List.countP_singleton]
  cases e.emits chain <;> rfl

/-- An action was queued under an id with a payload. -/
def QueuedAs (past : List Effect) (chain : ExternalChain) (id : BridgeActionId)
    (payload : String) : Prop :=
  ∃ before act after, past = before ++ .emit chain act payload :: after ∧
    actionsQueued chain before = id

/-- The queue of the actions of a chain, and where their payloads come from. -/
structure ActionQueue (chain : ExternalChain) (past : List Effect) (state : ChainState) : Prop where
  queue : state.pendingActions.Contiguous (actionsConfirmed chain past) state.nextActionId
  next : state.nextActionId = actionsQueued chain past
  queued : ∀ {id action}, state.pendingActions.get? id = some action →
    QueuedAs past chain id action.payload

section

variable {past more : List Effect} {chain : ExternalChain} {id : BridgeActionId}
  {payload payload' : String}

theorem QueuedAs.append (h : QueuedAs past chain id payload) (more : List Effect) :
    QueuedAs (past ++ more) chain id payload := by
  obtain ⟨before, act, after, rfl, hid⟩ := h
  exact ⟨before, act, after ++ more, by simp, hid⟩

/-- Two actions of a chain that are queued after equally many others are the same. -/
theorem queued_once {before before' after after' : List Effect} {act act' : ExecAction}
    (h : before ++ .emit chain act payload :: after = before' ++ .emit chain act' payload' :: after')
    (hid : actionsQueued chain before = actionsQueued chain before') : before = before' := by
  have fewer : ∀ {b b' a a' : List Effect} {act act' : ExecAction} {p p' : String},
      b ++ .emit chain act p :: a = b' ++ .emit chain act' p' :: a' →
      b.length < b'.length → actionsQueued chain b < actionsQueued chain b' := by
    intro b b' a a' act act' p p' heq hlt
    obtain ⟨rest, rfl⟩ : ∃ rest, b' = b ++ .emit chain act p :: rest := by
      rcases List.append_eq_append_iff.mp heq with ⟨rest, rfl, hrest⟩ | ⟨rest, rfl, -⟩
      · cases rest with
        | nil => simp at hlt
        | cons e rest => exact ⟨rest, by rw [(List.cons.inj hrest).1]⟩
      · rw [List.length_append] at hlt
        omega
    rw [actionsQueued, actionsQueued, List.countP_append, List.countP_cons]
    simp [Effect.emits]
  rcases lt_trichotomy before.length before'.length with hlt | heq | hlt
  · exact absurd hid (fewer h hlt).ne
  · exact (List.append_inj h heq).1
  · exact absurd hid.symm (fewer h.symm hlt).ne

/-- The payload under an id is the one that it was queued with. -/
theorem QueuedAs.unique (h : QueuedAs past chain id payload)
    (h' : QueuedAs past chain id payload') : payload = payload' := by
  obtain ⟨before, act, after, rfl, hid⟩ := h
  obtain ⟨before', act', after', heq, hid'⟩ := h'
  obtain rfl := queued_once heq (hid.trans hid'.symm)
  exact (Effect.emit.inj (List.cons.inj (List.append_cancel_left heq)).1).2.2

end

namespace ActionQueue

variable {chain : ExternalChain} {past : List Effect} {state : ChainState} {fs : FrameworkState}
  {e : Effect}

/-- Changes that neither queue nor remove an action, and keep the payloads. -/
theorem other {state' : ChainState} (h : ActionQueue chain past state)
    (hconfirms : e.confirms chain = false) (hemits : e.emits chain = false)
    (hnext : state'.nextActionId = state.nextActionId)
    (hkeys : ∀ id, state'.pendingActions.contains id = state.pendingActions.contains id)
    (hpayloads : ∀ {id action}, state'.pendingActions.get? id = some action →
      ∃ old, state.pendingActions.get? id = some old ∧ old.payload = action.payload) :
    ActionQueue chain (past ++ [e]) state' where
  queue := by
    rw [actionsConfirmed_concat, hconfirms, hnext]
    exact ⟨h.queue.le, fun id => (hkeys id).symm ▸ h.queue.contains_iff id⟩
  next := by
    rw [actionsQueued_concat, hemits, hnext]
    exact h.next
  queued {id action} hget := by
    obtain ⟨old, hold, hpayload⟩ := hpayloads hget
    exact hpayload ▸ (h.queued hold).append [e]

/-- Changes that leave the queue as it is. -/
theorem same {state' : ChainState} (h : ActionQueue chain past state)
    (hconfirms : e.confirms chain = false) (hemits : e.emits chain = false)
    (hnext : state'.nextActionId = state.nextActionId)
    (hpending : state'.pendingActions = state.pendingActions) :
    ActionQueue chain (past ++ [e]) state' :=
  h.other hconfirms hemits hnext (fun _ => by rw [hpending])
    fun {_ action} hget => ⟨action, hpending ▸ hget, rfl⟩

/-- Approvals of a pending action. -/
theorem update (h : ActionQueue chain past state) (hconfirms : e.confirms chain = false)
    (hemits : e.emits chain = false) (f : PendingBridgeAction → PendingBridgeAction)
    (hf : ∀ action, (f action).payload = action.payload) (id : BridgeActionId) :
    ActionQueue chain (past ++ [e]) (state.updateAction id f) := by
  unfold ChainState.updateAction
  cases hget : state.pendingActions.get? id with
  | none => exact h.same hconfirms hemits rfl rfl
  | some action =>
    refine h.other hconfirms hemits rfl (fun id' => ?_) fun {id' action'} hget' => ?_
    · simp only [SortedMap.contains, SortedMap.get?_insert]
      split
      · rename_i hid
        rw [hid, hget]
        rfl
      · rfl
    · simp only [SortedMap.get?_insert] at hget'
      split at hget'
      · rename_i hid
        exact ⟨action, hid ▸ hget, by rw [← Option.some.inj hget', hf]⟩
      · exact ⟨action', hget', rfl⟩

/-- Every change of the chain keeps the queue. -/
theorem step (h : ActionQueue chain past state) (hstate : fs.chains.get? chain = some state)
    (hchain : e.chain? = some chain) (hlegal : e.Legal env fs) :
    ActionQueue chain (past ++ [e]) (e.updated env state) := by
  cases e with
  | emit chain' act payload =>
    obtain rfl : chain' = chain := Option.some.inj hchain
    have hemits : (Effect.emit chain' act payload).emits chain' = true := by simp [Effect.emits]
    refine ⟨?_, ?_, fun {id action} hget => ?_⟩
    · rw [actionsConfirmed_concat]
      exact h.queue.push _
    · rw [actionsQueued_concat, hemits]
      exact congrArg (· + 1) h.next
    · simp only [Effect.updated, ChainState.addAction, SortedMap.get?_insert] at hget
      split at hget
      · rename_i hid
        obtain rfl := Option.some.inj hget
        exact ⟨past, act, [], rfl, (hid.trans h.next).symm⟩
      · exact (h.queued hget).append _
  | confirmAction chain' id =>
    obtain rfl : chain' = chain := Option.some.inj hchain
    obtain ⟨state', action, hstate', hfirst⟩ := hlegal
    obtain rfl := Option.some.inj (hstate.symm.trans hstate')
    have hconfirms : (Effect.confirmAction chain' id).confirms chain' = true := by
      simp [Effect.confirms]
    refine ⟨?_, ?_, fun {id' action'} hget => ?_⟩
    · rw [actionsConfirmed_concat, hconfirms]
      exact h.queue.pop hfirst
    · rw [actionsQueued_concat]
      exact h.next
    · simp only [Effect.updated, ChainState.removeAction, SortedMap.get?_erase] at hget
      split at hget
      · cases hget
      · exact (h.queued hget).append _
  | approveAction chain' id key signature =>
    have hemits : (Effect.approveAction chain' id key signature).emits chain = false := rfl
    exact h.update rfl hemits
      (fun action => { action with approvals := action.approvals.insert key signature })
      (fun _ => rfl) id
  | processorApprove chain' id processor approvers =>
    have hemits : (Effect.processorApprove chain' id processor approvers).emits chain = false := rfl
    exact h.update rfl hemits (fun action => { action with processor := some processor })
      (fun _ => rfl) id
  | attest chain' id event key =>
    simp only [Effect.updated, ChainState.attest]
    split
    · exact h.same rfl rfl rfl rfl
    · exact h.same rfl rfl rfl rfl
  | deposit chain' assetId amount =>
    obtain rfl : chain' = chain := Option.some.inj hchain
    obtain ⟨new, -, hupdated⟩ := Effect.updated_deposit hstate hlegal
    rw [hupdated]
    exact h.same rfl rfl rfl rfl
  | withdraw chain' assetId amount =>
    obtain rfl : chain' = chain := Option.some.inj hchain
    obtain ⟨new, -, hupdated⟩ := Effect.updated_withdraw hstate hlegal
    rw [hupdated]
    exact h.same rfl rfl rfl rfl
  | newEvent | takeEvent | deploy | account | replaceValidator | propose | vote | enact
  | clearProposals => exact h.same rfl rfl rfl rfl

theorem of_trace {info : GenesisInfo}
    (htrace : (effects env).Trace (FrameworkState.new info) past fs)
    (hstate : fs.chains.get? chain = some state) : ActionQueue chain past state :=
  chain_induction (I := ActionQueue chain) htrace
    (fun _ _ => ⟨.empty 0, rfl, by rintro _ _ ⟨⟩⟩)
    (fun past e state hne h => h.same
      (by cases e <;> simp_all [Effect.confirms, Effect.chain?])
      (by cases e <;> simp_all [Effect.emits, Effect.chain?]) rfl rfl)
    (fun _ _ _ _ _ hstate hchain hlegal h => h.step hstate hchain hlegal) hstate

end ActionQueue

/-! ## How actions leave -/

section

variable {M : Type} {calls : M → AppCall → Prop} {cfg : AssetConfigs} {pubkey : PublicKey}
  {sender : AccountId} {message : Message M} {b before after : List Effect}
  {chain : ExternalChain} {id : BridgeActionId}

/-- Actions are removed by events only. -/
theorem Message.Block.of_confirmAction (hb : message.Block env pubkey sender calls cfg b)
    (hmem : .confirmAction chain id ∈ b) : ∃ chain', EventBlock env cfg chain' b := by
  have emissions {action : ExecAction} {es : List Effect} (hes : Emissions action es) :
      .confirmAction chain id ∉ es := fun hmem => by
    obtain ⟨_, _, heq⟩ := hes _ hmem
    cases heq
  cases hb with
  | event eventId event hb => exact ⟨_, hb⟩
  | app hc hb => cases hb <;> simp [debitEffects] at hmem
  | newEvent | attest | approve | processorApprove | propose | vote | transfer => simp at hmem
  | withdraw payload hconfig hamount => simp [debitEffects] at hmem
  | auth msg hsigning => cases msg <;> simp at hmem
  | selfReplace signed hes => exact absurd (by simpa using hmem) (emissions hes)
  | enact msg hb =>
    cases hb with
    | newSet set approvals hes => exact absurd (by simpa using hmem) (emissions hes)
    | migrateContract | upgrade => simp at hmem

/-- The event before an action that leaves says that the contract executed it. -/
theorem EventBlock.confirmAction_last {chain' : ExternalChain}
    (hb : EventBlock env cfg chain' (before ++ .confirmAction chain id :: after)) :
    ∃ eventId wallet, before = [.takeEvent chain eventId (.signed wallet id)] := by
  generalize heq : before ++ .confirmAction chain id :: after = b at hb
  have hmem : .confirmAction chain id ∈ b := heq ▸ by simp
  cases hb with
  | instantiated => simp at hmem
  | regular eventId wallet funds keys accountId =>
    simp only [List.mem_cons, reduceCtorEq, List.mem_append, List.mem_map, and_false, exists_false,
      List.mem_flatMap, false_or] at hmem
    obtain ⟨fund, -, hmem⟩ := hmem
    unfold creditEffects at hmem
    split at hmem
    · simp at hmem
    · split at hmem <;> simp at hmem
  | signed eventId wallet actionId =>
    match before, heq with
    | [], heq => cases (List.cons.inj heq).1
    | [_], heq =>
      obtain ⟨rfl, hrest⟩ := List.cons.inj heq
      obtain ⟨rfl, rfl⟩ := Effect.confirmAction.inj (List.cons.inj hrest).1
      exact ⟨eventId, wallet, rfl⟩
    | _ :: _ :: before, heq => simp at heq

theorem HistoryBlock.of_confirmAction
    (hb : HistoryBlock env app (before ++ .confirmAction chain id :: after)) :
    ∃ eventId wallet, before = [.takeEvent chain eventId (.signed wallet id)] := by
  have hmem : .confirmAction chain id ∈ before ++ .confirmAction chain id :: after := by simp
  rcases hb with ⟨pubkey, nonce, sender, heq⟩ | ⟨pubkey, sender, message, hb⟩
  · rw [heq] at hmem
    simp at hmem
  · obtain ⟨chain', hevent⟩ := hb.of_confirmAction hmem
    exact hevent.confirmAction_last

end

/-- The part of a history before an action leaves: it is at the head of the queue, and just before
enough listeners of that moment attested the event that names it. -/
structure Leaves (env : Externals) (info : GenesisInfo) (chain : ExternalChain)
    (id : BridgeActionId) (past : List Effect) : Prop where
  head : id = actionsConfirmed chain past
  attested : ∃ before eventId wallet fs,
    past = before ++ [.takeEvent chain eventId (.signed wallet id)] ∧
    (effects env).Trace (FrameworkState.new info) before fs ∧
    Attested before fs.validatorSet chain eventId (.signed wallet id)

theorem Node.Reachable.leaves {self : Node app} (hreach : self.Reachable env)
    {past future : List Effect} {chain : ExternalChain} {id : BridgeActionId}
    (hhistory : self.history = past ++ .confirmAction chain id :: future) :
    Leaves env app.genesisInfo chain id past := by
  have htrace := hreach.trace
  have hblocks := hreach.blocks
  rw [Node.HasTrace, hhistory] at htrace
  rw [hhistory] at hblocks
  obtain ⟨fs, hpast, hlegal, -⟩ := htrace.at
  obtain ⟨state, action, hstate, hfirst⟩ :=
    (show Effect.Legal env fs (.confirmAction chain id) from hlegal)
  have hqueue := ActionQueue.of_trace hpast hstate
  refine ⟨(hqueue.queue.first hfirst).1, ?_⟩
  obtain ⟨pre, before, after, post, rfl, -, hb, -, -⟩ := hblocks.exists_of_append
  obtain ⟨eventId, wallet, rfl⟩ := hb.of_confirmAction
  obtain ⟨fs', hpre, htake, -⟩ := hpast.at
  obtain ⟨state', pending, hstate', hfirst', hevent, hneeded⟩ :=
    takeEvent_quorum (show Effect.Legal env fs' _ from htake)
  have hevents := EventQueue.of_trace hpre hstate'
  refine ⟨pre, eventId, wallet, fs', rfl, hpre,
    pending.attestations ∩ fs'.validatorSet.listeners, Finset.inter_subset_right, hneeded, ?_⟩
  intro key hkey
  exact hevent ▸ hevents.attested (SortedMap.first?_spec hfirst').1 (Finset.mem_inter.mp hkey).1

/-- In every run the pending actions of a chain are those from the first that has not left up to the
next id. Each is queued under the number of those before it, so no id is used twice, and at any two
moments the payload under an id is the same; an action leaves only from the head, right after an
event that enough listeners attested and that names it. -/
theorem actions_in_order (self : Node app) (hreach : self.Reachable env) :
    (∀ chain state, self.frameworkState.chains.get? chain = some state →
      actionsConfirmed chain self.history ≤ state.nextActionId ∧
      ∀ id, state.pendingActions.contains id = true ↔
        actionsConfirmed chain self.history ≤ id ∧ id < state.nextActionId) ∧
    (∀ past future chain act payload, self.history = past ++ .emit chain act payload :: future →
      ∃ fs state, (effects env).Trace (FrameworkState.new app.genesisInfo) past fs ∧
        fs.chains.get? chain = some state ∧ state.nextActionId = actionsQueued chain past ∧
        ∀ past' future' act' payload',
          self.history = past' ++ .emit chain act' payload' :: future' →
          actionsQueued chain past' = actionsQueued chain past → past' = past) ∧
    (∀ past future fs chain state state' id action action', self.history = past ++ future →
      (effects env).Trace (FrameworkState.new app.genesisInfo) past fs →
      fs.chains.get? chain = some state → state.pendingActions.get? id = some action →
      self.frameworkState.chains.get? chain = some state' →
      state'.pendingActions.get? id = some action' → action'.payload = action.payload) ∧
    ∀ past future chain id, self.history = past ++ .confirmAction chain id :: future →
      Leaves env app.genesisInfo chain id past := by
  have htrace := hreach.trace
  refine ⟨fun chain state hstate => ?_, fun past future chain act payload hhistory => ?_, ?_,
    fun past future chain id hhistory => hreach.leaves hhistory⟩
  · have hqueue := (ActionQueue.of_trace htrace hstate).queue
    exact ⟨hqueue.le, hqueue.contains_iff⟩
  · rw [Node.HasTrace, hhistory] at htrace
    obtain ⟨fs, hpast, hlegal, -⟩ := htrace.at
    obtain ⟨state, hstate, -⟩ := (show Effect.Legal env fs (.emit chain act payload) from hlegal)
    refine ⟨fs, state, hpast, hstate, (ActionQueue.of_trace hpast hstate).next, ?_⟩
    intro past' future' act' payload' hhistory' hqueued
    exact queued_once (hhistory'.symm.trans hhistory) hqueued
  · intro past future fs chain state state' id action action' hhistory hpast hstate hget hstate'
      hget'
    have hqueued := ((ActionQueue.of_trace hpast hstate).queued hget).append future
    rw [← hhistory] at hqueued
    exact ((ActionQueue.of_trace htrace hstate').queued hget').unique hqueued

namespace ActionQueueSample

open Sample

/-- The listener reports that the contract executed Alice's withdrawal. -/
def signedTx : SignedTx where
  tx := ⟨listener, 1, [.listener .osmosisLocal 2 (.signed "osmo1relayer" 0)], none⟩
  s := 0x775051d31e5690c3dae498e2c068c0e096f74e720b607e3f1bac9aada4c9b91c
  recoveryId := 0

def txs : List SignedTx := [genesisTx, depositTx, withdrawTx, signedTx]

def table : List SignedText := txs.map SignedTx.text

theorem table_distinct : (table.map SignedText.signature).Nodup := by decide

def chain : Machine (Node (counter (info validators))) (Call (counter (info validators))) Error :=
  Node.machine (counterEnv table)

end ActionQueueSample

open Sample ActionQueueSample in
/-- The withdrawal is queued under the first id and leaves when the only listener reports it. -/
theorem actions_in_order_example :
    ∃ s past, chain.steps (start validators) (calls validators txs) = .ok s ∧
      Leaves (counterEnv table) (info validators) .osmosisLocal 0 past ∧
      ∀ state, s.frameworkState.chains.get? .osmosisLocal = some state →
        ∀ id, state.pendingActions.contains id = true ↔
          actionsConfirmed .osmosisLocal s.history ≤ id ∧ id < state.nextActionId := by
  obtain ⟨s, hs, hp⟩ := exists_steps (start validators)
    (fun s => .confirmAction .osmosisLocal 0 ∈ s.history) table_distinct
    (fun _ => List.mem_map_of_mem) (by decide +kernel)
  obtain ⟨past, future, hhistory⟩ := List.append_of_mem (of_decide_eq_true hp)
  obtain ⟨hpending, -, -, hleaves⟩ := actions_in_order s (reachable validators_wellFormed hs)
  exact ⟨s, past, hs, hleaves past future _ _ hhistory, fun state hstate =>
    (hpending _ state hstate).2⟩

end Kolme
