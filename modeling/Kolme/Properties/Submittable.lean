import Kolme.Core.Chains
import Kolme.Core.Counter

/-!
# Actions that the processor approved

What is sent to a contract with the processor's signature are the approvals that are stored for the
action. The processor's approval is accepted on a list of signatures of its own, which is not
stored, so the stored approvals are enough only if they were so when it was accepted, and stay
those of the approvers of that moment only if nobody else approves later.
-/

namespace Kolme

/-- The keys whose approvals are stored. -/
def PendingBridgeAction.signers (self : PendingBridgeAction) : Finset PublicKey :=
  self.approvals.keys.toFinset

theorem PendingBridgeAction.mem_signers {self : PendingBridgeAction} {key : PublicKey} :
    key ∈ self.signers ↔ self.approvals.contains key = true := by
  rw [signers, List.mem_toFinset, SortedMap.mem_keys, SortedMap.contains_iff]

theorem PendingBridgeAction.signers_insert (self : PendingBridgeAction) (key : PublicKey)
    (signature : SignatureWithRecovery) :
    { self with approvals := self.approvals.insert key signature }.signers =
      insert key self.signers := by
  ext key'
  rw [Finset.mem_insert, mem_signers, mem_signers, SortedMap.contains, SortedMap.contains,
    SortedMap.get?_insert]
  split
  · simp [*]
  · simp [*]

/-- The stored approvals are enough for the set, and all are by its approvers. -/
structure PendingBridgeAction.Sufficient (action : PendingBridgeAction) (set : ValidatorSet) :
    Prop where
  enough : set.neededApprovers.val ≤ action.signers.card
  only : action.signers ⊆ set.approvers

instance (action : PendingBridgeAction) (set : ValidatorSet) : Decidable (action.Sufficient set) :=
  decidable_of_iff (set.neededApprovers.val ≤ action.signers.card ∧ action.signers ⊆ set.approvers)
    ⟨fun h => ⟨h.1, h.2⟩, fun h => ⟨h.1, h.2⟩⟩

section

variable (env : Externals) (info : GenesisInfo)

/-- The processor approved the action while the set was in force. -/
def ApprovedUnder (past : List Effect) (chain : ExternalChain) (id : BridgeActionId)
    (set : ValidatorSet) : Prop :=
  ∃ before processor approvers after fs,
    past = before ++ .processorApprove chain id processor approvers :: after ∧
    (effects env).Trace (FrameworkState.new info) before fs ∧ set = fs.validatorSet

/-- The stored approvals are what the set in force at the processor's approval asks for, and each is
a signature of the action by its key. -/
def Submittable (past : List Effect) (chain : ExternalChain) (id : BridgeActionId)
    (action : PendingBridgeAction) : Prop :=
  (∃ set, ApprovedUnder env info past chain id set ∧ action.Sufficient set) ∧
  ∀ key signature, action.approvals.get? key = some signature →
    ∃ payload, action.payloadBytesToSign env chain = .ok payload ∧
      signature.validate env payload = .ok key

/-- The processor approves an action that has its approvals, and only approvers of that moment
approve it later. -/
def InTime (past : List Effect) (fs : FrameworkState) : Effect → Prop
  | .processorApprove chain id _ _ => ∀ state action, fs.chains.get? chain = some state →
      state.pendingActions.get? id = some action → action.Sufficient fs.validatorSet
  | .approveAction chain id key _ => ∀ set, ApprovedUnder env info past chain id set →
      key ∈ set.approvers
  | _ => True

/-- The record of the pending actions of a chain. -/
structure ActionLog (chain : ExternalChain) (past : List Effect) (state : ChainState) : Prop where
  pending : ∀ {id action}, state.pendingActions.get? id = some action → id < state.nextActionId
  approved : ∀ {id set}, ApprovedUnder env info past chain id set → id < state.nextActionId
  unapproved : ∀ {id action}, state.pendingActions.get? id = some action →
    action.processor = none → ∀ set, ¬ApprovedUnder env info past chain id set
  once : ∀ {id set set'}, ApprovedUnder env info past chain id set →
    ApprovedUnder env info past chain id set' → set = set'
  signed : ∀ {id action key signature}, state.pendingActions.get? id = some action →
    action.approvals.get? key = some signature →
    ∃ payload, action.payloadBytesToSign env chain = .ok payload ∧
      signature.validate env payload = .ok key

variable {env info}

/-! ## Approvals of the processor -/

section

variable {past : List Effect} {e : Effect} {chain : ExternalChain} {id : BridgeActionId}
  {set : ValidatorSet}

theorem ApprovedUnder.append (h : ApprovedUnder env info past chain id set) (es : List Effect) :
    ApprovedUnder env info (past ++ es) chain id set := by
  obtain ⟨before, processor, approvers, after, fs, rfl, htrace, hset⟩ := h
  exact ⟨before, processor, approvers, after ++ es, fs, by simp, htrace, hset⟩

/-- The approvals of the processor before the last change, and that change. -/
theorem approvedUnder_concat : ApprovedUnder env info (past ++ [e]) chain id set ↔
    ApprovedUnder env info past chain id set ∨
      ∃ processor approvers fs, e = .processorApprove chain id processor approvers ∧
        (effects env).Trace (FrameworkState.new info) past fs ∧ set = fs.validatorSet := by
  constructor
  · rintro ⟨before, processor, approvers, after, fs, heq, htrace, rfl⟩
    rcases List.eq_nil_or_concat after with rfl | ⟨after, e', rfl⟩
    · obtain ⟨rfl, he⟩ := List.append_inj' heq rfl
      exact .inr ⟨processor, approvers, fs, (List.cons.inj he).1, htrace, rfl⟩
    · rw [List.concat_eq_append, ← List.cons_append, ← List.append_assoc] at heq
      obtain ⟨rfl, -⟩ := List.append_inj' heq rfl
      exact .inl ⟨before, processor, approvers, after, fs, rfl, htrace, rfl⟩
  · rintro (h | ⟨processor, approvers, fs, rfl, htrace, rfl⟩)
    · exact h.append [e]
    · exact ⟨past, processor, approvers, [], fs, rfl, htrace, rfl⟩

/-- Another change is no approval of the processor. -/
theorem approvedUnder_other
    (he : ∀ processor approvers, e ≠ .processorApprove chain id processor approvers) :
    ApprovedUnder env info (past ++ [e]) chain id set ↔
      ApprovedUnder env info past chain id set := by
  rw [approvedUnder_concat, or_iff_left]
  rintro ⟨processor, approvers, -, rfl, -⟩
  exact he processor approvers rfl

end

/-! ## The pending actions -/

/-- What a change of a chain did to an action that is pending after it. -/
inductive ActionChange (chain : ExternalChain) (state : ChainState) (id : BridgeActionId)
    (action : PendingBridgeAction) : Effect → Prop
  | same {e : Effect} (hget : state.pendingActions.get? id = some action)
    (happrove : ∀ key signature, e ≠ .approveAction chain id key signature)
    (hprocessor : ∀ processor approvers, e ≠ .processorApprove chain id processor approvers) :
    ActionChange chain state id action e
  | emitted (act : ExecAction) (payload : String) (hid : id = state.nextActionId)
    (haction : action = ⟨payload, ∅, none⟩) :
    ActionChange chain state id action (.emit chain act payload)
  | approved (old : PendingBridgeAction) (key : PublicKey) (signature : SignatureWithRecovery)
    (hget : state.pendingActions.get? id = some old)
    (haction : action = { old with approvals := old.approvals.insert key signature }) :
    ActionChange chain state id action (.approveAction chain id key signature)
  | processorApproved (old : PendingBridgeAction) (processor : SignatureWithRecovery)
    (approvers : List SignatureWithRecovery) (hget : state.pendingActions.get? id = some old)
    (hnone : old.processor = none) (haction : action = { old with processor := some processor }) :
    ActionChange chain state id action (.processorApprove chain id processor approvers)

section

variable {past : List Effect} {fs : FrameworkState} {e : Effect} {chain : ExternalChain}
  {state : ChainState} {id : BridgeActionId} {action : PendingBridgeAction}

theorem get?_updateAction {f : PendingBridgeAction → PendingBridgeAction} {id' : BridgeActionId}
    (hget : (state.updateAction id' f).pendingActions.get? id = some action) :
    id = id' ∧ (∃ old, state.pendingActions.get? id = some old ∧ action = f old) ∨
      id ≠ id' ∧ state.pendingActions.get? id = some action := by
  unfold ChainState.updateAction at hget
  cases hold : state.pendingActions.get? id' with
  | none =>
    simp only [hold] at hget
    refine .inr ⟨?_, hget⟩
    rintro rfl
    rw [hold] at hget
    cases hget
  | some old =>
    simp only [hold, SortedMap.get?_insert] at hget
    split at hget
    · rename_i hid
      exact .inl ⟨hid, old, hid ▸ hold, (Option.some.inj hget).symm⟩
    · rename_i hid
      exact .inr ⟨hid, hget⟩

theorem actionChange (hstate : fs.chains.get? chain = some state) (hchain : e.chain? = some chain)
    (hlegal : e.Legal env fs)
    (hget : (e.updated env state).pendingActions.get? id = some action) :
    ActionChange chain state id action e := by
  cases e with
  | account | replaceValidator | propose | vote | enact | clearProposals => cases hchain
  | newEvent | takeEvent | deploy => exact .same hget (by simp) (by simp)
  | attest chain' eventId event key =>
    refine .same ?_ (by simp) (by simp)
    simp only [Effect.updated, ChainState.attest] at hget
    split at hget <;> exact hget
  | deposit chain' assetId amount =>
    obtain rfl : chain' = chain := Option.some.inj hchain
    obtain ⟨new, -, hupdated⟩ := Effect.updated_deposit hstate hlegal
    rw [hupdated] at hget
    exact .same hget (by simp) (by simp)
  | withdraw chain' assetId amount =>
    obtain rfl : chain' = chain := Option.some.inj hchain
    obtain ⟨new, -, hupdated⟩ := Effect.updated_withdraw hstate hlegal
    rw [hupdated] at hget
    exact .same hget (by simp) (by simp)
  | confirmAction chain' id' =>
    simp only [Effect.updated, ChainState.removeAction, SortedMap.get?_erase] at hget
    split at hget
    · cases hget
    · exact .same hget (by simp) (by simp)
  | emit chain' act payload =>
    obtain rfl : chain' = chain := Option.some.inj hchain
    simp only [Effect.updated, ChainState.addAction, SortedMap.get?_insert] at hget
    split at hget
    · rename_i hid
      exact .emitted act payload hid (Option.some.inj hget).symm
    · exact .same hget (by simp) (by simp)
  | approveAction chain' id' key signature =>
    obtain rfl : chain' = chain := Option.some.inj hchain
    rcases get?_updateAction hget with ⟨rfl, old, hold, haction⟩ | ⟨hid, hsame⟩
    · exact .approved old key signature hold haction
    · exact .same hsame (by simp [hid.symm]) (by simp)
  | processorApprove chain' id' processor approvers =>
    obtain rfl : chain' = chain := Option.some.inj hchain
    rcases get?_updateAction hget with ⟨rfl, old, hold, haction⟩ | ⟨hid, hsame⟩
    · obtain ⟨-, state', action', _, _, hstate', haction', hnone, -⟩ := hlegal
      obtain rfl := Option.some.inj (hstate.symm.trans hstate')
      obtain rfl := Option.some.inj (hold.symm.trans haction')
      exact .processorApproved old processor approvers hold hnone haction
    · exact .same hsame (by simp) (by simp [hid.symm])

theorem le_nextActionId_updated (env : Externals) (e : Effect) (state : ChainState) :
    state.nextActionId ≤ (e.updated env state).nextActionId := by
  cases e with
  | emit => exact Nat.le_succ _
  | deposit chain assetId amount =>
    simp only [Effect.updated, ChainState.deposit]
    cases env.arith.checkedAdd (state.pool assetId) amount <;> exact le_rfl
  | withdraw chain assetId amount =>
    simp only [Effect.updated, ChainState.withdraw]
    cases env.arith.checkedSub (state.pool assetId) amount <;> exact le_rfl
  | attest =>
    simp only [Effect.updated, ChainState.attest]
    split <;> exact le_rfl
  | approveAction | processorApprove =>
    simp only [Effect.updated, ChainState.updateAction]
    split <;> exact le_rfl
  | newEvent | takeEvent | account | deploy | confirmAction | replaceValidator | propose | vote
  | enact | clearProposals => exact le_rfl

namespace ActionLog

/-- A change that concerns another chain. -/
theorem other (h : ActionLog env info chain past state) (he : e.chain? ≠ some chain) :
    ActionLog env info chain (past ++ [e]) state := by
  have hsame {id : BridgeActionId} {set : ValidatorSet} :
      ApprovedUnder env info (past ++ [e]) chain id set ↔
        ApprovedUnder env info past chain id set :=
    approvedUnder_other (by rintro _ _ rfl; exact he rfl)
  exact ⟨h.pending, fun happroved => h.approved (hsame.mp happroved),
    fun hget hnone set happroved => h.unapproved hget hnone set (hsame.mp happroved),
    fun hset hset' => h.once (hsame.mp hset) (hsame.mp hset'), h.signed⟩

/-- A new approval of the processor is about an action that it has not approved. -/
theorem fresh (h : ActionLog env info chain past state)
    (hstate : fs.chains.get? chain = some state) (hlegal : e.Legal env fs)
    {processor : SignatureWithRecovery} {approvers : List SignatureWithRecovery}
    (he : e = .processorApprove chain id processor approvers) :
    id < state.nextActionId ∧ ∀ set, ¬ApprovedUnder env info past chain id set := by
  subst he
  obtain ⟨-, state', action, _, _, hstate', haction, hnone, -⟩ := hlegal
  obtain rfl := Option.some.inj (hstate.symm.trans hstate')
  exact ⟨h.pending haction, h.unapproved haction hnone⟩

theorem step (h : ActionLog env info chain past state)
    (htrace : (effects env).Trace (FrameworkState.new info) past fs)
    (hstate : fs.chains.get? chain = some state) (hchain : e.chain? = some chain)
    (hlegal : e.Legal env fs) :
    ActionLog env info chain (past ++ [e]) (e.updated env state) := by
  have hnext := le_nextActionId_updated env e state
  have hcases {id : BridgeActionId} {set : ValidatorSet}
      (happroved : ApprovedUnder env info (past ++ [e]) chain id set) :
      ApprovedUnder env info past chain id set ∨
        (∀ set, ¬ApprovedUnder env info past chain id set) ∧ id < state.nextActionId ∧
          set = fs.validatorSet := by
    rcases approvedUnder_concat.mp happroved with hpast | ⟨_, _, t, he, ht, rfl⟩
    · exact .inl hpast
    · obtain ⟨hlt, hfresh⟩ := h.fresh hstate hlegal he
      exact .inr ⟨hfresh, hlt, by rw [htrace.unique ht]⟩
  refine ⟨fun {id action} hget => ?_, fun {id set} happroved => ?_,
    fun {id action} hget hnone set happroved => ?_, fun {id set set'} hset hset' => ?_,
    fun {id action key signature} hget hkey => ?_⟩
  · cases actionChange hstate hchain hlegal hget with
    | same hold => exact (h.pending hold).trans_le hnext
    | emitted act payload hid => exact hid ▸ Nat.lt_succ_self _
    | approved old key signature hold => exact (h.pending hold).trans_le hnext
    | processorApproved old processor approvers hold => exact (h.pending hold).trans_le hnext
  · rcases hcases happroved with hpast | ⟨-, hlt, -⟩
    · exact (h.approved hpast).trans_le hnext
    · exact hlt.trans_le hnext
  · cases actionChange hstate hchain hlegal hget with
    | same hold happrove hprocessor =>
      exact h.unapproved hold hnone set ((approvedUnder_other hprocessor).mp happroved)
    | emitted act payload hid =>
      have hpast := (approvedUnder_other (by simp)).mp happroved
      have hlt := h.approved hpast
      exact absurd hid hlt.ne
    | approved old key signature hold haction =>
      have hpast := (approvedUnder_other (by simp)).mp happroved
      exact h.unapproved hold (by simpa [haction] using hnone) set hpast
    | processorApproved old processor approvers hold _ haction => simp [haction] at hnone
  · rcases hcases hset with hpast | ⟨hfresh, -, rfl⟩
    · rcases hcases hset' with hpast' | ⟨hfresh, -⟩
      · exact h.once hpast hpast'
      · exact absurd hpast (hfresh set)
    · rcases hcases hset' with hpast' | ⟨-, -, rfl⟩
      · exact absurd hpast' (hfresh set')
      · rfl
  · cases actionChange hstate hchain hlegal hget with
    | same hold => exact h.signed hold hkey
    | emitted act payload hid haction =>
      rw [haction] at hkey
      cases hkey
    | processorApproved old processor approvers hold _ haction =>
      subst haction
      have hkey : old.approvals.get? key = some signature := hkey
      obtain ⟨payload, hpayload, hvalid⟩ := h.signed hold hkey
      exact ⟨payload, hpayload, hvalid⟩
    | approved old key' signature' hold haction =>
      subst haction
      rw [SortedMap.get?_insert] at hkey
      split at hkey
      · rename_i heq
        obtain rfl := Option.some.inj hkey
        subst heq
        obtain ⟨-, state', action', payload, hstate', haction', hpayload, hvalid, -⟩ := hlegal
        obtain rfl := Option.some.inj (hstate.symm.trans hstate')
        obtain rfl := Option.some.inj (hold.symm.trans haction')
        exact ⟨payload, hpayload, hvalid⟩
      · have hkey : old.approvals.get? key = some signature := hkey
        obtain ⟨payload, hpayload, hvalid⟩ := h.signed hold hkey
        exact ⟨payload, hpayload, hvalid⟩

theorem of_trace (htrace : (effects env).Trace (FrameworkState.new info) past fs)
    (hstate : fs.chains.get? chain = some state) : ActionLog env info chain past state := by
  refine chain_induction (I := ActionLog env info chain) htrace ?_
    (fun _ _ _ he h => h.other he)
    (fun _ _ _ _ htrace hstate hchain hlegal h => h.step htrace hstate hchain hlegal) hstate
  have hnil {id : BridgeActionId} {set : ValidatorSet} :
      ¬ApprovedUnder env info [] chain id set := by
    rintro ⟨before, _, _, _, _, heq, -⟩
    simp at heq
  exact fun config _ => ⟨by rintro _ _ ⟨⟩, fun h => absurd h hnil, by rintro _ _ ⟨⟩,
    fun h => absurd h hnil, by rintro _ _ _ _ ⟨⟩⟩

end ActionLog

end

/-! ## Runs -/

/-- Every pending action that the processor approved has the approvals that were asked for then. -/
def AllSufficient (env : Externals) (info : GenesisInfo) (past : List Effect)
    (fs : FrameworkState) : Prop :=
  ∀ chain state id action, fs.chains.get? chain = some state →
    state.pendingActions.get? id = some action → action.processor.isSome = true →
    ∃ set, ApprovedUnder env info past chain id set ∧ action.Sufficient set

section

variable {past : List Effect} {fs : FrameworkState} {e : Effect}

theorem AllSufficient.step (h : AllSufficient env info past fs)
    (htrace : (effects env).Trace (FrameworkState.new info) past fs) (hlegal : e.Legal env fs)
    (htime : InTime env info past fs e) :
    AllSufficient env info (past ++ [e]) (e.apply env fs) := by
  intro chain state' id action hstate' hget hprocessor
  obtain ⟨state, hstate, ⟨hchain, rfl⟩ | ⟨hchain, rfl⟩⟩ := Effect.exists_of_get?_apply hstate'
  · cases actionChange hstate hchain hlegal hget with
    | same hold =>
      obtain ⟨set, happroved, hsufficient⟩ := h chain state id action hstate hold hprocessor
      exact ⟨set, happroved.append _, hsufficient⟩
    | emitted act payload hid haction => simp [haction] at hprocessor
    | approved old key signature hold haction =>
      subst haction
      obtain ⟨set, happroved, hsufficient⟩ := h chain state id old hstate hold hprocessor
      refine ⟨set, happroved.append _, ?_, ?_⟩
      · rw [old.signers_insert]
        exact hsufficient.enough.trans (Finset.card_le_card (Finset.subset_insert ..))
      · rw [old.signers_insert]
        exact Finset.insert_subset (htime set happroved) hsufficient.only
    | processorApproved old processor approvers hold hnone haction =>
      subst haction
      obtain ⟨enough, only⟩ := htime state old hstate hold
      exact ⟨fs.validatorSet,
        approvedUnder_concat.mpr (.inr ⟨processor, approvers, fs, rfl, htrace, rfl⟩), enough, only⟩
  · obtain ⟨set, happroved, hsufficient⟩ := h chain _ id action hstate hget hprocessor
    exact ⟨set, happroved.append _, hsufficient⟩

/-- A change that is followed by sufficient approvals was in time. -/
theorem inTime_of_allSufficient (htrace : (effects env).Trace (FrameworkState.new info) past fs)
    (hlegal : e.Legal env fs) (h : AllSufficient env info (past ++ [e]) (e.apply env fs)) :
    InTime env info past fs e := by
  have updated {chain : ExternalChain} {state : ChainState}
      (hstate : fs.chains.get? chain = some state) (hchain : e.chain? = some chain) :
      (e.apply env fs).chains.get? chain = some (e.updated env state) := by
    rw [Effect.get?_chains_apply, if_pos hchain, hstate]
    rfl
  cases e with
  | processorApprove chain id processor approvers =>
    intro state action hstate haction
    have hlog := ActionLog.of_trace htrace hstate
    obtain ⟨-, hfresh⟩ := hlog.fresh hstate hlegal rfl
    have hget : ((Effect.processorApprove chain id processor approvers).updated env
        state).pendingActions.get? id = some { action with processor := some processor } := by
      simp [Effect.updated, ChainState.updateAction, haction]
    obtain ⟨set, happroved, enough, only⟩ := h chain _ id _ (updated hstate rfl) hget rfl
    rcases approvedUnder_concat.mp happroved with hpast | ⟨_, _, t, -, ht, rfl⟩
    · exact absurd hpast (hfresh set)
    · rw [htrace.unique ht]
      exact ⟨enough, only⟩
  | approveAction chain id key signature =>
    intro set happroved
    have hlegal' := hlegal
    obtain ⟨-, state, action, payload, hstate, haction, -⟩ := hlegal'
    have hlog := ActionLog.of_trace htrace hstate
    have hprocessor : action.processor.isSome = true := by
      cases hnone : action.processor with
      | none => exact absurd happroved (hlog.unapproved haction hnone set)
      | some processor => rfl
    have hget : ((Effect.approveAction chain id key signature).updated env
        state).pendingActions.get? id =
        some { action with approvals := action.approvals.insert key signature } := by
      simp [Effect.updated, ChainState.updateAction, haction]
    obtain ⟨set', happroved', -, only⟩ := h chain _ id _ (updated hstate rfl) hget hprocessor
    obtain rfl := hlog.once happroved ((approvedUnder_other (by simp)).mp happroved')
    rw [action.signers_insert] at only
    exact only (Finset.mem_insert_self ..)
  | account | newEvent | attest | takeEvent | deploy | deposit | confirmAction | withdraw | emit
  | replaceValidator | propose | vote | enact | clearProposals => trivial

end

/-- In every run, after each change the pending actions that the processor approved have enough
approvals by the approvers of that moment and no others, exactly if the processor's approvals and
those after them were in time. -/
theorem submittable_iff {app : App} (self : Node app) (hreach : self.Reachable env) :
    (∀ past rest fs, self.history = past ++ rest →
      (effects env).Trace (FrameworkState.new app.genesisInfo) past fs →
      ∀ chain state id action, fs.chains.get? chain = some state →
        state.pendingActions.get? id = some action → action.processor.isSome = true →
        Submittable env app.genesisInfo past chain id action) ↔
    ∀ past e rest fs, self.history = past ++ e :: rest →
      (effects env).Trace (FrameworkState.new app.genesisInfo) past fs →
      InTime env app.genesisInfo past fs e := by
  have htrace := hreach.trace
  constructor
  · intro hall past e rest fs hhistory hpast
    rw [Node.HasTrace, hhistory] at htrace
    obtain ⟨t, ht, hlegal, -⟩ := htrace.at
    obtain rfl := hpast.unique ht
    have hlegal : e.Legal env fs := hlegal
    refine inTime_of_allSufficient hpast hlegal fun chain state id action hstate hget hsome => ?_
    exact (hall (past ++ [e]) rest _ (by simp [hhistory]) (hpast.concat hlegal) chain state id
      action hstate hget hsome).1
  · intro htime past rest fs hhistory hpast chain state id action hstate hget hsome
    have hall : AllSufficient env app.genesisInfo past fs := by
      refine hpast.history_induction (I := fun before fs => ∀ after, past = before ++ after →
        AllSufficient env app.genesisInfo before fs) ?_ ?_ [] (by simp)
      · intro after _ chain state id action hstate hget
        obtain ⟨config, -, rfl⟩ := Effect.exists_of_get?_new hstate
        cases hget
      · intro before e t ht hlegal ih after heq
        exact (ih (e :: after) (by simp [heq])).step ht hlegal
          (htime before e (after ++ rest) t (by simp [hhistory, heq]) ht)
    exact ⟨hall chain state id action hstate hget hsome,
      fun _ _ hkey => (ActionLog.of_trace hpast hstate).signed hget hkey⟩

end

/-! ## A run in time, and one that was not -/

namespace SubmittableSample

open Sample

/-- The approver's signature of the withdrawal. -/
def approval : SignedText where
  text := Json.cosmosPayload ⟨0, .cosmos [.bankSend "osmo1alice" [⟨"uosmo", 2000000⟩]]⟩
  signature := signature 0x5c35a968f908984033ba94040bbaefcf41d0e797576a0def43edbdbc5f36a281
  recoveryId := 0
  key := approver

/-- The processor's signature of the withdrawal. -/
def confirmation : SignedText where
  text := Json.cosmosPayload ⟨0, .cosmos [.bankSend "osmo1alice" [⟨"uosmo", 2000000⟩]]⟩
  signature := signature 0x68b8dc6b054f20e78879ced86eacd9bff747cac7ab165c784fdb1993017cb492
  recoveryId := 0
  key := processor

/-- The approver approves the withdrawal itself. -/
def approveTx : SignedTx where
  tx := ⟨approver, 0, [.approve .osmosisLocal 0 approval.signatureWithRecovery], none⟩
  s := 0x547ad16bc44d3e698c06627dde1a92d3072963a77c61650ce45be7b8094f80e0
  recoveryId := 1

/-- The processor brings the approver's signature along. -/
def confirmTx : SignedTx where
  tx := ⟨processor, 1, [.processorApprove .osmosisLocal 0 confirmation.signatureWithRecovery
    [approval.signatureWithRecovery]], none⟩
  s := 0x75d605baeb28635fe5c913d8c0f7cd2e9853eb697c841dea8b4ba06f8eb605ae
  recoveryId := 1

def txs : List SignedTx := [genesisTx, depositTx, withdrawTx, approveTx, confirmTx]

def table : List SignedText := approval :: confirmation :: txs.map SignedTx.text

theorem table_distinct : (table.map SignedText.signature).Nodup := by decide

theorem mem_table : ∀ t ∈ txs, t.text ∈ table := fun _ ht =>
  List.mem_cons_of_mem _ (List.mem_cons_of_mem _ (List.mem_map_of_mem ht))

def chain : Machine (Node (counter (info validators))) (Call (counter (info validators))) Error :=
  Node.machine (counterEnv table)

variable {env : Externals}

def isApproval : Effect → Bool
  | .approveAction .. => true
  | _ => false

/-- Each action that the processor approves has its approvals, and nobody approves any action
afterwards. -/
def timely (env : Externals) (fs : FrameworkState) : List Effect → Bool
  | [] => true
  | e :: es =>
    (match e with
      | .processorApprove chain id _ _ =>
        ((fs.chains.get? chain).bind (·.pendingActions.get? id)).all
          (·.Sufficient fs.validatorSet) && !es.any isApproval
      | _ => true) && timely env (e.apply env fs) es

theorem not_approval_of_timely {before after : List Effect} {chain : ExternalChain}
    {id : BridgeActionId} {signature : SignatureWithRecovery}
    {approvers : List SignatureWithRecovery} {fs : FrameworkState}
    (h : timely env fs (before ++ .processorApprove chain id signature approvers :: after) = true) :
    after.any isApproval = false := by
  induction before generalizing fs with
  | nil => simpa using (Bool.and_eq_true_iff.mp (Bool.and_eq_true_iff.mp h).1).2
  | cons e before ih => exact ih (Bool.and_eq_true_iff.mp h).2

theorem sufficient_of_timely {past rest : List Effect} {chain : ExternalChain}
    {id : BridgeActionId} {signature : SignatureWithRecovery}
    {approvers : List SignatureWithRecovery} {fs t : FrameworkState} {state : ChainState}
    {action : PendingBridgeAction}
    (h : timely env fs (past ++ .processorApprove chain id signature approvers :: rest) = true)
    (hpast : (effects env).Trace fs past t) (hstate : t.chains.get? chain = some state)
    (haction : state.pendingActions.get? id = some action) :
    action.Sufficient t.validatorSet := by
  induction hpast with
  | nil =>
    have hall := (Bool.and_eq_true_iff.mp (Bool.and_eq_true_iff.mp h).1).1
    rw [hstate, Option.bind_some, haction] at hall
    exact of_decide_eq_true hall
  | cons _ _ ih => exact ih (Bool.and_eq_true_iff.mp h).2 hstate

theorem inTime_of_timely {genesis : GenesisInfo} {past rest : List Effect} {e : Effect}
    {t : FrameworkState} (h : timely env (FrameworkState.new genesis) (past ++ e :: rest) = true)
    (hpast : (effects env).Trace (FrameworkState.new genesis) past t) :
    InTime env genesis past t e := by
  cases e with
  | processorApprove chain id signature approvers =>
    exact fun state action hstate haction => sufficient_of_timely h hpast hstate haction
  | approveAction chain id key signature =>
    rintro set ⟨before, processor, approvers, after, fs, rfl, -, -⟩
    rw [List.append_assoc, List.cons_append] at h
    have hnone := not_approval_of_timely h
    simp [isApproval] at hnone
  | account | newEvent | attest | takeEvent | deploy | deposit | confirmAction | withdraw | emit
  | replaceValidator | propose | vote | enact | clearProposals => trivial

end SubmittableSample

open Sample SubmittableSample in
/-- The approver approves the withdrawal, and then the processor does. -/
theorem submittable_iff_example :
    ∃ s state action, chain.steps (start validators) (calls validators txs) = .ok s ∧
      s.frameworkState.chains.get? .osmosisLocal = some state ∧
      state.pendingActions.get? 0 = some action ∧ action.processor.isSome = true ∧
      Submittable (counterEnv table) (info validators) s.history .osmosisLocal 0 action := by
  obtain ⟨s, hs, hp⟩ := exists_steps (start validators) (fun s =>
      ((s.frameworkState.chains.get? .osmosisLocal).bind (·.pendingActions.get? 0)).any
        (·.processor.isSome) &&
      timely (counterEnv table) (FrameworkState.new (info validators)) s.history)
    table_distinct mem_table (by decide +kernel)
  rw [Bool.and_eq_true, Option.any_eq_true] at hp
  obtain ⟨⟨action, hbind, hsome⟩, htimely⟩ := hp
  obtain ⟨state, hstate, haction⟩ := Option.bind_eq_some_iff.mp hbind
  have hreach := reachable validators_wellFormed hs
  refine ⟨s, state, action, hs, hstate, haction, hsome, ?_⟩
  refine (submittable_iff s hreach).mpr ?_ s.history [] _ (by simp) hreach.trace _ _ _ _ hstate
    haction hsome
  intro past e rest fs hhistory hpast
  rw [hhistory] at htimely
  exact inTime_of_timely htimely hpast

open Sample SubmittableSample in
/-- The processor approves a withdrawal with an approval that is not stored, and no approval is
stored for the action that will be submitted. -/
theorem submittable_iff_counterexample :
    Node.genesis (counter (info validators)) = .ok (start validators) ∧
    ∃ s state action,
      chain.steps (start validators)
        (calls validators [genesisTx, depositTx, withdrawTx, confirmTx]) = .ok s ∧
      s.frameworkState.chains.get? .osmosisLocal = some state ∧
      state.pendingActions.get? 0 = some action ∧ action.processor.isSome = true ∧
      action.signers = ∅ ∧ s.frameworkState.validatorSet.neededApprovers = 1 := by
  have hmem : ∀ t ∈ [genesisTx, depositTx, withdrawTx, confirmTx], t.text ∈ table :=
    fun t ht => mem_table t (by simp only [txs]; grind)
  obtain ⟨s, hs, hp⟩ := exists_steps (start validators) (fun s =>
      ((s.frameworkState.chains.get? .osmosisLocal).bind (·.pendingActions.get? 0)).any
        (fun action => action.processor.isSome && action.signers = ∅) &&
      s.frameworkState.validatorSet.neededApprovers = 1)
    table_distinct hmem (by decide +kernel)
  rw [Bool.and_eq_true, Option.any_eq_true, decide_eq_true_eq] at hp
  obtain ⟨⟨action, hbind, haction'⟩, hneeded⟩ := hp
  obtain ⟨state, hstate, haction⟩ := Option.bind_eq_some_iff.mp hbind
  rw [Bool.and_eq_true, decide_eq_true_eq] at haction'
  exact ⟨genesis_start validators_wellFormed, s, state, action, hs, hstate, haction, haction'.1,
    haction'.2, hneeded⟩

end Kolme
