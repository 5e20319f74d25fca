import Kolme.Components.Submitter

/-!
# Progress of the submitter

One call submits the first pending action of a chain exactly if no contract is needed and the first
chain with a pending action is one whose action may be submitted. A chain further down the list
waits for it.
-/

namespace Kolme

open Exec

/-! ## What is submitted -/

namespace ClientCall

/-- The call executes an action of a chain at its contract. -/
def Executes (chain : ExternalChain) (contract : String) (processor : SignatureWithRecovery)
    (action : PendingBridgeAction) : ClientCall → Prop
  | cosmosExecute cosmos _ contract' processor' approvals payload =>
    cosmos.toExternalChain = chain ∧ contract' = contract ∧ processor' = processor ∧
      approvals = action.approvals ∧ payload = action.payload
  | solanaExecute client _ programId processor' approvals payload _ =>
    client.toExternalChain = chain ∧ programId = contract ∧ processor' = processor ∧
      approvals = action.approvals ∧ payload = action.payload
  | ethereumExecute ethereum _ contract' processor' approvals payload =>
    ethereum.toExternalChain = chain ∧ contract' = contract ∧ processor' = processor ∧
      approvals = action.approvals ∧ payload = action.payload
  -- The contract of this chain is the server at the port.
  | passThroughExecute _ processor' approvals payload =>
    chain = .passThrough ∧ processor' = processor ∧ approvals = action.approvals ∧
      payload = action.payload
  | cosmosInstantiate .. | solanaInstantiate .. | ethereumInstantiate .. => False

/-- The call executes some action. -/
def isExecute : ClientCall → Bool
  | cosmosExecute .. | solanaExecute .. | ethereumExecute .. | passThroughExecute .. => true
  | cosmosInstantiate .. | solanaInstantiate .. | ethereumInstantiate .. => false

theorem Executes.isExecute {chain : ExternalChain} {contract : String}
    {processor : SignatureWithRecovery} {action : PendingBridgeAction} {request : ClientCall}
    (h : request.Executes chain contract processor action) : request.isExecute = true := by
  cases request with
  | cosmosInstantiate | solanaInstantiate | ethereumInstantiate => exact h.elim
  | cosmosExecute | solanaExecute | ethereumExecute | passThroughExecute => rfl

end ClientCall

namespace ExternalChain

theorem toCosmosChain_eq_some {chain : ExternalChain} {cosmos : CosmosChain}
    (h : chain.toCosmosChain = some cosmos) : cosmos.toExternalChain = chain := by
  cases chain <;> first | cases h; rfl | cases h

theorem toSolanaChain_eq_some {chain : ExternalChain} {solana : SolanaChain}
    (h : chain.toSolanaChain = some solana) : solana.toExternalChain = chain := by
  cases chain <;> first | cases h; rfl | cases h

theorem toEthereumChain_eq_some {chain : ExternalChain} {ethereum : EthereumChain}
    (h : chain.toEthereumChain = some ethereum) : ethereum.toExternalChain = chain := by
  cases chain <;> first | cases h; rfl | cases h

end ExternalChain

namespace Submitter

variable {client : ClientCall → Except Error String} {fs : FrameworkState} {s : Submitter}
  {chain : ExternalChain} {chains : List ExternalChain} {actionId : BridgeActionId}
  {action : PendingBridgeAction} {contract : String} {processor : SignatureWithRecovery}

/-- The contract of the chain is deployed, and its first pending action is signed by the processor
and was not submitted. -/
structure Ready (fs : FrameworkState) (s : Submitter) (chain : ExternalChain)
    (actionId : BridgeActionId) (action : PendingBridgeAction) (contract : String)
    (processor : SignatureWithRecovery) : Prop where
  first : ∃ state, fs.chains.get? chain = some state ∧
    state.pendingActions.first? = some (actionId, action) ∧
    state.config.bridge = .deployed contract
  signed : action.processor = some processor
  fresh : ∀ last, s.lastSubmitted.get? chain = some last → last < actionId

def CanSubmit (fs : FrameworkState) (s : Submitter) (chain : ExternalChain) : Prop :=
  ∃ actionId action contract processor, Ready fs s chain actionId action contract processor

/-- The first chain with a pending action is one that can submit it. -/
def NextReady (fs : FrameworkState) (s : Submitter) : List ExternalChain → Prop
  | [] => False
  | chain :: chains => CanSubmit fs s chain ∨
    (∃ state, fs.chains.get? chain = some state ∧ state.pendingActions.first? = none) ∧
      NextReady fs s chains

/-- One more call was made, which executes the first pending action of a chain that was ready. -/
def Submits (fs : FrameworkState) (chains : List ExternalChain) (s s' : Submitter) : Prop :=
  ∃ chain ∈ chains, ∃ actionId action contract processor request,
    Ready fs s chain actionId action contract processor ∧
      request.Executes chain contract processor action ∧ s'.calls = s.calls ++ [request]

/-! ## One chain -/

theorem Ready.not_alreadySubmitted (h : Ready fs s chain actionId action contract processor) :
    s.alreadySubmitted chain actionId = false := by
  rw [alreadySubmitted]
  split
  · rename_i last hlast
    exact decide_eq_false (Nat.not_le.mpr (h.fresh last hlast))
  · rfl

theorem fresh_of_not_alreadySubmitted (h : s.alreadySubmitted chain actionId = false) :
    ∀ last, s.lastSubmitted.get? chain = some last → last < actionId := by
  intro last hlast
  simp only [alreadySubmitted, hlast] at h
  exact Nat.not_le.mp (of_decide_eq_false h)

/-- A chain that is handled has a call that executes its actions. -/
theorem exists_executeCall {args : ChainArgs} (h : args.canHandle chain = true) (contract : String)
    (processor : SignatureWithRecovery) (action : PendingBridgeAction) :
    ∃ request, executeCall args chain contract processor action.approvals action.payload =
        .ok (some request) ∧ request.Executes chain contract processor action := by
  cases args with
  | cosmos seedPhrase =>
    obtain ⟨cosmosChain, hchain⟩ := Option.isSome_iff_exists.mp h
    refine ⟨_, by rw [executeCall, hchain]; rfl, ?_⟩
    exact ⟨ExternalChain.toCosmosChain_eq_some hchain, rfl, rfl, rfl, rfl⟩
  | solana keypair feePerCu =>
    obtain ⟨solanaChain, hchain⟩ := Option.isSome_iff_exists.mp h
    refine ⟨_, by rw [executeCall, hchain]; rfl, ?_⟩
    exact ⟨ExternalChain.toSolanaChain_eq_some hchain, rfl, rfl, rfl, rfl⟩
  | ethereum signer =>
    obtain ⟨ethereumChain, hchain⟩ := Option.isSome_iff_exists.mp h
    refine ⟨_, by rw [executeCall, hchain]; rfl, ?_⟩
    exact ⟨ExternalChain.toEthereumChain_eq_some hchain, rfl, rfl, rfl, rfl⟩
  | passThrough port =>
    obtain rfl := of_decide_eq_true h
    exact ⟨_, rfl, rfl, rfl, rfl, rfl⟩

/-- An action that is ready is submitted. -/
theorem handleBridgeAction_ready (h : Ready fs s chain actionId action contract processor)
    (hhandle : s.args.canHandle chain = true) :
    ∃ request, request.Executes chain contract processor action ∧
      (handleBridgeAction client fs actionId chain action s).2.calls = s.calls ++ [request] := by
  obtain ⟨state, hstate, -, hbridge⟩ := h.first
  obtain ⟨request, hrequest, hexecutes⟩ := exists_executeCall hhandle contract processor action
  have hchain : fs.getChain chain = .ok state := by rw [FrameworkState.getChain, hstate]; rfl
  refine ⟨request, hexecutes, ?_⟩
  rw [handleBridgeAction, h.signed]
  simp only [get_bind, h.not_alreadySubmitted, Bool.false_eq_true, if_false]
  rw [bind_of_ok (lift_eq_ok.mpr ⟨hchain, rfl⟩), hbridge]
  simp only
  rw [bind_of_ok (lift_eq_ok.mpr ⟨hrequest, rfl⟩)]
  simp only
  cases hclient : client request with
  | ok txHash =>
    have hcall : call client request s = (.ok txHash, { s with calls := s.calls ++ [request] }) :=
      congrArg (·, _) hclient
    rw [bind_of_ok hcall]
    rfl
  | error e =>
    have hcall : call client request s = (.error e, { s with calls := s.calls ++ [request] }) :=
      congrArg (·, _) hclient
    rw [bind_of_error hcall]

/-- Nothing is asked of a client unless the action is ready. -/
theorem handleBridgeAction_calls {state : ChainState} (hstate : fs.chains.get? chain = some state)
    (hfirst : state.pendingActions.first? = some (actionId, action)) :
    CanSubmit fs s chain ∨
      (handleBridgeAction client fs actionId chain action s).2.calls = s.calls := by
  have hchain : fs.getChain chain = .ok state := by rw [FrameworkState.getChain, hstate]; rfl
  rw [handleBridgeAction]
  cases hsigned : action.processor with
  | none => exact .inr rfl
  | some processor =>
    simp only [get_bind]
    cases hfresh : s.alreadySubmitted chain actionId with
    | true => exact .inr rfl
    | false =>
      simp only [Bool.false_eq_true, if_false]
      rw [bind_of_ok (lift_eq_ok.mpr ⟨hchain, rfl⟩)]
      cases hbridge : state.config.bridge with
      | neededCosmosBridge | neededSolanaBridge | neededEthereumBridge => exact .inr rfl
      | deployed contract =>
        exact .inl ⟨actionId, action, contract, processor, ⟨state, hstate, hfirst, hbridge⟩,
          hsigned, fresh_of_not_alreadySubmitted hfresh⟩

/-! ## All chains -/

theorem getNextBridgeAction_eq {state : ChainState} (hstate : fs.chains.get? chain = some state) :
    fs.getNextBridgeAction chain = .ok state.pendingActions.first? := by
  rw [FrameworkState.getNextBridgeAction, FrameworkState.getChain, hstate]
  rfl

/-- The loop submits the action of the first chain that has one, if it is ready. -/
theorem submitNext_ready (hhandle : ∀ chain ∈ chains, s.args.canHandle chain = true)
    (h : NextReady fs s chains) : Submits fs chains s (submitNext client fs chains s).2 := by
  induction chains with
  | nil => exact h.elim
  | cons chain chains ih =>
    rcases h with ⟨actionId, action, contract, processor, hready⟩ | ⟨⟨state, hstate, hnone⟩, h⟩
    · obtain ⟨state, hstate, hfirst, -⟩ := hready.first
      obtain ⟨request, hexecutes, hcalls⟩ :=
        handleBridgeAction_ready hready (hhandle chain List.mem_cons_self)
      refine ⟨chain, List.mem_cons_self, actionId, action, contract, processor, request, hready,
        hexecutes, ?_⟩
      rw [submitNext, bind_of_ok (lift_eq_ok.mpr ⟨getNextBridgeAction_eq hstate, rfl⟩), hfirst]
      exact hcalls
    · obtain ⟨chain', hmem, hrest⟩ := ih (fun c hc => hhandle c (List.mem_cons_of_mem _ hc)) h
      rw [submitNext, bind_of_ok (lift_eq_ok.mpr ⟨getNextBridgeAction_eq hstate, rfl⟩), hnone]
      exact ⟨chain', List.mem_cons_of_mem _ hmem, hrest⟩

/-- Otherwise the loop asks nothing of a client. -/
theorem submitNext_calls (chains : List ExternalChain) :
    NextReady fs s chains ∨ (submitNext client fs chains s).2.calls = s.calls := by
  induction chains with
  | nil => exact .inr rfl
  | cons chain chains ih =>
    cases hstate : fs.chains.get? chain with
    | none =>
      refine .inr ?_
      have herror : fs.getNextBridgeAction chain =
          .error (.coreState (.chainNotSupported chain)) := by
        rw [FrameworkState.getNextBridgeAction, FrameworkState.getChain, hstate]
        rfl
      rw [submitNext, bind_of_error (lift_eq_error.mpr ⟨herror, rfl⟩)]
    | some state =>
      rw [submitNext, bind_of_ok (lift_eq_ok.mpr ⟨getNextBridgeAction_eq hstate, rfl⟩)]
      cases hfirst : state.pendingActions.first? with
      | none => exact ih.imp_left fun h => .inr ⟨⟨state, hstate, hfirst⟩, h⟩
      | some entry => exact (handleBridgeAction_calls hstate hfirst).imp_left .inl

/-! ## Contracts that are needed -/

theorem nextGenesisAction_eq_none {set : ValidatorSet} {l : List (ExternalChain × ChainState)} :
    FrameworkState.nextGenesisAction set l = .ok none ↔
      ∀ entry ∈ l, ∃ contract, entry.2.config.bridge = .deployed contract := by
  have panics {α : Type} {o : Option α} {f : α → GenesisAction} :
      (do return some (f (← Except.fromOption .panic o)) : Except Error _) ≠ .ok none := by
    cases o <;> exact fun h => by cases h
  induction l with
  | nil => exact iff_of_true rfl (List.forall_mem_nil _)
  | cons entry l ih =>
    obtain ⟨chain, state⟩ := entry
    rw [FrameworkState.nextGenesisAction, List.forall_mem_cons]
    cases hbridge : state.config.bridge with
    | neededCosmosBridge | neededSolanaBridge | neededEthereumBridge =>
      exact iff_of_false panics fun h => by cases h.1 with | intro _ h => cases h
    | deployed contract => simp only [ih, BridgeContract.deployed.injEq, exists_eq', true_and]

/-- Every configured chain has its contract. -/
def AllDeployed (fs : FrameworkState) : Prop :=
  ∀ chain state, fs.chains.get? chain = some state →
    ∃ contract, state.config.bridge = .deployed contract

theorem getNextGenesisAction_eq_none :
    fs.getNextGenesisAction = .ok none ↔ AllDeployed fs := by
  rw [FrameworkState.getNextGenesisAction, nextGenesisAction_eq_none]
  exact ⟨fun h chain state hstate => h (chain, state) (SortedMap.get?_eq_some.mp hstate),
    fun h entry hentry => h entry.1 entry.2 (SortedMap.get?_eq_some.mpr hentry)⟩

/-- Creating contracts executes no action. -/
theorem keeps_handleGenesis (l : List ClientCall) (genesisAction : GenesisAction) :
    Keeps (fun s => s.calls.filter ClientCall.isExecute = l)
      (handleGenesis client genesisAction) := by
  have keeps_instantiateOnce {chain : ExternalChain} {request : ClientCall}
      {contract : String → String} (h : request.isExecute = false) :
      Keeps (fun s => s.calls.filter ClientCall.isExecute = l)
        (instantiateOnce client chain request contract) := by
    refine keeps_get.bind fun self => keeps_ite (fun _ => keeps_pure ()) fun _ => ?_
    refine Keeps.bind (fun s hs => ?_) fun addr => keeps_modify fun s hs => hs
    simp only [call, List.filter_append, hs, List.filter_cons, h, Bool.false_eq_true, if_false,
      List.filter_nil, List.append_nil]
  refine keeps_get.bind fun self => ?_
  split
  · exact keeps_instantiateOnce rfl
  · exact keeps_instantiateOnce rfl
  · exact keeps_instantiateOnce rfl
  · exact keeps_pure ()

/-! ## One call -/

/-- If some chain that is handled can submit its first action, one call submits such an action if
and only if no chain needs a contract and the first chain with a pending action can submit it. -/
theorem submitZeroOrOne_iff (client : ClientCall → Except Error String) (fs : FrameworkState)
    (s : Submitter) (chains : List ExternalChain)
    (hhandle : ∀ chain ∈ chains, s.args.canHandle chain = true) :
    ((∃ chain ∈ chains, CanSubmit fs s chain) →
      Submits fs chains s (submitZeroOrOne client fs chains s).2) ↔
    ((∃ chain ∈ chains, CanSubmit fs s chain) → AllDeployed fs ∧ NextReady fs s chains) := by
  refine imp_congr_right fun _ => ⟨fun h => ?_, fun ⟨hdeployed, hready⟩ => ?_⟩
  · obtain ⟨chain, -, actionId, action, contract, processor, request, -, hexecutes, hcalls⟩ := h
    have hne : (submitZeroOrOne client fs chains s).2.calls.filter ClientCall.isExecute ≠
        s.calls.filter ClientCall.isExecute := by
      rw [hcalls, List.filter_append, List.filter_cons, if_pos hexecutes.isExecute]
      simp
    cases hgenesis : fs.getNextGenesisAction with
    | error e =>
      rw [submitZeroOrOne, bind_of_error (lift_eq_error.mpr ⟨hgenesis, rfl⟩)] at hne
      exact absurd rfl hne
    | ok genesisAction =>
      rw [submitZeroOrOne, bind_of_ok (lift_eq_ok.mpr ⟨hgenesis, rfl⟩)] at hne
      cases genesisAction with
      | some genesisAction => exact absurd (keeps_handleGenesis _ genesisAction s rfl) hne
      | none =>
        refine ⟨getNextGenesisAction_eq_none.mp hgenesis, ?_⟩
        exact (submitNext_calls chains).resolve_right fun h => hne (congrArg _ h)
  · rw [submitZeroOrOne,
      bind_of_ok (lift_eq_ok.mpr ⟨getNextGenesisAction_eq_none.mpr hdeployed, rfl⟩)]
    exact submitNext_ready hhandle hready

end Submitter

namespace SubmitterSample

open Submitter

def chainState (bridge : BridgeContract) (processor : Option SignatureWithRecovery) :
    ChainState where
  config := ⟨∅, bridge⟩
  nextActionId := 1
  pendingActions := (∅ : SortedMap BridgeActionId _).insert 0 ⟨"payload", ∅, processor⟩
  nextEventId := 0
  pendingEvents := ∅
  assets := ∅

def frameworkState (chains : SortedMap ExternalChain ChainState) : FrameworkState :=
  ⟨⟨1, {1}, 1, {1}, 1⟩, chains, ⟨∅, ∅, ∅⟩, ⟨0, ∅⟩, ""⟩

/-- The processor has signed the action of Neutron, but not the one of Osmosis. -/
def oneSigned : FrameworkState :=
  frameworkState (((∅ : SortedMap ExternalChain _).insert .neutronTestnet
    (chainState (.deployed "neutron") (some ⟨1, 0⟩))).insert .osmosisTestnet
    (chainState (.deployed "osmosis") none))

/-- The contract of Solana is needed, which is left to another submitter. -/
def oneNeeded : FrameworkState :=
  frameworkState (((∅ : SortedMap ExternalChain _).insert .neutronTestnet
    (chainState (.deployed "neutron") (some ⟨1, 0⟩))).insert .solanaTestnet
    (chainState (.neededSolanaBridge "program") none))

def submitter : Submitter := ⟨.cosmos "seed", ∅, ∅, []⟩

def client : ClientCall → Except Error String := fun _ => .ok "hash"

theorem ready_oneSigned : Ready oneSigned submitter .neutronTestnet 0
    ⟨"payload", ∅, some ⟨1, 0⟩⟩ "neutron" ⟨1, 0⟩ :=
  ⟨⟨_, rfl, rfl, rfl⟩, rfl, nofun⟩

theorem ready_oneNeeded : Ready oneNeeded submitter .neutronTestnet 0
    ⟨"payload", ∅, some ⟨1, 0⟩⟩ "neutron" ⟨1, 0⟩ :=
  ⟨⟨_, rfl, rfl, rfl⟩, rfl, nofun⟩

end SubmitterSample

open SubmitterSample in
theorem Submitter.submitZeroOrOne_iff_example :
    ((∃ chain ∈ [ExternalChain.neutronTestnet, .osmosisTestnet],
        CanSubmit oneSigned submitter chain) →
      Submits oneSigned [.neutronTestnet, .osmosisTestnet] submitter
        (submitZeroOrOne client oneSigned [.neutronTestnet, .osmosisTestnet] submitter).2) ∧
      Submits oneSigned [.neutronTestnet, .osmosisTestnet] submitter
        (submitZeroOrOne client oneSigned [.neutronTestnet, .osmosisTestnet] submitter).2 := by
  have hsubmits := (submitZeroOrOne_iff client oneSigned submitter
    [.neutronTestnet, .osmosisTestnet] (by decide)).mpr fun _ =>
      ⟨getNextGenesisAction_eq_none.mp rfl, .inl ⟨_, _, _, _, ready_oneSigned⟩⟩
  exact ⟨hsubmits, hsubmits ⟨_, List.mem_cons_self, _, _, _, _, ready_oneSigned⟩⟩

open SubmitterSample in
/-- Neutron waits for the approval of an action of Osmosis, or for a contract of Solana. -/
theorem Submitter.submitZeroOrOne_fails :
    (CanSubmit oneSigned submitter .neutronTestnet ∧
      (submitZeroOrOne client oneSigned [.osmosisTestnet, .neutronTestnet] submitter).2.calls = [] ∧
      ¬Submits oneSigned [.osmosisTestnet, .neutronTestnet] submitter
        (submitZeroOrOne client oneSigned [.osmosisTestnet, .neutronTestnet] submitter).2) ∧
    CanSubmit oneNeeded submitter .neutronTestnet ∧
      (submitZeroOrOne client oneNeeded [.neutronTestnet] submitter).2.calls = [] ∧
      ¬Submits oneNeeded [.neutronTestnet] submitter
        (submitZeroOrOne client oneNeeded [.neutronTestnet] submitter).2 := by
  have hsigned :
      (submitZeroOrOne client oneSigned [.osmosisTestnet, .neutronTestnet] submitter).2.calls =
        [] := rfl
  have hneeded : (submitZeroOrOne client oneNeeded [.neutronTestnet] submitter).2.calls = [] := rfl
  refine ⟨⟨⟨_, _, _, _, ready_oneSigned⟩, hsigned, ?_⟩, ⟨_, _, _, _, ready_oneNeeded⟩, hneeded, ?_⟩
  · rintro ⟨-, -, -, -, -, -, request, -, -, hcalls⟩
    cases hsigned.symm.trans hcalls
  · rintro ⟨-, -, -, -, -, -, request, -, -, hcalls⟩
    cases hneeded.symm.trans hcalls

end Kolme
