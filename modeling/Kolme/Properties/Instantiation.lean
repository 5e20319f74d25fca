import Kolme.Components.Listener
import Kolme.Core.Counter

/-!
# Instantiated contracts

A listener checks a contract that is announced, but proposes that it is instantiated whatever the
outcome of the check. So what it proposes has been checked successfully only if every check that it
makes succeeds.
-/

namespace Kolme

open Except

section

variable (world : World) (info : GenesisInfo)

/-! ## What a check establishes -/

/-- The contract runs the expected code and stores the genesis set. -/
def Cosmos.Matches (contract : String) (codeId : U64) : Prop :=
  ∃ address state, world.cosmosAddress contract = .ok address ∧
    world.cosmosCodeId address = .ok codeId ∧ world.cosmosConfig address = .ok state ∧
    state.set = info.validatorSet

/-- The program is initialized and stores the genesis set. -/
def Solana.Matches (program : String) : Prop :=
  ∃ programId acc state, world.solanaPubkey program = .ok programId ∧
    world.solanaAccount (world.deriveStatePda programId) = .ok acc ∧
    acc.owner = programId ∧ 2 ≤ acc.data.length ∧
    Solana.stateCodec.decodeAll (acc.data.drop 2) = some state ∧ state.set = info.validatorSet

/-- The set that a contract stores as byte strings. -/
def Ethereum.readSet (set : Ethereum.ValidatorSet) :
    Except ListenerError Kolme.ValidatorSet := do
  let processor ← world.publicKeyFromBytes set.processor
  let listeners ← Ethereum.decodeValidatorKeys world set.listeners
  let approvers ← Ethereum.decodeValidatorKeys world set.approvers
  return ⟨processor, listeners, set.neededListeners, approvers, set.neededApprovers⟩

/-- There is code at the address, and it stores the genesis set. -/
def Ethereum.Matches (contract : String) : Prop :=
  ∃ address code config, world.ethereumAddress contract = .ok address ∧
    world.ethereumCode address = .ok code ∧ code ≠ [] ∧
    world.ethereumConfig address = .ok config ∧
    Ethereum.readSet world config.validatorSet = .ok info.validatorSet

/-- The contract is the one that the configuration of the chain asks for. -/
def Matches (config : ChainConfig) (chain : ExternalChain) (contract : String) : Prop :=
  match chain.name with
  | .cosmos => ∃ codeId, config.bridge = .neededCosmosBridge codeId ∧
      Cosmos.Matches world info contract codeId
  | .solana => Solana.Matches world info contract
  | .ethereum => Ethereum.Matches world info contract
  | .passThrough => False

/-- The proposal announces a contract that its chain asks for. -/
def Verified (proposal : Proposal) : Prop :=
  ∃ state contract, world.fs.chains.get? proposal.chain = some state ∧
    proposal.event = .instantiated contract ∧
    Matches world info state.config proposal.chain contract

variable {world info}

theorem ValidatorSet.eq_iff {a b : ValidatorSet} : a = b ↔
    a.processor = b.processor ∧ a.listeners = b.listeners ∧
      a.neededListeners = b.neededListeners ∧ a.approvers = b.approvers ∧
      a.neededApprovers = b.neededApprovers := by
  cases a
  cases b
  exact Iff.of_eq (mk.injEq ..)

theorem Cosmos.sanityCheckContract_eq_ok {contract : String} {codeId : U64} :
    Cosmos.sanityCheckContract world info contract codeId = .ok () ↔
      Cosmos.Matches world info contract codeId := by
  simp only [Cosmos.sanityCheckContract, bind_eq_ok, ensure_eq_ok, exists_unit, Cosmos.Matches]
  constructor
  · rintro ⟨address, haddress, actual, hactual, rfl, state, hconfig, hp, hl, hnl, ha, hna⟩
    exact ⟨address, state, haddress, hactual, hconfig,
      ValidatorSet.eq_iff.mpr ⟨hp.symm, hl, hnl, ha, hna⟩⟩
  · rintro ⟨address, state, haddress, hcode, hconfig, hset⟩
    exact ⟨address, haddress, codeId, hcode, rfl, state, hconfig, by simp [hset]⟩

theorem Solana.sanityCheckContract_eq_ok {program : String} :
    Solana.sanityCheckContract world info program = .ok () ↔
      Solana.Matches world info program := by
  simp only [Solana.sanityCheckContract, bind_eq_ok, ensure_eq_ok, fromOption_eq_ok, exists_unit,
    not_or, not_not, not_lt, Solana.Matches]
  constructor
  · rintro ⟨programId, hprogram, acc, hacc, ⟨howner, hlength⟩, state, hdecode, hp, hl, ha, hnl,
      hna⟩
    exact ⟨programId, acc, state, hprogram, hacc, howner, hlength, hdecode,
      ValidatorSet.eq_iff.mpr ⟨hp.symm, hl.symm, hnl.symm, ha.symm, hna.symm⟩⟩
  · rintro ⟨programId, acc, state, hprogram, hacc, howner, hlength, hdecode, hset⟩
    exact ⟨programId, hprogram, acc, hacc, ⟨howner, hlength⟩, state, hdecode, by simp [hset]⟩

theorem Ethereum.sanityCheckContract_eq_ok {contract : String} :
    Ethereum.sanityCheckContract world info contract = .ok () ↔
      Ethereum.Matches world info contract := by
  simp only [Ethereum.sanityCheckContract, Ethereum.readSet, bind_eq_ok, ensure_eq_ok, pure_eq_ok,
    exists_unit, ok.injEq, Ethereum.Matches]
  constructor
  · rintro ⟨address, haddress, code, hcode, hne, config, hconfig, _, hprocessor, rfl, _, hlisteners,
      rfl, hnl, _, happrovers, rfl, hna⟩
    exact ⟨address, code, config, haddress, hcode, hne, hconfig, _, hprocessor, _, hlisteners, _,
      happrovers, ValidatorSet.eq_iff.mpr ⟨rfl, rfl, hnl, rfl, hna⟩⟩
  · rintro ⟨address, code, config, haddress, hcode, hne, hconfig, processor, hprocessor, listeners,
      hlisteners, approvers, happrovers, hset⟩
    obtain ⟨hp, hl, hnl, ha, hna⟩ := ValidatorSet.eq_iff.mp hset
    exact ⟨address, haddress, code, hcode, hne, config, hconfig, processor, hprocessor, hp,
      listeners, hlisteners, hl, hnl, approvers, happrovers, ha, hna⟩

namespace Listener

/-- A check that is made succeeds exactly on the contract that the configuration asks for. -/
theorem checkContract_spec {config : ChainConfig} {chain : ExternalChain} {contract : String}
    {res : Except ListenerError Unit}
    (h : checkContract world info config chain contract = .ok res) :
    res = .ok () ↔ Matches world info config chain contract := by
  unfold checkContract at h
  unfold Matches
  cases hname : chain.name with
  | cosmos =>
    cases hbridge : config.bridge with
    | neededCosmosBridge codeId =>
      simp only [hname, hbridge, bind_eq_ok, exists_unit, ok_bind, pure_eq_ok, ok.injEq] at h
      obtain ⟨-, rfl⟩ := h
      rw [Cosmos.sanityCheckContract_eq_ok]
      simp
    | neededSolanaBridge | neededEthereumBridge | deployed =>
      simp [hname, hbridge, bind_eq_ok] at h
  | solana =>
    simp only [hname, pure_eq_ok, ok.injEq] at h
    exact h ▸ Solana.sanityCheckContract_eq_ok
  | ethereum =>
    simp only [hname, bind_eq_ok, exists_unit, pure_eq_ok, ok.injEq] at h
    exact h.2 ▸ Ethereum.sanityCheckContract_eq_ok
  | passThrough => simp [hname] at h

/-- The check of an announced contract, if the listener gets to it, succeeds. -/
def ChecksPass {M : Type} (info : GenesisInfo) (key : PublicKey) (name : ChainName)
    (entry : Message M × World) : Prop :=
  ∀ chain contract state res, entry.1 = .listener chain 0 (.instantiated contract) →
    chain.name = name → entry.2.fs.chains.get? chain = some state →
    getNextBridgeEventId state key = 0 → (∀ deployed, state.config.bridge ≠ .deployed deployed) →
    checkContract entry.2 info state.config chain contract = .ok res → res = .ok ()

/-- All proposals so far announce contracts that have been checked. -/
def AllVerified (info : GenesisInfo) (proposed : List Proposed) : Prop :=
  ∀ p ∈ proposed, Verified p.world info p.proposal

theorem keeps_proposeAwait {proposal : Proposal} (h : Verified world info proposal) :
    Exec.Keeps (AllVerified info) (proposeAwait world proposal) := by
  refine (Exec.keeps_modify fun proposed hall => ?_).bind fun _ => Exec.keeps_lift _
  intro p hp
  rcases List.mem_append.mp hp with hp | hp
  · exact hall p hp
  · obtain rfl := List.mem_singleton.mp hp
    exact h

theorem keeps_tryMessage {M : Type} {key : PublicKey} {name : ChainName}
    {entry : Message M × World} (h : ChecksPass info key name entry) :
    Exec.Keeps (AllVerified info) (tryMessage info key name entry) := by
  obtain ⟨message, world⟩ := entry
  unfold tryMessage
  split
  · rename_i chain eventId contract hmessage
    split
    · exact Exec.keeps_pure _
    · rename_i hguard
      rw [not_or, not_not, not_not] at hguard
      obtain ⟨hname, rfl⟩ := hguard
      refine Exec.keeps_lift_bind fun state hstate => ?_
      rw [fromOption_eq_ok] at hstate
      dsimp only
      split
      · exact Exec.keeps_pure _
      · rename_i hnext
        rw [not_not] at hnext
        split
        · exact Exec.keeps_lift (.error _)
        · rename_i hdeployed
          refine Exec.keeps_lift_bind fun res hres => keeps_proposeAwait ?_
          have hok := h chain contract state res hmessage hname hstate hnext hdeployed hres
          exact ⟨state, contract, hstate, rfl, (checkContract_spec hres).mp hok⟩
  · exact Exec.keeps_pure _

end Listener

/-- In every run of a listener in which the checks of announced contracts succeed, it proposes only
contracts that have been checked. -/
theorem instantiated_checked {M : Type} (info : GenesisInfo) (key : PublicKey) (name : ChainName)
    (rounds : List (Listener.Round M))
    (h : ∀ round ∈ rounds, ∀ entry ∈ round.messages, Listener.ChecksPass info key name entry) :
    ∀ p ∈ (Listener.waitForContracts info key name rounds []).2,
      Verified p.world info p.proposal := by
  suffices hkeeps : Exec.Keeps (Listener.AllVerified info)
      (Listener.waitForContracts info key name rounds) from hkeeps [] (by simp [Listener.AllVerified])
  induction rounds with
  | nil => exact Exec.keeps_pure _
  | cons round rounds ih =>
    rw [Listener.waitForContracts]
    split
    · exact Exec.keeps_pure _
    · have hround := h round (List.mem_cons_self ..)
      refine (Exec.keeps_forEach fun entry hentry =>
        Listener.keeps_tryMessage (hround entry hentry)).bind fun _ => ih ?_
      exact fun round' hmem => h round' (List.mem_cons_of_mem _ hmem)

end

namespace InstantiationSample

open Sample

/-- A Cosmos contract with the genesis set that runs the given code. -/
def world (codeId : U64) : World where
  fs := FrameworkState.new (info validators)
  getCosmos _ := .ok ()
  cosmosAddress := .ok
  cosmosCodeId _ := .ok codeId
  cosmosConfig _ := .ok ⟨validators, 1, 0⟩
  solanaPubkey text := .error (.outside text)
  deriveStatePda programId := programId
  solanaAccount _ := .error (.outside "account")
  getEthereumClient _ := .error (.outside "client")
  ethereumAddress text := .error (.outside text)
  ethereumCode _ := .error (.outside "code")
  ethereumConfig _ := .error (.outside "config")
  publicKeyFromBytes _ := .error (.outside "key")
  awaitTransaction _ := .ok ()

/-- The contract is announced once. -/
def announced (codeId : U64) : Listener.Round Unit where
  fs := FrameworkState.new (info validators)
  messages := [(.listener .osmosisLocal 0 (.instantiated "osmo1bridge"), world codeId)]

def proposal : Proposal := ⟨.osmosisLocal, 0, .instantiated "osmo1bridge"⟩

/-- What the listener proposes, and in which moments. -/
def proposed (codeId : U64) : List Listener.Proposed :=
  (Listener.waitForContracts (info validators) listener .cosmos [announced codeId] []).2

/-- The chain of the sample as it is configured. -/
theorem get?_osmosisLocal :
    (FrameworkState.new (info validators)).chains.get? .osmosisLocal = some bridge.intoState := by
  decide

theorem proposed_eq (codeId : U64) : proposed codeId = [⟨world codeId, proposal⟩] := by
  have hcontracts : Listener.getContracts (FrameworkState.new (info validators)) .cosmos = none := by
    decide
  have hstate : (world codeId).fs.chains.get? .osmosisLocal = some bridge.intoState :=
    get?_osmosisLocal
  simp only [proposed, Listener.waitForContracts, announced, hcontracts, Exec.forEach,
    Listener.tryMessage, Listener.tryNewContract, hstate]
  rfl

end InstantiationSample

open Sample InstantiationSample in
/-- The announced contract runs the code that the chain asks for. -/
theorem instantiated_checked_example :
    (proposed 1).map (·.proposal) = [proposal] ∧
      ∀ p ∈ proposed 1, Verified p.world (info validators) p.proposal := by
  refine ⟨by rw [proposed_eq]; rfl,
    instantiated_checked (info validators) listener .cosmos [announced 1] ?_⟩
  intro round hround entry hentry chain contract state res hmessage hname hstate _ _ hcheck
  obtain rfl := List.mem_singleton.mp hround
  obtain rfl := List.mem_singleton.mp hentry
  obtain ⟨rfl, rfl⟩ : _ ∧ _ := by simpa using hmessage
  obtain rfl := Option.some.inj (get?_osmosisLocal.symm.trans hstate)
  exact (ok.inj hcheck).symm

open Sample InstantiationSample in
/-- The announced contract runs other code, and is proposed as instantiated all the same. -/
theorem instantiated_checked_counterexample :
    ∃ p ∈ proposed 2, p.proposal = proposal ∧
      Cosmos.sanityCheckContract p.world (info validators) "osmo1bridge" 1 =
        .error (.codeIdMismatch 1 2 "osmo1bridge") ∧
      ¬Verified p.world (info validators) p.proposal := by
  refine ⟨⟨world 2, proposal⟩, by rw [proposed_eq]; exact List.mem_singleton_self _, rfl, rfl, ?_⟩
  rintro ⟨state, contract, hstate, -, codeId, hbridge, _, _, -, hcode, -⟩
  obtain rfl := Option.some.inj (get?_osmosisLocal.symm.trans hstate)
  obtain rfl := BridgeContract.neededCosmosBridge.inj hbridge
  exact absurd (ok.inj hcode) (by decide)

end Kolme
