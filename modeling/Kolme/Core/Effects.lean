import Kolme.Core.Execute
import Kolme.Lib.Trace

/-!
# What a transaction does to the framework state

Every elementary change is made under the conditions that `Effect.Legal` lists, and every message
makes its changes in blocks that `Message.Block` lists. A successful transaction is a trace of
legal changes, first the use of the nonce and then the blocks of its messages; the history of a
reachable node is a trace from the genesis state. Invariants of runs are proved change by change.
-/

namespace Kolme

/-- The assets configured on each chain. -/
abbrev AssetConfigs := ExternalChain → Option (SortedMap AssetName AssetConfig)

namespace FrameworkState

/-- The assets configured on each chain, which never change. -/
def assetConfigs (self : FrameworkState) : AssetConfigs := fun chain =>
  (self.chains.get? chain).map (·.config.assets)

theorem updateChain_of_get? {fs : FrameworkState} {chain : ExternalChain} {state : ChainState}
    (h : fs.chains.get? chain = some state) (f : ChainState → ChainState) :
    fs.updateChain chain f = { fs with chains := fs.chains.insert chain (f state) } := by
  simp [updateChain, h]

/-- The chains after a change of one of them. -/
theorem get?_updateChain (fs : FrameworkState) (chain c : ExternalChain)
    (f : ChainState → ChainState) :
    (fs.updateChain chain f).chains.get? c =
      if c = chain then (fs.chains.get? c).map f else fs.chains.get? c := by
  cases h : fs.chains.get? chain with
  | none =>
    split
    · rename_i hc
      simp [updateChain, h, hc]
    · simp [updateChain, h]
  | some state =>
    rw [updateChain_of_get? h]
    split
    · rename_i hc
      simp [hc, h]
    · rename_i hc
      rw [SortedMap.get?_insert_of_ne hc]

@[simp] theorem accounts_updateChain (fs : FrameworkState) (chain : ExternalChain)
    (f : ChainState → ChainState) : (fs.updateChain chain f).accounts = fs.accounts := by
  unfold updateChain
  split <;> rfl

@[simp] theorem validatorSet_updateChain (fs : FrameworkState) (chain : ExternalChain)
    (f : ChainState → ChainState) :
    (fs.updateChain chain f).validatorSet = fs.validatorSet := by
  unfold updateChain
  split <;> rfl

@[simp] theorem adminProposalState_updateChain (fs : FrameworkState) (chain : ExternalChain)
    (f : ChainState → ChainState) :
    (fs.updateChain chain f).adminProposalState = fs.adminProposalState := by
  unfold updateChain
  split <;> rfl

@[simp] theorem version_updateChain (fs : FrameworkState) (chain : ExternalChain)
    (f : ChainState → ChainState) : (fs.updateChain chain f).version = fs.version := by
  unfold updateChain
  split <;> rfl

theorem assetConfigs_updateChain {f : ChainState → ChainState}
    (hf : ∀ state, (f state).config.assets = state.config.assets) (fs : FrameworkState)
    (chain : ExternalChain) : (fs.updateChain chain f).assetConfigs = fs.assetConfigs := by
  funext c
  simp only [assetConfigs, get?_updateChain]
  split
  · simp [Option.map_map, Function.comp_def, hf]
  · rfl

end FrameworkState

variable (env : Externals)

namespace Effect

/-- The conditions under which a change is made. -/
def Legal (fs : FrameworkState) : Effect → Prop
  | account op id => (op.run env.arith fs.accounts).1 = .ok id
  | newEvent chain _ => ∃ state, fs.chains.get? chain = some state ∧
      state.pendingEvents.get? state.nextEventId = none
  | attest chain eventId event key => key ∈ fs.validatorSet.listeners ∧
      ∃ state pending, fs.chains.get? chain = some state ∧
        state.pendingEvents.get? eventId = some pending ∧ pending.event = event ∧
        key ∉ pending.attestations
  | takeEvent chain eventId event => fs.getNextReadyEvent chain = .ok (some eventId) ∧
      ∃ state pending, fs.chains.get? chain = some state ∧
        state.pendingEvents.get? eventId = some pending ∧ pending.event = event
  | deploy chain _ => ∃ state, fs.chains.get? chain = some state ∧
      ∀ contract, state.config.bridge ≠ .deployed contract
  | deposit chain assetId amount => ∃ state state', fs.chains.get? chain = some state ∧
      state.deposit env.arith assetId amount = .ok state'
  | confirmAction chain actionId => ∃ state action, fs.chains.get? chain = some state ∧
      state.pendingActions.first? = some (actionId, action)
  | approveAction chain actionId key signature => key ∈ fs.validatorSet.approvers ∧
      ∃ state action payload, fs.chains.get? chain = some state ∧
        state.pendingActions.get? actionId = some action ∧
        action.payloadBytesToSign env chain = .ok payload ∧
        signature.validate env payload = .ok key ∧ action.approvals.get? key = none
  | processorApprove chain actionId processor approvers =>
      fs.validatorSet.neededApprovers.val ≤ approvers.length ∧
      ∃ state action payload checked, fs.chains.get? chain = some state ∧
        state.pendingActions.get? actionId = some action ∧ action.processor = none ∧
        action.payloadBytesToSign env chain = .ok payload ∧
        processor.validate env payload = .ok fs.validatorSet.processor ∧
        ExecutionContext.checkApprovers env payload fs.validatorSet.approvers approvers =
          .ok checked ∧ approvers.length = checked.card
  | withdraw chain assetId amount => ∃ state state', fs.chains.get? chain = some state ∧
      state.withdraw env.arith assetId amount = .ok state'
  | emit chain action payload => ∃ state, fs.chains.get? chain = some state ∧
      action.toPayload env chain state.config state.nextActionId = .ok payload
  | replaceValidator signed signer => signed.verifySignature env = .ok signer ∧
      ExecutionContext.holdsRole fs.validatorSet signed.message.value.validatorType signer = true
  | propose payload key signature =>
      (key = fs.validatorSet.processor ∨ key ∈ fs.validatorSet.listeners ∨
        key ∈ fs.validatorSet.approvers) ∧
      signature.validate env payload.serialized.toByteArray = .ok key ∧
      fs.adminProposalState.proposals.find? (fun existing => existing.payload.same payload) =
        none ∧
      ∀ set, payload = .newSet set → set.value.WellFormed
  | vote id key signature =>
      (key = fs.validatorSet.processor ∨ key ∈ fs.validatorSet.listeners ∨
        key ∈ fs.validatorSet.approvers) ∧
      ∃ pending, fs.adminProposalState.proposals.get? id = some pending ∧
        signature.validate env pending.payload.serialized.toByteArray = .ok key ∧
        pending.approvals.get? key = none
  | enact id payload => ∃ approvals, fs.findApprovedProposal = some (id, ⟨payload, approvals⟩)
  | clearProposals => True

end Effect

/-- The framework state under legal changes. -/
def effects : Labelled FrameworkState Effect := ⟨Effect.Legal env, Effect.apply env⟩

namespace Effect

variable {env}

theorem config_deposit {ar : Arith} {state state' : ChainState} {assetId : AssetId}
    {amount : Decimal} (h : state.deposit ar assetId amount = .ok state') :
    state'.config = state.config := by
  simp only [ChainState.deposit, Except.bind_eq_ok, Except.pure_eq_ok, Except.ok.injEq] at h
  obtain ⟨_, -, rfl⟩ := h
  rfl

theorem config_withdraw {ar : Arith} {state state' : ChainState} {assetId : AssetId}
    {amount : Decimal} (h : state.withdraw ar assetId amount = .ok state') :
    state'.config = state.config := by
  simp only [ChainState.withdraw, Except.bind_eq_ok, Except.pure_eq_ok, Except.ok.injEq] at h
  obtain ⟨_, -, rfl⟩ := h
  rfl

/-- No change touches the assets configured on a chain. -/
theorem assetConfigs_apply (fs : FrameworkState) (e : Effect) :
    (e.apply env fs).assetConfigs = fs.assetConfigs := by
  cases e with
  | account | replaceValidator | propose | vote | clearProposals => rfl
  | enact id payload => cases payload <;> rfl
  | newEvent | takeEvent | deploy | confirmAction | emit =>
    refine FrameworkState.assetConfigs_updateChain (fun state => ?_) _ _
    rfl
  | attest chain eventId event key =>
    refine FrameworkState.assetConfigs_updateChain (fun state => ?_) _ _
    unfold ChainState.attest
    split <;> rfl
  | approveAction | processorApprove =>
    refine FrameworkState.assetConfigs_updateChain (fun state => ?_) _ _
    unfold ChainState.updateAction
    split <;> rfl
  | deposit chain assetId amount =>
    refine FrameworkState.assetConfigs_updateChain (fun state => ?_) _ _
    cases h : state.deposit env.arith assetId amount with
    | error e => rfl
    | ok state' => exact congrArg _ (config_deposit h)
  | withdraw chain assetId amount =>
    refine FrameworkState.assetConfigs_updateChain (fun state => ?_) _ _
    cases h : state.withdraw env.arith assetId amount with
    | error e => rfl
    | ok state' => exact congrArg _ (config_withdraw h)

end Effect

theorem assetConfigs_of_trace {env : Externals} {fs fs' : FrameworkState} {es : List Effect}
    (h : (effects env).Trace fs es fs') : fs'.assetConfigs = fs.assetConfigs :=
  h.invariant (I := fun s => s.assetConfigs = fs.assetConfigs) rfl fun e _ s _ hs =>
    (Effect.assetConfigs_apply s e).trans hs

/-! ## Blocks of changes -/

/-- The configuration of an asset on a chain. -/
def AssetConfigs.find? (cfg : AssetConfigs) (chain : ExternalChain) (assetId : AssetId) :
    Option AssetConfig := do
  let assets ← cfg chain
  (assets.find? (·.assetId = assetId)).map Prod.snd

/-- The changes that credit one of the funds of a deposit. -/
def creditEffects (cfg : AssetConfigs) (chain : ExternalChain) (accountId : AccountId)
    (fund : BridgedAssetAmount) : List Effect :=
  match (cfg chain).bind (·.get? fund.denom) with
  | none => []
  | some config =>
    match config.toDecimal env.arith fund.amount with
    | .error _ => []
    | .ok amount =>
      [.account (.mint accountId config.assetId amount) accountId,
        .deposit chain config.assetId amount]

/-- A bridge event taking effect. -/
inductive EventBlock (cfg : AssetConfigs) (chain : ExternalChain) : List Effect → Prop
  | instantiated (eventId : BridgeEventId) (contract : String) :
    EventBlock cfg chain
      [.takeEvent chain eventId (.instantiated contract), .deploy chain contract]
  | regular (eventId : BridgeEventId) (wallet : Wallet) (funds : List BridgedAssetAmount)
    (keys : List PublicKey) (accountId : AccountId) :
    EventBlock cfg chain
      (.takeEvent chain eventId (.regular wallet funds keys) ::
        .account (.getOrAddAccountForWallet wallet) accountId ::
        (keys.map (fun key => .account (.addPubkeyIgnoreOverlap accountId key) accountId) ++
          funds.flatMap (creditEffects env cfg chain accountId)))
  | signed (eventId : BridgeEventId) (wallet : Wallet) (actionId : BridgeActionId) :
    EventBlock cfg chain
      [.takeEvent chain eventId (.signed wallet actionId), .confirmAction chain actionId]

/-- What a withdrawal does before its action is queued. -/
def debitEffects (assetId : AssetId) (chain : ExternalChain) (source : AccountId)
    (amountDec amount : Decimal) : List Effect :=
  [.account (.burn source assetId amountDec) source, .withdraw chain assetId amount]

/-- What a call of an app does, also when it fails without a panic. -/
inductive AppCall.Block (cfg : AssetConfigs) : AppCall → List Effect → Prop
  | accountForKey (key : PublicKey) (id : AccountId) :
    Block cfg (.getOrAddAccountIdForKey key) [.account (.getOrAddAccountForKey key) id]
  | accountForWallet (wallet : Wallet) (id : AccountId) :
    Block cfg (.getOrAddAccountIdForWallet wallet) [.account (.getOrAddAccountForWallet wallet) id]
  | mint (assetId : AssetId) (recipient : AccountId) (amount : Decimal) :
    Block cfg (.mintAsset assetId recipient amount)
      [.account (.mint recipient assetId amount) recipient]
  | burn (assetId : AssetId) (owner : AccountId) (amount : Decimal) :
    Block cfg (.burnAsset assetId owner amount) [.account (.burn owner assetId amount) owner]
  | transfer (assetId : AssetId) (source dest : AccountId) (amount : Decimal) :
    Block cfg (.transferAsset assetId source dest amount)
      [.account (.burn source assetId amount) source, .account (.mint dest assetId amount) dest]
  | withdraw {assetId : AssetId} {chain : ExternalChain} {source : AccountId} {wallet : Wallet}
    {amount amountDec : Decimal} {amountU128 : U128} {config : AssetConfig} (payload : String)
    (hconfig : cfg.find? chain assetId = some config)
    (hamount : config.toU128 env.arith amount = .ok (amountDec, amountU128)) :
    Block cfg (.withdrawAsset assetId chain source wallet amount)
      (debitEffects assetId chain source amountDec amount ++
        [.emit chain (.transfer chain wallet [⟨assetId, amountU128⟩]) payload])
  /-- The recorded balance of the chain cannot be reduced. -/
  | withdrawBurn {assetId : AssetId} {chain : ExternalChain} {source : AccountId}
    {wallet : Wallet} {amount amountDec : Decimal} {amountU128 : U128} {config : AssetConfig}
    (hconfig : cfg.find? chain assetId = some config)
    (hamount : config.toU128 env.arith amount = .ok (amountDec, amountU128)) :
    Block cfg (.withdrawAsset assetId chain source wallet amount)
      [.account (.burn source assetId amountDec) source]
  /-- The action cannot be rendered. -/
  | withdrawDebit {assetId : AssetId} {chain : ExternalChain} {source : AccountId}
    {wallet : Wallet} {amount amountDec : Decimal} {amountU128 : U128} {config : AssetConfig}
    (hconfig : cfg.find? chain assetId = some config)
    (hamount : config.toU128 env.arith amount = .ok (amountDec, amountU128)) :
    Block cfg (.withdrawAsset assetId chain source wallet amount)
      (debitEffects assetId chain source amountDec amount)

/-- Actions queued for some chains. -/
def Emissions (action : ExecAction) (es : List Effect) : Prop :=
  ∀ e ∈ es, ∃ chain payload, e = .emit chain action payload

/-- The operation of a message about keys and wallets. -/
def AuthMessage.op (sender : AccountId) : AuthMessage → Accounts.Op
  | .addPublicKey key => .addPubkey sender key
  | .removePublicKey key => .removePubkey sender key
  | .addWallet wallet => .addWallet sender wallet
  | .removeWallet wallet => .removeWallet sender wallet

/-- What follows an approved proposal. -/
inductive EnactBlock (id : AdminProposalId) : List Effect → Prop
  | newSet (set : TaggedJson ValidatorSet) (approvals : List SignatureWithRecovery)
    {es : List Effect} (hes : Emissions (.newSet set approvals) es) :
    EnactBlock id (.enact id (.newSet set) :: es ++ [.clearProposals])
  | migrateContract (migrate : TaggedJson MigrateContract) (payload : String) :
    EnactBlock id [.enact id (.migrateContract migrate),
      .emit migrate.value.chain (.migrateContract migrate) payload, .clearProposals]
  | upgrade (u : TaggedJson Upgrade) :
    EnactBlock id [.enact id (.upgrade u), .clearProposals]

/-- The payload a message proposes, with the signature it comes with. -/
def AdminMessage.proposal? : AdminMessage → Option (ProposalPayload × SignatureWithRecovery)
  | .newSet signed => some (.newSet signed.message, signed.signatureWithRecovery)
  | .migrateContract signed => some (.migrateContract signed.message, signed.signatureWithRecovery)
  | .upgrade signed => some (.upgrade signed.message, signed.signatureWithRecovery)
  | .selfReplace _ | .approve _ _ => none

/-- What a message does, when `pubkey` signed its transaction for the account `sender` and the
app makes only the given calls. -/
inductive Message.Block {M : Type} (pubkey : PublicKey) (sender : AccountId)
    (calls : M → AppCall → Prop) (cfg : AssetConfigs) : Message M → List Effect → Prop
  | app {msg : M} {c : AppCall} {b : List Effect} (hc : calls msg c)
    (hb : c.Block env cfg b) : Block pubkey sender calls cfg (.app msg) b
  | newEvent (chain : ExternalChain) (eventId : BridgeEventId) (event : BridgeEvent) :
    Block pubkey sender calls cfg (.listener chain eventId event) [.newEvent chain event]
  | attest (chain : ExternalChain) (eventId : BridgeEventId) (event : BridgeEvent) :
    Block pubkey sender calls cfg (.listener chain eventId event)
      [.attest chain eventId event pubkey]
  | event {chain : ExternalChain} (eventId : BridgeEventId) (event : BridgeEvent)
    {b : List Effect} (hb : EventBlock env cfg chain b) :
    Block pubkey sender calls cfg (.listener chain eventId event) b
  | approve (chain : ExternalChain) (actionId : BridgeActionId) (key : PublicKey)
    (signature : SignatureWithRecovery) :
    Block pubkey sender calls cfg (.approve chain actionId signature)
      [.approveAction chain actionId key signature]
  | processorApprove (chain : ExternalChain) (actionId : BridgeActionId)
    (processor : SignatureWithRecovery) (approvers : List SignatureWithRecovery) :
    Block pubkey sender calls cfg (.processorApprove chain actionId processor approvers)
      [.processorApprove chain actionId processor approvers]
  | transfer (asset : AssetId) (dest : AccountId) (amount : Decimal) :
    Block pubkey sender calls cfg (.bank (.transfer asset dest amount))
      [.account (.burn sender asset amount) sender, .account (.mint dest asset amount) dest]
  | withdraw {asset : AssetId} {chain : ExternalChain} {dest : Wallet}
    {amount amountDec : Decimal} {amountU128 : U128} {config : AssetConfig} (payload : String)
    (hconfig : cfg.find? chain asset = some config)
    (hamount : config.toU128 env.arith amount = .ok (amountDec, amountU128)) :
    Block pubkey sender calls cfg (.bank (.withdraw asset chain dest amount))
      (debitEffects asset chain sender amountDec amount ++
        [.emit chain (.transfer chain dest [⟨asset, amountU128⟩]) payload])
  | auth (msg : AuthMessage) (hsigning : msg ≠ .removePublicKey pubkey) :
    Block pubkey sender calls cfg (.auth msg) [.account (msg.op sender) sender]
  | selfReplace (signed : SignedTaggedJson SelfReplace) {es : List Effect}
    (hes : Emissions (.selfReplace signed) es) :
    Block pubkey sender calls cfg (.admin (.selfReplace signed))
      (.replaceValidator signed pubkey :: es)
  | propose {msg : AdminMessage} {payload : ProposalPayload} {signature : SignatureWithRecovery}
    (h : msg.proposal? = some (payload, signature)) :
    Block pubkey sender calls cfg (.admin msg) [.propose payload pubkey signature]
  | vote (id : AdminProposalId) (signature : SignatureWithRecovery) :
    Block pubkey sender calls cfg (.admin (.approve id signature)) [.vote id pubkey signature]
  | enact (msg : AdminMessage) {id : AdminProposalId} {b : List Effect} (hb : EnactBlock id b) :
    Block pubkey sender calls cfg (.admin msg) b

/-- A sequence of blocks. -/
def Blocks (B : List Effect → Prop) (es : List Effect) : Prop :=
  ∃ bs : List (List Effect), (∀ b ∈ bs, B b) ∧ es = bs.flatten

namespace Blocks

variable {B B' : List Effect → Prop} {es es' : List Effect}

theorem nil : Blocks B [] := ⟨[], by simp, rfl⟩

theorem single (h : B es) : Blocks B es := ⟨[es], by simpa using h, by simp⟩

theorem append (h : Blocks B es) (h' : Blocks B es') : Blocks B (es ++ es') := by
  obtain ⟨bs, hbs, rfl⟩ := h
  obtain ⟨bs', hbs', rfl⟩ := h'
  refine ⟨bs ++ bs', fun b hb => ?_, by simp⟩
  exact (List.mem_append.mp hb).elim (hbs b) (hbs' b)

theorem mono (hB : ∀ b, B b → B' b) (h : Blocks B es) : Blocks B' es := by
  obtain ⟨bs, hbs, rfl⟩ := h
  exact ⟨bs, fun b hb => hB b (hbs b hb), rfl⟩

/-- A property of lists that holds of every block, and of the parts of a list when it holds of
them all, holds of a sequence of blocks. -/
theorem induction {P : List Effect → Prop} (h : Blocks B es) (nil : P [])
    (append : ∀ b es, B b → P es → P (b ++ es)) : P es := by
  obtain ⟨bs, hbs, rfl⟩ := h
  induction bs with
  | nil => exact nil
  | cons b bs ih =>
    exact append b _ (hbs b (List.mem_cons_self ..))
      (ih fun b' hb' => hbs b' (List.mem_cons_of_mem _ hb'))

/-- What holds of all changes in every block holds of all changes. -/
theorem forall_mem {Q : Effect → Prop} (h : Blocks B es) (hB : ∀ b, B b → ∀ e ∈ b, Q e) :
    ∀ e ∈ es, Q e := by
  refine h.induction (P := fun es => ∀ e ∈ es, Q e) (by simp) fun b es hb ih e he => ?_
  exact (List.mem_append.mp he).elim (hB b hb e) (ih e)

/-- A change in a sequence of blocks lies in one of them. -/
theorem exists_of_append {past future : List Effect} {e : Effect}
    (h : Blocks B (past ++ e :: future)) :
    ∃ pre before after post, past = pre ++ before ∧ future = after ++ post ∧
      B (before ++ e :: after) ∧ Blocks B pre ∧ Blocks B post := by
  obtain ⟨bs, hbs, heq⟩ := h
  induction bs generalizing past with
  | nil => simp at heq
  | cons b bs ih =>
    rw [List.forall_mem_cons] at hbs
    rw [List.flatten_cons, List.append_eq_append_iff] at heq
    rcases heq with ⟨rest, rfl, hrest⟩ | ⟨rest, rfl, hrest⟩
    · -- The change is in this block, or the block ends just before it.
      cases rest with
      | nil =>
        obtain ⟨pre, before, after, post, hpast, hfuture, hb, hpre, hpost⟩ :=
          ih hbs.2 (show [] ++ e :: future = _ from hrest)
        obtain ⟨rfl, rfl⟩ := List.append_eq_nil_iff.mp hpast.symm
        exact ⟨past, [], after, post, by simp, hfuture, hb,
          by simpa using single hbs.1, hpost⟩
      | cons e' rest =>
        obtain ⟨rfl, rfl⟩ := List.cons.inj hrest
        exact ⟨[], past, rest, bs.flatten, rfl, rfl, hbs.1, nil, ⟨bs, hbs.2, rfl⟩⟩
    · obtain ⟨pre, before, after, post, rfl, rfl, hb, hpre, hpost⟩ := ih hbs.2 hrest.symm
      exact ⟨b ++ pre, before, after, post, by simp, rfl, hb, (single hbs.1).append hpre, hpost⟩

end Blocks

end Kolme
