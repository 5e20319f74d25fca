import Kolme.Core.Effects

/-!
# The handlers make blocks of legal changes

One lemma for each handler: when it succeeds, what it did is a sequence of blocks of its message.
Calls of apps are covered also when they fail without a panic, since an app may go on then.

## Main results

* `executeTransaction_eq_ok`: what a successful transaction does.
* `Node.Reachable.trace`: the history of a reachable node leads from genesis to its state.
-/

namespace Kolme

open Exec

namespace ExecutionContext

variable {S : Type} {env : Externals}

/-- Nothing but the states, the logs and the loads has changed. -/
structure SameTx (ctx ctx' : ExecutionContext S) : Prop where
  pubkey : ctx'.pubkey = ctx.pubkey
  sender : ctx'.sender = ctx.sender
  signingKey : ctx'.signingKey = ctx.signingKey
  timestamp : ctx'.timestamp = ctx.timestamp
  height : ctx'.height = ctx.height

theorem SameTx.refl (ctx : ExecutionContext S) : SameTx ctx ctx := ⟨rfl, rfl, rfl, rfl, rfl⟩

theorem SameTx.trans {a b c : ExecutionContext S} (hab : SameTx a b) (hbc : SameTx b c) :
    SameTx a c :=
  ⟨hbc.1.trans hab.1, hbc.2.trans hab.2, hbc.3.trans hab.3, hbc.4.trans hab.4, hbc.5.trans hab.5⟩

/-- One context leads to another by recorded blocks of legal changes. -/
def Leads (env : Externals) (B : AssetConfigs → List Effect → Prop)
    (ctx ctx' : ExecutionContext S) : Prop :=
  ∃ es, ctx'.history = ctx.history ++ es ∧
    (effects env).Trace ctx.frameworkState es ctx'.frameworkState ∧
    Blocks (B ctx.frameworkState.assetConfigs) es ∧ SameTx ctx ctx'

namespace Leads

variable {B B' : AssetConfigs → List Effect → Prop} {a b c : ExecutionContext S}

theorem of_eq (hfs : b.frameworkState = a.frameworkState) (hhistory : b.history = a.history)
    (hsame : SameTx a b) : Leads env B a b :=
  ⟨[], by simp [hhistory], by rw [hfs]; exact .nil _, .nil, hsame⟩

theorem refl (ctx : ExecutionContext S) : Leads env B ctx ctx := of_eq rfl rfl (.refl ctx)

theorem assetConfigs (h : Leads env B a b) :
    b.frameworkState.assetConfigs = a.frameworkState.assetConfigs :=
  let ⟨_, _, htrace, _, _⟩ := h
  assetConfigs_of_trace htrace

theorem trans (hab : Leads env B a b) (hbc : Leads env B b c) : Leads env B a c := by
  have hcfg := hab.assetConfigs
  obtain ⟨es, hhistory, htrace, hblocks, hsame⟩ := hab
  obtain ⟨es', hhistory', htrace', hblocks', hsame'⟩ := hbc
  rw [hcfg] at hblocks'
  exact ⟨es ++ es', by rw [hhistory', hhistory, List.append_assoc], htrace.append htrace',
    hblocks.append hblocks', hsame.trans hsame'⟩

theorem mono (hB : ∀ es, B a.frameworkState.assetConfigs es → B' a.frameworkState.assetConfigs es)
    (h : Leads env B a b) : Leads env B' a b := by
  obtain ⟨es, hhistory, htrace, hblocks, hsame⟩ := h
  exact ⟨es, hhistory, htrace, hblocks.mono hB, hsame⟩

/-- A run of single changes that makes one block. -/
theorem block {es : List Effect}
    (h : Leads env (fun _ b => ∃ e ∈ es, b = [e]) a b)
    (hhistory : b.history = a.history ++ es)
    (hB : B a.frameworkState.assetConfigs es) : Leads env B a b := by
  obtain ⟨es', hhistory', htrace, -, hsame⟩ := h
  obtain rfl := List.append_cancel_left (hhistory.symm.trans hhistory')
  exact ⟨es, hhistory, htrace, .single hB, hsame⟩

end Leads

/-- Recorded legal changes lead from one context to another. -/
def Makes (env : Externals) (es : List Effect) (ctx ctx' : ExecutionContext S) : Prop :=
  ctx'.history = ctx.history ++ es ∧
    (effects env).Trace ctx.frameworkState es ctx'.frameworkState ∧ SameTx ctx ctx'

namespace Makes

variable {es es' : List Effect} {a b c : ExecutionContext S}

theorem of_eq (hfs : b.frameworkState = a.frameworkState) (hhistory : b.history = a.history)
    (hsame : SameTx a b) : Makes env [] a b :=
  ⟨by simp [hhistory], by rw [hfs]; exact .nil _, hsame⟩

theorem refl (ctx : ExecutionContext S) : Makes env [] ctx ctx := of_eq rfl rfl (.refl ctx)

theorem trans (hab : Makes env es a b) (hbc : Makes env es' b c) :
    Makes env (es ++ es') a c :=
  ⟨by rw [hbc.1, hab.1, List.append_assoc], hab.2.1.append hbc.2.1, hab.2.2.trans hbc.2.2⟩

theorem assetConfigs (h : Makes env es a b) :
    b.frameworkState.assetConfigs = a.frameworkState.assetConfigs := assetConfigs_of_trace h.2.1

theorem leads {B : AssetConfigs → List Effect → Prop} (h : Makes env es a b)
    (hB : B a.frameworkState.assetConfigs es) : Leads env B a b :=
  ⟨es, h.1, h.2.1, .single hB, h.2.2⟩

end Makes

/-! ## Primitive steps -/

variable {ctx ctx' : ExecutionContext S} {u : Unit}

theorem perform_makes {e : Effect} (h : perform env e ctx = (.ok u, ctx'))
    (legal : e.Legal env ctx.frameworkState) : Makes env [e] ctx ctx' := by
  simp only [perform, modify_eq_ok] at h
  subst h
  exact ⟨rfl, .single (L := effects env) legal, ⟨rfl, rfl, rfl, rfl, rfl⟩⟩

theorem account_makes {op : Accounts.Op} {id : AccountId}
    (h : account env op ctx = (.ok id, ctx')) :
    Makes env [.account op id] ctx ctx' ∧ ∀ id', op.account? = some id' → id = id' := by
  simp only [account, bind_eq_ok, get_eq_ok] at h
  obtain ⟨_, _, ⟨rfl, rfl⟩, h⟩ := h
  rcases hrun : op.run env.arith ctx.frameworkState.accounts with ⟨e | id', accounts⟩
  · simp [hrun, bind_eq_ok] at h
  · simp only [hrun, bind_eq_ok, pure_eq_ok] at h
    obtain ⟨_, _, h, rfl, rfl⟩ := h
    refine ⟨perform_makes h ?_, fun _ => Accounts.Op.eq_of_account? hrun⟩
    rw [Effect.Legal, hrun]

/-- An operation that names its account. -/
theorem account_makes_of {op : Accounts.Op} {id id' : AccountId}
    (h : account env op ctx = (.ok id, ctx')) (hop : op.account? = some id') :
    Makes env [.account op id'] ctx ctx' := by
  obtain ⟨hmakes, hid⟩ := account_makes h
  rwa [hid id' hop] at hmakes

theorem getChain_eq_ok {chain : ExternalChain} {state : ChainState} :
    getChain chain ctx = (.ok state, ctx') ↔
      ctx.frameworkState.chains.get? chain = some state ∧ ctx = ctx' := by
  simp only [getChain, bind_eq_ok, get_eq_ok, lift_eq_ok, FrameworkState.getChain,
    Except.fromOption_eq_ok]
  constructor
  · rintro ⟨_, _, ⟨rfl, rfl⟩, h⟩
    exact h
  · intro h
    exact ⟨_, _, ⟨rfl, rfl⟩, h⟩

theorem log_makes {msg : String} (h : log msg ctx = (.ok u, ctx')) : Makes env [] ctx ctx' := by
  simp only [log, bind_eq_ok, get_eq_ok] at h
  obtain ⟨_, _, ⟨rfl, rfl⟩, h⟩ := h
  cases hlast : ctx.logs.getLast? with
  | none => simp [hlast] at h
  | some last =>
    simp only [hlast, modify_eq_ok] at h
    subst h
    exact .of_eq rfl rfl ⟨rfl, rfl, rfl, rfl, rfl⟩

/-! ## Bridge actions -/

theorem addAction_makes {chain : ExternalChain} {action : ExecAction} {id : BridgeActionId}
    (h : addAction env chain action ctx = (.ok id, ctx')) :
    ∃ payload, Makes env [.emit chain action payload] ctx ctx' := by
  simp only [addAction, bind_eq_ok, getChain_eq_ok, lift_eq_ok, pure_eq_ok] at h
  obtain ⟨state, _, ⟨hstate, rfl⟩, payload, _, ⟨hpayload, rfl⟩, _, c₁, hperform, _, c₂, hlog, rfl,
    rfl⟩ := h
  have h₁ := perform_makes hperform ⟨state, hstate, hpayload⟩
  exact ⟨payload, h₁.trans (log_makes hlog)⟩

theorem addActionAllChains_makes {action : ExecAction}
    (h : addActionAllChains env action ctx = (.ok u, ctx')) :
    ∃ es, Emissions action es ∧ Makes env es ctx ctx' := by
  simp only [addActionAllChains, bind_eq_ok, get_eq_ok] at h
  obtain ⟨_, _, ⟨rfl, rfl⟩, h⟩ := h
  refine forEach_induction
    (R := fun a b => ∃ es, Emissions action es ∧ Makes env es a b)
    (fun s => ⟨[], by simp [Emissions], .refl s⟩) ?_ ?_ h
  · rintro s t v ⟨es, hes, hst⟩ ⟨es', hes', htv⟩
    refine ⟨es ++ es', fun e he => ?_, hst.trans htv⟩
    exact (List.mem_append.mp he).elim (hes e) (hes' e)
  · intro chain _ s s' h
    simp only [bind_eq_ok, pure_eq_ok] at h
    obtain ⟨id, t, hadd, -, rfl⟩ := h
    obtain ⟨payload, hmakes⟩ := addAction_makes hadd
    exact ⟨_, by simp [Emissions], hmakes⟩

/-- What the first part of a withdrawal finds. -/
theorem getAssetConfig_eq_ok {fs : FrameworkState} {chain : ExternalChain} {assetId : AssetId}
    {config : AssetConfig} (h : fs.getAssetConfig chain assetId = .ok config) :
    fs.assetConfigs.find? chain assetId = some config := by
  simp only [FrameworkState.getAssetConfig, FrameworkState.getChain, Except.bind_eq_ok,
    Except.fromOption_eq_ok] at h
  obtain ⟨state, hstate, hconfig⟩ := h
  simp only [AssetConfigs.find?, FrameworkState.assetConfigs, hstate]
  exact hconfig

theorem withdrawAsset_makes {assetId : AssetId} {chain : ExternalChain} {source : AccountId}
    {wallet : Wallet} {amount : Decimal} {id : BridgeActionId}
    (h : withdrawAsset env assetId chain source wallet amount ctx = (.ok id, ctx')) :
    ∃ config amountDec amountU128 payload,
      ctx.frameworkState.assetConfigs.find? chain assetId = some config ∧
      config.toU128 env.arith amount = .ok (amountDec, amountU128) ∧
      Makes env (debitEffects assetId chain source amountDec amount ++
        [.emit chain (.transfer chain wallet [⟨assetId, amountU128⟩]) payload]) ctx ctx' := by
  simp only [withdrawAsset, bind_eq_ok, get_eq_ok, lift_eq_ok, getChain_eq_ok] at h
  obtain ⟨_, _, ⟨rfl, rfl⟩, config, _, ⟨hconfig, rfl⟩, ⟨amountDec, amountU128⟩, _, ⟨hamount, rfl⟩,
    _, c₁, hburn, state, _, ⟨hstate, rfl⟩, state', _, ⟨hwithdraw, rfl⟩, _, c₂, hperform, hadd⟩ := h
  have h₁ := account_makes_of hburn rfl
  have h₂ := perform_makes hperform ⟨state, state', hstate, hwithdraw⟩
  obtain ⟨payload, h₃⟩ := addAction_makes hadd
  exact ⟨config, amountDec, amountU128, payload, getAssetConfig_eq_ok hconfig, hamount,
    (h₁.trans h₂).trans h₃⟩

theorem mintAsset_makes {assetId : AssetId} {recipient : AccountId} {amount : Decimal}
    (h : mintAsset env assetId recipient amount ctx = (.ok u, ctx')) :
    Makes env [.account (.mint recipient assetId amount) recipient] ctx ctx' := by
  simp only [mintAsset, bind_eq_ok, pure_eq_ok] at h
  obtain ⟨_, _, h, -, rfl⟩ := h
  exact account_makes_of h rfl

theorem burnAsset_makes {assetId : AssetId} {owner : AccountId} {amount : Decimal}
    (h : burnAsset env assetId owner amount ctx = (.ok u, ctx')) :
    Makes env [.account (.burn owner assetId amount) owner] ctx ctx' := by
  simp only [burnAsset, bind_eq_ok, pure_eq_ok] at h
  obtain ⟨_, _, h, -, rfl⟩ := h
  exact account_makes_of h rfl

theorem transferAsset_makes {assetId : AssetId} {source dest : AccountId} {amount : Decimal}
    (h : transferAsset env assetId source dest amount ctx = (.ok u, ctx')) :
    Makes env [.account (.burn source assetId amount) source,
      .account (.mint dest assetId amount) dest] ctx ctx' := by
  simp only [transferAsset, bind_eq_ok] at h
  obtain ⟨_, _, hburn, hmint⟩ := h
  exact (burnAsset_makes hburn).trans (mintAsset_makes hmint)

/-! ## Bridge events -/

theorem creditFund_makes {chain : ExternalChain} {accountId : AccountId}
    {fund : BridgedAssetAmount} (h : creditFund env chain accountId fund ctx = (.ok u, ctx')) :
    Makes env (creditEffects env ctx.frameworkState.assetConfigs chain accountId fund) ctx
      ctx' := by
  simp only [creditFund, bind_eq_ok, getChain_eq_ok] at h
  obtain ⟨state, _, ⟨hstate, rfl⟩, h⟩ := h
  have hcfg : ctx.frameworkState.assetConfigs chain = some state.config.assets := by
    simp [FrameworkState.assetConfigs, hstate]
  cases hconfig : state.config.assets.get? fund.denom with
  | none =>
    simp only [hconfig, pure_eq_ok, true_and] at h
    subst h
    simpa [creditEffects, hcfg, hconfig] using Makes.refl ctx
  | some config =>
    simp only [hconfig, bind_eq_ok, lift_eq_ok, getChain_eq_ok] at h
    obtain ⟨amount, _, ⟨hamount, rfl⟩, _, c₁, hmint, state', _, ⟨hstate', rfl⟩, state'', _,
      ⟨hdeposit, rfl⟩, hperform⟩ := h
    have h₁ := account_makes_of hmint rfl
    have h₂ := perform_makes hperform ⟨state', state'', hstate', hdeposit⟩
    simpa [creditEffects, hcfg, hconfig, hamount] using h₁.trans h₂

/-- The keys of a deposit are registered one after another. -/
theorem registerKeys_makes {accountId : AccountId} {keys : List PublicKey}
    (h : forEach (fun key => do
      let _ ← account env (.addPubkeyIgnoreOverlap accountId key)) keys ctx = (.ok u, ctx')) :
    Makes env (keys.map fun key => .account (.addPubkeyIgnoreOverlap accountId key) accountId) ctx
      ctx' := by
  induction keys generalizing ctx with
  | nil =>
    obtain ⟨-, rfl⟩ := pure_eq_ok.mp h
    exact .refl ctx
  | cons key keys ih =>
    obtain ⟨c₁, hkey, hkeys⟩ := forEach_cons_eq_ok.mp h
    simp only [bind_eq_ok, pure_eq_ok] at hkey
    obtain ⟨_, _, hkey, -, rfl⟩ := hkey
    exact (account_makes_of hkey rfl).trans (ih hkeys)

theorem creditFunds_makes {chain : ExternalChain} {accountId : AccountId}
    {funds : List BridgedAssetAmount}
    (h : forEach (creditFund env chain accountId) funds ctx = (.ok u, ctx')) :
    Makes env (funds.flatMap (creditEffects env ctx.frameworkState.assetConfigs chain accountId))
      ctx ctx' := by
  induction funds generalizing ctx with
  | nil =>
    obtain ⟨-, rfl⟩ := pure_eq_ok.mp h
    exact .refl ctx
  | cons fund funds ih =>
    obtain ⟨c₁, hfund, hfunds⟩ := forEach_cons_eq_ok.mp h
    have h₁ := creditFund_makes hfund
    have h₂ := ih hfunds
    rw [h₁.assetConfigs] at h₂
    exact h₁.trans h₂

/-- An event that is taken from the queue and processed makes one block. -/
theorem processEvent_makes {chain : ExternalChain} {eventId : BridgeEventId}
    {event : BridgeEvent} (h : processEvent env chain eventId event ctx = (.ok u, ctx')) :
    ∃ es, EventBlock env ctx.frameworkState.assetConfigs chain
      (.takeEvent chain eventId event :: es) ∧ Makes env es ctx ctx' := by
  cases event with
  | instantiated contract =>
    simp only [processEvent, bind_eq_ok, getChain_eq_ok] at h
    obtain ⟨state, _, ⟨hstate, rfl⟩, h⟩ := h
    refine ⟨_, .instantiated eventId contract, ?_⟩
    cases hbridge : state.config.bridge with
    | deployed old => simp [hbridge] at h
    | neededCosmosBridge | neededSolanaBridge | neededEthereumBridge =>
      rw [hbridge] at h
      exact perform_makes h ⟨state, hstate, by simp [hbridge]⟩
  | regular wallet funds keys =>
    simp only [processEvent, bind_eq_ok] at h
    obtain ⟨accountId, c₁, haccount, _, c₂, hkeys, _, c₃, hfunds, hlog⟩ := h
    have h₁ := (account_makes haccount).1
    have h₂ := registerKeys_makes hkeys
    have h₃ := creditFunds_makes hfunds
    rw [h₂.assetConfigs, h₁.assetConfigs] at h₃
    refine ⟨_, .regular eventId wallet funds keys accountId, ?_⟩
    simpa using ((h₁.trans h₂).trans h₃).trans (log_makes hlog)
  | signed wallet actionId =>
    simp only [processEvent, bind_eq_ok, getChain_eq_ok, fromOption_eq_ok, ensure_eq_ok] at h
    obtain ⟨state, _, ⟨hstate, rfl⟩, ⟨nextActionId, action⟩, _, ⟨hfirst, rfl⟩, _, _,
      ⟨hid, rfl⟩, h⟩ := h
    obtain rfl : nextActionId = actionId := hid
    exact ⟨_, .signed eventId wallet nextActionId,
      perform_makes h ⟨state, action, hstate, hfirst⟩⟩

/-- One round of the loop over the pending events. -/
theorem drainEvents_succ_eq_ok {chain : ExternalChain} {fuel : Nat}
    (h : drainEvents env chain (fuel + 1) ctx = (.ok u, ctx')) :
    ctx.frameworkState.getNextReadyEvent chain = .ok none ∧ ctx' = ctx ∨
    ∃ state eventId pending c₁ c₂,
      ctx.frameworkState.getNextReadyEvent chain = .ok (some eventId) ∧
      ctx.frameworkState.chains.get? chain = some state ∧
      state.pendingEvents.get? eventId = some pending ∧
      perform env (.takeEvent chain eventId pending.event) ctx = (.ok (), c₁) ∧
      processEvent env chain eventId pending.event c₁ = (.ok (), c₂) ∧
      drainEvents env chain fuel c₂ = (.ok u, ctx') := by
  simp only [drainEvents, bind_eq_ok, get_eq_ok, lift_eq_ok] at h
  obtain ⟨_, _, ⟨rfl, rfl⟩, ready, _, ⟨hready, rfl⟩, h⟩ := h
  cases ready with
  | none =>
    obtain ⟨-, rfl⟩ := pure_eq_ok.mp h
    exact .inl ⟨hready, rfl⟩
  | some eventId =>
    simp only [bind_eq_ok, getChain_eq_ok, fromOption_eq_ok] at h
    obtain ⟨state, _, ⟨hstate, rfl⟩, pending, _, ⟨hpending, rfl⟩, ⟨⟩, c₁, htake, ⟨⟩, c₂,
      hprocess, hrest⟩ := h
    exact .inr ⟨state, eventId, pending, c₁, c₂, hready, hstate, hpending, htake, hprocess, hrest⟩

/-- The blocks of the events of a chain. -/
abbrev EventBlocks (env : Externals) (chain : ExternalChain) (cfg : AssetConfigs) :
    List Effect → Prop :=
  EventBlock env cfg chain

theorem drainEvents_leads {chain : ExternalChain} {fuel : Nat}
    (h : drainEvents env chain fuel ctx = (.ok u, ctx')) :
    Leads env (EventBlocks env chain) ctx ctx' := by
  induction fuel generalizing ctx with
  | zero =>
    obtain ⟨-, rfl⟩ := pure_eq_ok.mp h
    exact .refl ctx
  | succ fuel ih =>
    rcases drainEvents_succ_eq_ok h with ⟨-, rfl⟩ |
      ⟨state, eventId, pending, c₁, c₂, hready, hstate, hpending, htake, hprocess, hrest⟩
    · exact .refl ctx'
    · have h₁ := perform_makes htake ⟨hready, state, pending, hstate, hpending, rfl⟩
      obtain ⟨es, hblock, h₂⟩ := processEvent_makes hprocess
      rw [h₁.assetConfigs] at hblock
      exact ((h₁.trans h₂).leads hblock).trans (ih hrest)

theorem processReadyEvents_leads {chain : ExternalChain}
    (h : processReadyEvents env chain ctx = (.ok u, ctx')) :
    Leads env (EventBlocks env chain) ctx ctx' := by
  simp only [processReadyEvents, bind_eq_ok, getChain_eq_ok] at h
  obtain ⟨_, _, ⟨-, rfl⟩, h⟩ := h
  exact drainEvents_leads h

section Messages

variable {M : Type} {calls : M → AppCall → Prop}

/-- The blocks of one message in a context. -/
abbrev MessageBlocks (env : Externals) (calls : M → AppCall → Prop) (pubkey : PublicKey)
    (sender : AccountId) (message : Message M) (cfg : AssetConfigs) : List Effect → Prop :=
  message.Block env pubkey sender calls cfg

theorem listener_leads {chain : ExternalChain} {event : BridgeEvent} {eventId : BridgeEventId}
    (h : listener env chain event eventId ctx = (.ok u, ctx')) :
    Leads env (MessageBlocks env calls ctx.pubkey ctx.sender (.listener chain eventId event)) ctx
      ctx' := by
  simp only [listener, bind_eq_ok, get_eq_ok, ensure_eq_ok, getChain_eq_ok] at h
  obtain ⟨_, _, ⟨rfl, rfl⟩, _, _, ⟨hlistener, rfl⟩, state, _, ⟨hstate, rfl⟩, ⟨⟩, c₁, hreport, ⟨⟩,
    c₂, hattest, ⟨⟩, _, ⟨hnew, rfl⟩, hprocess⟩ := h
  -- The event is pending when it is attested: it was before, or it has just been added.
  have hreport : ∃ state' pending, c₁.frameworkState.chains.get? chain = some state' ∧
      state'.pendingEvents.get? eventId = some pending ∧ pending.event = event ∧
      ctx.pubkey ∉ pending.attestations ∧ c₁.frameworkState.validatorSet =
        ctx.frameworkState.validatorSet ∧
      Leads env (MessageBlocks env calls ctx.pubkey ctx.sender (.listener chain eventId event))
        ctx c₁ := by
    cases hpending : state.pendingEvents.get? eventId with
    | some pending =>
      simp only [reportEvent, hpending, ensure_eq_ok] at hreport
      obtain ⟨hevent, rfl⟩ := hreport
      simp only [hpending, Option.map_some, Option.getD_some] at hnew
      exact ⟨state, pending, hstate, hpending, hevent, hnew, rfl, .refl _⟩
    | none =>
      simp only [reportEvent, hpending, bind_eq_ok, ensure_eq_ok] at hreport
      obtain ⟨_, _, ⟨hid, rfl⟩, hperform⟩ := hreport
      have hmakes := perform_makes hperform ⟨state, hstate, hid ▸ hpending⟩
      have hfs : c₁.frameworkState = (Effect.newEvent chain event).apply env
          ctx.frameworkState := hmakes.2.1.eq_foldl
      refine ⟨state.addEvent event, ⟨event, ∅⟩, ?_, ?_, rfl, by simp, by rw [hfs]; simp
        [Effect.apply], hmakes.leads (.newEvent chain eventId event)⟩
      · rw [hfs, Effect.apply, FrameworkState.get?_updateChain, if_pos rfl, hstate]
        rfl
      · simp [ChainState.addEvent, hid]
  obtain ⟨state', pending, hstate', hpending, hevent, hnew', hset, hlead⟩ := hreport
  have h₂ := perform_makes hattest
    ⟨hset ▸ hlistener, state', pending, hstate', hpending, hevent, hnew'⟩
  have h₃ := processReadyEvents_leads hprocess
  exact (hlead.trans (h₂.leads (.attest chain eventId event))).trans
    (h₃.mono fun es hes => .event eventId event hes)

theorem approve_leads {chain : ExternalChain} {actionId : BridgeActionId}
    {signature : SignatureWithRecovery}
    (h : approve env chain actionId signature ctx = (.ok u, ctx')) :
    Leads env (MessageBlocks env calls ctx.pubkey ctx.sender (.approve chain actionId signature))
      ctx ctx' := by
  simp only [approve, bind_eq_ok, getChain_eq_ok, fromOption_eq_ok, lift_eq_ok, get_eq_ok,
    ensure_eq_ok] at h
  obtain ⟨state, _, ⟨hstate, rfl⟩, action, _, ⟨haction, rfl⟩, payload, _, ⟨hpayload, rfl⟩, key, _,
    ⟨hkey, rfl⟩, _, _, ⟨rfl, rfl⟩, ⟨⟩, _, ⟨happrover, rfl⟩, ⟨⟩, c₁, hperform, hnew, rfl⟩ := h
  have h₁ := perform_makes hperform
    ⟨happrover, state, action, payload, hstate, haction, hpayload, hkey, hnew⟩
  exact h₁.leads (.approve chain actionId key signature)

theorem processorApprove_leads {chain : ExternalChain} {actionId : BridgeActionId}
    {processor : SignatureWithRecovery} {approvers : List SignatureWithRecovery}
    (h : processorApprove env chain actionId processor approvers ctx = (.ok u, ctx')) :
    Leads env (MessageBlocks env calls ctx.pubkey ctx.sender
      (.processorApprove chain actionId processor approvers)) ctx ctx' := by
  simp only [processorApprove, bind_eq_ok, getChain_eq_ok, fromOption_eq_ok, lift_eq_ok, get_eq_ok,
    ensure_eq_ok] at h
  obtain ⟨_, _, ⟨rfl, rfl⟩, ⟨⟩, _, ⟨hneeded, rfl⟩, state, _, ⟨hstate, rfl⟩, action, _,
    ⟨haction, rfl⟩, ⟨⟩, _, ⟨hfree, rfl⟩, payload, _, ⟨hpayload, rfl⟩, key, _, ⟨hkey, rfl⟩, ⟨⟩, _,
    ⟨hprocessor, rfl⟩, checked, _, ⟨hchecked, rfl⟩, ⟨⟩, _, ⟨hdistinct, rfl⟩, hperform⟩ := h
  subst hprocessor
  have h₁ := perform_makes hperform
    ⟨hneeded, state, action, payload, checked, hstate, haction, hfree, hpayload, hkey, hchecked,
      hdistinct⟩
  exact h₁.leads (.processorApprove chain actionId processor approvers)

/-! ## Messages of users -/

theorem bank_leads {msg : BankMessage} (h : bank env msg ctx = (.ok u, ctx')) :
    Leads env (MessageBlocks env calls ctx.pubkey ctx.sender (.bank msg)) ctx ctx' := by
  cases msg with
  | transfer asset dest amount =>
    simp only [bank, bind_eq_ok, get_eq_ok] at h
    obtain ⟨_, _, ⟨rfl, rfl⟩, h⟩ := h
    exact (transferAsset_makes h).leads (.transfer asset dest amount)
  | withdraw asset chain dest amount =>
    simp only [bank, bind_eq_ok, get_eq_ok, pure_eq_ok] at h
    obtain ⟨_, _, ⟨rfl, rfl⟩, _, _, h, -, rfl⟩ := h
    obtain ⟨config, amountDec, amountU128, payload, hconfig, hamount, hmakes⟩ :=
      withdrawAsset_makes h
    exact hmakes.leads (.withdraw payload hconfig hamount)

theorem auth_leads {msg : AuthMessage} (hkey : ctx.signingKey = ctx.pubkey)
    (h : auth env msg ctx = (.ok u, ctx')) :
    Leads env (MessageBlocks env calls ctx.pubkey ctx.sender (.auth msg)) ctx ctx' := by
  have lead {c : ExecutionContext S} {id : AccountId} (hmsg : msg ≠ .removePublicKey ctx.pubkey)
      (h : account env (msg.op ctx.sender) ctx = (.ok id, c)) :
      Leads env (MessageBlocks env calls ctx.pubkey ctx.sender (.auth msg)) ctx c :=
    (account_makes_of h (by cases msg <;> rfl)).leads (.auth msg hmsg)
  cases msg with
  | addPublicKey key | addWallet wallet | removeWallet wallet =>
    simp only [auth, bind_eq_ok, get_eq_ok, pure_eq_ok] at h
    obtain ⟨_, _, ⟨rfl, rfl⟩, _, _, h, -, rfl⟩ := h
    exact lead (by simp) h
  | removePublicKey key =>
    simp only [auth, bind_eq_ok, get_eq_ok, ensure_eq_ok, pure_eq_ok] at h
    obtain ⟨_, _, ⟨rfl, rfl⟩, ⟨⟩, _, ⟨hne, rfl⟩, _, _, h, -, rfl⟩ := h
    exact lead (by rw [hkey] at hne; simpa using hne) h

/-! ## Messages of validators -/

theorem addAdminProposal_makes {payload : ProposalPayload} {pubkey : PublicKey}
    {sigrec : SignatureWithRecovery}
    (hmember : pubkey = ctx.frameworkState.validatorSet.processor ∨
      pubkey ∈ ctx.frameworkState.validatorSet.listeners ∨
      pubkey ∈ ctx.frameworkState.validatorSet.approvers)
    (hsig : sigrec.validate env payload.serialized.toByteArray = .ok pubkey)
    (hvalid : ∀ set, payload = .newSet set → set.value.WellFormed)
    (h : addAdminProposal env payload pubkey sigrec ctx = (.ok u, ctx')) :
    Makes env [.propose payload pubkey sigrec] ctx ctx' := by
  simp only [addAdminProposal, bind_eq_ok, get_eq_ok] at h
  obtain ⟨_, _, ⟨rfl, rfl⟩, h⟩ := h
  cases hfind : ctx.frameworkState.adminProposalState.proposals.find?
      (fun existing => existing.payload.same payload) with
  | some p => simp [hfind] at h
  | none =>
    simp only [hfind, bind_eq_ok] at h
    obtain ⟨⟨⟩, c₁, hperform, hlog⟩ := h
    exact (perform_makes hperform ⟨hmember, hsig, hfind, hvalid⟩).trans (log_makes hlog)

/-- Either nothing is approved, or the first approved proposal is enacted. -/
theorem checkPendingProposals_eq_ok
    (h : checkPendingProposals env ctx = (.ok u, ctx')) :
    ctx.frameworkState.findApprovedProposal = none ∧ ctx' = ctx ∨
    ∃ id pending es, ctx.frameworkState.findApprovedProposal = some (id, pending) ∧
      EnactBlock id es ∧ Makes env es ctx ctx' := by
  simp only [checkPendingProposals, bind_eq_ok, get_eq_ok] at h
  obtain ⟨_, _, ⟨rfl, rfl⟩, h⟩ := h
  rcases hfind : ctx.frameworkState.findApprovedProposal with _ | ⟨id, payload, approvals⟩
  · simp only [hfind, pure_eq_ok, true_and] at h
    exact .inl ⟨rfl, h.symm⟩
  · simp only [hfind, bind_eq_ok] at h
    obtain ⟨⟨⟩, c₁, hlog, ⟨⟩, c₂, henact, ⟨⟩, c₃, hfollow, hclear⟩ := h
    have h₁ : Makes env [] ctx c₁ := log_makes hlog
    have hfs : c₁.frameworkState = ctx.frameworkState := by simpa using h₁.2.1
    have h₂ := perform_makes henact ⟨approvals, by rw [hfs]; exact hfind⟩
    have h₄ := perform_makes hclear trivial
    refine .inr ⟨id, ⟨payload, approvals⟩, ?_⟩
    cases payload with
    | newSet set =>
      obtain ⟨es, hes, h₃⟩ := addActionAllChains_makes hfollow
      exact ⟨_, rfl, .newSet set _ hes, ((h₁.trans h₂).trans h₃).trans h₄⟩
    | migrateContract migrate =>
      simp only [addProposalActions, bind_eq_ok, pure_eq_ok] at hfollow
      obtain ⟨_, _, hadd, -, rfl⟩ := hfollow
      obtain ⟨payload, h₃⟩ := addAction_makes hadd
      exact ⟨_, rfl, .migrateContract migrate payload, ((h₁.trans h₂).trans h₃).trans h₄⟩
    | upgrade u =>
      simp only [addProposalActions, pure_eq_ok, true_and] at hfollow
      subst hfollow
      exact ⟨_, rfl, .upgrade u, (h₁.trans h₂).trans h₄⟩

theorem checkPendingProposals_leads {msg : AdminMessage} {pubkey : PublicKey}
    {sender : AccountId} (h : checkPendingProposals env ctx = (.ok u, ctx')) :
    Leads env (MessageBlocks env calls pubkey sender (.admin msg)) ctx ctx' := by
  rcases checkPendingProposals_eq_ok h with ⟨-, rfl⟩ | ⟨id, pending, es, -, hblock, hmakes⟩
  · exact .refl ctx'
  · exact hmakes.leads (.enact msg hblock)

theorem ensureIsValidator_eq_ok {set : ValidatorSet} {key : PublicKey} {v : Unit} :
    (set.ensureIsValidator key).mapError Error.validatorSet = .ok v ↔
      key = set.processor ∨ key ∈ set.listeners ∨ key ∈ set.approvers := by
  unfold ValidatorSet.ensureIsValidator
  by_cases h : key = set.processor ∨ key ∈ set.listeners ∨ key ∈ set.approvers
  · rw [Except.ensure_of h]
    exact iff_of_true rfl h
  · rw [Except.ensure_of_not h]
    exact iff_of_false (by simp [Except.mapError]) h

theorem proposeSigned_leads {α : Type} {signed : SignedTaggedJson α}
    {payload : TaggedJson α → ProposalPayload} {valid : α → Except Error Unit}
    {msg : AdminMessage}
    (hmsg : msg.proposal? = some (payload signed.message, signed.signatureWithRecovery))
    (htext : (payload signed.message).serialized = signed.message.serialized)
    (hvalid : valid signed.message.value = .ok () →
      ∀ set, payload signed.message = .newSet set → set.value.WellFormed)
    (h : proposeSigned env signed payload valid ctx = (.ok u, ctx')) :
    Leads env (MessageBlocks env calls ctx.pubkey ctx.sender (.admin msg)) ctx ctx' := by
  simp only [proposeSigned, bind_eq_ok, get_eq_ok, lift_eq_ok, ensure_eq_ok,
    ensureIsValidator_eq_ok] at h
  obtain ⟨_, _, ⟨rfl, rfl⟩, signer, _, ⟨hsigner, rfl⟩, ⟨⟩, _, ⟨hpubkey, rfl⟩, ⟨⟩, _,
    ⟨hmember, rfl⟩, ⟨⟩, _, ⟨hok, rfl⟩, ⟨⟩, c₁, hadd, hcheck⟩ := h
  subst hpubkey
  have h₁ := addAdminProposal_makes hmember (by rw [htext]; exact hsigner) (hvalid hok) hadd
  exact (h₁.leads (.propose hmsg)).trans (checkPendingProposals_leads hcheck)

theorem admin_leads {msg : AdminMessage} (h : admin env msg ctx = (.ok u, ctx')) :
    Leads env (MessageBlocks env calls ctx.pubkey ctx.sender (.admin msg)) ctx ctx' := by
  cases msg with
  | selfReplace signed =>
    simp only [admin, bind_eq_ok, get_eq_ok, lift_eq_ok, ensure_eq_ok] at h
    obtain ⟨_, _, ⟨rfl, rfl⟩, signer, _, ⟨hsigner, rfl⟩, ⟨⟩, _, ⟨hpubkey, rfl⟩, ⟨⟩, _,
      ⟨hrole, rfl⟩, ⟨⟩, c₁, hperform, hadd⟩ := h
    subst hpubkey
    have h₁ := perform_makes hperform ⟨hsigner, hrole⟩
    obtain ⟨es, hes, h₂⟩ := addActionAllChains_makes hadd
    exact (h₁.trans h₂).leads (.selfReplace signed hes)
  | newSet signed =>
    rw [admin] at h
    refine proposeSigned_leads rfl rfl (fun hok set hset => ?_) h
    obtain rfl := ProposalPayload.newSet.inj hset
    cases hval : signed.message.value.validate with
    | error e => simp [hval, Except.mapError] at hok
    | ok v => exact ValidatorSet.validate_eq_ok.mp hval
  | migrateContract signed =>
    rw [admin] at h
    exact proposeSigned_leads rfl rfl (fun _ _ h => by cases h) h
  | upgrade signed =>
    rw [admin] at h
    exact proposeSigned_leads rfl rfl (fun _ _ h => by cases h) h
  | approve id signature =>
    simp only [admin, bind_eq_ok, get_eq_ok, lift_eq_ok, fromOption_eq_ok, ensure_eq_ok,
      ensureIsValidator_eq_ok] at h
    obtain ⟨_, _, ⟨rfl, rfl⟩, ⟨⟩, _, ⟨hmember, rfl⟩, pending, _, ⟨hpending, rfl⟩, pubkey, _,
      ⟨hsig, rfl⟩, ⟨⟩, _, ⟨hpubkey, rfl⟩, ⟨⟩, c₁, hperform, ⟨⟩, _, ⟨hnew, rfl⟩, hcheck⟩ := h
    subst hpubkey
    have h₁ := perform_makes hperform ⟨hmember, pending, hpending, hsig, hnew⟩
    exact (h₁.leads (.vote id signature)).trans (checkPendingProposals_leads hcheck)

end Messages

/-! ## Calls of apps -/

section AppCalls

variable {e : Error}

/-- A burn that fails changes nothing. -/
theorem burn_error {id : AccountId} {assetId : AssetId} {amount : Decimal} {a a' : Accounts}
    (h : Accounts.burn env.arith id assetId amount a = (.error e, a')) : a' = a := by
  simp only [Accounts.burn, bind_eq_error, ensure_eq_error, ensure_eq_ok, get_ne_error, get_eq_ok,
    fromOption_eq_error, fromOption_eq_ok, false_or] at h
  rcases h with ⟨-, rfl⟩ | ⟨_, _, ⟨-, rfl⟩, _, _, ⟨rfl, rfl⟩, ⟨-, rfl⟩ |
    ⟨account, _, ⟨-, rfl⟩, ⟨-, rfl⟩ | ⟨asset, _, ⟨-, rfl⟩, h⟩⟩⟩
  · rfl
  · rfl
  · rfl
  · cases hcmp : asset.cmp amount with
    | lt =>
      simp only [hcmp, throw_eq_error] at h
      exact h.2.symm
    | eq => simp [hcmp] at h
    | gt =>
      simp only [hcmp, bind_eq_error, fromOption_eq_error, modify_ne_error, and_false,
        exists_false, or_false] at h
      exact h.2.symm

/-- A mint that fails changes nothing. -/
theorem mint_error {id : AccountId} {assetId : AssetId} {amount : Decimal} {a a' : Accounts}
    (h : Accounts.mint env.arith id assetId amount a = (.error e, a')) : a' = a := by
  simp only [Accounts.mint, bind_eq_error, ensure_eq_error, ensure_eq_ok, gets_ne_error, gets_eq_ok,
    fromOption_eq_error, fromOption_eq_ok, modify_ne_error, and_false, exists_false, or_false,
    false_or] at h
  rcases h with ⟨-, rfl⟩ | ⟨_, _, ⟨-, rfl⟩, _, _, ⟨rfl, rfl⟩, -, rfl⟩ <;> rfl

/-- A mint of a positive amount can only panic. -/
theorem mint_error_of_pos {id : AccountId} {assetId : AssetId} {amount : Decimal}
    {a a' : Accounts} (hpos : ¬(amount.isZero = true ∨ amount.isSignNegative = true))
    (h : Accounts.mint env.arith id assetId amount a = (.error e, a')) : e = .panic := by
  simp only [Accounts.mint, bind_eq_error, ensure_eq_error, ensure_eq_ok, gets_ne_error, gets_eq_ok,
    fromOption_eq_error, fromOption_eq_ok, modify_ne_error, and_false, exists_false, or_false,
    false_or] at h
  rcases h with ⟨⟨hneg, -⟩, -⟩ | ⟨_, _, -, _, _, -, ⟨-, rfl⟩, -⟩
  · exact absurd hpos hneg
  · rfl

theorem account_eq_error {op : Accounts.Op} (h : account env op ctx = (.error e, ctx')) :
    ∃ accounts, op.run env.arith ctx.frameworkState.accounts = (.error e, accounts) ∧
      ctx' = { ctx with frameworkState := { ctx.frameworkState with accounts } } := by
  simp only [account, bind_eq_error, get_ne_error, get_eq_ok, false_or] at h
  obtain ⟨_, _, ⟨rfl, rfl⟩, h⟩ := h
  rcases hrun : op.run env.arith ctx.frameworkState.accounts with ⟨e' | id, accounts⟩
  · simp only [hrun, bind_eq_error, modify_ne_error, modify_eq_ok, throw_eq_error, false_or] at h
    obtain ⟨_, _, rfl, rfl, rfl⟩ := h
    exact ⟨accounts, rfl, rfl⟩
  · simp [hrun, bind_eq_error, perform] at h

/-- An operation that changes nothing when it fails leaves the context as it was. -/
theorem account_error {op : Accounts.Op}
    (hop : ∀ a', op.run env.arith ctx.frameworkState.accounts = (.error e, a') →
      a' = ctx.frameworkState.accounts)
    (h : account env op ctx = (.error e, ctx')) : Makes env [] ctx ctx' := by
  obtain ⟨accounts, hrun, rfl⟩ := account_eq_error h
  obtain rfl := hop _ hrun
  exact .of_eq rfl rfl ⟨rfl, rfl, rfl, rfl, rfl⟩

theorem burnAsset_error {assetId : AssetId} {owner : AccountId} {amount : Decimal}
    (h : account env (.burn owner assetId amount) ctx = (.error e, ctx')) :
    Makes env [] ctx ctx' := by
  refine account_error (fun a' hrun => ?_) h
  simp only [Accounts.Op.run, bind_eq_error, pure_ne_error, and_false, exists_false,
    or_false] at hrun
  exact burn_error hrun

theorem mintAsset_error {assetId : AssetId} {recipient : AccountId} {amount : Decimal}
    (h : account env (.mint recipient assetId amount) ctx = (.error e, ctx')) :
    Makes env [] ctx ctx' := by
  refine account_error (fun a' hrun => ?_) h
  simp only [Accounts.Op.run, bind_eq_error, pure_ne_error, and_false, exists_false,
    or_false] at hrun
  exact mint_error hrun

theorem log_error {msg : String} (h : log msg ctx = (.error e, ctx')) : e = .panic := by
  simp only [log, bind_eq_error, get_ne_error, get_eq_ok, false_or] at h
  obtain ⟨_, _, ⟨rfl, rfl⟩, h⟩ := h
  cases hlast : ctx.logs.getLast? with
  | none =>
    simp only [hlast, throw_eq_error] at h
    exact h.1.symm
  | some last => simp [hlast] at h

theorem getChain_error {chain : ExternalChain} (h : getChain chain ctx = (.error e, ctx')) :
    ctx' = ctx := by
  simp only [getChain, bind_eq_error, get_ne_error, get_eq_ok, lift_eq_error, false_or] at h
  obtain ⟨_, _, ⟨rfl, rfl⟩, -, rfl⟩ := h
  rfl

/-- An action that cannot be queued leaves the context as it was. -/
theorem addAction_error {chain : ExternalChain} {action : ExecAction}
    (h : addAction env chain action ctx = (.error e, ctx')) : e = .panic ∨ ctx' = ctx := by
  simp only [addAction, bind_eq_error, getChain_eq_ok, lift_eq_error, lift_eq_ok,
    pure_ne_error, and_false, exists_false, or_false] at h
  rcases h with h | ⟨state, _, ⟨-, rfl⟩, ⟨-, rfl⟩ | ⟨payload, _, ⟨-, rfl⟩, h | ⟨_, c, -, h⟩⟩⟩
  · exact .inr (getChain_error h)
  · exact .inr rfl
  · simp [perform] at h
  · exact .inl (log_error h)

/-- A withdrawal that fails stops before the burn, after the burn, or after the chain's balance
is reduced. -/
theorem withdrawAsset_error {assetId : AssetId} {chain : ExternalChain} {source : AccountId}
    {wallet : Wallet} {amount : Decimal} (he : e ≠ .panic)
    (h : withdrawAsset env assetId chain source wallet amount ctx = (.error e, ctx')) :
    Makes env [] ctx ctx' ∨ ∃ config amountDec amountU128,
      ctx.frameworkState.assetConfigs.find? chain assetId = some config ∧
      config.toU128 env.arith amount = .ok (amountDec, amountU128) ∧
      (Makes env [.account (.burn source assetId amountDec) source] ctx ctx' ∨
        Makes env (debitEffects assetId chain source amountDec amount) ctx ctx') := by
  simp only [withdrawAsset, bind_eq_error, get_ne_error, get_eq_ok, lift_eq_error, lift_eq_ok,
    getChain_eq_ok, false_or] at h
  obtain ⟨_, _, ⟨rfl, rfl⟩, h⟩ := h
  rcases h with ⟨-, rfl⟩ | ⟨config, _, ⟨hconfig, rfl⟩, ⟨-, rfl⟩ |
    ⟨⟨amountDec, amountU128⟩, _, ⟨hamount, rfl⟩, hburn | ⟨_, c₁, hburn, h⟩⟩⟩
  · exact .inl (.refl ctx)
  · exact .inl (.refl ctx)
  · exact .inl (burnAsset_error hburn)
  · have h₁ := account_makes_of hburn rfl
    refine .inr ⟨config, amountDec, amountU128, getAssetConfig_eq_ok hconfig, hamount, ?_⟩
    rcases h with h | ⟨state, _, ⟨hstate, rfl⟩, ⟨-, rfl⟩ | ⟨state', _, ⟨hwithdraw, rfl⟩,
      h | ⟨_, c₂, hperform, h⟩⟩⟩
    · rw [getChain_error h]
      exact .inl h₁
    · exact .inl h₁
    · simp [perform] at h
    · have h₂ := perform_makes hperform ⟨state, state', hstate, hwithdraw⟩
      obtain rfl := (addAction_error h).resolve_left he
      exact .inr (h₁.trans h₂)

theorem transferAsset_error {assetId : AssetId} {source dest : AccountId} {amount : Decimal}
    (he : e ≠ .panic)
    (h : transferAsset env assetId source dest amount ctx = (.error e, ctx')) :
    Makes env [] ctx ctx' := by
  simp only [transferAsset, burnAsset, mintAsset, bind_eq_error, bind_eq_ok, pure_ne_error,
    pure_eq_ok, and_false, exists_false, or_false] at h
  rcases h with h | ⟨_, c, ⟨_, _, hburn, -, rfl⟩, h⟩
  · exact burnAsset_error h
  · -- The amount has passed the same check in the burn, so only a panic is left.
    have hlegal : ((Accounts.Op.burn source assetId amount).run env.arith
        ctx.frameworkState.accounts).1 = .ok source :=
      (Labelled.Trace.cons_iff.mp (account_makes_of hburn rfl).2.1).1
    obtain ⟨accounts, hmint, -⟩ := account_eq_error h
    rcases hrun : (Accounts.Op.burn source assetId amount).run env.arith
      ctx.frameworkState.accounts with ⟨e' | id, accounts'⟩
    · simp [hrun] at hlegal
    · simp only [Accounts.Op.run, bind_eq_ok, bind_eq_error, pure_eq_ok, pure_ne_error,
        and_false, exists_false, or_false] at hrun hmint
      obtain ⟨_, _, hrun, -⟩ := hrun
      exact absurd (mint_error_of_pos (Accounts.burn_eq_ok hrun).1 hmint) he

theorem getLoad_makes {req : DataRequest} {handling : BlockDataHandling}
    {r : Except Error String} (h : getLoad req handling ctx = (r, ctx')) :
    Makes env [] ctx ctx' := by
  cases handling with
  | noPriorData =>
    obtain ⟨-, rfl⟩ := Prod.mk.inj h
    exact .refl ctx
  | priorData loads validation =>
    cases loads with
    | nil =>
      obtain ⟨-, rfl⟩ := Prod.mk.inj h
      exact .refl ctx
    | cons load loads =>
      obtain ⟨-, rfl⟩ := Prod.mk.inj h
      exact .of_eq rfl rfl ⟨rfl, rfl, rfl, rfl, rfl⟩

/-- Loading data changes neither the framework state nor the record. -/
theorem loadData_makes {req : DataRequest} {r : Except Error String}
    (h : loadData req ctx = (r, ctx')) : Makes env [] ctx ctx' := by
  cases r with
  | error e =>
    simp only [loadData, bind_eq_error, get_ne_error, get_eq_ok, modify_ne_error, modify_eq_ok,
      pure_ne_error, and_false, exists_false, or_false, false_or] at h
    obtain ⟨_, _, ⟨rfl, rfl⟩, h⟩ := h
    exact getLoad_makes h
  | ok res =>
    simp only [loadData, bind_eq_ok, get_eq_ok, modify_eq_ok, pure_eq_ok] at h
    obtain ⟨_, _, ⟨rfl, rfl⟩, _, c, h, _, _, rfl, rfl, rfl⟩ := h
    have h₁ : Makes env [] ctx c := getLoad_makes h
    exact h₁.trans (.of_eq rfl rfl ⟨rfl, rfl, rfl, rfl, rfl⟩)

/-- Whatever a call of an app returns short of a panic, it makes at most one block. -/
theorem call_leads {c : AppCall} {r : Except Error AppReply} (hr : r ≠ .error .panic)
    (h : c.run env ctx = (r, ctx')) : Leads env (AppCall.Block env · c) ctx ctx' := by
  have nothing {c₁ : ExecutionContext S} (h : Makes env [] ctx c₁) :
      Leads env (AppCall.Block env · c) ctx c₁ := ⟨[], h.1, h.2.1, .nil, h.2.2⟩
  cases r with
  | ok reply =>
    cases c with
    | getOrAddAccountIdForKey key =>
      simp only [AppCall.run, bind_eq_ok, pure_eq_ok] at h
      obtain ⟨id, _, h, -, rfl⟩ := h
      exact (account_makes h).1.leads (.accountForKey key id)
    | getOrAddAccountIdForWallet wallet =>
      simp only [AppCall.run, bind_eq_ok, pure_eq_ok] at h
      obtain ⟨id, _, h, -, rfl⟩ := h
      exact (account_makes h).1.leads (.accountForWallet wallet id)
    | withdrawAsset assetId chain source wallet amount =>
      simp only [AppCall.run, bind_eq_ok, pure_eq_ok] at h
      obtain ⟨id, _, h, -, rfl⟩ := h
      obtain ⟨config, amountDec, amountU128, payload, hconfig, hamount, hmakes⟩ :=
        withdrawAsset_makes h
      exact hmakes.leads (.withdraw payload hconfig hamount)
    | transferAsset assetId source dest amount =>
      simp only [AppCall.run, bind_eq_ok, pure_eq_ok] at h
      obtain ⟨_, _, h, -, rfl⟩ := h
      exact (transferAsset_makes h).leads (.transfer assetId source dest amount)
    | mintAsset assetId recipient amount =>
      simp only [AppCall.run, bind_eq_ok, pure_eq_ok] at h
      obtain ⟨_, _, h, -, rfl⟩ := h
      exact (mintAsset_makes h).leads (.mint assetId recipient amount)
    | burnAsset assetId owner amount =>
      simp only [AppCall.run, bind_eq_ok, pure_eq_ok] at h
      obtain ⟨_, _, h, -, rfl⟩ := h
      exact (burnAsset_makes h).leads (.burn assetId owner amount)
    | loadData req =>
      simp only [AppCall.run, bind_eq_ok, pure_eq_ok] at h
      obtain ⟨_, _, h, -, rfl⟩ := h
      exact nothing (loadData_makes h)
    | log msg =>
      simp only [AppCall.run, bind_eq_ok, pure_eq_ok] at h
      obtain ⟨_, _, h, -, rfl⟩ := h
      exact nothing (log_makes h)
  | error e =>
    have he : e ≠ .panic := fun he => hr (by rw [he])
    cases c with
    | getOrAddAccountIdForKey key =>
      simp only [AppCall.run, bind_eq_error, pure_ne_error, and_false, exists_false, or_false] at h
      obtain ⟨accounts, hrun, -⟩ := account_eq_error h
      simp only [Accounts.Op.run, Accounts.getOrAddAccountForKey, bind_eq_error, get_ne_error,
        get_eq_ok, false_or] at hrun
      obtain ⟨_, _, ⟨rfl, rfl⟩, hrun⟩ := hrun
      cases hkey : ctx.frameworkState.accounts.pubkeys.get? key with
      | some id => simp [hkey] at hrun
      | none => simp [hkey, bind_eq_error] at hrun
    | getOrAddAccountIdForWallet wallet =>
      simp only [AppCall.run, bind_eq_error, pure_ne_error, and_false, exists_false, or_false] at h
      obtain ⟨accounts, hrun, -⟩ := account_eq_error h
      simp only [Accounts.Op.run, Accounts.getOrAddAccountForWallet, bind_eq_error, get_ne_error,
        get_eq_ok, false_or] at hrun
      obtain ⟨_, _, ⟨rfl, rfl⟩, hrun⟩ := hrun
      cases hwallet : ctx.frameworkState.accounts.wallets.get? wallet with
      | some id =>
        simp only [hwallet, bind_eq_error, ensure_eq_error, pure_ne_error, and_false,
          exists_false, or_false] at hrun
        exact absurd hrun.1.2.symm he
      | none => simp [hwallet, bind_eq_error] at hrun
    | withdrawAsset assetId chain source wallet amount =>
      simp only [AppCall.run, bind_eq_error, pure_ne_error, and_false, exists_false, or_false] at h
      rcases withdrawAsset_error he h with hmakes |
        ⟨config, amountDec, amountU128, hconfig, hamount, hmakes | hmakes⟩
      · exact nothing hmakes
      · exact hmakes.leads (.withdrawBurn hconfig hamount)
      · exact hmakes.leads (.withdrawDebit hconfig hamount)
    | transferAsset assetId source dest amount =>
      simp only [AppCall.run, bind_eq_error, pure_ne_error, and_false, exists_false, or_false] at h
      exact nothing (transferAsset_error he h)
    | mintAsset assetId recipient amount =>
      simp only [AppCall.run, mintAsset, bind_eq_error, pure_ne_error, and_false, exists_false,
        or_false] at h
      exact nothing (mintAsset_error h)
    | burnAsset assetId owner amount =>
      simp only [AppCall.run, burnAsset, bind_eq_error, pure_ne_error, and_false, exists_false,
        or_false] at h
      exact nothing (burnAsset_error h)
    | loadData req =>
      simp only [AppCall.run, bind_eq_error, pure_ne_error, and_false, exists_false, or_false] at h
      exact nothing (loadData_makes h)
    | log msg =>
      simp only [AppCall.run, bind_eq_error, pure_ne_error, and_false, exists_false, or_false] at h
      exact absurd (log_error h) he

end AppCalls

end ExecutionContext

/-! ## Apps -/

/-- Every call that a program can make satisfies `Q`. -/
def AppProgram.Only {S : Type} (Q : AppCall → Prop) : AppProgram S → Prop
  | .done _ => True
  | .fail _ => True
  | .call c next => Q c ∧ ∀ reply fs, (next reply fs).Only Q

/-- An app makes only the given calls for each of its messages. -/
def App.Only (app : App) (calls : app.Message → AppCall → Prop) : Prop :=
  ∀ world view msg, (app.execute world view msg).Only (calls msg)

theorem AppProgram.only_true {S : Type} (p : AppProgram S) : p.Only fun _ => True := by
  induction p with
  | done | fail => trivial
  | call c next ih => exact ⟨trivial, ih⟩

section

open ExecutionContext

variable {S : Type} {env : Externals}

/-- After a call that does not panic the program goes on with the reply. -/
theorem AppProgram.run_call {c : AppCall} {next : Except Error AppReply → FrameworkState →
    AppProgram S} {ctx c₁ : ExecutionContext S} {r : Except Error AppReply}
    (hrun : c.run env ctx = (r, c₁)) (hr : r ≠ .error .panic) :
    (AppProgram.call c next).run env ctx = (next r c₁.frameworkState).run env c₁ := by
  simp only [run, hrun]

/-- What a successful program did is a sequence of blocks of its calls. -/
theorem AppProgram.run_leads {Q : AppCall → Prop} {p : AppProgram S} (hQ : p.Only Q)
    {ctx ctx' : ExecutionContext S} {u : Unit} (h : p.run env ctx = (.ok u, ctx')) :
    Leads env (fun cfg b => ∃ c, Q c ∧ c.Block env cfg b) ctx ctx' := by
  induction p generalizing ctx with
  | done state =>
    obtain rfl := modify_eq_ok.mp h
    exact .of_eq rfl rfl ⟨rfl, rfl, rfl, rfl, rfl⟩
  | fail e => simp [run] at h
  | call c next ih =>
    obtain ⟨hc, hnext⟩ := hQ
    rcases hrun : c.run env ctx with ⟨r, c₁⟩
    have hr : r ≠ .error .panic := by
      rintro rfl
      simp [run, hrun] at h
    have hrest : (next r c₁.frameworkState).run env c₁ = (.ok u, ctx') := by
      rwa [run_call hrun hr] at h
    exact ((call_leads hr hrun).mono fun b hb => ⟨c, hc, hb⟩).trans
      (ih r c₁.frameworkState (hnext r _) hrest)

end

/-! ## Transactions -/

section

open ExecutionContext

variable {app : App} {env : Externals} {calls : app.Message → AppCall → Prop}

theorem executeMessage_leads (hcalls : app.Only calls) {world : app.World}
    {message : Message app.Message} {ctx ctx' : ExecutionContext app.State} {u : Unit}
    (hkey : ctx.signingKey = ctx.pubkey)
    (h : executeMessage env world message ctx = (.ok u, ctx')) :
    Leads env (MessageBlocks env calls ctx.pubkey ctx.sender message) ctx ctx' := by
  cases message with
  | genesis actual =>
    obtain ⟨-, rfl⟩ := ensure_eq_ok.mp h
    exact .refl ctx
  | app msg =>
    simp only [executeMessage, bind_eq_ok, get_eq_ok] at h
    obtain ⟨_, _, ⟨rfl, rfl⟩, h⟩ := h
    refine (AppProgram.run_leads (hcalls world ctx.view msg) h).mono ?_
    rintro b ⟨c, hc, hb⟩
    exact .app hc hb
  | listener chain eventId event => exact listener_leads h
  | approve chain actionId signature => exact approve_leads h
  | processorApprove chain actionId processor approvers => exact processorApprove_leads h
  | bank msg => exact bank_leads h
  | auth msg => exact auth_leads hkey h
  | admin msg => exact admin_leads h

/-- The blocks of the messages of a transaction. -/
def TxBlock (env : Externals) (calls : app.Message → AppCall → Prop) (pubkey : PublicKey)
    (sender : AccountId) (messages : List (Message app.Message)) (cfg : AssetConfigs)
    (b : List Effect) : Prop :=
  ∃ message ∈ messages, message.Block env pubkey sender calls cfg b

/-- What the execution of every message of a transaction is made of the whole execution is made
of. -/
theorem executeMessages_leads_of {B : AssetConfigs → List Effect → Prop} {world : app.World}
    {messages : List (Message app.Message)} {ctx ctx' : ExecutionContext app.State} {u : Unit}
    (hB : ∀ message ∈ messages, ∀ s s', ctx.SameTx s →
      executeMessage env world message s = (.ok (), s') → Leads env B s s')
    (h : executeMessages env world messages ctx = (.ok u, ctx')) : Leads env B ctx ctx' := by
  refine forEach_induction (R := fun a b => ctx.SameTx a → Leads env B a b)
    (fun s _ => .refl s) ?_ ?_ h (.refl ctx)
  · intro s t v hst htv hs
    have hlead := hst hs
    obtain ⟨_, -, -, -, hsame⟩ := hlead
    exact (hst hs).trans (htv (hs.trans hsame))
  · intro message hmem s s' h hs
    simp only [bind_eq_ok, modify_eq_ok] at h
    obtain ⟨_, _, rfl, h⟩ := h
    have hlogs : Leads env B s { s with logs := s.logs ++ [[]] } :=
      .of_eq rfl rfl ⟨rfl, rfl, rfl, rfl, rfl⟩
    exact hlogs.trans (hB message hmem _ s' ⟨hs.1, hs.2, hs.3, hs.4, hs.5⟩ h)

theorem executeMessages_leads (hcalls : app.Only calls) {world : app.World}
    {messages : List (Message app.Message)} {ctx ctx' : ExecutionContext app.State} {u : Unit}
    (hkey : ctx.signingKey = ctx.pubkey)
    (h : executeMessages env world messages ctx = (.ok u, ctx')) :
    Leads env (TxBlock env calls ctx.pubkey ctx.sender messages) ctx ctx' := by
  refine executeMessages_leads_of (fun message hmem s s' hs h => ?_) h
  have hlead := executeMessage_leads hcalls (by rw [hs.signingKey, hkey, hs.pubkey]) h
  rw [hs.pubkey, hs.sender] at hlead
  exact hlead.mono fun b hb => ⟨message, hmem, hb⟩

namespace Node

variable {self self' : Node app} {call : Call app}

/-- The context in which the messages of a transaction start. -/
theorem start_eq_ok {ctx : ExecutionContext app.State} (h : self.start env call = .ok ctx) :
    ∃ sender, self.validateTx env call.tx = .ok () ∧
      self.frameworkState.version = call.codeVersion ∧
      (Effect.account (.useNonce call.tx.message.value.pubkey call.tx.message.value.nonce)
        sender).Legal env self.frameworkState ∧
      ctx = {
        frameworkState := (Effect.account (.useNonce call.tx.message.value.pubkey
          call.tx.message.value.nonce) sender).apply env self.frameworkState
        appState := self.appState
        blockDataHandling := call.handling
        pubkey := call.tx.message.value.pubkey
        sender
        signingKey := call.tx.message.value.pubkey
        timestamp := call.timestamp
        logs := []
        loads := []
        height := self.nextHeight
        history := [.account (.useNonce call.tx.message.value.pubkey
          call.tx.message.value.nonce) sender] } := by
  simp only [start, Except.bind_eq_ok, Except.ensure_eq_ok, Except.exists_unit, Except.pure_eq_ok,
    Except.ok.injEq] at h
  obtain ⟨hversion, hvalid, sender, hsender, rfl⟩ := h
  exact ⟨sender, hvalid, hversion, hsender, rfl⟩

/-- The results of a transaction are read off the context in which its messages end. -/
theorem executeTransaction_iff {results : ExecutionResults app.State} :
    self.executeTransaction env call = .ok results ↔
      ∃ ctx c, self.start env call = .ok ctx ∧
        executeMessages env call.world call.tx.message.value.messages ctx = (.ok (), c) ∧
        c.blockDataHandling.finish = .ok () ∧
        results = ⟨c.frameworkState, c.appState, c.logs, c.loads, c.height, c.history⟩ := by
  simp only [executeTransaction, Except.bind_eq_ok]
  constructor
  · rintro ⟨ctx, hstart, h⟩
    rcases hrun : executeMessages env call.world call.tx.message.value.messages ctx
      with ⟨_ | ⟨⟨⟩⟩, c⟩
    · simp [hrun] at h
    · simp only [hrun, Except.bind_eq_ok, Except.pure_eq_ok, Except.ok.injEq] at h
      obtain ⟨⟨⟩, hfinish, rfl⟩ := h
      exact ⟨ctx, c, hstart, hrun, hfinish, rfl⟩
  · rintro ⟨ctx, c, hstart, hrun, hfinish, rfl⟩
    exact ⟨ctx, hstart, by simp [hrun, hfinish]⟩

/-- A successful transaction uses the nonce and then does what its messages do. -/
theorem executeTransaction_leads_of {results : ExecutionResults app.State}
    {B : AccountId → AssetConfigs → List Effect → Prop}
    (hB : ∀ message ∈ call.tx.message.value.messages, ∀ s s',
      s.pubkey = call.tx.message.value.pubkey → s.signingKey = s.pubkey →
      executeMessage env call.world message s = (.ok (), s') → Leads env (B s.sender) s s')
    (h : self.executeTransaction env call = .ok results) :
    ∃ sender es, results.history = .account (.useNonce call.tx.message.value.pubkey
        call.tx.message.value.nonce) sender :: es ∧
      (effects env).Trace self.frameworkState results.history results.frameworkState ∧
      Blocks (B sender self.frameworkState.assetConfigs) es ∧
      self.validateTx env call.tx = .ok () ∧ results.height = self.nextHeight := by
  obtain ⟨ctx, c, hstart, hrun, -, rfl⟩ := executeTransaction_iff.mp h
  obtain ⟨sender, hvalid, -, hlegal, hctx⟩ := start_eq_ok hstart
  have hlead : Leads env (B sender) ctx c := by
    refine executeMessages_leads_of (fun message hmem s s' hs h => ?_) hrun
    have hsender : s.sender = sender := hs.sender.trans (by rw [hctx])
    have hlead := hB message hmem s s' (hs.pubkey.trans (by rw [hctx]))
      (by rw [hs.signingKey, hs.pubkey, hctx]) h
    rwa [hsender] at hlead
  obtain ⟨es, hhistory, htrace, hblocks, hsame⟩ := hlead
  subst hctx
  refine ⟨sender, es, hhistory, ?_, ?_, hvalid, hsame.height⟩
  · change (effects env).Trace self.frameworkState c.history c.frameworkState
    rw [hhistory]
    exact .cons hlegal htrace
  · rwa [Effect.assetConfigs_apply] at hblocks

/-- A successful transaction uses the nonce and then makes the blocks of its messages. -/
theorem executeTransaction_eq_ok {results : ExecutionResults app.State}
    (hcalls : app.Only calls) (h : self.executeTransaction env call = .ok results) :
    ∃ sender es, results.history = .account (.useNonce call.tx.message.value.pubkey
        call.tx.message.value.nonce) sender :: es ∧
      (effects env).Trace self.frameworkState results.history results.frameworkState ∧
      Blocks (TxBlock env calls call.tx.message.value.pubkey sender call.tx.message.value.messages
        self.frameworkState.assetConfigs) es ∧
      self.validateTx env call.tx = .ok () ∧ results.height = self.nextHeight := by
  refine executeTransaction_leads_of (B := fun sender => TxBlock env calls
    call.tx.message.value.pubkey sender call.tx.message.value.messages) ?_ h
  intro message hmem s s' hpubkey hkey h
  have hlead := executeMessage_leads hcalls hkey h
  rw [hpubkey] at hlead
  exact hlead.mono fun b hb => ⟨message, hmem, hb⟩

theorem step_eq_ok (h : (machine env).step self call = .ok self') :
    ∃ results, self.executeTransaction env call = .ok results ∧ self' = self.advance results := by
  simp only [machine, Except.bind_eq_ok, Except.pure_eq_ok, Except.ok.injEq] at h
  obtain ⟨results, hresults, rfl⟩ := h
  exact ⟨results, hresults, rfl⟩

theorem step_of_ok {results : ExecutionResults app.State}
    (h : self.executeTransaction env call = .ok results) :
    (machine env).step self call = .ok (self.advance results) := by
  simp [machine, h]

/-- The genesis state is the blank state of a valid validator set. -/
theorem genesis_eq_ok (h : genesis app = .ok self) :
    self.frameworkState = FrameworkState.new app.genesisInfo ∧ self.nextHeight = 0 ∧
      self.history = [] ∧ app.genesisInfo.validatorSet.WellFormed := by
  simp only [genesis, Except.bind_eq_ok, Except.pure_eq_ok, Except.ok.injEq] at h
  obtain ⟨appState, -, ⟨⟩, hvalid, rfl⟩ := h
  refine ⟨rfl, rfl, rfl, ?_⟩
  cases hval : app.genesisInfo.validatorSet.validate with
  | error e =>
    simp [FrameworkState.new, hval, Except.mapError] at hvalid
  | ok v => exact ValidatorSet.validate_eq_ok.mp hval

/-- The history leads from genesis to the state. -/
def HasTrace (env : Externals) (self : Node app) : Prop :=
  (effects env).Trace (FrameworkState.new app.genesisInfo) self.history self.frameworkState

theorem hasTrace_step (h : (machine env).step self call = .ok self')
    (htrace : self.HasTrace env) : self'.HasTrace env := by
  obtain ⟨results, hresults, rfl⟩ := step_eq_ok h
  have hcalls : app.Only fun _ _ => True := fun _ _ _ => AppProgram.only_true _
  obtain ⟨sender, es, -, htrace', -⟩ := executeTransaction_eq_ok hcalls hresults
  exact htrace.append htrace'

/-- The history of a reachable node leads from genesis to its state. -/
theorem Reachable.trace (h : self.Reachable env) : self.HasTrace env := by
  obtain ⟨start, callList, hstart, rfl⟩ := h
  obtain ⟨hfs, -, hhistory, -⟩ := genesis_eq_ok hstart
  refine (machine env).run_invariant (I := HasTrace env)
    (fun s i s' htrace hstep => hasTrace_step hstep htrace) ?_ callList
  rw [HasTrace, hhistory, hfs]
  exact .nil _

end Node

end

end Kolme
