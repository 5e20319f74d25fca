import Kolme.Core.Chains
import Kolme.Properties.Governance

/-!
# Nothing ready is left behind

A report drains the queue of its chain and a vote enacts an approved proposal. So between
transactions no event and no proposal waits that has its quorum, as long as no change of the
validator set completes a quorum: such a change is not followed by these checks.
-/

namespace Kolme

variable {env : Externals}

/-- No chain's lowest pending event has a quorum of the set. -/
def EventsSettled (set : ValidatorSet) (chains : SortedMap ExternalChain ChainState) : Prop :=
  ∀ chain state eventId pending, chains.get? chain = some state →
    state.pendingEvents.first? = some (eventId, pending) →
    (pending.attestations ∩ set.listeners).card < set.neededListeners.val

/-- No pending proposal has sufficient approvals of the set. -/
def ProposalsSettled (set : ValidatorSet) (state : AdminProposalState) : Prop :=
  ∀ id pending, state.proposals.get? id = some pending →
    pending.hasSufficientApprovals set = false

/-- Nothing ready waits. -/
structure Settled (fs : FrameworkState) : Prop where
  events : EventsSettled fs.validatorSet fs.chains
  proposals : ProposalsSettled fs.validatorSet fs.adminProposalState

/-- The set that is installed completes no quorum. -/
def QuietChange (fs : FrameworkState) : Effect → Prop
  | .replaceValidator signed key =>
    let set := fs.validatorSet.replaceValidator signed.message.value.validatorType key
      signed.message.value.replacement
    EventsSettled set fs.chains ∧ ProposalsSettled set fs.adminProposalState
  | .enact _ (.newSet set) => EventsSettled set.value fs.chains
  | _ => True

/-- No change of the validator set on the way completes a quorum. -/
def QuietTrace (env : Externals) (fs : FrameworkState) (es : List Effect) : Prop :=
  ∀ past e future fs', es = past ++ e :: future → (effects env).Trace fs past fs' →
    QuietChange fs' e

namespace QuietTrace

variable {fs fs' : FrameworkState} {es es' : List Effect} {e : Effect}

theorem left (h : QuietTrace env fs (es ++ es')) : QuietTrace env fs es :=
  fun past e future fs' heq htrace => h past e (future ++ es') fs' (by simp [heq]) htrace

theorem right (h : QuietTrace env fs (es ++ es')) (htrace : (effects env).Trace fs es fs') :
    QuietTrace env fs' es' :=
  fun past e future fs' heq hpast => h (es ++ past) e future fs' (by simp [heq])
    (htrace.append hpast)

theorem head (h : QuietTrace env fs (e :: es)) : QuietChange fs e :=
  h [] e es fs rfl (.nil _)

end QuietTrace

/-! ## Changes that complete no quorum -/

/-- The change touches neither the queue of events nor proposals nor the validator set. -/
def Effect.Inert : Effect → Prop
  | account _ _ | deploy _ _ | deposit _ _ _ | confirmAction _ _ | approveAction _ _ _ _
  | processorApprove _ _ _ _ | withdraw _ _ _ | emit _ _ _ => True
  | newEvent _ _ | attest _ _ _ _ | takeEvent _ _ _ | replaceValidator _ _ | propose _ _ _
  | vote _ _ _ | enact _ _ | clearProposals => False

/-- The queues of events are the same. -/
def SameEvents (fs fs' : FrameworkState) : Prop :=
  ∀ chain, (fs'.chains.get? chain).map ChainState.pendingEvents =
    (fs.chains.get? chain).map ChainState.pendingEvents

theorem SameEvents.exists {fs fs' : FrameworkState} {chain : ExternalChain} {state : ChainState}
    (h : SameEvents fs fs') (hstate : fs.chains.get? chain = some state) :
    ∃ state', fs'.chains.get? chain = some state' ∧
      state'.pendingEvents = state.pendingEvents := by
  have heq := h chain
  rw [hstate] at heq
  obtain ⟨state', hstate', heq⟩ := Option.map_eq_some_iff.mp heq
  exact ⟨state', hstate', heq⟩

theorem SameEvents.symm {fs fs' : FrameworkState} (h : SameEvents fs fs') : SameEvents fs' fs :=
  fun chain => (h chain).symm

theorem EventsSettled.of_same {fs fs' : FrameworkState} {set : ValidatorSet}
    (h : EventsSettled set fs.chains) (hsame : SameEvents fs fs') :
    EventsSettled set fs'.chains := by
  intro chain state' eventId pending hstate' hfirst
  obtain ⟨state, hstate, heq⟩ := hsame.symm.exists hstate'
  exact h chain state eventId pending hstate (heq ▸ hfirst)

/-- A change that is no report, attestation or event taking effect. -/
theorem Effect.sameEvents {fs : FrameworkState} {e : Effect}
    (hnew : ∀ chain event, e ≠ newEvent chain event)
    (hattest : ∀ chain id event key, e ≠ attest chain id event key)
    (htake : ∀ chain id event, e ≠ takeEvent chain id event) :
    SameEvents fs (e.apply env fs) := by
  intro chain
  rw [get?_chains_apply]
  split
  · rw [Option.map_map]
    exact congrArg (Option.map · _) (funext fun state =>
      (pendingEvents_updated state hnew hattest htake).1)
  · rfl

theorem Settled.inert {fs : FrameworkState} {e : Effect} (h : Settled fs) (he : e.Inert) :
    Settled (e.apply env fs) := by
  have hsame : SameEvents fs (e.apply env fs) :=
    Effect.sameEvents (by rintro _ _ rfl; exact he) (by rintro _ _ _ _ rfl; exact he)
      (by rintro _ _ _ rfl; exact he)
  have hset : (e.apply env fs).validatorSet = fs.validatorSet := by
    rw [Effect.validatorSet_apply]
    cases e <;> first | rfl | exact he.elim
  have hproposals : (e.apply env fs).adminProposalState = fs.adminProposalState := by
    rw [Effect.adminProposalState_apply]
    cases e <;> first | rfl | exact he.elim
  refine ⟨?_, ?_⟩
  · rw [hset]
    exact h.events.of_same hsame
  · rw [hset, hproposals]
    exact h.proposals

theorem Settled.inert_trace {fs fs' : FrameworkState} {es : List Effect} (h : Settled fs)
    (htrace : (effects env).Trace fs es fs') (hes : ∀ e ∈ es, e.Inert) : Settled fs' :=
  htrace.invariant h fun e he _ _ hfs => hfs.inert (hes e he)

theorem Emissions.inert {action : ExecAction} {es : List Effect} (h : Emissions action es) :
    ∀ e ∈ es, e.Inert := by
  intro e he
  obtain ⟨chain, payload, rfl⟩ := h e he
  trivial

theorem creditEffects_inert {cfg : AssetConfigs} {chain : ExternalChain} {id : AccountId}
    {fund : BridgedAssetAmount} : ∀ e ∈ creditEffects env cfg chain id fund, e.Inert := by
  intro e he
  unfold creditEffects at he
  split at he
  · simp at he
  · split at he
    · simp at he
    · rcases List.mem_pair.mp he with rfl | rfl <;> trivial

/-- Once an event has left the queue, its effect is on accounts and on its chain only. -/
theorem EventBlock.tail {cfg : AssetConfigs} {chain : ExternalChain} {e : Effect}
    {es : List Effect} (hb : EventBlock env cfg chain (e :: es)) :
    (∃ eventId event, e = .takeEvent chain eventId event) ∧ (∀ e ∈ es, e.Inert) ∧
      ∀ e ∈ es, e.chain? = some chain ∨ ∃ op id, e = .account op id := by
  generalize heq : e :: es = b at hb
  cases hb with
  | instantiated | signed =>
    obtain ⟨rfl, rfl⟩ := List.cons.inj heq
    exact ⟨⟨_, _, rfl⟩, by simp [Effect.Inert], by simp [Effect.chain?]⟩
  | regular eventId wallet funds keys id =>
    obtain ⟨rfl, rfl⟩ := List.cons.inj heq
    refine ⟨⟨_, _, rfl⟩, fun e he => ?_, fun e he => ?_⟩
    · simp only [List.mem_cons, List.mem_append, List.mem_map, List.mem_flatMap] at he
      rcases he with rfl | ⟨key, -, rfl⟩ | ⟨fund, -, hfund⟩
      · trivial
      · trivial
      · exact creditEffects_inert e hfund
    · simp only [List.mem_cons, List.mem_append, List.mem_map, List.mem_flatMap] at he
      rcases he with rfl | ⟨key, -, rfl⟩ | ⟨fund, -, hfund⟩
      · exact .inr ⟨_, _, rfl⟩
      · exact .inr ⟨_, _, rfl⟩
      · unfold creditEffects at hfund
        split at hfund
        · simp at hfund
        · split at hfund
          · simp at hfund
          · rcases List.mem_pair.mp hfund with rfl | rfl
            · exact .inr ⟨_, _, rfl⟩
            · exact .inl rfl

/-- What a report of an event changes: its chain and accounts. -/
theorem listener_about {M : Type} {calls : M → AppCall → Prop} {cfg : AssetConfigs}
    {pubkey : PublicKey} {sender : AccountId} {chain : ExternalChain} {eventId : BridgeEventId}
    {event : BridgeEvent} {b : List Effect}
    (hb : (Message.listener chain eventId event : Message M).Block env pubkey sender calls cfg b) :
    ∀ e ∈ b, e.chain? = some chain ∨ ∃ op id, e = .account op id := by
  cases hb with
  | newEvent | attest => simp [Effect.chain?]
  | event _ _ hb =>
    cases b with
    | nil => simp
    | cons e es =>
      obtain ⟨⟨id, event', rfl⟩, -, htail⟩ := hb.tail
      exact List.forall_mem_cons.mpr ⟨.inl rfl, htail⟩

/-- Changes of one chain and of accounts leave everything else alone. -/
theorem frame_of_about {chain : ExternalChain} {fs fs' : FrameworkState} {es : List Effect}
    (htrace : (effects env).Trace fs es fs')
    (hes : ∀ e ∈ es, e.chain? = some chain ∨ ∃ op id, e = .account op id) :
    fs'.validatorSet = fs.validatorSet ∧ fs'.adminProposalState = fs.adminProposalState ∧
      ∀ c, c ≠ chain → fs'.chains.get? c = fs.chains.get? c := by
  refine htrace.invariant (I := fun fs' => fs'.validatorSet = fs.validatorSet ∧
    fs'.adminProposalState = fs.adminProposalState ∧
    ∀ c, c ≠ chain → fs'.chains.get? c = fs.chains.get? c) ⟨rfl, rfl, fun _ _ => rfl⟩ ?_
  intro e he t _ ⟨hset, hproposals, hchains⟩
  refine ⟨?_, ?_, fun c hc => ?_⟩
  · change (e.apply env t).validatorSet = _
    rw [Effect.validatorSet_apply]
    rcases hes e he with h | ⟨op, id, rfl⟩
    · cases e <;> first | exact hset | cases h
    · exact hset
  · change (e.apply env t).adminProposalState = _
    rw [Effect.adminProposalState_apply]
    rcases hes e he with h | ⟨op, id, rfl⟩
    · cases e <;> first | exact hproposals | cases h
    · exact hproposals
  · change (e.apply env t).chains.get? c = _
    rw [Effect.get?_chains_apply]
    rcases hes e he with h | ⟨op, id, rfl⟩
    · rw [h, if_neg (by simpa using hc.symm)]
      exact hchains c hc
    · exact hchains c hc

/-! ## Handlers -/

namespace ExecutionContext

open Exec

variable {S : Type} {ctx ctx' : ExecutionContext S} {u : Unit}

theorem sameEvents_of_inert {fs fs' : FrameworkState} {es : List Effect}
    (htrace : (effects env).Trace fs es fs') (hes : ∀ e ∈ es, e.Inert) : SameEvents fs fs' := by
  refine htrace.invariant (I := fun t => SameEvents fs t) (fun _ => rfl)
    fun e he t _ hsame chain => ?_
  have hone : SameEvents t (e.apply env t) :=
    Effect.sameEvents (by rintro _ _ rfl; exact hes _ he) (by rintro _ _ _ _ rfl; exact hes _ he)
      (by rintro _ _ _ rfl; exact hes _ he)
  exact (hone chain).trans (hsame chain)

/-- The loop goes on until no event of the chain is ready. -/
theorem drainEvents_drained {chain : ExternalChain} {fuel : Nat} {state : ChainState}
    (hstate : ctx.frameworkState.chains.get? chain = some state)
    (hfuel : state.pendingEvents.toList.length ≤ fuel)
    (h : drainEvents env chain fuel ctx = (.ok u, ctx')) :
    ctx'.frameworkState.getNextReadyEvent chain = .ok none := by
  induction fuel generalizing ctx state with
  | zero =>
    obtain ⟨-, rfl⟩ := pure_eq_ok.mp h
    have hnil : state.pendingEvents.toList = [] := List.length_eq_zero_iff.mp (by omega)
    simp [FrameworkState.getNextReadyEvent, hstate, SortedMap.first?, hnil]
  | succ fuel ih =>
    rcases drainEvents_succ_eq_ok h with ⟨hnone, rfl⟩ |
      ⟨state', eventId, pending, c₁, c₂, hready, hstate', hpending, htake, hprocess, hrest⟩
    · exact hnone
    · obtain rfl := Option.some.inj (hstate.symm.trans hstate')
      have h₁ := perform_makes htake ⟨hready, state, pending, hstate, hpending, rfl⟩
      have hfs₁ : c₁.frameworkState = (Effect.takeEvent chain eventId pending.event).apply env
          ctx.frameworkState := h₁.2.1.eq_foldl
      obtain ⟨es, hblock, h₂⟩ := processEvent_makes hprocess
      -- The event left the queue, and its effect adds none.
      have hsame := sameEvents_of_inert h₂.2.1 hblock.tail.2.1
      have hstate₁ : c₁.frameworkState.chains.get? chain = some (state.takeEvent eventId) := by
        have hchain : (Effect.takeEvent chain eventId pending.event).chain? = some chain := rfl
        rw [hfs₁, Effect.get?_chains_apply, if_pos hchain, hstate]
        rfl
      obtain ⟨state₂, hstate₂, heq⟩ := hsame.exists hstate₁
      refine ih hstate₂ ?_ hrest
      rw [heq]
      have hlength := SortedMap.length_erase hpending
      change (state.pendingEvents.erase eventId).toList.length ≤ fuel
      omega

/-- One context leads to another by recorded changes, and nothing ready is left behind on the way
if no change of the validator set completes a quorum. -/
def Settles (env : Externals) (ctx ctx' : ExecutionContext S) : Prop :=
  ∃ es, ctx'.history = ctx.history ++ es ∧
    (effects env).Trace ctx.frameworkState es ctx'.frameworkState ∧
    (Settled ctx.frameworkState → QuietTrace env ctx.frameworkState es →
      Settled ctx'.frameworkState)

namespace Settles

variable {a b c : ExecutionContext S} {es : List Effect}

theorem refl (ctx : ExecutionContext S) : Settles env ctx ctx :=
  ⟨[], by simp, .nil _, fun h _ => h⟩

theorem trans (hab : Settles env a b) (hbc : Settles env b c) : Settles env a c := by
  obtain ⟨es, hhistory, htrace, hsettled⟩ := hab
  obtain ⟨es', hhistory', htrace', hsettled'⟩ := hbc
  refine ⟨es ++ es', by rw [hhistory', hhistory, List.append_assoc], htrace.append htrace', ?_⟩
  exact fun h hquiet => hsettled' (hsettled h hquiet.left) (hquiet.right htrace)

theorem of_makes (h : Makes env es a b)
    (hsettled : Settled a.frameworkState → QuietTrace env a.frameworkState es →
      Settled b.frameworkState) : Settles env a b :=
  ⟨es, h.1, h.2.1, hsettled⟩

theorem of_inert {B : AssetConfigs → List Effect → Prop} (h : Leads env B a b)
    (hB : ∀ cfg b, B cfg b → ∀ e ∈ b, e.Inert) : Settles env a b := by
  obtain ⟨es, hhistory, htrace, hblocks, -⟩ := h
  exact ⟨es, hhistory, htrace, fun hsettled _ =>
    hsettled.inert_trace htrace (hblocks.forall_mem (hB _))⟩

end Settles

/-- After a report no event of the chain is ready, and nothing else has changed. -/
theorem listener_settles {chain : ExternalChain} {event : BridgeEvent} {eventId : BridgeEventId}
    (h : listener env chain event eventId ctx = (.ok u, ctx')) : Settles env ctx ctx' := by
  have hlead : Leads env (MessageBlocks (M := Unit) env (fun _ _ => True) ctx.pubkey ctx.sender
    (.listener chain eventId event)) ctx ctx' := listener_leads h
  obtain ⟨es, hhistory, htrace, hblocks, -⟩ := hlead
  obtain ⟨hset, hproposals, hchains⟩ := frame_of_about htrace
    (hblocks.forall_mem fun b hb => listener_about hb)
  refine ⟨es, hhistory, htrace, fun hsettled _ => ⟨?_, ?_⟩⟩
  · have hdrained : ctx'.frameworkState.getNextReadyEvent chain = .ok none := by
      simp only [listener, bind_eq_ok, get_eq_ok, ensure_eq_ok, getChain_eq_ok] at h
      obtain ⟨_, _, -, _, _, -, state, _, -, ⟨⟩, c₁, -, ⟨⟩, c₂, -, ⟨⟩, _, ⟨-, rfl⟩, hprocess⟩ := h
      simp only [processReadyEvents, bind_eq_ok, getChain_eq_ok] at hprocess
      obtain ⟨state, _, ⟨hstate, rfl⟩, hdrain⟩ := hprocess
      exact drainEvents_drained hstate le_rfl hdrain
    intro c state id pending hstate hfirst
    by_cases hc : c = chain
    · subst hc
      simp only [FrameworkState.getNextReadyEvent, Except.bind_eq_ok, Except.fromOption_eq_ok]
        at hdrained
      obtain ⟨state', hstate', hdrained⟩ := hdrained
      obtain rfl := Option.some.inj (hstate.symm.trans hstate')
      simp only [hfirst, Except.bind_eq_ok, Except.pure_eq_ok, Except.ok.injEq] at hdrained
      obtain ⟨-, -, hdrained⟩ := hdrained
      split at hdrained
      · cases hdrained
      · rename_i hlt
        exact Nat.lt_of_not_le hlt
    · rw [hchains c hc] at hstate
      rw [hset]
      exact hsettled.events c state id pending hstate hfirst
  · rw [hset, hproposals]
    exact hsettled.proposals

/-- The check of the proposals enacts what is approved and empties the table. -/
theorem checkPendingProposals_settles
    (h : checkPendingProposals env ctx = (.ok u, ctx')) :
    ∃ es, Makes env es ctx ctx' ∧
      (EventsSettled ctx.frameworkState.validatorSet ctx.frameworkState.chains →
        QuietTrace env ctx.frameworkState es → Settled ctx'.frameworkState) := by
  rcases checkPendingProposals_eq_ok h with ⟨hnone, rfl⟩ | ⟨id, pending, es, -, hblock, hmakes⟩
  · refine ⟨[], .refl ctx', fun hevents _ => ⟨hevents, fun id pending hget => ?_⟩⟩
    exact SortedMap.find?_eq_none.mp hnone id pending hget
  · refine ⟨es, hmakes, fun hevents hquiet => ?_⟩
    have htrace := hmakes.2.1
    -- After the actions are queued the table is emptied, which leaves the events as they are.
    have clear {fs : FrameworkState} (h : EventsSettled fs.validatorSet fs.chains) :
        Settled (Effect.clearProposals.apply env fs) := ⟨h, by rintro _ _ ⟨⟩⟩
    have emits {fs fs' : FrameworkState} {es : List Effect} {action : ExecAction}
        (h : EventsSettled fs.validatorSet fs.chains) (hes : Emissions action es)
        (htrace : (effects env).Trace fs es fs') : EventsSettled fs'.validatorSet fs'.chains := by
      have hset : fs'.validatorSet = fs.validatorSet :=
        htrace.invariant (I := fun t => t.validatorSet = fs.validatorSet) rfl
          fun e he t _ ht => by
            obtain ⟨chain, payload, rfl⟩ := hes e he
            exact (Effect.validatorSet_apply t _).trans ht
      rw [hset]
      exact h.of_same (sameEvents_of_inert htrace hes.inert)
    cases hblock with
    | newSet set approvals hes =>
      obtain ⟨-, hrest⟩ := Labelled.Trace.cons_iff.mp htrace
      obtain ⟨fs₁, hemits, hlast⟩ := Labelled.Trace.append_iff.mp hrest
      obtain ⟨-, hend⟩ := Labelled.Trace.cons_iff.mp hlast
      rw [Labelled.Trace.nil_iff.mp hend]
      have hset : EventsSettled
          (Effect.apply env ctx.frameworkState (.enact id (.newSet set))).validatorSet
          (Effect.apply env ctx.frameworkState (.enact id (.newSet set))).chains := hquiet.head
      exact clear (emits hset hes hemits)
    | migrateContract migrate payload =>
      obtain ⟨-, hrest⟩ := Labelled.Trace.cons_iff.mp htrace
      obtain ⟨hlegal, hlast⟩ := Labelled.Trace.cons_iff.mp hrest
      obtain ⟨-, hend⟩ := Labelled.Trace.cons_iff.mp hlast
      rw [Labelled.Trace.nil_iff.mp hend]
      have hes : Emissions (.migrateContract migrate)
          [.emit migrate.value.chain (.migrateContract migrate) payload] := by simp [Emissions]
      exact clear (emits hevents hes (.single hlegal))
    | upgrade v =>
      obtain ⟨-, hlast⟩ := Labelled.Trace.cons_iff.mp htrace
      obtain ⟨-, hend⟩ := Labelled.Trace.cons_iff.mp hlast
      rw [Labelled.Trace.nil_iff.mp hend]
      exact clear hevents

/-- A new proposal or a vote, and then the check of the proposals. -/
theorem Settles.check {e : Effect} {c : ExecutionContext S} (h₁ : Makes env [e] ctx c)
    (he : ∃ payload key signature, e = .propose payload key signature ∨
      ∃ id, e = .vote id key signature)
    (h : checkPendingProposals env c = (.ok u, ctx')) : Settles env ctx ctx' := by
  obtain ⟨es, h₂, hsettled⟩ := checkPendingProposals_settles h
  refine .of_makes (h₁.trans h₂) fun hbefore hquiet => hsettled ?_ (hquiet.right h₁.2.1)
  have hfs : c.frameworkState = e.apply env ctx.frameworkState := h₁.2.1.eq_foldl
  obtain ⟨payload, key, signature, rfl | ⟨id, rfl⟩⟩ := he <;> rw [hfs] <;> exact hbefore.events

theorem proposeSigned_settles {α : Type} {signed : SignedTaggedJson α}
    {payload : TaggedJson α → ProposalPayload} {valid : α → Except Error Unit}
    (htext : (payload signed.message).serialized = signed.message.serialized)
    (hvalid : valid signed.message.value = .ok () →
      ∀ set, payload signed.message = .newSet set → set.value.WellFormed)
    (h : proposeSigned env signed payload valid ctx = (.ok u, ctx')) : Settles env ctx ctx' := by
  simp only [proposeSigned, bind_eq_ok, get_eq_ok, lift_eq_ok, ensure_eq_ok,
    ensureIsValidator_eq_ok] at h
  obtain ⟨_, _, ⟨rfl, rfl⟩, signer, _, ⟨hsigner, rfl⟩, ⟨⟩, _, ⟨hpubkey, rfl⟩, ⟨⟩, _,
    ⟨hmember, rfl⟩, ⟨⟩, _, ⟨hok, rfl⟩, ⟨⟩, c₁, hadd, hcheck⟩ := h
  subst hpubkey
  have h₁ := addAdminProposal_makes hmember (by rw [htext]; exact hsigner) (hvalid hok) hadd
  exact .check h₁ ⟨_, _, _, .inl rfl⟩ hcheck

theorem admin_settles {msg : AdminMessage} (h : admin env msg ctx = (.ok u, ctx')) :
    Settles env ctx ctx' := by
  cases msg with
  | selfReplace signed =>
    simp only [admin, bind_eq_ok, get_eq_ok, lift_eq_ok, ensure_eq_ok] at h
    obtain ⟨_, _, ⟨rfl, rfl⟩, signer, _, ⟨hsigner, rfl⟩, ⟨⟩, _, ⟨hpubkey, rfl⟩, ⟨⟩, _,
      ⟨hrole, rfl⟩, ⟨⟩, c₁, hperform, hadd⟩ := h
    subst hpubkey
    have h₁ := perform_makes hperform ⟨hsigner, hrole⟩
    obtain ⟨es, hes, h₂⟩ := addActionAllChains_makes hadd
    refine .of_makes (h₁.trans h₂) fun _ hquiet => ?_
    have hfs : c₁.frameworkState = (Effect.replaceValidator signed ctx.pubkey).apply env
        ctx.frameworkState := h₁.2.1.eq_foldl
    have hsettled : Settled c₁.frameworkState := by
      rw [hfs]
      exact ⟨hquiet.head.1, hquiet.head.2⟩
    exact hsettled.inert_trace h₂.2.1 hes.inert
  | newSet signed =>
    rw [admin] at h
    refine proposeSigned_settles rfl (fun hok set hset => ?_) h
    obtain rfl := ProposalPayload.newSet.inj hset
    cases hval : signed.message.value.validate with
    | error e => simp [hval, Except.mapError] at hok
    | ok v => exact ValidatorSet.validate_eq_ok.mp hval
  | migrateContract signed =>
    rw [admin] at h
    exact proposeSigned_settles rfl (fun _ _ h => by cases h) h
  | upgrade signed =>
    rw [admin] at h
    exact proposeSigned_settles rfl (fun _ _ h => by cases h) h
  | approve id signature =>
    simp only [admin, bind_eq_ok, get_eq_ok, lift_eq_ok, fromOption_eq_ok, ensure_eq_ok,
      ensureIsValidator_eq_ok] at h
    obtain ⟨_, _, ⟨rfl, rfl⟩, ⟨⟩, _, ⟨hmember, rfl⟩, pending, _, ⟨hpending, rfl⟩, pubkey, _,
      ⟨hsig, rfl⟩, ⟨⟩, _, ⟨hpubkey, rfl⟩, ⟨⟩, c₁, hperform, ⟨⟩, _, ⟨hnew, rfl⟩, hcheck⟩ := h
    subst hpubkey
    have h₁ := perform_makes hperform ⟨hmember, pending, hpending, hsig, hnew⟩
    exact .check h₁ ⟨pending.payload, _, _, .inr ⟨_, rfl⟩⟩ hcheck

end ExecutionContext

/-! ## Runs -/

section

open ExecutionContext Exec

variable {app : App}

/-- No message leaves anything ready behind. -/
theorem executeMessage_settles {world : app.World} {message : Message app.Message}
    {ctx ctx' : ExecutionContext app.State} {u : Unit} (hkey : ctx.signingKey = ctx.pubkey)
    (h : executeMessage env world message ctx = (.ok u, ctx')) : Settles env ctx ctx' := by
  have hcalls : app.Only fun _ _ => True := fun _ _ _ => AppProgram.only_true _
  have hlead := executeMessage_leads hcalls hkey h
  cases message with
  | genesis actual =>
    obtain ⟨-, rfl⟩ := ensure_eq_ok.mp h
    exact .refl ctx
  | listener chain eventId event => exact listener_settles h
  | admin msg => exact admin_settles h
  | app msg =>
    refine .of_inert hlead fun cfg b hb => ?_
    cases hb with
    | app hc hb => cases hb <;> simp [debitEffects, Effect.Inert]
  | approve chain actionId signature =>
    refine .of_inert hlead fun cfg b hb => ?_
    cases hb with
    | approve => simp [Effect.Inert]
  | processorApprove chain actionId processor approvers =>
    refine .of_inert hlead fun cfg b hb => ?_
    cases hb with
    | processorApprove => simp [Effect.Inert]
  | auth msg =>
    refine .of_inert hlead fun cfg b hb => ?_
    cases hb with
    | auth => simp [Effect.Inert]
  | bank msg =>
    refine .of_inert hlead fun cfg b hb => ?_
    cases hb with
    | transfer | withdraw => simp [debitEffects, Effect.Inert]

theorem executeMessages_settles {world : app.World} {messages : List (Message app.Message)}
    {ctx ctx' : ExecutionContext app.State} {u : Unit} (hkey : ctx.signingKey = ctx.pubkey)
    (h : executeMessages env world messages ctx = (.ok u, ctx')) : Settles env ctx ctx' := by
  have hcalls : app.Only fun _ _ => True := fun _ _ _ => AppProgram.only_true _
  induction messages generalizing ctx with
  | nil =>
    obtain ⟨-, rfl⟩ := pure_eq_ok.mp h
    exact .refl ctx
  | cons message messages ih =>
    obtain ⟨c, hone, hrest⟩ := forEach_cons_eq_ok.mp h
    simp only [bind_eq_ok, modify_eq_ok] at hone
    obtain ⟨⟨⟩, _, rfl, hone⟩ := hone
    set c₀ : ExecutionContext app.State := { ctx with logs := ctx.logs ++ [[]] }
    have hkey₀ : c₀.signingKey = c₀.pubkey := hkey
    have hlogs : Settles env ctx c₀ := ⟨[], by simp [c₀], .nil _, fun h _ => h⟩
    obtain ⟨-, -, -, -, hsame⟩ := executeMessage_leads hcalls hkey₀ hone
    refine (hlogs.trans (executeMessage_settles hkey₀ hone)).trans (ih ?_ hrest)
    rw [hsame.signingKey, hsame.pubkey]
    exact hkey

namespace Node

variable {self self' : Node app} {call : Call app}

theorem settled_step (h : (machine env).step self call = .ok self')
    (hsettled : Settled self.frameworkState)
    (hquiet : ∀ es, self'.history = self.history ++ es → QuietTrace env self.frameworkState es) :
    Settled self'.frameworkState := by
  obtain ⟨results, hresults, rfl⟩ := step_eq_ok h
  obtain ⟨ctx, c, hstart, hrun, -, rfl⟩ := executeTransaction_iff.mp hresults
  obtain ⟨sender, -, -, hlegal, hctx⟩ := start_eq_ok hstart
  obtain ⟨es, hhistory, -, hsettles⟩ := executeMessages_settles (by rw [hctx]) hrun
  have hquiet := hquiet c.history rfl
  rw [hhistory, hctx] at hquiet
  have hnonce : Settled ((Effect.account (.useNonce call.tx.message.value.pubkey
      call.tx.message.value.nonce) sender).apply env self.frameworkState) := hsettled.inert trivial
  refine hsettles ?_ ?_
  · rw [hctx]
    exact hnonce
  · rw [hctx]
    exact hquiet.right (.single hlegal)

end Node

open Node in
/-- After every transaction of a run in which no change of the validator set completes a quorum,
no event and no proposal waits that has its quorum. -/
theorem nothing_ready_left_behind (self : Node app) (hreach : self.Reachable env)
    (hquiet : QuietTrace env (FrameworkState.new app.genesisInfo) self.history) :
    Settled self.frameworkState := by
  obtain ⟨start, calls, hstart, rfl⟩ := hreach
  obtain ⟨hfs, -, hhistory, -⟩ := genesis_eq_ok hstart
  have hinv := (machine env).run_invariant (s := start)
    (I := fun s : Node app => s.HasTrace env ∧
      (QuietTrace env (FrameworkState.new app.genesisInfo) s.history → Settled s.frameworkState))
    ?_ ?_ calls
  · exact hinv.2 hquiet
  · rintro s call s' ⟨htrace, hsettled⟩ hstep
    refine ⟨hasTrace_step hstep htrace, fun hquiet => ?_⟩
    obtain ⟨sender, es, hes, -, -⟩ := step_blocks hstep
    refine settled_step hstep (hsettled ?_) fun es' hes' => ?_
    · rw [hes] at hquiet
      exact hquiet.left
    · rw [hes'] at hquiet
      exact hquiet.right htrace
  · refine ⟨by rw [HasTrace, hhistory, hfs]; exact .nil _, fun _ => ?_⟩
    rw [hfs]
    refine ⟨fun chain state id pending hstate hfirst => ?_, by rintro _ _ ⟨⟩⟩
    obtain ⟨config, -, rfl⟩ := Effect.exists_of_get?_new hstate
    cases hfirst

end

namespace SettledSample

open Sample

def listener2 : PublicKey :=
  ⟨0x026687cdb5b650d558f40cbdefc8e40997c03fe1b2abb840885e5cad81710c4c8a, by decide⟩

/-- Both listeners have to attest. -/
def pair : ValidatorSet := ⟨processor, {listener, listener2}, 2, {approver}, 1⟩

/-- One listener is enough. -/
def eased : ValidatorSet := ⟨processor, {listener, listener2}, 1, {approver}, 1⟩

/-- The JSON of this set. -/
def easedText : String :=
  "\x7b\"processor\":\"02352bbf4a4cdd12564f93fa332ce333301d9ad40271f8107181340aef25be59d5\"," ++
  "\"listeners\":[\"026687cdb5b650d558f40cbdefc8e40997c03fe1b2abb840885e5cad81710c4c8a\"," ++
  "\"03421f5fc9a21065445c96fdb91c0c1e2f2431741c72713b4b99ddcb316f31e9fc\"]," ++
  "\"needed_listeners\":1," ++
  "\"approvers\":[\"032fa2104d6b38d11b0230010559879124e42ab8dfeff5ff29dc9cdadd4ecacc3f\"]," ++
  "\"needed_approvers\":1\x7d"

def proposal : SignedText where
  text := easedText
  signature := signature
    0x0c0af47515c213378d091a1640c7f6c638f04225187e56c4e42580e1dff69064
  recoveryId := 0
  key := processor

def vote : SignedText where
  text := easedText
  signature := signature
    0x00783e8cf684756fc7b620be2229f32a7c86a10b3b2df7c427c7daf4c24f81ad
  recoveryId := 1
  key := approver

/-- The first transaction of the chain. -/
def pairTx : SignedTx where
  tx := ⟨processor, 0, [.genesis (info pair)], none⟩
  s := 0x6cf8c1ed0ea6cb88aa7ef980edd720f562f8ef17f087421369081e971dc83114
  recoveryId := 0

/-- The first listener reports the bridge contract. -/
def reportTx : SignedTx where
  tx := ⟨listener, 0, [.listener .osmosisLocal 0 (.instantiated "osmo1bridge")], none⟩
  s := 0x1818357c5e8aaccd73810e77b0506995e2b2ebbc14893feb010a4d1a7f2555f6
  recoveryId := 0

def secondTx : SignedTx where
  tx := ⟨listener2, 0, [.listener .osmosisLocal 0 (.instantiated "osmo1bridge")], none⟩
  s := 0x3514d5c5bcc70e9d62d0af255d11f0cd19a29478d8f251d4e351fa895bdcea4d
  recoveryId := 1

def proposeTx : SignedTx where
  tx := ⟨processor, 1, [.admin (.newSet (proposal.tagged eased))], none⟩
  s := 0x203b1231588a7f4c3b2b4578d9602e70e45569148d992d85c3103827d1c7f9fe
  recoveryId := 1

def voteTx : SignedTx where
  tx := ⟨approver, 0, [.admin (.approve 0 vote.signatureWithRecovery)], none⟩
  s := 0x68f835d1404ea92530edd70f06e00d91f469647d92ca54beb68cf4551c4242b6
  recoveryId := 0

/-- The first listener reports once more. -/
def againTx : SignedTx where
  tx := ⟨listener, 1, [.listener .osmosisLocal 0 (.instantiated "osmo1bridge")], none⟩
  s := 0x64bc987104b606b020b1d6453abe15f7208ebfc754580f12bbb6ce9e460a9b71
  recoveryId := 0

def txs : List SignedTx := [pairTx, reportTx, secondTx, proposeTx, voteTx, againTx]

def table : List SignedText := proposal :: vote :: txs.map SignedTx.text

theorem table_distinct : (table.map SignedText.signature).Nodup := by decide

theorem mem_table : ∀ t ∈ txs, t.text ∈ table := fun _ ht =>
  List.mem_cons_of_mem _ (List.mem_cons_of_mem _ (List.mem_map_of_mem ht))

theorem pair_wellFormed : pair.WellFormed := by constructor <;> decide

def chain : Machine (Node (counter (info pair))) (Call (counter (info pair))) Error :=
  Node.machine (counterEnv table)

/-- The change does not install a validator set. -/
def keepsSet : Effect → Bool
  | .replaceValidator _ _ | .enact _ _ => false
  | _ => true

theorem quietTrace_of_keepsSet {fs : FrameworkState} {es : List Effect}
    (h : es.all keepsSet = true) : QuietTrace env fs es := by
  rintro past e future fs' rfl -
  have he : keepsSet e = true := List.all_eq_true.mp h e (by simp)
  cases e with
  | replaceValidator | enact => cases he
  | account | newEvent | attest | takeEvent | deploy | deposit | confirmAction | approveAction
  | processorApprove | withdraw | emit | propose | vote | clearProposals => trivial

end SettledSample

open Sample SettledSample in
/-- When the second listener attests the event it takes effect. -/
theorem nothing_ready_left_behind_example :
    ∃ s, chain.steps (start pair) (calls pair [pairTx, reportTx, secondTx]) = .ok s ∧
      Settled s.frameworkState := by
  have hmem : ∀ t ∈ [pairTx, reportTx, secondTx], t.text ∈ table :=
    fun t ht => mem_table t (by simp only [txs]; grind)
  obtain ⟨s, hs, hp⟩ := exists_steps (start pair) (fun s => s.history.all keepsSet)
    table_distinct hmem (by decide +kernel)
  exact ⟨s, hs, nothing_ready_left_behind s (reachable pair_wellFormed hs)
    (quietTrace_of_keepsSet hp)⟩

open Sample SettledSample in
/-- The new set needs one listener only, but the event that this listener has attested stays in
the queue, and the listener cannot attest it again. -/
theorem nothing_ready_left_behind_counterexample :
    Node.genesis (counter (info pair)) = .ok (start pair) ∧
    ∃ s state pending,
      chain.steps (start pair) (calls pair [pairTx, reportTx, proposeTx, voteTx]) = .ok s ∧
      s.frameworkState.chains.get? .osmosisLocal = some state ∧
      state.pendingEvents.first? = some (0, pending) ∧
      s.frameworkState.validatorSet.neededListeners.val ≤
        (pending.attestations ∩ s.frameworkState.validatorSet.listeners).card ∧
      (chain.step s (againTx.call pair)).isOk = false := by
  have hmem : ∀ t ∈ [pairTx, reportTx, proposeTx, voteTx], t.text ∈ table :=
    fun t ht => mem_table t (by simp only [txs]; grind)
  obtain ⟨s, hs, hp⟩ := exists_steps (start pair)
    (fun s => (s.frameworkState.chains.get? .osmosisLocal).any (fun state =>
        state.pendingEvents.first?.any fun p => p.1 = 0 ∧
          s.frameworkState.validatorSet.neededListeners.val ≤
            (p.2.attestations ∩ s.frameworkState.validatorSet.listeners).card) &&
      !(s.stepSigned (counterEnv table) (againTx.call pair)).isOk)
    table_distinct hmem (by decide +kernel)
  rw [Bool.and_eq_true, Option.any_eq_true, Bool.not_eq_true'] at hp
  obtain ⟨⟨state, hstate, hp⟩, hagain⟩ := hp
  obtain ⟨⟨id, pending⟩, hfirst, hp⟩ := (Option.any_eq_true _ _).mp hp
  obtain ⟨hid, hneeded⟩ := of_decide_eq_true hp
  obtain rfl : id = 0 := hid
  have hsigned := againTx.signed_call pair table_distinct (mem_table againTx (by simp [txs]))
  refine ⟨genesis_start pair_wellFormed, s, state, pending, hs, hstate, hfirst, hneeded, ?_⟩
  rw [chain, Node.step_of_signed _ hsigned]
  exact hagain

end Kolme
