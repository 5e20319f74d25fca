import Kolme.Core.Handlers

/-!
# What a run does to the accounts

Accounts are changed only by the recorded operations, and each message performs only some of them:
nonces are used by transactions alone, and keys and wallets of an account are changed by its
signer or, when a deposit is credited, for the wallet of the deposit.
-/

namespace Kolme

variable {env : Externals}

namespace Effect

/-- Changes other than operations on accounts leave the accounts alone. -/
theorem accounts_apply (fs : FrameworkState) (e : Effect) :
    (e.apply env fs).accounts = match e with
      | account op _ => (op.run env.arith fs.accounts).2
      | _ => fs.accounts := by
  cases e with
  | account | replaceValidator | propose | vote | clearProposals => rfl
  | enact id payload => cases payload <;> rfl
  | newEvent | attest | takeEvent | deploy | deposit | confirmAction | approveAction
  | processorApprove | withdraw | emit => exact FrameworkState.accounts_updateChain ..

/-- What the edits of the operation preserve the change preserves. -/
theorem accounts_induction {I : Accounts → Prop} {fs : FrameworkState} {e : Effect}
    (hlegal : e.Legal env fs) (start : I fs.accounts)
    (step : ∀ op id, e = account op id → ∀ edit a, edit.account = id → op.Allows id edit →
      edit.Legal a → I a → I (edit.apply a)) : I (e.apply env fs).accounts := by
  cases e with
  | account op id =>
    rw [accounts_apply]
    have hrun : op.run env.arith fs.accounts =
        (.ok id, (op.run env.arith fs.accounts).2) := Prod.ext hlegal rfl
    obtain ⟨es, htrace, hes⟩ := Accounts.Op.exists_edits hrun
    refine htrace.invariant start fun edit hmem a hedit ha => ?_
    obtain ⟨hid, hallows⟩ := hes edit hmem
    exact step op id rfl edit a hid hallows hedit ha
  | newEvent | attest | takeEvent | deploy | deposit | confirmAction | approveAction
  | processorApprove | withdraw | emit | replaceValidator | propose | vote | enact
  | clearProposals =>
    rw [accounts_apply]
    exact start

end Effect

/-- The operations performed on behalf of apps, deposits and transfers: they neither use a nonce
nor change the keys and wallets that an account's signer manages. -/
def Accounts.Op.Automatic : Accounts.Op → Prop
  | useNonce _ _ | addPubkey _ _ | removePubkey _ _ | addWallet _ _ | removeWallet _ _ => False
  | getOrAddAccountForKey _ | getOrAddAccountForWallet _ | addPubkeyIgnoreOverlap _ _
  | mint _ _ _ | burn _ _ _ => True

section

variable {M : Type} {calls : M → AppCall → Prop} {cfg : AssetConfigs} {pubkey : PublicKey}
  {sender : AccountId} {message : Message M} {b : List Effect} {op : Accounts.Op} {id : AccountId}

theorem creditEffects_account {chain : ExternalChain} {accountId : AccountId}
    {fund : BridgedAssetAmount}
    (h : Effect.account op id ∈ creditEffects env cfg chain accountId fund) :
    ∃ assetId amount, op = .mint accountId assetId amount ∧ id = accountId := by
  unfold creditEffects at h
  split at h
  · simp at h
  · split at h
    · simp at h
    · simp only [List.mem_cons, Effect.account.injEq, reduceCtorEq, List.not_mem_nil,
        or_false] at h
      obtain ⟨rfl, rfl⟩ := h
      exact ⟨_, _, rfl, rfl⟩

theorem EventBlock.automatic {chain : ExternalChain} (hb : EventBlock env cfg chain b)
    (hmem : Effect.account op id ∈ b) : op.Automatic := by
  cases hb with
  | instantiated | signed => simp at hmem
  | regular eventId wallet funds keys accountId =>
    simp only [List.mem_cons, reduceCtorEq, Effect.account.injEq, List.mem_append, List.mem_map,
      List.mem_flatMap, false_or] at hmem
    rcases hmem with ⟨rfl, -⟩ | ⟨key, -, rfl, -⟩ | ⟨fund, -, hfund⟩
    · trivial
    · trivial
    · obtain ⟨assetId, amount, rfl, -⟩ := creditEffects_account hfund
      trivial

theorem AppCall.Block.automatic {c : AppCall} (hb : c.Block env cfg b)
    (hmem : Effect.account op id ∈ b) : op.Automatic := by
  cases hb <;> simp [debitEffects] at hmem <;> grind [Accounts.Op.Automatic]

theorem Emissions.account {action : ExecAction} (h : Emissions action b) :
    Effect.account op id ∉ b := by
  intro hmem
  obtain ⟨chain, payload, heq⟩ := h _ hmem
  cases heq

theorem EnactBlock.account {pid : AdminProposalId} (hb : EnactBlock pid b) :
    Effect.account op id ∉ b := by
  cases hb with
  | newSet set approvals hes => simpa using hes.account
  | migrateContract | upgrade => simp

/-- A message performs automatic operations, or the one operation of a message about keys and
wallets, on the account of its sender. -/
theorem Message.Block.op_mem (hb : message.Block env pubkey sender calls cfg b)
    (hmem : Effect.account op id ∈ b) :
    op.Automatic ∨ id = sender ∧ ∃ msg, message = .auth msg ∧ msg ≠ .removePublicKey pubkey ∧
      op = msg.op sender := by
  cases hb with
  | app hc hb => exact .inl (hb.automatic hmem)
  | event eventId event hb => exact .inl (hb.automatic hmem)
  | newEvent | attest | approve | processorApprove | propose | vote => simp at hmem
  | transfer asset dest amount =>
    simp only [List.mem_cons, Effect.account.injEq, List.not_mem_nil, or_false] at hmem
    rcases hmem with ⟨rfl, -⟩ | ⟨rfl, -⟩ <;> exact .inl trivial
  | withdraw payload hconfig hamount =>
    simp only [debitEffects, List.mem_append, List.mem_cons, Effect.account.injEq, reduceCtorEq,
      List.not_mem_nil, or_false] at hmem
    obtain ⟨rfl, -⟩ := hmem
    exact .inl trivial
  | auth msg hsigning =>
    simp only [List.mem_cons, Effect.account.injEq, List.not_mem_nil, or_false] at hmem
    obtain ⟨rfl, rfl⟩ := hmem
    exact .inr ⟨rfl, msg, rfl, hsigning, rfl⟩
  | selfReplace signed hes => exact absurd hmem (by simpa using hes.account)
  | enact msg hb => exact absurd hmem hb.account

end

/-! ## Allocation of ids -/

namespace Accounts

variable {a a' : Accounts} {ar : Arith}

/-- The greatest id, after which ids wrap around. -/
def greatestId : AccountId := Fin.ofNat _ (2 ^ 64 - 1)

/-- The operation is about a key or a wallet without an account, for which a new id is taken. -/
def Op.Allocates (a : Accounts) : Op → Prop
  | useNonce pubkey _ => a.pubkeys.get? pubkey = none
  | getOrAddAccountForKey key => a.pubkeys.get? key = none
  | getOrAddAccountForWallet wallet => a.wallets.get? wallet = none
  | addPubkeyIgnoreOverlap _ _ | addPubkey _ _ | removePubkey _ _ | addWallet _ _
  | removeWallet _ _ | mint _ _ _ | burn _ _ _ => False

/-- Keys and wallets belong to accounts. -/
structure Linked (a : Accounts) : Prop where
  pubkeys : ∀ {key id}, a.pubkeys.get? key = some id → a.accounts.contains id = true
  wallets : ∀ {wallet id}, a.wallets.get? wallet = some id → a.accounts.contains id = true

theorem linked_empty : empty.Linked := ⟨by rintro _ _ ⟨⟩, by rintro _ _ ⟨⟩⟩

/-- Every edit attaches to the account it creates. -/
theorem Linked.edit (h : a.Linked) (e : Edit) : (e.apply a).Linked := by
  constructor
  · intro key id hid
    rw [Edit.pubkeys_apply] at hid
    rw [Edit.contains_apply]
    cases e with
    | insertPubkey id' key' =>
      rw [SortedMap.get?_insert] at hid
      split at hid
      · obtain rfl := Option.some.inj hid
        exact .inl rfl
      · exact .inr (h.pubkeys hid)
    | erasePubkey id' key' =>
      rw [SortedMap.get?_erase] at hid
      split at hid
      · cases hid
      · exact .inr (h.pubkeys hid)
    | setAssets | bumpNonce | insertWallet | eraseWallet => exact .inr (h.pubkeys hid)
  · intro wallet id hid
    rw [Edit.wallets_apply] at hid
    rw [Edit.contains_apply]
    cases e with
    | insertWallet id' wallet' =>
      rw [SortedMap.get?_insert] at hid
      split at hid
      · obtain rfl := Option.some.inj hid
        exact .inl rfl
      · exact .inr (h.wallets hid)
    | eraseWallet id' wallet' =>
      rw [SortedMap.get?_erase] at hid
      split at hid
      · cases hid
      · exact .inr (h.wallets hid)
    | setAssets | bumpNonce | insertPubkey | erasePubkey => exact .inr (h.wallets hid)

/-- Below the greatest id, the next id is above all ids in use. -/
theorem lt_getNextAccountId (h : a.accounts.get? greatestId = none) {id : AccountId}
    (hid : a.accounts.contains id = true) : id < a.getNextAccountId := by
  obtain ⟨account, haccount⟩ := SortedMap.contains_iff.mp hid
  unfold getNextAccountId
  cases hlast : a.accounts.last? with
  | none =>
    rw [SortedMap.last?_eq_none.mp hlast id] at haccount
    cases haccount
  | some last =>
    obtain ⟨hget, hle⟩ := SortedMap.last?_spec hlast
    have hne : last.1 ≠ greatestId := by
      intro heq
      rw [heq, h] at hget
      cases hget
    have hne' : last.1.val ≠ 256 ^ 8 - 1 := fun heq => hne (Fin.ext heq)
    have hid' : id.val ≤ last.1.val := hle _ _ haccount
    have hlt := last.1.isLt
    rw [Fin.lt_def, Fin.val_add, Fin.val_one]
    omega

/-- An allocation takes the next id and makes it an account. -/
theorem Op.Allocates.eq_ok {op : Op} {id : AccountId} (halloc : op.Allocates a)
    (h : op.run ar a = (.ok id, a')) :
    id = a.getNextAccountId ∧ a'.accounts.contains id = true := by
  cases op with
  | useNonce key nonce =>
    rcases useNonce_eq_ok h with ⟨hkey, -⟩ | ⟨-, hid, -, rfl⟩
    · rw [Allocates, hkey] at halloc
      cases halloc
    · exact ⟨hid, (Edit.contains_apply _ (.bumpNonce id) id).mpr (.inl rfl)⟩
  | getOrAddAccountForKey key =>
    rcases getOrAddAccountForKey_eq_ok.mp h with ⟨hkey, -⟩ | ⟨-, hid, rfl⟩
    · rw [Allocates, hkey] at halloc
      cases halloc
    · exact ⟨hid, (Edit.contains_apply a (.insertPubkey id key) id).mpr (.inl rfl)⟩
  | getOrAddAccountForWallet wallet =>
    rcases getOrAddAccountForWallet_eq_ok.mp h with ⟨hwallet, -⟩ | ⟨-, hid, rfl⟩
    · rw [Allocates, hwallet] at halloc
      cases halloc
    · exact ⟨hid, (Edit.contains_apply a (.insertWallet id wallet) id).mpr (.inl rfl)⟩
  | addPubkeyIgnoreOverlap | addPubkey | removePubkey | addWallet | removeWallet | mint | burn =>
    exact halloc.elim

end Accounts

/-- Accounts are never removed. -/
theorem contains_of_trace {fs fs' : FrameworkState} {es : List Effect} {id : AccountId}
    (h : (effects env).Trace fs es fs') (hid : fs.accounts.accounts.contains id = true) :
    fs'.accounts.accounts.contains id = true :=
  h.invariant (I := fun fs => fs.accounts.accounts.contains id = true) hid
    fun _ _ _ hlegal hfs => Effect.accounts_induction
      (I := fun a => a.accounts.contains id = true) hlegal hfs
      fun _ _ _ edit a _ _ _ ha => (Accounts.Edit.contains_apply a edit id).mpr (.inr ha)

theorem linked_of_trace {fs fs' : FrameworkState} {es : List Effect}
    (h : (effects env).Trace fs es fs') (hfs : fs.accounts.Linked) : fs'.accounts.Linked :=
  h.invariant (I := fun fs => fs.accounts.Linked) hfs fun _ _ _ hlegal hfs =>
    Effect.accounts_induction (I := Accounts.Linked) hlegal hfs
      fun _ _ _ edit _ _ _ _ ha => ha.edit edit

/-! ## The blocks of a history -/

/-- What the history of a node consists of: uses of nonces and the blocks of messages. -/
def HistoryBlock (env : Externals) (app : App) (b : List Effect) : Prop :=
  (∃ pubkey nonce sender, b = [.account (.useNonce pubkey nonce) sender]) ∨
  ∃ pubkey sender, ∃ message : Message app.Message, message.Block env pubkey sender
    (fun _ _ => True) (FrameworkState.new app.genesisInfo).assetConfigs b

section

variable {M : Type} {calls : M → AppCall → Prop} {cfg : AssetConfigs} {pubkey : PublicKey}
  {sender : AccountId} {message : Message M} {b before after : List Effect}
  {chain : ExternalChain} {eventId : BridgeEventId} {event : BridgeEvent}

/-- The credit of a deposit takes no event. -/
theorem takeEvent_not_mem_credits {chain' : ExternalChain} {id : AccountId}
    (keys : List PublicKey) (funds : List BridgedAssetAmount) :
    Effect.takeEvent chain eventId event ∉
      keys.map (fun key => .account (.addPubkeyIgnoreOverlap id key) id) ++
        funds.flatMap (creditEffects env cfg chain' id) := by
  simp only [List.mem_append, List.mem_map, reduceCtorEq, and_false, exists_false,
    List.mem_flatMap, false_or, not_exists, not_and]
  intro fund _ hmem
  unfold creditEffects at hmem
  split at hmem
  · simp at hmem
  · split at hmem <;> simp at hmem

/-- Events take effect in blocks of their own. -/
theorem Message.Block.of_takeEvent (hb : message.Block env pubkey sender calls cfg b)
    (hmem : .takeEvent chain eventId event ∈ b) : ∃ chain', EventBlock env cfg chain' b := by
  have emissions {action : ExecAction} {es : List Effect} (hes : Emissions action es) :
      .takeEvent chain eventId event ∉ es := fun hmem => by
    obtain ⟨_, _, heq⟩ := hes _ hmem
    cases heq
  cases hb with
  | event eventId event hb => exact ⟨_, hb⟩
  | app hc hb => cases hb <;> simp [debitEffects] at hmem
  | newEvent | attest | approve | processorApprove | propose | vote | transfer => simp at hmem
  | withdraw payload hconfig hamount => simp [debitEffects] at hmem
  | auth msg hsigning => cases msg <;> simp at hmem
  | selfReplace signed hes => exact absurd (by simpa using hmem) (emissions hes)
  | enact msg hb =>
    cases hb with
    | newSet set approvals hes => exact absurd (by simpa using hmem) (emissions hes)
    | migrateContract | upgrade => simp at hmem

/-- A block that takes an event starts with it. -/
theorem EventBlock.takeEvent_head {chain' : ExternalChain}
    (hb : EventBlock env cfg chain' (before ++ .takeEvent chain eventId event :: after)) :
    before = [] ∧ chain' = chain := by
  generalize heq : before ++ .takeEvent chain eventId event :: after = b at hb
  have head {e : Effect} {rest : List Effect}
      (heq : before ++ .takeEvent chain eventId event :: after = e :: rest)
      (hrest : .takeEvent chain eventId event ∉ rest) :
      before = [] ∧ e = .takeEvent chain eventId event := by
    cases before with
    | nil => exact ⟨rfl, (List.cons.inj heq).1.symm⟩
    | cons e' before =>
      refine absurd ?_ hrest
      rw [← (List.cons.inj heq).2]
      simp
  cases hb with
  | instantiated | signed =>
    obtain ⟨hbefore, htake⟩ := head heq (by simp)
    exact ⟨hbefore, (Effect.takeEvent.inj htake).1⟩
  | regular eventId' wallet funds keys id =>
    obtain ⟨hbefore, htake⟩ := head heq fun hmem =>
      takeEvent_not_mem_credits keys funds (by simpa using hmem)
    exact ⟨hbefore, (Effect.takeEvent.inj htake).1⟩

/-- The part of a history that starts with an event that takes effect. -/
theorem HistoryBlock.of_takeEvent {app : App}
    (hb : HistoryBlock env app (before ++ .takeEvent chain eventId event :: after)) :
    before = [] ∧ EventBlock env (FrameworkState.new app.genesisInfo).assetConfigs chain
      (.takeEvent chain eventId event :: after) := by
  have hmem : .takeEvent chain eventId event ∈ before ++ .takeEvent chain eventId event :: after :=
    by simp
  rcases hb with ⟨pubkey, nonce, sender, heq⟩ | ⟨pubkey, sender, message, hb⟩
  · rw [heq] at hmem
    simp at hmem
  · obtain ⟨chain', hevent⟩ := hb.of_takeEvent hmem
    obtain ⟨rfl, rfl⟩ := hevent.takeEvent_head
    exact ⟨rfl, hevent⟩

/-- What follows an approved proposal: its actions are queued, and the table is cleared. -/
theorem HistoryBlock.of_enact {app : App} {id : AdminProposalId} {payload : ProposalPayload}
    (hb : HistoryBlock env app (before ++ .enact id payload :: after)) :
    before = [] ∧ EnactBlock id (.enact id payload :: after) := by
  have hmem : .enact id payload ∈ before ++ .enact id payload :: after := by simp
  generalize heq : before ++ .enact id payload :: after = b at hb hmem
  have emissions {action : ExecAction} {es : List Effect} (hes : Emissions action es) :
      .enact id payload ∉ es := fun hmem => by
    obtain ⟨_, _, heq⟩ := hes _ hmem
    cases heq
  -- The block starts with the proposal that comes into force, and nothing else does in it.
  have head {id' : AdminProposalId} {payload' : ProposalPayload} {rest : List Effect}
      (hrest : .enact id payload ∉ rest) (hb : EnactBlock id' (.enact id' payload' :: rest))
      (heq : before ++ .enact id payload :: after = .enact id' payload' :: rest) :
      before = [] ∧ EnactBlock id (.enact id payload :: after) := by
    cases before with
    | nil =>
      obtain ⟨hhead, rfl⟩ := List.cons.inj heq
      obtain ⟨rfl, rfl⟩ := Effect.enact.inj hhead
      exact ⟨rfl, hb⟩
    | cons e' before =>
      refine absurd ?_ hrest
      rw [← (List.cons.inj heq).2]
      simp
  rcases hb with ⟨pubkey, nonce, sender, rfl⟩ | ⟨pubkey, sender, message, hb⟩
  · simp at hmem
  · cases hb with
    | event eventId event hb =>
      cases hb with
      | instantiated | signed => simp at hmem
      | regular eventId wallet funds keys accountId =>
        simp only [List.mem_cons, reduceCtorEq, List.mem_append, List.mem_map, and_false,
          exists_false, List.mem_flatMap, false_or] at hmem
        obtain ⟨fund, -, hmem⟩ := hmem
        unfold creditEffects at hmem
        split at hmem
        · simp at hmem
        · split at hmem <;> simp at hmem
    | app hc hb => cases hb <;> simp [debitEffects] at hmem
    | newEvent | attest | approve | processorApprove | propose | vote | transfer => simp at hmem
    | withdraw payload hconfig hamount => simp [debitEffects] at hmem
    | auth msg hsigning => cases msg <;> simp at hmem
    | selfReplace signed hes => exact absurd (by simpa using hmem) (emissions hes)
    | enact msg hb =>
      cases hb with
      | newSet set approvals hes =>
        exact head (by simpa using emissions hes) (.newSet set approvals hes) heq
      | migrateContract migrate text =>
        exact head (by simp) (.migrateContract migrate text) heq
      | upgrade u => exact head (by simp) (.upgrade u) heq

end

namespace Node

variable {app : App} {self self' : Node app} {call : Call app}

/-- What a transaction does, when the app may make any calls. -/
theorem step_blocks (h : (machine env).step self call = .ok self') :
    ∃ sender es, self'.history = self.history ++
        .account (.useNonce call.tx.message.value.pubkey call.tx.message.value.nonce) sender :: es ∧
      (effects env).Trace self.frameworkState
        (.account (.useNonce call.tx.message.value.pubkey call.tx.message.value.nonce) sender :: es)
        self'.frameworkState ∧
      Blocks (TxBlock env (fun _ _ => True) call.tx.message.value.pubkey sender
        call.tx.message.value.messages self.frameworkState.assetConfigs) es := by
  obtain ⟨results, hresults, rfl⟩ := step_eq_ok h
  have hcalls : app.Only fun _ _ => True := fun _ _ _ => AppProgram.only_true _
  obtain ⟨sender, es, hhistory, htrace, hblocks, -⟩ := executeTransaction_eq_ok hcalls hresults
  rw [hhistory] at htrace
  exact ⟨sender, es, congrArg (self.history ++ ·) hhistory, htrace, hblocks⟩

/-- The history of a reachable node consists of uses of nonces and of what its messages do. -/
theorem Reachable.blocks_of {B : AssetConfigs → List Effect → Prop}
    (hnonce : ∀ cfg pubkey nonce sender, B cfg [.account (.useNonce pubkey nonce) sender])
    (hB : ∀ world message (s s' : ExecutionContext app.State), s.signingKey = s.pubkey →
      executeMessage env world message s = (.ok (), s') → ExecutionContext.Leads env B s s')
    (h : self.Reachable env) :
    Blocks (B (FrameworkState.new app.genesisInfo).assetConfigs) self.history := by
  obtain ⟨start, calls, hstart, rfl⟩ := h
  obtain ⟨hfs, -, hhistory, -⟩ := genesis_eq_ok hstart
  have hinv := (machine env).run_invariant (s := start)
    (I := fun s : Node app => s.HasTrace env ∧
      Blocks (B (FrameworkState.new app.genesisInfo).assetConfigs) s.history)
    (fun s call s' ⟨htrace, hblocks⟩ hstep => ⟨hasTrace_step hstep htrace, by
      obtain ⟨results, hresults, rfl⟩ := step_eq_ok hstep
      obtain ⟨sender, es, heq, -, hes, -⟩ := executeTransaction_leads_of (B := fun _ => B)
        (fun message _ s s' _ hkey h => hB _ message s s' hkey h) hresults
      rw [assetConfigs_of_trace htrace] at hes
      change Blocks _ (s.history ++ results.history)
      rw [heq, ← List.singleton_append]
      exact hblocks.append ((Blocks.single (hnonce _ _ _ _)).append hes)⟩)
    ⟨by rw [HasTrace, hhistory, hfs]; exact .nil _, by rw [hhistory]; exact .nil⟩ calls
  exact hinv.2

theorem Reachable.blocks (h : self.Reachable env) :
    Blocks (HistoryBlock env app) self.history := by
  refine (h.blocks_of (B := fun cfg b =>
    (∃ pubkey nonce sender, b = [.account (.useNonce pubkey nonce) sender]) ∨
    ∃ pubkey sender, ∃ message : Message app.Message,
      message.Block env pubkey sender (fun _ _ => True) cfg b) ?_ ?_)
  · exact fun _ pubkey nonce sender => .inl ⟨pubkey, nonce, sender, rfl⟩
  · intro world message s s' hkey h
    have hcalls : app.Only fun _ _ => True := fun _ _ _ => AppProgram.only_true _
    exact (executeMessage_leads hcalls hkey h).mono fun b hb => .inr ⟨_, _, message, hb⟩

end Node

end Kolme
