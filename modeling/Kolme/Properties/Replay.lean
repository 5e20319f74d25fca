import Kolme.Core.Counter

/-!
# Replay protection

The nonce of an account only grows, and a key signs for the account it is attached to. So a
transaction that was executed is refused from then on, as long as its key is not removed: a key
that is removed starts again with a new account whose nonce is zero.
-/

namespace Kolme

/-- The key is attached to an account that has moved past the nonce. -/
def Accounts.NoncePast (a : Accounts) (key : PublicKey) (nonce : AccountNonce) : Prop :=
  ∃ id, a.pubkeys.get? key = some id ∧ a.accounts.contains id = true ∧
    nonce < (a.getOrDefault id).nextNonce

theorem AccountNonce.lt_succ {nonce : AccountNonce} (h : nonce + 1 ≠ 0) : nonce < nonce + 1 := by
  have hlast : nonce ≠ Fin.last (256 ^ 8 - 1) := by
    rintro rfl
    exact h (by decide)
  have hlt : nonce.val < 256 ^ 8 - 1 := by
    have := Fin.val_ne_of_ne hlast
    simp only [Fin.val_last] at this
    omega
  rw [Fin.lt_def, Fin.val_add]
  simp only [Fin.val_one]
  omega

namespace Accounts.NoncePast

variable {a a' : Accounts} {key : PublicKey} {nonce : AccountNonce}

/-- Edits other than the use of a nonce and the removal of the key keep it. -/
theorem edit {e : Edit} (h : a.NoncePast key nonce) (hlegal : e.Legal a)
    (hnonce : ∀ id, e ≠ .bumpNonce id) (hkey : ∀ id, e ≠ .erasePubkey id key) :
    (e.apply a).NoncePast key nonce := by
  obtain ⟨id, hid, hcontains, hlt⟩ := h
  refine ⟨id, ?_, (Edit.contains_apply a e id).mpr (.inr hcontains), ?_⟩
  · rw [Edit.pubkeys_apply]
    cases e with
    | insertPubkey id' key' =>
      have hne : key ≠ key' := by
        rintro rfl
        rw [Edit.Legal, hid] at hlegal
        cases hlegal
      rwa [SortedMap.get?_insert_of_ne hne]
    | erasePubkey id' key' =>
      have hne : key ≠ key' := by
        rintro rfl
        exact hkey id' rfl
      rwa [SortedMap.get?_erase_of_ne hne]
    | setAssets | bumpNonce | insertWallet | eraseWallet => exact hid
  · rw [Edit.getOrDefault_apply]
    split
    · rwa [Edit.nextNonce_update hnonce]
    · exact hlt

/-- The use of a nonce that does not wrap around keeps it. -/
theorem bumpNonce {id : AccountId} (h : a.NoncePast key nonce)
    (hwrap : (a.getOrDefault id).nextNonce + 1 ≠ 0) : (a.bumpNonce id).NoncePast key nonce := by
  obtain ⟨id', hid, hcontains, hlt⟩ := h
  refine ⟨id', hid, (Edit.contains_apply a (.bumpNonce id) id').mpr (.inr hcontains), ?_⟩
  change nonce < ((Edit.apply a (.bumpNonce id)).getOrDefault id').nextNonce
  rw [Edit.getOrDefault_apply]
  split
  · rename_i heq
    obtain rfl : id' = id := heq
    exact hlt.trans (AccountNonce.lt_succ hwrap)
  · exact hlt

/-- The transaction that uses a nonce moves its key past it. -/
theorem of_useNonce {id : AccountId} (h : useNonce key nonce a = (.ok id, a'))
    (hwrap : nonce + 1 ≠ 0) : a'.NoncePast key nonce := by
  have bump (b : Accounts) (hid : b.pubkeys.get? key = some id)
      (hnonce : (b.getOrDefault id).nextNonce = nonce) : (b.bumpNonce id).NoncePast key nonce := by
    refine ⟨id, hid, (Edit.contains_apply b (.bumpNonce id) id).mpr (.inl rfl), ?_⟩
    change nonce < ((Edit.apply b (.bumpNonce id)).getOrDefault id).nextNonce
    have hself : id = (Edit.bumpNonce id).account := rfl
    rw [Edit.getOrDefault_apply, if_pos hself]
    change nonce < (b.getOrDefault id).nextNonce + 1
    rw [hnonce]
    exact AccountNonce.lt_succ hwrap
  rcases useNonce_eq_ok h with ⟨hid, account, haccount, hnonce, rfl⟩ | ⟨-, -, hnonce, rfl⟩
  · exact bump a hid (by rw [getOrDefault_of_get? haccount, hnonce])
  · exact bump _ (SortedMap.get?_insert_self ..) hnonce.symm

/-- Any use of a nonce keeps it, unless the nonce wraps around. -/
theorem useNonce {id : AccountId} {key' : PublicKey} {nonce' : AccountNonce}
    (h : a.NoncePast key nonce) (huse : Accounts.useNonce key' nonce' a = (.ok id, a'))
    (hwrap : nonce' + 1 ≠ 0) : a'.NoncePast key nonce := by
  rcases useNonce_eq_ok huse with ⟨-, account, haccount, rfl, rfl⟩ | ⟨hfree, -, rfl, rfl⟩
  · exact h.bumpNonce (by rwa [getOrDefault_of_get? haccount])
  · have hinsert : (a.insertPubkey id key').NoncePast key nonce :=
      h.edit (e := .insertPubkey id key') hfree (by simp) (by simp)
    exact hinsert.bumpNonce hwrap

/-- A nonce that was passed cannot be used. -/
theorem not_useNonce {id : AccountId} (h : a.NoncePast key nonce) :
    Accounts.useNonce key nonce a ≠ (.ok id, a') := by
  intro huse
  obtain ⟨id', hid, -, hlt⟩ := h
  rcases useNonce_eq_ok huse with ⟨hid', account, haccount, rfl, -⟩ | ⟨hfree, -⟩
  · obtain rfl := Option.some.inj (hid'.symm.trans hid)
    rw [getOrDefault_of_get? haccount] at hlt
    exact lt_irrefl _ hlt
  · rw [hid] at hfree
    cases hfree

end Accounts.NoncePast

namespace Node

variable {app : App} {env : Externals}

/-- The transaction does not remove the key, and its own nonce is not the greatest one. -/
def KeepsKey (key : PublicKey) (call : Call app) : Prop :=
  .auth (.removePublicKey key) ∉ call.tx.message.value.messages ∧
    call.tx.message.value.nonce + 1 ≠ 0

/-- How a transaction uses its nonce. -/
theorem useNonce_of_step {self self' : Node app} {call : Call app}
    (h : (machine env).step self call = .ok self') :
    ∃ sender a es, Accounts.useNonce call.tx.message.value.pubkey call.tx.message.value.nonce
        self.frameworkState.accounts = (.ok sender, a) ∧
      (effects env).Trace { self.frameworkState with accounts := a } es self'.frameworkState ∧
      Blocks (TxBlock env (fun _ _ => True) call.tx.message.value.pubkey sender
        call.tx.message.value.messages self.frameworkState.assetConfigs) es := by
  obtain ⟨sender, es, -, htrace, hblocks⟩ := step_blocks h
  rw [Labelled.Trace.cons_iff] at htrace
  exact ⟨sender, _, es, Prod.ext htrace.1 rfl, htrace.2, hblocks⟩

/-- The messages of a transaction keep it, unless one of them removes the key. -/
theorem noncePast_messages {tx : Transaction app.Message} {sender : AccountId}
    {cfg : AssetConfigs} {fs fs' : FrameworkState} {es : List Effect} {key : PublicKey}
    {nonce : AccountNonce} (h : fs.accounts.NoncePast key nonce)
    (hkey : ∀ msg, .auth msg ∈ tx.messages → msg ≠ .removePublicKey tx.pubkey →
      msg ≠ .removePublicKey key)
    (htrace : (effects env).Trace fs es fs')
    (hblocks : Blocks (TxBlock env (fun _ _ => True) tx.pubkey sender tx.messages cfg) es) :
    fs'.accounts.NoncePast key nonce := by
  -- No message uses a nonce, and none removes this key.
  have hop : ∀ e ∈ es, ∀ op id, e = .account op id →
      op.Automatic ∨ ∃ msg : AuthMessage, msg ≠ .removePublicKey key ∧ op = msg.op sender := by
    refine hblocks.forall_mem ?_
    rintro b ⟨message, hmessage, hb⟩ _ he op id rfl
    refine (hb.op_mem he).imp_right ?_
    rintro ⟨-, msg, rfl, hsigning, rfl⟩
    exact ⟨msg, hkey msg hmessage hsigning, rfl⟩
  refine htrace.invariant (I := fun fs => fs.accounts.NoncePast key nonce) h
    fun e hmem fs hlegal hfs => ?_
  refine Effect.accounts_induction (I := fun a => a.NoncePast key nonce) hlegal hfs
    fun op id he edit a _ hallows hedit ha => ha.edit hedit ?_ ?_
  · rintro id' rfl
    rcases hop e hmem op id he with hop | ⟨msg, -, rfl⟩
    · cases op <;> simp [Accounts.Op.Automatic, Accounts.Op.Allows] at hop hallows
    · cases msg <;> simp [AuthMessage.op, Accounts.Op.Allows] at hallows
  · rintro id' rfl
    rcases hop e hmem op id he with hop | ⟨msg, hmsg, rfl⟩
    · cases op <;> simp [Accounts.Op.Automatic, Accounts.Op.Allows] at hop hallows
    · cases msg with
      | removePublicKey key' =>
        obtain ⟨-, rfl⟩ := Accounts.Edit.erasePubkey.inj hallows
        exact hmsg rfl
      | addPublicKey | addWallet | removeWallet =>
        simp [AuthMessage.op, Accounts.Op.Allows] at hallows

theorem noncePast_step {self self' : Node app} {call : Call app} {key : PublicKey}
    {nonce : AccountNonce} (h : self.frameworkState.accounts.NoncePast key nonce)
    (hkeeps : KeepsKey key call) (hstep : (machine env).step self call = .ok self') :
    self'.frameworkState.accounts.NoncePast key nonce := by
  obtain ⟨sender, a, es, huse, htrace, hblocks⟩ := useNonce_of_step hstep
  refine noncePast_messages (h.useNonce huse hkeeps.2) ?_ htrace hblocks
  rintro msg hmsg - rfl
  exact hkeeps.1 hmsg

/-- A transaction moves its own key past its nonce; it cannot remove that key. -/
theorem noncePast_of_step {self self' : Node app} {call : Call app}
    (hwrap : call.tx.message.value.nonce + 1 ≠ 0)
    (hstep : (machine env).step self call = .ok self') :
    self'.frameworkState.accounts.NoncePast call.tx.message.value.pubkey
      call.tx.message.value.nonce := by
  obtain ⟨sender, a, es, huse, htrace, hblocks⟩ := useNonce_of_step hstep
  exact noncePast_messages (.of_useNonce huse hwrap) (fun _ _ h => h) htrace hblocks

end Node

open Node in
/-- A transaction that was executed is refused in every later state, if no transaction executed in
between removes its key. -/
theorem executed_transaction_refused {app : App} (env : Externals) (self s : Node app)
    (first again : Call app) (calls : List (Call app))
    (hfirst : (machine env).step self first = .ok s)
    (hnonce : first.tx.message.value.nonce + 1 ≠ 0)
    (along : (machine env).Along (fun s call => (∃ s', (machine env).step s call = .ok s') →
      KeepsKey first.tx.message.value.pubkey call) s calls)
    (hsame : again.tx = first.tx) :
    ((machine env).step ((machine env).run s calls) again).isOk = false := by
  have hpast := noncePast_of_step hnonce hfirst
  have hrun := (machine env).run_invariant_along (I := fun s : Node app =>
    s.frameworkState.accounts.NoncePast first.tx.message.value.pubkey
      first.tx.message.value.nonce) (fun s call s' hs hkeeps hstep =>
        noncePast_step hs (hkeeps ⟨s', hstep⟩) hstep) hpast along
  cases hagain : (machine env).step ((machine env).run s calls) again with
  | error e => rfl
  | ok s' =>
    obtain ⟨sender, a, es, huse, -⟩ := useNonce_of_step hagain
    rw [hsame] at huse
    exact absurd huse hrun.not_useNonce

namespace ReplaySample

open Sample

/-- Alice's first transaction, which adds one to the counter. -/
def useTx : SignedTx where
  tx := ⟨alice, 0, [.app ()], none⟩
  s := 0x3f938bbfc1d583366916514657f1015e7b8be157e25a28f084e4e1fff924a71c
  recoveryId := 1

def addKeyTx : SignedTx where
  tx := ⟨alice, 1, [.auth (.addPublicKey bob)], none⟩
  s := 0x1c1d7073f54892ceef10c2ad62ed529c2058c25f4faed88bfeeeb83d192f3551
  recoveryId := 0

def removeKeyTx : SignedTx where
  tx := ⟨bob, 2, [.auth (.removePublicKey alice)], none⟩
  s := 0x069c18849f009ca606e25d3fcc5defe528a657ec2f7295847bba1265222504d9
  recoveryId := 1

/-- The signatures of the run. -/
def table : List SignedText :=
  [genesisTx.text, useTx.text, addKeyTx.text, removeKeyTx.text]

theorem table_distinct : (table.map SignedText.signature).Nodup := by decide

def chain : Machine (Node (counter (info validators))) (Call (counter (info validators))) Error :=
  Node.machine (counterEnv table)

theorem mem_table : ∀ t ∈ [genesisTx, useTx, addKeyTx, removeKeyTx], t.text ∈ table :=
  fun _ => List.mem_map_of_mem

end ReplaySample

open Sample ReplaySample in
/-- After Alice has attached another key to her account, her first transaction is refused. -/
theorem executed_transaction_refused_example :
    let used := chain.run (start validators) (calls validators [genesisTx, useTx])
    (chain.step (chain.run used (calls validators [addKeyTx])) (useTx.call validators)).isOk =
      false := by
  have hmem : ∀ t ∈ [genesisTx, useTx], t.text ∈ table := fun t ht => mem_table t (by grind)
  obtain ⟨s, hs, -⟩ := exists_steps (start validators) (fun _ => true) table_distinct hmem
    (by decide)
  have hfirst := chain.step_of_steps (calls validators [genesisTx]) hs
  have hkeep : .auth (.removePublicKey alice) ∉ addKeyTx.tx.messages := by simp [addKeyTx]
  exact executed_transaction_refused (counterEnv table) _ _ (useTx.call validators) _
    (calls validators [addKeyTx]) hfirst (by decide) ⟨fun _ => ⟨hkeep, by decide⟩, trivial⟩ rfl

open Sample ReplaySample in
/-- Once Alice's key has been removed, her first transaction succeeds again, for a new account. -/
theorem executed_transaction_refused_counterexample :
    Node.genesis (counter (info validators)) = .ok (start validators) ∧
    ∃ used again, chain.steps (start validators) (calls validators [genesisTx, useTx]) = .ok used ∧
      count used = 1 ∧
      chain.steps used (calls validators [addKeyTx, removeKeyTx, useTx]) = .ok again ∧
      count again = 2 := by
  have hmem : ∀ t ∈ [genesisTx, useTx] ++ [addKeyTx, removeKeyTx, useTx], t.text ∈ table :=
    fun t ht => mem_table t (by grind)
  obtain ⟨used, again, hused, hcount, hagain, hcount'⟩ := exists_steps_append (start validators)
    (fun s => count s = 1) (fun s => count s = 2) table_distinct hmem (by decide +kernel)
  exact ⟨genesis_start validators_wellFormed, used, again, hused, of_decide_eq_true hcount, hagain,
    of_decide_eq_true hcount'⟩

end Kolme
