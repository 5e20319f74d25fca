import Kolme.Properties.AccountMaps
import Kolme.Properties.Replay

/-!
# The last key of an account

A transaction cannot remove the key that signs it, and that key stays with the sender's account
while its messages are executed. So an account that has a key once has one for ever.
-/

namespace Kolme

variable {env : Externals} {app : App}

namespace Accounts

variable {a a' : Accounts} {ar : Arith} {key : PublicKey} {id : AccountId}

/-- The account has a key. -/
def HasKey (a : Accounts) (id : AccountId) : Prop := (a.getOrDefault id).pubkeys.Nonempty

/-- A key stays with its account, unless it is removed from it. -/
theorem mem_pubkeys_edit {e : Edit} (h : key ∈ (a.getOrDefault id).pubkeys)
    (hne : e ≠ .erasePubkey id key) : key ∈ ((e.apply a).getOrDefault id).pubkeys := by
  rw [Edit.getOrDefault_apply]
  split
  · rename_i hid
    cases e with
    | insertPubkey id' key' => exact Finset.mem_insert_of_mem h
    | erasePubkey id' key' =>
      refine Finset.mem_erase.mpr ⟨?_, h⟩
      rintro rfl
      exact hne (by rw [hid, Edit.account])
    | setAssets | bumpNonce | insertWallet | eraseWallet => exact h
  · exact h

theorem HasKey.edit {e : Edit} (h : a.HasKey id) (hne : ∀ key, e ≠ .erasePubkey id key) :
    (e.apply a).HasKey id := by
  obtain ⟨key, hkey⟩ := h
  exact ⟨key, mem_pubkeys_edit hkey (hne key)⟩

/-- The use of a nonce removes no key. -/
theorem HasKey.useNonce {nonce : AccountNonce} {sender : AccountId} (h : a.HasKey id)
    (hrun : useNonce key nonce a = (.ok sender, a')) : a'.HasKey id := by
  rcases useNonce_eq_ok hrun with ⟨-, account, -, -, rfl⟩ | ⟨-, -, -, rfl⟩
  · exact h.edit (e := .bumpNonce sender) nofun
  · exact (h.edit (e := .insertPubkey sender key) nofun).edit (e := .bumpNonce sender) nofun

/-- The key that uses a nonce belongs to the sender. -/
theorem Inverse.mem_of_useNonce {nonce : AccountNonce} {sender : AccountId} (h : a.Inverse)
    (hrun : useNonce key nonce a = (.ok sender, a')) :
    key ∈ (a'.getOrDefault sender).pubkeys := by
  rcases useNonce_eq_ok hrun with ⟨hget, account, -, -, rfl⟩ | ⟨-, -, -, rfl⟩
  · exact mem_pubkeys_edit (e := .bumpNonce sender) (h.pubkeys.mp hget) nofun
  · refine mem_pubkeys_edit (e := .bumpNonce sender) ?_ nofun
    have happly : ((Edit.insertPubkey sender key).apply a).getOrDefault sender =
        (Edit.insertPubkey sender key).update (a.getOrDefault sender) := by
      rw [Edit.getOrDefault_apply]
      exact if_pos rfl
    exact (congrArg (key ∈ ·.pubkeys) happly).mpr (Finset.mem_insert_self key _)

end Accounts

open Accounts (HasKey Inverse)

/-- While the messages of a transaction are executed, its sender has the signing key, and another
account keeps its keys. -/
structure KeysHeld (pubkey : PublicKey) (sender id : AccountId) (a : Accounts) : Prop where
  signing : pubkey ∈ (a.getOrDefault sender).pubkeys
  other : id ≠ sender → a.HasKey id

theorem KeysHeld.hasKey {pubkey : PublicKey} {sender id : AccountId} {a : Accounts}
    (h : KeysHeld pubkey sender id a) : a.HasKey id := by
  by_cases hid : id = sender
  · exact hid ▸ ⟨pubkey, h.signing⟩
  · exact h.other hid

namespace Node

/-- The messages of a transaction hold the keys, whatever they are. -/
theorem keysHeld_messages {tx : Transaction app.Message} {sender id : AccountId}
    {cfg : AssetConfigs} {fs fs' : FrameworkState} {es : List Effect}
    (h : KeysHeld tx.pubkey sender id fs.accounts) (htrace : (effects env).Trace fs es fs')
    (hblocks : Blocks (TxBlock env (fun _ _ => True) tx.pubkey sender tx.messages cfg) es) :
    KeysHeld tx.pubkey sender id fs'.accounts := by
  -- Only the sender removes keys, and never the signing key.
  have hop : ∀ e ∈ es, ∀ op opId, e = .account op opId → op.Automatic ∨ opId = sender ∧
      ∃ msg : AuthMessage, msg ≠ .removePublicKey tx.pubkey ∧ op = msg.op sender := by
    refine hblocks.forall_mem ?_
    rintro b ⟨message, -, hb⟩ _ he op opId rfl
    refine (hb.op_mem he).imp_right ?_
    rintro ⟨hid, msg, -, hsigning, rfl⟩
    exact ⟨hid, msg, hsigning, rfl⟩
  have herase : ∀ e ∈ es, ∀ op opId, e = .account op opId → ∀ key,
      op.Allows opId (.erasePubkey opId key) → opId = sender ∧ key ≠ tx.pubkey := by
    intro e hmem op opId he key hallows
    rcases hop e hmem op opId he with hop | ⟨hid, msg, hmsg, rfl⟩
    · cases op <;> simp [Accounts.Op.Automatic, Accounts.Op.Allows] at hop hallows
    · refine ⟨hid, ?_⟩
      cases msg with
      | removePublicKey key' =>
        obtain ⟨-, rfl⟩ := Accounts.Edit.erasePubkey.inj hallows
        rintro rfl
        exact hmsg rfl
      | addPublicKey | addWallet | removeWallet =>
        simp [AuthMessage.op, Accounts.Op.Allows] at hallows
  refine htrace.invariant (I := fun fs => KeysHeld tx.pubkey sender id fs.accounts) h
    fun e hmem fs hlegal hfs => ?_
  refine Effect.accounts_induction (I := KeysHeld tx.pubkey sender id) hlegal hfs
    fun op opId he edit a hid hallows hedit ha => ⟨?_, fun hne => ?_⟩
  · refine Accounts.mem_pubkeys_edit ha.signing ?_
    rintro rfl
    exact (herase e hmem op opId he _ (hid ▸ hallows)).2 rfl
  · refine (ha.other hne).edit ?_
    rintro key rfl
    exact hne (hid.trans (herase e hmem op opId he key (hid ▸ hallows)).1)

/-- A transaction leaves every account that has a key with one. -/
theorem hasKey_step {self self' : Node app} {call : Call app} {id : AccountId}
    (hstep : (machine env).step self call = .ok self')
    (hinverse : self.frameworkState.accounts.Inverse)
    (h : self.frameworkState.accounts.HasKey id) : self'.frameworkState.accounts.HasKey id := by
  obtain ⟨sender, a, es, huse, htrace, hblocks⟩ := useNonce_of_step hstep
  exact (keysHeld_messages ⟨hinverse.mem_of_useNonce huse, fun _ => h.useNonce huse⟩ htrace
    hblocks).hasKey

theorem Reachable.inverse {self : Node app} (h : self.Reachable env) :
    self.frameworkState.accounts.Inverse :=
  inverse_of_trace h.trace Accounts.inverse_empty

theorem inverse_step {self self' : Node app} {call : Call app}
    (hstep : (machine env).step self call = .ok self')
    (h : self.frameworkState.accounts.Inverse) : self'.frameworkState.accounts.Inverse := by
  obtain ⟨sender, es, -, htrace, -⟩ := step_blocks hstep
  exact inverse_of_trace htrace h

end Node

/-- An account that has a key in a reachable state has one after any transactions. -/
theorem account_keeps_a_key (self : Node app) (hreach : self.Reachable env)
    (calls : List (Call app)) (id : AccountId)
    (h : self.frameworkState.accounts.HasKey id) :
    ((Node.machine env).run self calls).frameworkState.accounts.HasKey id := by
  have hrun := (Node.machine env).run_invariant (s := self)
    (I := fun s : Node app => s.frameworkState.accounts.Inverse ∧
      s.frameworkState.accounts.HasKey id)
    (fun s call s' ⟨hinverse, hkey⟩ hstep =>
      ⟨Node.inverse_step hstep hinverse, Node.hasKey_step hstep hinverse hkey⟩)
    ⟨hreach.inverse, h⟩ calls
  exact hrun.2

open Sample ReplaySample in
/-- Alice adds Bob's key, and Bob removes Alice's. -/
theorem account_keeps_a_key_example :
    ∃ s, chain.steps (start validators) (calls validators [genesisTx, useTx]) = .ok s ∧
      s.frameworkState.accounts.HasKey 1 ∧
      (chain.run s (calls validators [addKeyTx, removeKeyTx])).frameworkState.accounts.HasKey 1 := by
  have hmem : ∀ t ∈ [genesisTx, useTx], t.text ∈ table := fun t ht => mem_table t (by grind)
  obtain ⟨s, hs, hp⟩ := exists_steps (start validators)
    (fun s => alice ∈ (s.frameworkState.accounts.getOrDefault 1).pubkeys) table_distinct hmem
    (by decide)
  have hkey : s.frameworkState.accounts.HasKey 1 := ⟨alice, of_decide_eq_true hp⟩
  exact ⟨s, hs, hkey, account_keeps_a_key s (reachable validators_wellFormed hs) _ 1 hkey⟩

end Kolme
