import Kolme.Core.Counter

/-!
# Fresh accounts

A new account takes the id after the greatest one in use. It is one that was never used before,
unless the greatest of all ids is an account: then ids start again at zero, with the first account
of the chain.
-/

namespace Kolme

variable {app : App} {env : Externals}

/-- Nothing is attached to the id: there is no account with a balance or a nonce, and no key or
wallet leads to it. -/
structure Accounts.Unused (a : Accounts) (id : AccountId) : Prop where
  account : a.accounts.get? id = none
  pubkeys : ∀ key, a.pubkeys.get? key ≠ some id
  wallets : ∀ wallet, a.wallets.get? wallet ≠ some id

/-- After the changes `past`, the id is a new one: it was unused all along, it was not given to
anybody else, and it is above all ids in use. -/
structure Fresh (env : Externals) (start : FrameworkState) (past : List Effect)
    (id : AccountId) : Prop where
  unused : ∀ before after fs, past = before ++ after → (effects env).Trace start before fs →
    fs.accounts.Unused id
  notGiven : ∀ before op after fs, past = before ++ .account op id :: after →
    (effects env).Trace start before fs → ¬op.Allocates fs.accounts
  above : ∀ fs id', (effects env).Trace start past fs → fs.accounts.accounts.contains id' = true →
    id' < id

theorem Accounts.Linked.unused {a : Accounts} {id : AccountId} (h : a.Linked)
    (hid : a.accounts.get? id = none) : a.Unused id := by
  have hcontains : ¬a.accounts.contains id = true := by simp [SortedMap.contains, hid]
  exact ⟨hid, fun key hkey => hcontains (h.pubkeys hkey),
    fun wallet hwallet => hcontains (h.wallets hwallet)⟩

/-- Whenever an id is allocated for an unknown key or wallet, it is a new one if and only if the
greatest id is not an account. -/
theorem allocation_fresh_iff (self : Node app) (past future : List Effect) (op : Accounts.Op)
    (id : AccountId) (fs : FrameworkState) (hreach : self.Reachable env)
    (hhistory : self.history = past ++ .account op id :: future)
    (hpast : (effects env).Trace (FrameworkState.new app.genesisInfo) past fs)
    (halloc : op.Allocates fs.accounts) :
    Fresh env (FrameworkState.new app.genesisInfo) past id ↔
      fs.accounts.accounts.get? Accounts.greatestId = none := by
  have htrace := hreach.trace
  rw [Node.HasTrace, hhistory] at htrace
  obtain ⟨fs', hpast', hlegal, -⟩ := htrace.at
  obtain rfl := hpast.unique hpast'
  obtain ⟨hid, -⟩ := halloc.eq_ok (Prod.ext hlegal rfl)
  constructor
  · intro hfresh
    cases hget : fs.accounts.accounts.get? Accounts.greatestId with
    | none => rfl
    | some account =>
      have hlt := hfresh.above fs _ hpast (Accounts.contains_of_get? hget)
      exact absurd (show id.val ≤ Accounts.greatestId.val from Nat.le_of_lt_succ id.isLt)
        (not_le.mpr hlt)
  · intro hgreatest
    have hnone : ¬fs.accounts.accounts.contains id = true := by
      intro hcontains
      rw [hid] at hcontains
      exact lt_irrefl _ (Accounts.lt_getNextAccountId hgreatest hcontains)
    refine ⟨?_, ?_, ?_⟩
    · rintro before after t rfl hbefore
      obtain ⟨t', ht', hafter⟩ := Labelled.Trace.append_iff.mp hpast
      obtain rfl := hbefore.unique ht'
      have hlinked := linked_of_trace hbefore Accounts.linked_empty
      refine hlinked.unused ?_
      rw [← SortedMap.contains_eq_false, Bool.eq_false_iff]
      exact fun hcontains => hnone (contains_of_trace hafter hcontains)
    · rintro before op' after t rfl hbefore halloc'
      obtain ⟨t', ht', hlegal', hafter⟩ := hpast.at
      obtain rfl := hbefore.unique ht'
      obtain ⟨-, hcontains⟩ := halloc'.eq_ok (Prod.ext hlegal' rfl)
      refine hnone (contains_of_trace hafter ?_)
      change ((Effect.account op' id).apply env t).accounts.accounts.contains id = true
      rw [Effect.accounts_apply]
      exact hcontains
    · intro t id' ht hcontains
      obtain rfl := ht.unique hpast
      rw [hid]
      exact Accounts.lt_getNextAccountId hgreatest hcontains

namespace FreshnessSample

open Sample

/-- Alice sends one to the account with the greatest id. -/
def transferTx : SignedTx where
  tx := ⟨alice, 0, [.bank (.transfer 1 18446744073709551615 ⟨false, 1, 0⟩)], none⟩
  s := 0x1069ea6f29fd790b31ba76421dfe7f7f1c99752874e4c2cfa9d29551b85b5bab
  recoveryId := 1

/-- The first transaction of Bob, with the next nonce of account zero. -/
def bobTx : SignedTx where
  tx := ⟨bob, 1, [.app ()], none⟩
  s := 0x7b1a43bb8d02b03531e2529ddfcfab8f7c2c6d30050b5294e2b843d8d01d57b6
  recoveryId := 0

def aliceTx : SignedTx where
  tx := ⟨alice, 0, [.app ()], none⟩
  s := 0x3f938bbfc1d583366916514657f1015e7b8be157e25a28f084e4e1fff924a71c
  recoveryId := 1

def table : List SignedText :=
  [genesisTx.text, depositTx.text, transferTx.text, bobTx.text, aliceTx.text]

theorem table_distinct : (table.map SignedText.signature).Nodup := by decide

theorem mem_table : ∀ t ∈ [genesisTx, depositTx, transferTx, bobTx, aliceTx], t.text ∈ table :=
  fun _ => List.mem_map_of_mem

def chain : Machine (Node (counter (info validators))) (Call (counter (info validators))) Error :=
  Node.machine (counterEnv table)

/-- What the first transaction did. -/
def past : List Effect := [.account (.useNonce processor 0) 0]

end FreshnessSample

open Sample FreshnessSample in
/-- Alice's key is unknown when she sends the second transaction, and gets the account one. -/
theorem allocation_fresh_example :
    Fresh (counterEnv table) (FrameworkState.new (info validators)) past 1 := by
  have hmem : ∀ t ∈ [genesisTx], t.text ∈ table := fun t ht => mem_table t (by grind)
  have hmem' : ∀ t ∈ [genesisTx, aliceTx], t.text ∈ table := fun t ht => mem_table t (by grind)
  obtain ⟨first, hfirst, hpast⟩ := exists_steps (start validators)
    (fun s => s.history = past ∧ s.frameworkState.accounts.pubkeys.get? alice = none ∧
      s.frameworkState.accounts.accounts.get? Accounts.greatestId = none)
    table_distinct hmem (by decide)
  obtain ⟨second, hsecond, hhistory⟩ := exists_steps (start validators)
    (fun s => s.history = past ++ [.account (.useNonce alice 0) 1])
    table_distinct hmem' (by decide)
  obtain ⟨hpast, hunknown, hgreatest⟩ := of_decide_eq_true hpast
  have htrace := (reachable validators_wellFormed hfirst).trace
  rw [Node.HasTrace, hpast] at htrace
  exact (allocation_fresh_iff second past [] (.useNonce alice 0) 1 first.frameworkState
    (reachable validators_wellFormed hsecond) (of_decide_eq_true hhistory) htrace hunknown).mpr
    hgreatest

open Sample FreshnessSample in
/-- Bob's key is unknown, and gets the account of the processor. -/
theorem allocation_fresh_counterexample :
    Node.genesis (counter (info validators)) = .ok (start validators) ∧
    ∃ before after,
      chain.steps (start validators) (calls validators [genesisTx, depositTx, transferTx]) =
        .ok before ∧
      before.frameworkState.accounts.pubkeys.get? bob = none ∧
      before.frameworkState.accounts.pubkeys.get? processor = some 0 ∧
      chain.steps before (calls validators [bobTx]) = .ok after ∧
      after.frameworkState.accounts.pubkeys.get? bob = some 0 ∧
      after.frameworkState.accounts.pubkeys.get? processor = some 0 := by
  have hmem : ∀ t ∈ [genesisTx, depositTx, transferTx] ++ [bobTx], t.text ∈ table :=
    fun t ht => mem_table t (by grind)
  obtain ⟨before, after, hbefore, hknown, hafter, hknown'⟩ := exists_steps_append
    (start validators)
    (fun s => s.frameworkState.accounts.pubkeys.get? bob = none ∧
      s.frameworkState.accounts.pubkeys.get? processor = some 0)
    (fun s => s.frameworkState.accounts.pubkeys.get? bob = some 0 ∧
      s.frameworkState.accounts.pubkeys.get? processor = some 0)
    table_distinct hmem (by decide +kernel)
  obtain ⟨hbob, hprocessor⟩ := of_decide_eq_true hknown
  exact ⟨genesis_start validators_wellFormed, before, after, hbefore, hbob, hprocessor, hafter,
    of_decide_eq_true hknown'⟩

end Kolme
