import Kolme.Properties.StateFormats

/-!
# What accounts keep to

Whatever operations succeed, one after another from no accounts at all: the reverse maps are the
inverse of the sets of the accounts, no balance is zero or less, what is looked up is there, and the
accounts are reloaded with their reverse maps.
-/

namespace Kolme.Accounts

open Exec

variable {ar : Arith} {a a' : Accounts} {op : Op} {id : AccountId}

/-- A call of one of the operations. -/
inductive Call
  | op (op : Op)
  | addAccount (id : AccountId)

def Call.run (ar : Arith) : Call → Exec Error Accounts Unit
  | .op op => do let _ ← op.run ar
  | .addAccount id => Accounts.addAccount id

/-- Calls one after another, as long as they succeed. -/
def runCalls (ar : Arith) (calls : List Call) : Exec Error Accounts Unit :=
  forEach (Call.run ar) calls

/-! ## Accounts without entries -/

theorem getOrDefault_addAccount (a : Accounts) (id id' : AccountId) :
    getOrDefault { a with accounts := a.accounts.insert id (a.getOrDefault id) } id' =
      a.getOrDefault id' := by
  rw [getOrDefault, SortedMap.get?_insert]
  split
  · rw [Option.getD_some, ‹id' = id›]
  · rfl

/-! ## Balances -/

/-- No balance that is stored is zero or less. -/
def Positive (a : Accounts) : Prop :=
  ∀ id assetId balance, (a.getOrDefault id).assets.get? assetId = some balance → 0 < balance.toRat

theorem positive_empty : empty.Positive := nofun

namespace Positive

theorem balance_nonneg (h : a.Positive) (id : AccountId) (assetId : AssetId) :
    0 ≤ ((a.getOrDefault id).balance assetId).toRat := by
  rw [Account.balance]
  cases hget : (a.getOrDefault id).assets.get? assetId with
  | none => simp [Decimal.zero, Decimal.toRat, Decimal.mantissa]
  | some balance => exact (h id assetId balance hget).le

/-- An edit that sets no balances. -/
theorem edit (h : a.Positive) {e : Edit} (hassets : ∀ id assets, e ≠ .setAssets id assets) :
    (e.apply a).Positive := by
  intro id assetId balance hget
  rw [Edit.getOrDefault_apply] at hget
  have hupdate : (e.update (a.getOrDefault id)).assets = (a.getOrDefault id).assets := by
    cases e with
    | setAssets id assets => exact absurd rfl (hassets id assets)
    | bumpNonce | insertPubkey | erasePubkey | insertWallet | eraseWallet => rfl
  split at hget
  · exact h id assetId balance (hupdate ▸ hget)
  · exact h id assetId balance hget

/-- The balances of an account are replaced by positive ones. -/
theorem setAssets (h : a.Positive) {assets : SortedMap AssetId Decimal}
    (hassets : ∀ assetId balance, assets.get? assetId = some balance → 0 < balance.toRat) :
    (a.setAssets id assets).Positive := by
  intro id' assetId balance hget
  have hdefault := Edit.getOrDefault_apply a (.setAssets id assets) id'
  rw [show (a.setAssets id assets).getOrDefault id' = _ from hdefault] at hget
  split at hget
  · exact hassets assetId balance hget
  · exact h id' assetId balance hget

theorem insert (h : a.Positive) {assetId : AssetId} {balance : Decimal}
    (hbalance : 0 < balance.toRat) :
    (a.setAssets id ((a.getOrDefault id).assets.insert assetId balance)).Positive := by
  refine h.setAssets fun assetId' balance' hget => ?_
  rw [SortedMap.get?_insert] at hget
  split at hget
  · exact Option.some.inj hget ▸ hbalance
  · exact h id assetId' balance' hget

/-- A mint adds to a balance, and a burn takes less than there is or removes the entry. -/
theorem of_run (h : a.Positive) (keeps : ar.KeepsPositive) (hrun : op.run ar a = (.ok id, a')) :
    a'.Positive := by
  have hsets : ¬(∃ id assetId amount, op = .mint id assetId amount ∨ op = .burn id assetId amount) →
      a'.Positive := by
    intro hop
    obtain ⟨es, htrace, hes⟩ := Op.exists_edits hrun
    refine htrace.invariant h fun e he a _ ha => ha.edit fun id' assets heq => ?_
    have hallows := (hes e he).2
    rw [heq] at hallows
    cases op with
    | mint id assetId amount => exact hop ⟨id, assetId, amount, .inl rfl⟩
    | burn id assetId amount => exact hop ⟨id, assetId, amount, .inr rfl⟩
    | useNonce => exact hallows.elim nofun nofun
    | getOrAddAccountForKey | getOrAddAccountForWallet | addPubkeyIgnoreOverlap | addPubkey
    | removePubkey | addWallet | removeWallet => cases hallows
  cases op with
  | mint id' assetId amount =>
    simp only [Op.run, bind_eq_ok, pure_eq_ok] at hrun
    obtain ⟨_, _, hmint, rfl, rfl⟩ := hrun
    obtain ⟨hamount, sum, hsum, rfl⟩ := mint_eq_ok.mp hmint
    exact h.insert (keeps.add hsum (h.balance_nonneg _ _) (Decimal.toRat_pos hamount))
  | burn id' assetId amount =>
    simp only [Op.run, bind_eq_ok, pure_eq_ok] at hrun
    obtain ⟨_, _, hburn, rfl, rfl⟩ := hrun
    obtain ⟨-, account, asset, haccount, -, hcase⟩ := burn_eq_ok hburn
    have haccount := getOrDefault_of_get? haccount
    rcases hcase with ⟨-, rfl⟩ | ⟨hcmp, rest, hrest, rfl⟩
    · refine h.setAssets fun assetId' balance hget => h id' assetId' balance ?_
      rw [SortedMap.get?_erase] at hget
      split at hget
      · cases hget
      · rwa [haccount]
    · rw [← haccount]
      exact h.insert (keeps.sub hrest (Decimal.cmp_eq_gt.mp hcmp))
  | useNonce | getOrAddAccountForKey | getOrAddAccountForWallet | addPubkeyIgnoreOverlap
  | addPubkey | removePubkey | addWallet | removeWallet => exact hsets (by simp)

end Positive

/-! ## Nothing that is looked up is missing -/

namespace Inverse

theorem getAccountForKey_ne_panic (h : a.Inverse) (key : PublicKey) :
    a.getAccountForKey key ≠ .error .panic := by
  rw [getAccountForKey]
  cases hget : a.pubkeys.get? key with
  | none => nofun
  | some id =>
    obtain ⟨account, haccount⟩ := SortedMap.contains_iff.mp (h.contains_pubkey hget)
    simp [haccount, Except.fromOption]

theorem getAccountForWallet_ne_panic (h : a.Inverse) (wallet : Wallet) :
    a.getAccountForWallet wallet ≠ .error .panic := by
  rw [getAccountForWallet]
  cases hget : a.wallets.get? wallet with
  | none => nofun
  | some id =>
    obtain ⟨account, haccount⟩ := SortedMap.contains_iff.mp (h.contains_wallet hget)
    simp [haccount, Except.fromOption]

/-- An operation about an account that is there panics only if a balance overflows. -/
theorem overflow_of_panic (h : a.Inverse) (hid : ∀ id, op.account? = some id →
    a.accounts.contains id = true) (hrun : op.run ar a = (.error .panic, a')) :
    ∃ id assetId amount, op = .mint id assetId amount ∨ op = .burn id assetId amount := by
  cases op with
  | mint id assetId amount => exact ⟨id, assetId, amount, .inl rfl⟩
  | burn id assetId amount => exact ⟨id, assetId, amount, .inr rfl⟩
  | useNonce key nonce =>
    exfalso
    rw [Op.run, useNonce, get_bind] at hrun
    cases hget : a.pubkeys.get? key with
    | none => simp [hget, bind_eq_error] at hrun
    | some id =>
      obtain ⟨account, haccount⟩ := SortedMap.contains_iff.mp (h.contains_pubkey hget)
      simp [hget, haccount, bind_eq_error] at hrun
  | getOrAddAccountForKey key =>
    exfalso
    rw [Op.run, getOrAddAccountForKey, get_bind] at hrun
    cases hget : a.pubkeys.get? key with
    | none => simp [hget, bind_eq_error] at hrun
    | some id => simp [hget] at hrun
  | getOrAddAccountForWallet wallet =>
    exfalso
    rw [Op.run, getOrAddAccountForWallet, get_bind] at hrun
    cases hget : a.wallets.get? wallet with
    | none => simp [hget, bind_eq_error] at hrun
    | some id => simp [hget, bind_eq_error, h.contains_wallet hget] at hrun
  | addPubkeyIgnoreOverlap id key =>
    exfalso
    simp only [Op.run, addPubkeyToAccountIgnoreOverlap, bind_eq_error, get_bind] at hrun
    split at hrun
    · simp at hrun
    · simp [bind_eq_error, hid id rfl] at hrun
  | addPubkey id key => simp [Op.run, addPubkeyToAccountErrorOverlap, bind_eq_error] at hrun
  | addWallet id wallet => simp [Op.run, addWalletToAccount, bind_eq_error] at hrun
  | removePubkey id key =>
    exfalso
    simp only [Op.run, removePubkeyFromAccount, bind_eq_error, get_bind] at hrun
    cases hget : a.pubkeys.get? key with
    | none => simp [hget] at hrun
    | some actualId =>
      obtain ⟨account, haccount⟩ := SortedMap.contains_iff.mp (h.contains_pubkey hget)
      have hkey := h.pubkeys.mp hget
      rw [getOrDefault_of_get? haccount] at hkey
      by_cases hactual : id = actualId
      · subst hactual
        simp [hget, haccount, hkey] at hrun
      · simp [hget, hactual] at hrun
  | removeWallet id wallet =>
    exfalso
    simp only [Op.run, removeWalletFromAccount, bind_eq_error, get_bind] at hrun
    cases hget : a.wallets.get? wallet with
    | none => simp [hget] at hrun
    | some actualId =>
      obtain ⟨account, haccount⟩ := SortedMap.contains_iff.mp (h.contains_wallet hget)
      have hwallet := h.wallets.mp hget
      rw [getOrDefault_of_get? haccount] at hwallet
      by_cases hactual : id = actualId
      · subst hactual
        simp [hget, haccount, hwallet] at hrun
      · simp [hget, hactual] at hrun

end Inverse

/-! ## Runs -/

theorem Inverse.addAccount (h : a.Inverse) (id : AccountId) :
    Inverse { a with accounts := a.accounts.insert id (a.getOrDefault id) } :=
  h.same rfl rfl (fun id' => by rw [getOrDefault_addAccount]) fun id' => by
    rw [getOrDefault_addAccount]

theorem Positive.addAccount (h : a.Positive) (id : AccountId) :
    Positive { a with accounts := a.accounts.insert id (a.getOrDefault id) } := fun id' => by
  rw [getOrDefault_addAccount]
  exact h id'

/-- Every successful call keeps the maps inverse and the balances positive. -/
theorem run_call (keeps : ar.KeepsPositive) {call : Call} (h : a.Inverse ∧ a.Positive)
    (hrun : call.run ar a = (.ok (), a')) : a'.Inverse ∧ a'.Positive := by
  cases call with
  | op op =>
    simp only [Call.run, bind_eq_ok, pure_eq_ok] at hrun
    obtain ⟨id, _, hop, -, rfl⟩ := hrun
    exact ⟨h.1.op hop, h.2.of_run keeps hop⟩
  | addAccount id =>
    rw [Call.run, Accounts.addAccount, modify_eq_ok] at hrun
    subst hrun
    exact ⟨h.1.addAccount id, h.2.addAccount id⟩

theorem run_calls (keeps : ar.KeepsPositive) {calls : List Call} (h : a.Inverse ∧ a.Positive)
    (hrun : runCalls ar calls a = (.ok (), a')) : a'.Inverse ∧ a'.Positive := by
  induction calls generalizing a with
  | nil =>
    obtain ⟨-, rfl⟩ := pure_eq_ok.mp hrun
    exact h
  | cons call calls ih =>
    obtain ⟨middle, hcall, hrest⟩ := forEach_cons_eq_ok.mp hrun
    exact ih (run_call keeps h hcall) hrest

section

variable [Merkle.Sha256] [Merkle.ByteFormats]

/-- What the accounts are like after any calls that succeeded. -/
theorem accounts_consistent (keeps : ar.KeepsPositive) {calls : List Call}
    (hrun : runCalls ar calls .empty = (.ok (), a)) :
    -- The reverse maps are the inverse of the sets of the accounts.
    (∀ key id, a.pubkeys.get? key = some id ↔
      ∃ account, a.accounts.get? id = some account ∧ key ∈ account.pubkeys) ∧
    (∀ wallet id, a.wallets.get? wallet = some id ↔
      ∃ account, a.accounts.get? id = some account ∧ wallet ∈ account.wallets) ∧
    -- No key and no wallet belongs to two accounts.
    (∀ {id id' account account'}, a.accounts.get? id = some account →
      a.accounts.get? id' = some account' → id ≠ id' →
      Disjoint account.pubkeys account'.pubkeys ∧ Disjoint account.wallets account'.wallets) ∧
    -- Every balance is positive.
    (∀ {id account assetId balance}, a.accounts.get? id = some account →
      account.assets.get? assetId = some balance → 0 < balance.toRat) ∧
    -- Nothing that is looked up is missing.
    (∀ key, a.getAccountForKey key ≠ .error .panic) ∧
    (∀ wallet, a.getAccountForWallet wallet ≠ .error .panic) ∧
    (∀ op : Op, (∀ id, op.account? = some id → a.accounts.contains id = true) →
      (∀ id assetId amount, op ≠ .mint id assetId amount ∧ op ≠ .burn id assetId amount) →
      (op.run ar a).1 ≠ .error .panic) ∧
    -- The accounts are reloaded with their reverse maps.
    (FitsMap a.accounts → Reloads a) := by
  obtain ⟨inverse, positive⟩ := run_calls keeps ⟨inverse_empty, positive_empty⟩ hrun
  have hmem {K : Type} [DecidableEq K] {keysOf : Account → Finset K} (hempty : keysOf .empty = ∅)
      (k : K) (id : AccountId) : k ∈ keysOf (a.getOrDefault id) ↔
        ∃ account, a.accounts.get? id = some account ∧ k ∈ keysOf account := by
    cases hget : a.accounts.get? id with
    | none => simp [getOrDefault, hget, hempty]
    | some account => simp [getOrDefault, hget]
  refine ⟨fun key id => inverse.pubkeys.trans (hmem rfl key id),
    fun wallet id => inverse.wallets.trans (hmem rfl wallet id), ?_, ?_,
    inverse.getAccountForKey_ne_panic, inverse.getAccountForWallet_ne_panic, ?_, ?_⟩
  · intro id id' account account' hid hid' hne
    rw [← getOrDefault_of_get? hid, ← getOrDefault_of_get? hid']
    constructor
    · exact Finset.disjoint_left.mpr fun key hkey hkey' =>
        hne (Option.some.inj ((inverse.pubkeys.mpr hkey).symm.trans (inverse.pubkeys.mpr hkey')))
    · exact Finset.disjoint_left.mpr fun wallet hwallet hwallet' =>
        hne (Option.some.inj
          ((inverse.wallets.mpr hwallet).symm.trans (inverse.wallets.mpr hwallet')))
  · intro id account assetId balance hid hbalance
    rw [← getOrDefault_of_get? hid] at hbalance
    exact positive id assetId balance hbalance
  · intro op hid hop hpanic
    have hrun : op.run ar a = (.error .panic, (op.run ar a).2) := Prod.ext hpanic rfl
    obtain ⟨id, assetId, amount, hmint | hburn⟩ := inverse.overflow_of_panic hid hrun
    · exact (hop id assetId amount).1 hmint
    · exact (hop id assetId amount).2 hburn
  · intro hfits
    exact LawfulMerkle.reloads (show Merkle.Fits a from ⟨inverse, hfits⟩)

end

namespace RecordsSample

scoped instance : Merkle.Sha256 := ⟨fun _ => 0⟩

scoped instance : Merkle.ByteFormats := ⟨fun _ => .zero, fun _ => none, fun _ => none⟩

def ten : Decimal := ⟨false, 10, 0⟩

def three : Decimal := ⟨false, 3, 0⟩

def calls : List Call :=
  [.op (.useNonce 5 0), .op (.mint 0 1 ten), .addAccount 7, .op (.getOrAddAccountForWallet "wallet"),
    .op (.burn 0 1 three), .op (.removePubkey 0 5)]

end RecordsSample

open RecordsSample in
theorem accounts_consistent_example :
    ∃ a, runCalls exactArith calls .empty = (.ok (), a) ∧
      (∀ wallet, a.getAccountForWallet wallet ≠ .error .panic) ∧
      (∀ {id account assetId balance}, a.accounts.get? id = some account →
        account.assets.get? assetId = some balance → 0 < balance.toRat) := by
  have hrun : runCalls exactArith calls .empty = (.ok (), (runCalls exactArith calls .empty).2) := by
    decide
  obtain ⟨-, -, -, positive, -, wallets, -, -⟩ :=
    accounts_consistent exactArith_exact.keepsPositive hrun
  exact ⟨_, hrun, wallets, positive⟩

end Kolme.Accounts
