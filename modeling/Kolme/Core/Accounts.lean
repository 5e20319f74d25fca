import Kolme.Core.Types
import Kolme.Lib.Exec
import Kolme.Lib.Trace

/-!
# Accounts

Wallets, public keys, balances and nonces, with the reverse maps from keys and wallets to
accounts. Every operation that succeeds is a sequence of elementary edits of one account
(`Op.exists_edits`), and what the edits preserve all operations preserve.
-/

namespace Kolme

/-- Information on a specific account -/
structure Account where
  assets : SortedMap AssetId Decimal
  wallets : Finset Wallet
  pubkeys : Finset PublicKey
  nextNonce : AccountNonce
deriving DecidableEq

namespace Account

def empty : Account := ⟨∅, ∅, ∅, 0⟩

/-- The balance of an asset. -/
def balance (self : Account) (assetId : AssetId) : Decimal :=
  (self.assets.get? assetId).getD .zero

end Account

/-- Track all information on accounts. -/
structure Accounts where
  accounts : SortedMap AccountId Account
  wallets : SortedMap Wallet AccountId
  pubkeys : SortedMap PublicKey AccountId
deriving DecidableEq

namespace Accounts

open Exec

def empty : Accounts := ⟨∅, ∅, ∅⟩

def getOrDefault (self : Accounts) (id : AccountId) : Account :=
  (self.accounts.get? id).getD .empty

/-- One past the greatest id in use. -/
def getNextAccountId (self : Accounts) : AccountId :=
  match self.accounts.last? with
  | none => 0
  | some (currHighest, _) => currHighest + 1

/-! ## Edits of one account -/

def setAssets (self : Accounts) (id : AccountId) (assets : SortedMap AssetId Decimal) :
    Accounts :=
  { self with accounts := self.accounts.insert id { self.getOrDefault id with assets } }

def bumpNonce (self : Accounts) (id : AccountId) : Accounts :=
  let account := self.getOrDefault id
  { self with
    accounts := self.accounts.insert id { account with nextNonce := account.nextNonce + 1 } }

/-- Attach a key to an account, in both directions. -/
def insertPubkey (self : Accounts) (id : AccountId) (key : PublicKey) : Accounts :=
  let account := self.getOrDefault id
  { self with
    pubkeys := self.pubkeys.insert key id
    accounts := self.accounts.insert id { account with pubkeys := insert key account.pubkeys } }

def erasePubkey (self : Accounts) (id : AccountId) (key : PublicKey) : Accounts :=
  let account := self.getOrDefault id
  { self with
    pubkeys := self.pubkeys.erase key
    accounts := self.accounts.insert id { account with pubkeys := account.pubkeys.erase key } }

/-- Attach a wallet to an account, in both directions. -/
def insertWallet (self : Accounts) (id : AccountId) (wallet : Wallet) : Accounts :=
  let account := self.getOrDefault id
  { self with
    wallets := self.wallets.insert wallet id
    accounts :=
      self.accounts.insert id { account with wallets := insert wallet account.wallets } }

def eraseWallet (self : Accounts) (id : AccountId) (wallet : Wallet) : Accounts :=
  let account := self.getOrDefault id
  { self with
    wallets := self.wallets.erase wallet
    accounts :=
      self.accounts.insert id { account with wallets := account.wallets.erase wallet } }

/-! ## Operations -/

section Operations

variable (ar : Arith)

def mint (accountId : AccountId) (assetId : AssetId) (toMint : Decimal) :
    Exec Error Accounts Unit := do
  ensure (¬(toMint.isZero ∨ toMint.isSignNegative))
    (.accounts (.mustMintPositive accountId assetId toMint))
  let account ← gets (·.getOrDefault accountId)
  let sum ← fromOption .panic (ar.checkedAdd (account.balance assetId) toMint)
  modify (·.setAssets accountId (account.assets.insert assetId sum))

def burn (accountId : AccountId) (assetId : AssetId) (toBurn : Decimal) :
    Exec Error Accounts Unit := do
  ensure (¬(toBurn.isZero ∨ toBurn.isSignNegative))
    (.accounts (.mustBurnPositive accountId assetId toBurn))
  let insufficient available : Error :=
    .accounts (.insufficientBalance accountId assetId toBurn available)
  let account ← fromOption (insufficient .zero) ((← Exec.get).accounts.get? accountId)
  let asset ← fromOption (insufficient .zero) (account.assets.get? assetId)
  match asset.cmp toBurn with
  | .lt => throw (insufficient asset)
  | .eq => modify (·.setAssets accountId (account.assets.erase assetId))
  | .gt =>
    let rest ← fromOption .panic (ar.checkedSub asset toBurn)
    modify (·.setAssets accountId (account.assets.insert assetId rest))

def addPubkeyToAccountErrorOverlap (accountId : AccountId) (key : PublicKey) :
    Exec Error Accounts Unit := do
  let self ← Exec.get
  ensure (self.pubkeys.contains key = false) (.pubkeyInUse key)
  ensure (self.accounts.contains accountId) (.accountNotFound accountId)
  modify (·.insertPubkey accountId key)

/-- Panics if the given account ID isn't present. -/
def addPubkeyToAccountIgnoreOverlap (accountId : AccountId) (key : PublicKey) :
    Exec Error Accounts Unit := do
  let self ← Exec.get
  if self.pubkeys.contains key then
    return ()
  else
    ensure (self.accounts.contains accountId) .panic
    modify (·.insertPubkey accountId key)

def getOrAddAccountForKey (key : PublicKey) : Exec Error Accounts AccountId := do
  let self ← Exec.get
  match self.pubkeys.get? key with
  | some accountId => return accountId
  | none =>
    let accountId := self.getNextAccountId
    modify (·.insertPubkey accountId key)
    return accountId

def getOrAddAccountForWallet (wallet : Wallet) : Exec Error Accounts AccountId := do
  let self ← Exec.get
  match self.wallets.get? wallet with
  | some id =>
    ensure (self.accounts.contains id) .panic
    return id
  | none =>
    let id := self.getNextAccountId
    modify (·.insertWallet id wallet)
    return id

def removePubkeyFromAccount (id : AccountId) (key : PublicKey) : Exec Error Accounts Unit := do
  let self ← Exec.get
  let actualId ← fromOption (.unknownPubkey key) (self.pubkeys.get? key)
  modify fun self => { self with pubkeys := self.pubkeys.erase key }
  ensure (id = actualId) (.pubkeyOfOtherAccount key id actualId)
  let account ← fromOption .panic (self.accounts.get? id)
  ensure (key ∈ account.pubkeys) .panic
  modify fun self => { self with
    accounts := self.accounts.insert id { account with pubkeys := account.pubkeys.erase key } }

def addWalletToAccount (accountId : AccountId) (wallet : Wallet) :
    Exec Error Accounts Unit := do
  let self ← Exec.get
  ensure (self.wallets.contains wallet = false) (.walletInUse wallet)
  ensure (self.accounts.contains accountId) (.accountNotFound accountId)
  modify (·.insertWallet accountId wallet)

def removeWalletFromAccount (id : AccountId) (wallet : Wallet) : Exec Error Accounts Unit := do
  let self ← Exec.get
  let actualId ← fromOption (.unknownWallet wallet) (self.wallets.get? wallet)
  modify fun self => { self with wallets := self.wallets.erase wallet }
  ensure (id = actualId) (.walletOfOtherAccount wallet id actualId)
  let account ← fromOption .panic (self.accounts.get? id)
  ensure (wallet ∈ account.wallets) .panic
  modify fun self => { self with
    accounts :=
      self.accounts.insert id { account with wallets := account.wallets.erase wallet } }

/-- Use the nonce for the given public key. Returns an error if the wrong nonce is provided.
Initiates the account if necessary. -/
def useNonce (pubkey : PublicKey) (nonce : AccountNonce) : Exec Error Accounts AccountId := do
  let self ← Exec.get
  match self.pubkeys.get? pubkey with
  | some accountId =>
    let account ← fromOption .panic (self.accounts.get? accountId)
    ensure (account.nextNonce = nonce)
      (.invalidNonce pubkey accountId account.nextNonce nonce)
    modify (·.bumpNonce accountId)
    return accountId
  | none =>
    let accountId := self.getNextAccountId
    modify (·.insertPubkey accountId pubkey)
    let account ← gets (·.getOrDefault accountId)
    ensure (nonce = account.nextNonce) (.newAccountNonce pubkey account.nextNonce nonce)
    modify (·.bumpNonce accountId)
    return accountId

/-- Adds an empty entry for the given account ID if not already present. -/
def addAccount (id : AccountId) : Exec Error Accounts Unit :=
  modify fun self => { self with accounts := self.accounts.insert id (self.getOrDefault id) }

/-! ## Lookups -/

def getAccountForKey (self : Accounts) (publicKey : PublicKey) :
    Except Error (Option (AccountId × Account)) :=
  match self.pubkeys.get? publicKey with
  | none => .ok none
  | some accountId => do
    let account ← Except.fromOption .panic (self.accounts.get? accountId)
    return some (accountId, account)

def getAccountForWallet (self : Accounts) (wallet : Wallet) :
    Except Error (Option (AccountId × Account)) :=
  match self.wallets.get? wallet with
  | none => .ok none
  | some accountId => do
    let account ← Except.fromOption .panic (self.accounts.get? accountId)
    return some (accountId, account)

end Operations

/-- The operations the chain performs on accounts. -/
inductive Op
  | useNonce (pubkey : PublicKey) (nonce : AccountNonce)
  | getOrAddAccountForKey (key : PublicKey)
  | getOrAddAccountForWallet (wallet : Wallet)
  | addPubkeyIgnoreOverlap (id : AccountId) (key : PublicKey)
  | addPubkey (id : AccountId) (key : PublicKey)
  | removePubkey (id : AccountId) (key : PublicKey)
  | addWallet (id : AccountId) (wallet : Wallet)
  | removeWallet (id : AccountId) (wallet : Wallet)
  | mint (id : AccountId) (assetId : AssetId) (amount : Decimal)
  | burn (id : AccountId) (assetId : AssetId) (amount : Decimal)
deriving DecidableEq

/-- Perform an operation; the result is the account that it is about. -/
def Op.run (ar : Arith) : Op → Exec Error Accounts AccountId
  | .useNonce pubkey nonce => Accounts.useNonce pubkey nonce
  | .getOrAddAccountForKey key => Accounts.getOrAddAccountForKey key
  | .getOrAddAccountForWallet wallet => Accounts.getOrAddAccountForWallet wallet
  | .addPubkeyIgnoreOverlap id key => do addPubkeyToAccountIgnoreOverlap id key; return id
  | .addPubkey id key => do addPubkeyToAccountErrorOverlap id key; return id
  | .removePubkey id key => do removePubkeyFromAccount id key; return id
  | .addWallet id wallet => do addWalletToAccount id wallet; return id
  | .removeWallet id wallet => do removeWalletFromAccount id wallet; return id
  | .mint id assetId amount => do Accounts.mint ar id assetId amount; return id
  | .burn id assetId amount => do Accounts.burn ar id assetId amount; return id

/-! ## What an operation does -/

/-- The elementary changes. -/
inductive Edit
  | setAssets (id : AccountId) (assets : SortedMap AssetId Decimal)
  | bumpNonce (id : AccountId)
  | insertPubkey (id : AccountId) (key : PublicKey)
  | erasePubkey (id : AccountId) (key : PublicKey)
  | insertWallet (id : AccountId) (wallet : Wallet)
  | eraseWallet (id : AccountId) (wallet : Wallet)

namespace Edit

def apply (self : Accounts) : Edit → Accounts
  | setAssets id assets => self.setAssets id assets
  | bumpNonce id => self.bumpNonce id
  | insertPubkey id key => self.insertPubkey id key
  | erasePubkey id key => self.erasePubkey id key
  | insertWallet id wallet => self.insertWallet id wallet
  | eraseWallet id wallet => self.eraseWallet id wallet

/-- The account an edit changes. -/
def account : Edit → AccountId
  | setAssets id _ | bumpNonce id | insertPubkey id _ | erasePubkey id _ | insertWallet id _
  | eraseWallet id _ => id

/-- When an edit is made: keys and wallets are attached only while they are free, and detached
only from the account that has them. -/
def Legal (self : Accounts) : Edit → Prop
  | setAssets _ _ => True
  | bumpNonce id => self.accounts.contains id
  | insertPubkey _ key => self.pubkeys.get? key = none
  | erasePubkey id key => self.pubkeys.get? key = some id ∧ self.accounts.contains id
  | insertWallet _ wallet => self.wallets.get? wallet = none
  | eraseWallet id wallet => self.wallets.get? wallet = some id ∧ self.accounts.contains id

/-- What an edit does to its account. -/
def update (self : Account) : Edit → Account
  | setAssets _ assets => { self with assets }
  | bumpNonce _ => { self with nextNonce := self.nextNonce + 1 }
  | insertPubkey _ key => { self with pubkeys := insert key self.pubkeys }
  | erasePubkey _ key => { self with pubkeys := self.pubkeys.erase key }
  | insertWallet _ wallet => { self with wallets := insert wallet self.wallets }
  | eraseWallet _ wallet => { self with wallets := self.wallets.erase wallet }

theorem accounts_apply (self : Accounts) (e : Edit) :
    (e.apply self).accounts =
      self.accounts.insert e.account (e.update (self.getOrDefault e.account)) := by
  cases e <;> rfl

theorem pubkeys_apply (self : Accounts) (e : Edit) :
    (e.apply self).pubkeys = match e with
      | insertPubkey id key => self.pubkeys.insert key id
      | erasePubkey _ key => self.pubkeys.erase key
      | _ => self.pubkeys := by
  cases e <;> rfl

theorem wallets_apply (self : Accounts) (e : Edit) :
    (e.apply self).wallets = match e with
      | insertWallet id wallet => self.wallets.insert wallet id
      | eraseWallet _ wallet => self.wallets.erase wallet
      | _ => self.wallets := by
  cases e <;> rfl

theorem getOrDefault_apply (self : Accounts) (e : Edit) (id : AccountId) :
    (e.apply self).getOrDefault id =
      if id = e.account then e.update (self.getOrDefault id) else self.getOrDefault id := by
  simp only [getOrDefault, accounts_apply, SortedMap.get?_insert]
  split
  · rename_i h
    simp [h]
  · rfl

/-- Accounts are never removed. -/
theorem contains_apply (self : Accounts) (e : Edit) (id : AccountId) :
    (e.apply self).accounts.contains id = true ↔
      id = e.account ∨ self.accounts.contains id = true := by
  simp only [accounts_apply, SortedMap.contains, SortedMap.get?_insert]
  split <;> simp_all

/-- Only the use of a nonce changes it. -/
theorem nextNonce_update {e : Edit} (h : ∀ id, e ≠ bumpNonce id) (self : Account) :
    (e.update self).nextNonce = self.nextNonce := by
  cases e with
  | bumpNonce id => exact absurd rfl (h id)
  | setAssets | insertPubkey | erasePubkey | insertWallet | eraseWallet => rfl

end Edit

/-- Accounts under legal edits. -/
def edits : Labelled Accounts Edit := ⟨Edit.Legal, Edit.apply⟩

/-- The edits an operation may make to the account it is about. -/
def Op.Allows (id : AccountId) : Op → Edit → Prop
  | .useNonce pubkey _, e => e = .bumpNonce id ∨ e = .insertPubkey id pubkey
  | .getOrAddAccountForKey key, e => e = .insertPubkey id key
  | .getOrAddAccountForWallet wallet, e => e = .insertWallet id wallet
  | .addPubkeyIgnoreOverlap _ key, e => e = .insertPubkey id key
  | .addPubkey _ key, e => e = .insertPubkey id key
  | .removePubkey _ key, e => e = .erasePubkey id key
  | .addWallet _ wallet, e => e = .insertWallet id wallet
  | .removeWallet _ wallet, e => e = .eraseWallet id wallet
  | .mint _ _ _, e => ∃ assets, e = .setAssets id assets
  | .burn _ _ _, e => ∃ assets, e = .setAssets id assets

/-- The account that an operation names. -/
def Op.account? : Op → Option AccountId
  | .useNonce _ _ | .getOrAddAccountForKey _ | .getOrAddAccountForWallet _ => none
  | .addPubkeyIgnoreOverlap id _ | .addPubkey id _ | .removePubkey id _ | .addWallet id _
  | .removeWallet id _ | .mint id _ _ | .burn id _ _ => some id

section Spec

variable {ar : Arith} {a a' : Accounts} {u : Unit}

theorem getOrDefault_of_get? {id : AccountId} {account : Account}
    (h : a.accounts.get? id = some account) : a.getOrDefault id = account := by
  simp [getOrDefault, h]

theorem contains_of_get? {id : AccountId} {account : Account}
    (h : a.accounts.get? id = some account) : a.accounts.contains id = true :=
  SortedMap.contains_iff.mpr ⟨account, h⟩

theorem mint_eq_ok {id : AccountId} {assetId : AssetId} {amount : Decimal} :
    mint ar id assetId amount a = (.ok u, a') ↔
      ¬(amount.isZero ∨ amount.isSignNegative) ∧
      ∃ sum, ar.checkedAdd ((a.getOrDefault id).balance assetId) amount = some sum ∧
        a.setAssets id ((a.getOrDefault id).assets.insert assetId sum) = a' := by
  simp only [mint, bind_eq_ok, ensure_eq_ok, gets_eq_ok, fromOption_eq_ok, modify_eq_ok]
  constructor
  · rintro ⟨_, _, ⟨hpos, rfl⟩, _, _, ⟨rfl, rfl⟩, sum, _, ⟨hsum, rfl⟩, rfl⟩
    exact ⟨hpos, sum, hsum, rfl⟩
  · rintro ⟨hpos, sum, hsum, rfl⟩
    exact ⟨(), _, ⟨hpos, rfl⟩, _, _, ⟨rfl, rfl⟩, sum, _, ⟨hsum, rfl⟩, rfl⟩

/-- A burn takes the amount off a balance that is at least as large. -/
theorem burn_eq_ok {id : AccountId} {assetId : AssetId} {amount : Decimal}
    (h : burn ar id assetId amount a = (.ok u, a')) :
    ¬(amount.isZero ∨ amount.isSignNegative) ∧
    ∃ account asset, a.accounts.get? id = some account ∧
      account.assets.get? assetId = some asset ∧
      (asset.cmp amount = .eq ∧ a' = a.setAssets id (account.assets.erase assetId) ∨
        asset.cmp amount = .gt ∧ ∃ rest, ar.checkedSub asset amount = some rest ∧
          a' = a.setAssets id (account.assets.insert assetId rest)) := by
  simp only [burn, bind_eq_ok, ensure_eq_ok, get_eq_ok, fromOption_eq_ok] at h
  obtain ⟨_, _, ⟨hpos, rfl⟩, _, _, ⟨rfl, rfl⟩, account, _, ⟨haccount, rfl⟩, asset, _,
    ⟨hasset, rfl⟩, h⟩ := h
  refine ⟨hpos, account, asset, haccount, hasset, ?_⟩
  cases hcmp : asset.cmp amount with
  | lt => simp [hcmp] at h
  | eq =>
    simp only [hcmp, modify_eq_ok] at h
    exact .inl ⟨rfl, h.symm⟩
  | gt =>
    simp only [hcmp, bind_eq_ok, fromOption_eq_ok, modify_eq_ok] at h
    obtain ⟨rest, _, ⟨hrest, rfl⟩, rfl⟩ := h
    exact .inr ⟨rfl, rest, hrest, rfl⟩

theorem addPubkeyToAccountErrorOverlap_eq_ok {id : AccountId} {key : PublicKey} :
    addPubkeyToAccountErrorOverlap id key a = (.ok u, a') ↔
      a.pubkeys.get? key = none ∧ a.accounts.contains id ∧ a.insertPubkey id key = a' := by
  simp only [addPubkeyToAccountErrorOverlap, bind_eq_ok, ensure_eq_ok, get_eq_ok, modify_eq_ok,
    SortedMap.contains_eq_false]
  constructor
  · rintro ⟨_, _, ⟨rfl, rfl⟩, _, _, ⟨hkey, rfl⟩, _, _, ⟨hid, rfl⟩, rfl⟩
    exact ⟨hkey, hid, rfl⟩
  · rintro ⟨hkey, hid, rfl⟩
    exact ⟨_, _, ⟨rfl, rfl⟩, (), _, ⟨hkey, rfl⟩, (), _, ⟨hid, rfl⟩, rfl⟩

theorem addPubkeyToAccountIgnoreOverlap_eq_ok {id : AccountId} {key : PublicKey} :
    addPubkeyToAccountIgnoreOverlap id key a = (.ok u, a') ↔
      (∃ other, a.pubkeys.get? key = some other) ∧ a = a' ∨
      a.pubkeys.get? key = none ∧ a.accounts.contains id ∧ a.insertPubkey id key = a' := by
  simp only [addPubkeyToAccountIgnoreOverlap, bind_eq_ok, get_eq_ok]
  cases hkey : a.pubkeys.get? key with
  | some other =>
    have hc : a.pubkeys.contains key = true := SortedMap.contains_iff.mpr ⟨other, hkey⟩
    constructor
    · rintro ⟨_, _, ⟨rfl, rfl⟩, h⟩
      rw [if_pos hc, pure_eq_ok] at h
      exact .inl ⟨⟨other, rfl⟩, h.2⟩
    · rintro (⟨-, rfl⟩ | ⟨h, -⟩)
      · exact ⟨_, _, ⟨rfl, rfl⟩, by rw [if_pos hc, pure_eq_ok]; exact ⟨rfl, rfl⟩⟩
      · cases h
  | none =>
    have hc : ¬a.pubkeys.contains key = true := by simp [SortedMap.contains, hkey]
    constructor
    · rintro ⟨_, _, ⟨rfl, rfl⟩, h⟩
      simp only [if_neg hc, bind_eq_ok, ensure_eq_ok, modify_eq_ok] at h
      obtain ⟨_, _, ⟨hid, rfl⟩, h⟩ := h
      exact .inr ⟨rfl, hid, h⟩
    · rintro (⟨⟨other, h⟩, -⟩ | ⟨-, hid, h⟩)
      · cases h
      · refine ⟨_, _, ⟨rfl, rfl⟩, ?_⟩
        simp only [if_neg hc, bind_eq_ok, ensure_eq_ok, modify_eq_ok]
        exact ⟨(), _, ⟨hid, rfl⟩, h⟩

theorem getOrAddAccountForKey_eq_ok {key : PublicKey} {id : AccountId} :
    getOrAddAccountForKey key a = (.ok id, a') ↔
      a.pubkeys.get? key = some id ∧ a = a' ∨
      a.pubkeys.get? key = none ∧ id = a.getNextAccountId ∧ a.insertPubkey id key = a' := by
  simp only [getOrAddAccountForKey, bind_eq_ok, get_eq_ok]
  cases hkey : a.pubkeys.get? key with
  | some other =>
    constructor
    · rintro ⟨_, _, ⟨rfl, rfl⟩, h⟩
      simp only [hkey, pure_eq_ok] at h
      exact .inl ⟨by rw [h.1], h.2⟩
    · rintro (⟨h, rfl⟩ | ⟨h, -⟩)
      · obtain rfl := Option.some.inj h
        exact ⟨_, _, ⟨rfl, rfl⟩, by simp [hkey]⟩
      · cases h
  | none =>
    constructor
    · rintro ⟨_, _, ⟨rfl, rfl⟩, h⟩
      simp only [hkey, bind_eq_ok, modify_eq_ok, pure_eq_ok] at h
      obtain ⟨_, _, rfl, rfl, rfl⟩ := h
      exact .inr ⟨rfl, rfl, rfl⟩
    · rintro (⟨h, -⟩ | ⟨-, rfl, rfl⟩)
      · cases h
      · refine ⟨_, _, ⟨rfl, rfl⟩, ?_⟩
        simp only [hkey, bind_eq_ok, modify_eq_ok, pure_eq_ok]
        exact ⟨(), _, rfl, trivial, rfl⟩

theorem getOrAddAccountForWallet_eq_ok {wallet : Wallet} {id : AccountId} :
    getOrAddAccountForWallet wallet a = (.ok id, a') ↔
      a.wallets.get? wallet = some id ∧ a.accounts.contains id ∧ a = a' ∨
      a.wallets.get? wallet = none ∧ id = a.getNextAccountId ∧ a.insertWallet id wallet = a' := by
  simp only [getOrAddAccountForWallet, bind_eq_ok, get_eq_ok]
  cases hwallet : a.wallets.get? wallet with
  | some other =>
    constructor
    · rintro ⟨_, _, ⟨rfl, rfl⟩, h⟩
      simp only [hwallet, bind_eq_ok, ensure_eq_ok, pure_eq_ok] at h
      obtain ⟨_, _, ⟨hid, rfl⟩, rfl, rfl⟩ := h
      exact .inl ⟨rfl, hid, rfl⟩
    · rintro (⟨h, hid, rfl⟩ | ⟨h, -⟩)
      · obtain rfl := Option.some.inj h
        refine ⟨_, _, ⟨rfl, rfl⟩, ?_⟩
        simp only [hwallet, bind_eq_ok, ensure_eq_ok, pure_eq_ok]
        exact ⟨(), _, ⟨hid, rfl⟩, trivial, rfl⟩
      · cases h
  | none =>
    constructor
    · rintro ⟨_, _, ⟨rfl, rfl⟩, h⟩
      simp only [hwallet, bind_eq_ok, modify_eq_ok, pure_eq_ok] at h
      obtain ⟨_, _, rfl, rfl, rfl⟩ := h
      exact .inr ⟨rfl, rfl, rfl⟩
    · rintro (⟨h, -⟩ | ⟨-, rfl, rfl⟩)
      · cases h
      · refine ⟨_, _, ⟨rfl, rfl⟩, ?_⟩
        simp only [hwallet, bind_eq_ok, modify_eq_ok, pure_eq_ok]
        exact ⟨(), _, rfl, trivial, rfl⟩

theorem removePubkeyFromAccount_eq_ok {id : AccountId} {key : PublicKey}
    (h : removePubkeyFromAccount id key a = (.ok u, a')) :
    a.pubkeys.get? key = some id ∧ a.accounts.contains id ∧ a' = a.erasePubkey id key := by
  simp only [removePubkeyFromAccount, bind_eq_ok, get_eq_ok, fromOption_eq_ok, modify_eq_ok,
    ensure_eq_ok] at h
  obtain ⟨_, _, ⟨rfl, rfl⟩, actual, _, ⟨hkey, rfl⟩, _, _, rfl, _, _, ⟨rfl, rfl⟩, account, _,
    ⟨haccount, rfl⟩, _, _, ⟨-, rfl⟩, rfl⟩ := h
  exact ⟨hkey, contains_of_get? haccount, by rw [erasePubkey, getOrDefault_of_get? haccount]⟩

theorem addWalletToAccount_eq_ok {id : AccountId} {wallet : Wallet} :
    addWalletToAccount id wallet a = (.ok u, a') ↔
      a.wallets.get? wallet = none ∧ a.accounts.contains id ∧ a.insertWallet id wallet = a' := by
  simp only [addWalletToAccount, bind_eq_ok, ensure_eq_ok, get_eq_ok, modify_eq_ok,
    SortedMap.contains_eq_false]
  constructor
  · rintro ⟨_, _, ⟨rfl, rfl⟩, _, _, ⟨hwallet, rfl⟩, _, _, ⟨hid, rfl⟩, rfl⟩
    exact ⟨hwallet, hid, rfl⟩
  · rintro ⟨hwallet, hid, rfl⟩
    exact ⟨_, _, ⟨rfl, rfl⟩, (), _, ⟨hwallet, rfl⟩, (), _, ⟨hid, rfl⟩, rfl⟩

theorem removeWalletFromAccount_eq_ok {id : AccountId} {wallet : Wallet}
    (h : removeWalletFromAccount id wallet a = (.ok u, a')) :
    a.wallets.get? wallet = some id ∧ a.accounts.contains id ∧ a' = a.eraseWallet id wallet := by
  simp only [removeWalletFromAccount, bind_eq_ok, get_eq_ok, fromOption_eq_ok, modify_eq_ok,
    ensure_eq_ok] at h
  obtain ⟨_, _, ⟨rfl, rfl⟩, actual, _, ⟨hwallet, rfl⟩, _, _, rfl, _, _, ⟨rfl, rfl⟩, account, _,
    ⟨haccount, rfl⟩, _, _, ⟨-, rfl⟩, rfl⟩ := h
  exact ⟨hwallet, contains_of_get? haccount, by rw [eraseWallet, getOrDefault_of_get? haccount]⟩

/-- A known key uses the nonce of its account; an unknown one brings a new account. -/
theorem useNonce_eq_ok {key : PublicKey} {nonce : AccountNonce} {id : AccountId}
    (h : useNonce key nonce a = (.ok id, a')) :
    (a.pubkeys.get? key = some id ∧ ∃ account, a.accounts.get? id = some account ∧
      account.nextNonce = nonce ∧ a' = a.bumpNonce id) ∨
    (a.pubkeys.get? key = none ∧ id = a.getNextAccountId ∧
      nonce = ((a.insertPubkey id key).getOrDefault id).nextNonce ∧
      a' = (a.insertPubkey id key).bumpNonce id) := by
  simp only [useNonce, bind_eq_ok, get_eq_ok] at h
  obtain ⟨_, _, ⟨rfl, rfl⟩, h⟩ := h
  cases hkey : a.pubkeys.get? key with
  | some other =>
    simp only [hkey, bind_eq_ok, fromOption_eq_ok, ensure_eq_ok, modify_eq_ok,
      pure_eq_ok] at h
    obtain ⟨account, _, ⟨haccount, rfl⟩, _, _, ⟨hnonce, rfl⟩, _, _, rfl, rfl, rfl⟩ := h
    exact .inl ⟨rfl, account, haccount, hnonce, rfl⟩
  | none =>
    simp only [hkey, bind_eq_ok, modify_eq_ok, gets_eq_ok, ensure_eq_ok, pure_eq_ok] at h
    obtain ⟨_, _, rfl, _, _, ⟨rfl, rfl⟩, _, _, ⟨hnonce, rfl⟩, _, _, rfl, rfl, rfl⟩ := h
    exact .inr ⟨rfl, rfl, hnonce, rfl⟩

theorem contains_insertPubkey (a : Accounts) (id : AccountId) (key : PublicKey) :
    (a.insertPubkey id key).accounts.contains id = true := by
  simp [insertPubkey, SortedMap.contains]

/-- An operation is about the account it names. -/
theorem Op.eq_of_account? {op : Op} {id id' : AccountId} (h : op.run ar a = (.ok id, a'))
    (hop : op.account? = some id') : id = id' := by
  cases op with
  | useNonce | getOrAddAccountForKey | getOrAddAccountForWallet => cases hop
  | addPubkeyIgnoreOverlap | addPubkey | removePubkey | addWallet | removeWallet | mint | burn =>
    simp only [Op.run, bind_eq_ok, pure_eq_ok] at h
    obtain ⟨_, _, -, rfl, -⟩ := h
    exact Option.some.inj hop

/-- Every successful operation is a sequence of legal edits of one account. -/
theorem Op.exists_edits {op : Op} {id : AccountId} (h : op.run ar a = (.ok id, a')) :
    ∃ es, edits.Trace a es a' ∧ ∀ e ∈ es, e.account = id ∧ op.Allows id e := by
  have one : ∀ {e : Edit}, e.Legal a → e.account = id → op.Allows id e → a' = e.apply a →
      ∃ es, edits.Trace a es a' ∧ ∀ e ∈ es, e.account = id ∧ op.Allows id e := by
    rintro e hlegal hid hallows rfl
    exact ⟨[e], .single (L := edits) hlegal, by simpa using ⟨hid, hallows⟩⟩
  have none : a' = a → ∃ es, edits.Trace a es a' ∧ ∀ e ∈ es, e.account = id ∧ op.Allows id e := by
    rintro rfl
    exact ⟨[], .nil _, by simp⟩
  cases op with
  | useNonce key nonce =>
    rcases useNonce_eq_ok h with ⟨-, account, haccount, -, ha'⟩ | ⟨hkey, -, -, rfl⟩
    · exact one (e := .bumpNonce id) (contains_of_get? haccount) rfl (.inl rfl) ha'
    · refine ⟨[.insertPubkey id key, .bumpNonce id],
        .cons hkey (.cons (contains_insertPubkey a id key) (.nil _)), ?_⟩
      simp [Edit.account, Allows]
  | getOrAddAccountForKey key =>
    rcases getOrAddAccountForKey_eq_ok.mp h with ⟨-, ha'⟩ | ⟨hkey, -, ha'⟩
    · exact none ha'.symm
    · exact one (e := .insertPubkey id key) hkey rfl rfl ha'.symm
  | getOrAddAccountForWallet wallet =>
    rcases getOrAddAccountForWallet_eq_ok.mp h with ⟨-, -, ha'⟩ | ⟨hwallet, -, ha'⟩
    · exact none ha'.symm
    · exact one (e := .insertWallet id wallet) hwallet rfl rfl ha'.symm
  | addPubkeyIgnoreOverlap id' key =>
    simp only [Op.run, bind_eq_ok, pure_eq_ok] at h
    obtain ⟨_, _, h, rfl, rfl⟩ := h
    rcases addPubkeyToAccountIgnoreOverlap_eq_ok.mp h with ⟨-, ha'⟩ | ⟨hkey, -, ha'⟩
    · exact none ha'.symm
    · exact one (e := .insertPubkey id' key) hkey rfl rfl ha'.symm
  | addPubkey id' key =>
    simp only [Op.run, bind_eq_ok, pure_eq_ok] at h
    obtain ⟨_, _, h, rfl, rfl⟩ := h
    obtain ⟨hkey, -, ha'⟩ := addPubkeyToAccountErrorOverlap_eq_ok.mp h
    exact one (e := .insertPubkey id' key) hkey rfl rfl ha'.symm
  | removePubkey id' key =>
    simp only [Op.run, bind_eq_ok, pure_eq_ok] at h
    obtain ⟨_, _, h, rfl, rfl⟩ := h
    obtain ⟨hkey, hid, ha'⟩ := removePubkeyFromAccount_eq_ok h
    exact one (e := .erasePubkey id' key) ⟨hkey, hid⟩ rfl rfl ha'
  | addWallet id' wallet =>
    simp only [Op.run, bind_eq_ok, pure_eq_ok] at h
    obtain ⟨_, _, h, rfl, rfl⟩ := h
    obtain ⟨hwallet, -, ha'⟩ := addWalletToAccount_eq_ok.mp h
    exact one (e := .insertWallet id' wallet) hwallet rfl rfl ha'.symm
  | removeWallet id' wallet =>
    simp only [Op.run, bind_eq_ok, pure_eq_ok] at h
    obtain ⟨_, _, h, rfl, rfl⟩ := h
    obtain ⟨hwallet, hid, ha'⟩ := removeWalletFromAccount_eq_ok h
    exact one (e := .eraseWallet id' wallet) ⟨hwallet, hid⟩ rfl rfl ha'
  | mint id' assetId amount =>
    simp only [Op.run, bind_eq_ok, pure_eq_ok] at h
    obtain ⟨_, _, h, rfl, rfl⟩ := h
    obtain ⟨-, sum, -, ha'⟩ := mint_eq_ok.mp h
    exact one (e := .setAssets id' _) trivial rfl ⟨_, rfl⟩ ha'.symm
  | burn id' assetId amount =>
    simp only [Op.run, bind_eq_ok, pure_eq_ok] at h
    obtain ⟨_, _, h, rfl, rfl⟩ := h
    obtain ⟨-, account, asset, -, -, hcase⟩ := burn_eq_ok h
    rcases hcase with ⟨-, ha'⟩ | ⟨-, rest, -, ha'⟩
    · exact one (e := .setAssets id' _) trivial rfl ⟨_, rfl⟩ ha'
    · exact one (e := .setAssets id' _) trivial rfl ⟨_, rfl⟩ ha'

end Spec

end Accounts

end Kolme
