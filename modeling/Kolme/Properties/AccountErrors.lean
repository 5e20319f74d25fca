import Kolme.Properties.AccountMaps

/-!
# Errors of the account operations

An operation on accounts that returns an error may have edited a map before. Which ones have is
decided by the accounts and the arguments.
-/

namespace Kolme

namespace Accounts

open Exec

variable {ar : Arith} {a a' : Accounts} {e : Error}

/-- An operation that returns an error leaves the accounts as they were. -/
def Op.Atomic (ar : Arith) (a : Accounts) (op : Op) : Prop :=
  ∀ e a', op.run ar a = (.error e, a') → e ≠ .panic → a' = a

/-- Keys and wallets are removed from the account that has them, if any has them, and a new key uses
the initial nonce. -/
def Op.Checked (a : Accounts) : Op → Prop
  | .removePubkey id key => ∀ actualId, a.pubkeys.get? key = some actualId → id = actualId
  | .removeWallet id wallet => ∀ actualId, a.wallets.get? wallet = some actualId → id = actualId
  | .useNonce pubkey nonce => a.pubkeys.get? pubkey = none →
    nonce = (a.getOrDefault a.getNextAccountId).nextNonce
  | _ => True

/-- The result of an operation does not matter for its errors. -/
theorem bind_return_eq_error {α β : Type} {x : Exec Error Accounts α} {b : β} :
    (x >>= fun _ => pure b) a = (.error e, a') ↔ x a = (.error e, a') := by
  simp [bind_eq_error]

/-! ## Operations that check first -/

theorem failsClean_mint (id : AccountId) (assetId : AssetId) (amount : Decimal) :
    FailsClean (mint ar id assetId amount) :=
  (reads_ensure _ _).bind fun _ => (reads_gets _).bind fun _ => (reads_fromOption _ _).bind fun _ =>
    failsClean_modify _

theorem failsClean_burn (id : AccountId) (assetId : AssetId) (amount : Decimal) :
    FailsClean (burn ar id assetId amount) := by
  refine (reads_ensure _ _).bind fun _ => reads_get.bind fun _ => (reads_fromOption _ _).bind
    fun _ => (reads_fromOption _ _).bind fun asset => ?_
  cases asset.cmp amount with
  | lt => exact failsClean_throw _
  | eq => exact failsClean_modify _
  | gt => exact (reads_fromOption _ _).bind fun _ => failsClean_modify _

theorem failsClean_addPubkeyToAccountErrorOverlap (id : AccountId) (key : PublicKey) :
    FailsClean (addPubkeyToAccountErrorOverlap id key) :=
  reads_get.bind fun _ => (reads_ensure _ _).bind fun _ => (reads_ensure _ _).bind fun _ =>
    failsClean_modify _

theorem failsClean_addPubkeyToAccountIgnoreOverlap (id : AccountId) (key : PublicKey) :
    FailsClean (addPubkeyToAccountIgnoreOverlap id key) := by
  refine reads_get.bind fun a => ?_
  split
  · exact failsClean_pure ()
  · exact (reads_ensure _ _).bind fun _ => failsClean_modify _

theorem failsClean_addWalletToAccount (id : AccountId) (wallet : Wallet) :
    FailsClean (addWalletToAccount id wallet) :=
  reads_get.bind fun _ => (reads_ensure _ _).bind fun _ => (reads_ensure _ _).bind fun _ =>
    failsClean_modify _

theorem failsClean_getOrAddAccountForKey (key : PublicKey) :
    FailsClean (getOrAddAccountForKey key) := by
  refine reads_get.bind fun a => ?_
  cases a.pubkeys.get? key with
  | some id => exact failsClean_pure id
  | none => exact (failsClean_modify _).bind fun _ _ _ _ => pure_ne_error

theorem failsClean_getOrAddAccountForWallet (wallet : Wallet) :
    FailsClean (getOrAddAccountForWallet wallet) := by
  refine reads_get.bind fun a => ?_
  cases a.wallets.get? wallet with
  | some id => exact (reads_ensure _ _).bind fun _ => failsClean_pure id
  | none => exact (failsClean_modify _).bind fun _ _ _ _ => pure_ne_error

/-! ## Operations that edit first -/

/-- A key that another account has is forgotten. -/
theorem removePubkeyFromAccount_error_iff {id : AccountId} {key : PublicKey} :
    (∀ e a', removePubkeyFromAccount id key a = (.error e, a') → e ≠ .panic → a' = a) ↔
      ∀ actualId, a.pubkeys.get? key = some actualId → id = actualId := by
  constructor
  · intro h actualId hkey
    by_contra hne
    have hrun : removePubkeyFromAccount id key a = (.error (.pubkeyOfOtherAccount key id actualId),
        { a with pubkeys := a.pubkeys.erase key }) := by
      rw [removePubkeyFromAccount, get_bind, hkey]
      simp only [bind_eq_error, fromOption_eq_ok, modify_eq_ok, ensure_eq_error]
      exact .inr ⟨actualId, a, ⟨rfl, rfl⟩, .inr ⟨(), _, rfl, .inl ⟨⟨hne, rfl⟩, rfl⟩⟩⟩
    have hsame := congrArg (·.pubkeys.get? key) (h _ _ hrun (by simp))
    simp [hkey] at hsame
  · intro h e a' hrun hpanic
    rw [removePubkeyFromAccount, get_bind] at hrun
    cases hkey : a.pubkeys.get? key with
    | none =>
      simp only [hkey, bind_eq_error, fromOption_eq_error, fromOption_eq_ok, reduceCtorEq,
        false_and, exists_false, or_false] at hrun
      exact hrun.2.symm
    | some actualId =>
      obtain rfl := h actualId hkey
      -- The checks that are left are assertions.
      simp only [hkey, bind_eq_error, fromOption_eq_error, fromOption_eq_ok, modify_ne_error,
        modify_eq_ok, ensure_eq_error, ensure_eq_ok, reduceCtorEq, false_and, false_or, and_false,
        exists_false, or_false] at hrun
      obtain ⟨_, _, ⟨hactual, -⟩, _, _, -, ⟨⟨hne, -⟩, -⟩ | ⟨_, _, -, ⟨⟨-, he⟩, -⟩ |
        ⟨_, _, -, ⟨-, he⟩, -⟩⟩⟩ := hrun
      · exact absurd (Option.some.inj hactual) hne
      · exact absurd he.symm hpanic
      · exact absurd he.symm hpanic

/-- A wallet that another account has is forgotten. -/
theorem removeWalletFromAccount_error_iff {id : AccountId} {wallet : Wallet} :
    (∀ e a', removeWalletFromAccount id wallet a = (.error e, a') → e ≠ .panic → a' = a) ↔
      ∀ actualId, a.wallets.get? wallet = some actualId → id = actualId := by
  constructor
  · intro h actualId hwallet
    by_contra hne
    have hrun : removeWalletFromAccount id wallet a =
        (.error (.walletOfOtherAccount wallet id actualId),
          { a with wallets := a.wallets.erase wallet }) := by
      rw [removeWalletFromAccount, get_bind, hwallet]
      simp only [bind_eq_error, fromOption_eq_ok, modify_eq_ok, ensure_eq_error]
      exact .inr ⟨actualId, a, ⟨rfl, rfl⟩, .inr ⟨(), _, rfl, .inl ⟨⟨hne, rfl⟩, rfl⟩⟩⟩
    have hsame := congrArg (·.wallets.get? wallet) (h _ _ hrun (by simp))
    simp [hwallet] at hsame
  · intro h e a' hrun hpanic
    rw [removeWalletFromAccount, get_bind] at hrun
    cases hwallet : a.wallets.get? wallet with
    | none =>
      simp only [hwallet, bind_eq_error, fromOption_eq_error, fromOption_eq_ok, reduceCtorEq,
        false_and, exists_false, or_false] at hrun
      exact hrun.2.symm
    | some actualId =>
      obtain rfl := h actualId hwallet
      -- The checks that are left are assertions.
      simp only [hwallet, bind_eq_error, fromOption_eq_error, fromOption_eq_ok, modify_ne_error,
        modify_eq_ok, ensure_eq_error, ensure_eq_ok, reduceCtorEq, false_and, false_or, and_false,
        exists_false, or_false] at hrun
      obtain ⟨_, _, ⟨hactual, -⟩, _, _, -, ⟨⟨hne, -⟩, -⟩ | ⟨_, _, -, ⟨⟨-, he⟩, -⟩ |
        ⟨_, _, -, ⟨-, he⟩, -⟩⟩⟩ := hrun
      · exact absurd (Option.some.inj hactual) hne
      · exact absurd he.symm hpanic
      · exact absurd he.symm hpanic

/-- A new key gets its account before its nonce is checked. -/
theorem useNonce_error_iff {pubkey : PublicKey} {nonce : AccountNonce} :
    (∀ e a', useNonce pubkey nonce a = (.error e, a') → e ≠ .panic → a' = a) ↔
      (a.pubkeys.get? pubkey = none →
        nonce = (a.getOrDefault a.getNextAccountId).nextNonce) := by
  have hnext : ((a.insertPubkey a.getNextAccountId pubkey).getOrDefault
      a.getNextAccountId).nextNonce = (a.getOrDefault a.getNextAccountId).nextNonce := by
    rw [show a.insertPubkey a.getNextAccountId pubkey =
      (Edit.insertPubkey a.getNextAccountId pubkey).apply a from rfl, Edit.getOrDefault_apply,
      show (Edit.insertPubkey a.getNextAccountId pubkey).account = a.getNextAccountId from rfl,
      if_pos rfl]
    rfl
  constructor
  · intro h hkey
    by_contra hne
    have hrun : useNonce pubkey nonce a =
        (.error (.newAccountNonce pubkey (a.getOrDefault a.getNextAccountId).nextNonce nonce),
          a.insertPubkey a.getNextAccountId pubkey) := by
      rw [useNonce, get_bind, hkey]
      simp only [bind_eq_error, modify_eq_ok, gets_eq_ok, ensure_eq_error]
      refine .inr ⟨(), _, rfl, .inr ⟨_, _, ⟨rfl, rfl⟩, .inl ⟨⟨?_, ?_⟩, rfl⟩⟩⟩
      · rw [hnext]
        exact hne
      · rw [hnext]
    have hsame := congrArg (·.pubkeys.get? pubkey) (h _ _ hrun (by simp))
    simp [insertPubkey, hkey] at hsame
  · intro h e a' hrun hpanic
    rw [useNonce, get_bind] at hrun
    cases hkey : a.pubkeys.get? pubkey with
    | some accountId =>
      rw [hkey] at hrun
      have hclean : FailsClean (fromOption Error.panic (a.accounts.get? accountId) >>= fun
          account => ensure (account.nextNonce = nonce)
            (.invalidNonce pubkey accountId account.nextNonce nonce) >>= fun _ =>
          (modify (·.bumpNonce accountId) >>= fun _ => pure accountId :
            Exec Error Accounts AccountId)) :=
        (reads_fromOption _ _).bind fun _ => (reads_ensure _ _).bind fun _ =>
          (failsClean_modify _).bind fun _ _ _ _ => pure_ne_error
      exact hclean a e a' hrun
    | none =>
      simp only [hkey, bind_eq_error, modify_ne_error, modify_eq_ok, gets_ne_error, gets_eq_ok,
        ensure_eq_error, ensure_eq_ok, pure_ne_error] at hrun
      obtain h' | ⟨_, _, rfl, h' | ⟨_, _, ⟨rfl, rfl⟩, ⟨⟨hne, -⟩, -⟩ |
        ⟨_, _, -, h' | ⟨_, _, -, h'⟩⟩⟩⟩ := hrun
      · exact h'.elim
      · exact h'.elim
      · exact absurd (h hkey) (hnext ▸ hne)
      · exact h'.elim
      · exact h'.elim

/-- An operation leaves the accounts as they were on every error exactly if it does not remove
something from an account that does not have it and does not use a wrong nonce of a new key. -/
theorem atomic_iff_checked (ar : Arith) (a : Accounts) (op : Op) :
    op.Atomic ar a ↔ op.Checked a := by
  have clean {x : Exec Error Accounts AccountId} (h : FailsClean x) :
      (∀ e a', x a = (.error e, a') → e ≠ .panic → a' = a) ↔ True :=
    iff_of_true (fun e a' hrun _ => h a e a' hrun) trivial
  have named {x : Exec Error Accounts Unit} {id : AccountId} :
      FailsClean x → FailsClean (x >>= fun _ => pure id) :=
    fun h => h.bind fun _ _ _ _ => pure_ne_error
  cases op with
  | useNonce pubkey nonce => exact useNonce_error_iff
  | getOrAddAccountForKey key => exact clean (failsClean_getOrAddAccountForKey key)
  | getOrAddAccountForWallet wallet => exact clean (failsClean_getOrAddAccountForWallet wallet)
  | addPubkeyIgnoreOverlap id key =>
    exact clean (named (failsClean_addPubkeyToAccountIgnoreOverlap id key))
  | addPubkey id key => exact clean (named (failsClean_addPubkeyToAccountErrorOverlap id key))
  | addWallet id wallet => exact clean (named (failsClean_addWalletToAccount id wallet))
  | mint id assetId amount => exact clean (named (failsClean_mint id assetId amount))
  | burn id assetId amount => exact clean (named (failsClean_burn id assetId amount))
  | removePubkey id key =>
    refine Iff.trans ?_ removePubkeyFromAccount_error_iff
    simp only [Op.Atomic, Op.run, bind_return_eq_error]
  | removeWallet id wallet =>
    refine Iff.trans ?_ removeWalletFromAccount_error_iff
    simp only [Op.Atomic, Op.run, bind_return_eq_error]

/-- A new key with another nonce than the initial one is refused, and keeps its new account. -/
theorem atomic_fails :
    (Op.useNonce 0 1).run exactArith empty =
        (.error (.newAccountNonce 0 0 1), empty.insertPubkey 0 0) ∧
      empty.insertPubkey 0 0 ≠ empty ∧
      ¬ ∀ (ar : Arith) (a : Accounts) (op : Op), a.Inverse → op.Atomic ar a := by
  have hrun : (Op.useNonce 0 1).run exactArith empty =
      (.error (.newAccountNonce 0 0 1), empty.insertPubkey 0 0) := by rfl
  have hne : empty.insertPubkey 0 0 ≠ empty := by decide
  exact ⟨hrun, hne, fun h => hne (h exactArith empty _ inverse_empty _ _ hrun (by simp))⟩

end Accounts

end Kolme
