import Kolme.Core.Runs

/-!
# The maps of the accounts

The maps from keys and wallets to accounts are the inverse of the sets that the accounts hold, so a
key or a wallet belongs to at most one account, and what is looked up in them is found.
-/

namespace Kolme

namespace Accounts

variable {a a' : Accounts} {ar : Arith}

/-- The reverse maps are the inverse of the sets of the accounts. -/
structure Inverse (a : Accounts) : Prop where
  pubkeys : ∀ {key id}, a.pubkeys.get? key = some id ↔ key ∈ (a.getOrDefault id).pubkeys
  wallets : ∀ {wallet id}, a.wallets.get? wallet = some id ↔ wallet ∈ (a.getOrDefault id).wallets

theorem contains_of_ne_empty {id : AccountId} (h : a.getOrDefault id ≠ .empty) :
    a.accounts.contains id = true := by
  rw [getOrDefault] at h
  cases hget : a.accounts.get? id with
  | none => exact absurd (by rw [hget, Option.getD_none]) h
  | some account => exact contains_of_get? hget

theorem inverse_empty : empty.Inverse where
  pubkeys := ⟨nofun, fun h => absurd h (Finset.notMem_empty _)⟩
  wallets := ⟨nofun, fun h => absurd h (Finset.notMem_empty _)⟩

namespace Inverse

theorem contains_pubkey (h : a.Inverse) {key : PublicKey} {id : AccountId}
    (hget : a.pubkeys.get? key = some id) : a.accounts.contains id = true :=
  contains_of_ne_empty fun he => Finset.notMem_empty key
    (show key ∈ Account.empty.pubkeys from he ▸ h.pubkeys.mp hget)

theorem contains_wallet (h : a.Inverse) {wallet : Wallet} {id : AccountId}
    (hget : a.wallets.get? wallet = some id) : a.accounts.contains id = true :=
  contains_of_ne_empty fun he => Finset.notMem_empty wallet
    (show wallet ∈ Account.empty.wallets from he ▸ h.wallets.mp hget)

/-- An edit of other things than keys and wallets. -/
theorem same (h : a.Inverse) (hpubkeys : a'.pubkeys = a.pubkeys) (hwallets : a'.wallets = a.wallets)
    (hkeys : ∀ id, (a'.getOrDefault id).pubkeys = (a.getOrDefault id).pubkeys)
    (hwalletsOf : ∀ id, (a'.getOrDefault id).wallets = (a.getOrDefault id).wallets) :
    a'.Inverse where
  pubkeys {key id} := by
    rw [hpubkeys, hkeys]
    exact h.pubkeys
  wallets {wallet id} := by
    rw [hwallets, hwalletsOf]
    exact h.wallets

/-- Every legal edit changes both directions. -/
theorem edit (h : a.Inverse) {e : Edit} (hlegal : e.Legal a) : (e.apply a).Inverse := by
  have hdefault := Edit.getOrDefault_apply a e
  cases e with
  | setAssets id assets =>
    refine h.same rfl rfl (fun id' => ?_) fun id' => ?_ <;>
    · rw [hdefault]
      split <;> rfl
  | bumpNonce id =>
    refine h.same rfl rfl (fun id' => ?_) fun id' => ?_ <;>
    · rw [hdefault]
      split <;> rfl
  | insertPubkey id key =>
    have hfree : a.pubkeys.get? key = none := hlegal
    constructor
    · intro key' id'
      rw [Edit.pubkeys_apply, SortedMap.get?_insert, hdefault]
      by_cases hkey : key' = key
      · subst hkey
        have hother : key' ∉ (a.getOrDefault id').pubkeys := fun hmem =>
          nomatch hfree.symm.trans (h.pubkeys.mpr hmem)
        rw [if_pos rfl, Option.some.injEq]
        split
        · simp [Edit.update, *, Edit.account]
        · rename_i hne
          exact iff_of_false (Ne.symm hne) hother
      · rw [if_neg hkey, h.pubkeys]
        split
        · simp [Edit.update, hkey]
        · rfl
    · intro wallet id'
      rw [Edit.wallets_apply, hdefault, h.wallets]
      split <;> rfl
  | erasePubkey id key =>
    obtain ⟨howner, -⟩ := hlegal
    constructor
    · intro key' id'
      rw [Edit.pubkeys_apply, SortedMap.get?_erase, hdefault]
      by_cases hkey : key' = key
      · subst hkey
        rw [if_pos rfl]
        split
        · simp [Edit.update]
        · rename_i hne
          refine iff_of_false nofun fun hmem => hne ?_
          exact Option.some.inj ((h.pubkeys.mpr hmem).symm.trans howner)
      · rw [if_neg hkey, h.pubkeys]
        split
        · simp [Edit.update, hkey]
        · rfl
    · intro wallet id'
      rw [Edit.wallets_apply, hdefault, h.wallets]
      split <;> rfl
  | insertWallet id wallet =>
    have hfree : a.wallets.get? wallet = none := hlegal
    constructor
    · intro key id'
      rw [Edit.pubkeys_apply, hdefault, h.pubkeys]
      split <;> rfl
    · intro wallet' id'
      rw [Edit.wallets_apply, SortedMap.get?_insert, hdefault]
      by_cases hwallet : wallet' = wallet
      · subst hwallet
        have hother : wallet' ∉ (a.getOrDefault id').wallets := fun hmem =>
          nomatch hfree.symm.trans (h.wallets.mpr hmem)
        rw [if_pos rfl, Option.some.injEq]
        split
        · simp [Edit.update, *, Edit.account]
        · rename_i hne
          exact iff_of_false (Ne.symm hne) hother
      · rw [if_neg hwallet, h.wallets]
        split
        · simp [Edit.update, hwallet]
        · rfl
  | eraseWallet id wallet =>
    obtain ⟨howner, -⟩ := hlegal
    constructor
    · intro key id'
      rw [Edit.pubkeys_apply, hdefault, h.pubkeys]
      split <;> rfl
    · intro wallet' id'
      rw [Edit.wallets_apply, SortedMap.get?_erase, hdefault]
      by_cases hwallet : wallet' = wallet
      · subst hwallet
        rw [if_pos rfl]
        split
        · simp [Edit.update]
        · rename_i hne
          refine iff_of_false nofun fun hmem => hne ?_
          exact Option.some.inj ((h.wallets.mpr hmem).symm.trans howner)
      · rw [if_neg hwallet, h.wallets]
        split
        · simp [Edit.update, hwallet]
        · rfl

/-- Every successful operation keeps the maps inverse. -/
theorem op (h : a.Inverse) {op : Op} {id : AccountId} (hrun : op.run ar a = (.ok id, a')) :
    a'.Inverse := by
  obtain ⟨es, htrace, -⟩ := Op.exists_edits hrun
  exact htrace.invariant h fun edit _ a hlegal ha => ha.edit hlegal

end Inverse

end Accounts

theorem inverse_of_trace {env : Externals} {fs fs' : FrameworkState} {es : List Effect}
    (h : (effects env).Trace fs es fs') (hfs : fs.accounts.Inverse) : fs'.accounts.Inverse :=
  h.invariant (I := fun fs => fs.accounts.Inverse) hfs fun _ _ _ hlegal hfs =>
    Effect.accounts_induction (I := Accounts.Inverse) hlegal hfs
      fun _ _ _ _ _ _ _ hedit ha => ha.edit hedit

end Kolme
