import Kolme.Core.Counter

/-!
# Deposits stay with the owner of the wallet

A deposit is credited to the account of its wallet, and the keys that come with the deposits of
the wallet are the only ones that can sign for this account. This holds until somebody attaches
the wallet to an account of theirs before its first deposit, and as long as ids of accounts do not
wrap around.
-/

namespace Kolme

variable {app : App} {env : Externals} {wallet : Wallet}

/-- The key came with a deposit of the wallet. -/
def Registered (wallet : Wallet) (past : List Effect) (key : PublicKey) : Prop :=
  ∃ chain eventId funds keys,
    .takeEvent chain eventId (.regular wallet funds keys) ∈ past ∧ key ∈ keys

theorem Registered.append {past : List Effect} {key : PublicKey} (es : List Effect)
    (h : Registered wallet past key) : Registered wallet (past ++ es) key := by
  obtain ⟨chain, eventId, funds, keys, hmem, hkey⟩ := h
  exact ⟨chain, eventId, funds, keys, List.mem_append_left _ hmem, hkey⟩

/-- The account of the wallet has no other wallet and only registered keys, and it is the account
that was credited all along. -/
structure Owned (wallet : Wallet) (past : List Effect) (a : Accounts) : Prop where
  linked : a.Linked
  keys : ∀ {id key}, a.wallets.get? wallet = some id → a.pubkeys.get? key = some id →
    Registered wallet past key
  only : ∀ {id wallet'}, a.wallets.get? wallet = some id → a.wallets.get? wallet' = some id →
    wallet' = wallet
  credited : ∀ {id}, .account (.getOrAddAccountForWallet wallet) id ∈ past →
    a.wallets.get? wallet = some id

/-- The edit does not touch the wallet, and attaches to its account registered keys only. -/
structure Spares (wallet : Wallet) (past : List Effect) (a : Accounts) (e : Accounts.Edit) :
    Prop where
  insert : e ≠ .insertWallet e.account wallet
  erase : e ≠ .eraseWallet e.account wallet
  key : ∀ key, e = .insertPubkey e.account key → a.wallets.get? wallet = some e.account →
    Registered wallet past key
  other : ∀ wallet', e = .insertWallet e.account wallet' → a.wallets.get? wallet ≠ some e.account

namespace Owned

variable {past : List Effect} {a a' : Accounts} {id : AccountId}

/-- More changes, which credit only the account of the wallet. -/
theorem past_mono (h : Owned wallet past a) (es : List Effect)
    (hes : ∀ id, .account (.getOrAddAccountForWallet wallet) id ∈ es →
      a.wallets.get? wallet = some id) : Owned wallet (past ++ es) a where
  linked := h.linked
  keys hid hkey := (h.keys hid hkey).append es
  only := h.only
  credited hmem := (List.mem_append.mp hmem).elim h.credited (hes _)

/-- Edits that spare the wallet keep its account. -/
theorem edit {e : Accounts.Edit} (h : Owned wallet past a) (hspares : Spares wallet past a e) :
    Owned wallet past (e.apply a) := by
  have hwallet : (e.apply a).wallets.get? wallet = a.wallets.get? wallet := by
    rw [Accounts.Edit.wallets_apply]
    cases e with
    | insertWallet id wallet' =>
      have hne : wallet ≠ wallet' := by
        rintro rfl
        exact hspares.insert rfl
      exact SortedMap.get?_insert_of_ne hne
    | eraseWallet id wallet' =>
      have hne : wallet ≠ wallet' := by
        rintro rfl
        exact hspares.erase rfl
      exact SortedMap.get?_erase_of_ne hne
    | setAssets | bumpNonce | insertPubkey | erasePubkey => rfl
  refine ⟨h.linked.edit e, ?_, ?_, ?_⟩
  · intro id key hid hkey
    rw [hwallet] at hid
    rw [Accounts.Edit.pubkeys_apply] at hkey
    cases e with
    | insertPubkey id' key' =>
      rw [SortedMap.get?_insert] at hkey
      split at hkey
      · rename_i heq
        obtain rfl := Option.some.inj hkey
        rw [heq]
        exact hspares.key key' rfl hid
      · exact h.keys hid hkey
    | erasePubkey id' key' =>
      rw [SortedMap.get?_erase] at hkey
      split at hkey
      · cases hkey
      · exact h.keys hid hkey
    | setAssets | bumpNonce | insertWallet | eraseWallet => exact h.keys hid hkey
  · intro id wallet' hid hother
    rw [hwallet] at hid
    rw [Accounts.Edit.wallets_apply] at hother
    cases e with
    | insertWallet id' wallet₁ =>
      rw [SortedMap.get?_insert] at hother
      split at hother
      · obtain rfl := Option.some.inj hother
        exact absurd hid (hspares.other wallet₁ rfl)
      · exact h.only hid hother
    | eraseWallet id' wallet₁ =>
      rw [SortedMap.get?_erase] at hother
      split at hother
      · cases hother
      · exact h.only hid hother
    | setAssets | bumpNonce | insertPubkey | erasePubkey => exact h.only hid hother
  · intro id hmem
    rw [hwallet]
    exact h.credited hmem

/-- The next id is not the account of a wallet. -/
theorem next_ne (h : Owned wallet past a)
    (hgreatest : a.accounts.get? Accounts.greatestId = none) {wallet' : Wallet} :
    a.wallets.get? wallet' ≠ some a.getNextAccountId := fun hid =>
  lt_irrefl _ (Accounts.lt_getNextAccountId hgreatest (h.linked.wallets hid))

/-- The wallet gets an account of its own. -/
theorem insertWallet (h : Owned wallet past a)
    (hgreatest : a.accounts.get? Accounts.greatestId = none)
    (hfree : a.wallets.get? wallet = none) :
    Owned wallet past (a.insertWallet a.getNextAccountId wallet) := by
  have hself : (a.insertWallet a.getNextAccountId wallet).wallets.get? wallet =
      some a.getNextAccountId := SortedMap.get?_insert_self ..
  refine ⟨h.linked.edit (.insertWallet _ wallet), ?_, ?_, ?_⟩
  · intro id key hid hkey
    obtain rfl := Option.some.inj (hself.symm.trans hid)
    have hkey : a.pubkeys.get? key = some a.getNextAccountId := hkey
    exact absurd (Accounts.lt_getNextAccountId hgreatest (h.linked.pubkeys hkey)) (lt_irrefl _)
  · intro id wallet' hid hother
    obtain rfl := Option.some.inj (hself.symm.trans hid)
    by_contra hne
    rw [Accounts.insertWallet, SortedMap.get?_insert_of_ne hne] at hother
    exact h.next_ne hgreatest hother
  · intro id hmem
    have hid := h.credited hmem
    rw [hfree] at hid
    cases hid

/-- An edit of a new account spares the wallet. -/
theorem spares_next (h : Owned wallet past a)
    (hgreatest : a.accounts.get? Accounts.greatestId = none) {e : Accounts.Edit}
    (hid : e.account = a.getNextAccountId) (hinsert : e ≠ .insertWallet e.account wallet)
    (herase : e ≠ .eraseWallet e.account wallet) : Spares wallet past a e where
  insert := hinsert
  erase := herase
  key _ _ hwallet := absurd (hid ▸ hwallet) (h.next_ne hgreatest)
  other _ _ := hid ▸ h.next_ne hgreatest

/-- The use of a nonce opens a new account or changes only the nonce. -/
theorem useNonce {key : PublicKey} {nonce : AccountNonce} (h : Owned wallet past a)
    (hgreatest : a.accounts.get? Accounts.greatestId = none)
    (hrun : Accounts.useNonce key nonce a = (.ok id, a')) : Owned wallet past a' := by
  have bump {a : Accounts} (h : Owned wallet past a) : Owned wallet past (a.bumpNonce id) :=
    h.edit (e := .bumpNonce id) ⟨by simp, by simp, by simp, by simp⟩
  rcases Accounts.useNonce_eq_ok hrun with ⟨-, account, -, -, rfl⟩ | ⟨-, rfl, -, rfl⟩
  · exact bump h
  · exact bump (h.edit (e := .insertPubkey a.getNextAccountId key)
      (h.spares_next hgreatest rfl (by simp) (by simp)))

/-- Operations on behalf of apps, deposits and transfers, if what is registered for the wallet's
account came with its deposits. -/
theorem automatic {ar : Arith} {op : Accounts.Op} (h : Owned wallet past a)
    (hgreatest : a.accounts.get? Accounts.greatestId = none) (hop : op.Automatic)
    (hkey : ∀ id key, op = .addPubkeyIgnoreOverlap id key → a.wallets.get? wallet = some id →
      Registered wallet past key)
    (hrun : op.run ar a = (.ok id, a')) :
    Owned wallet (past ++ [.account op id]) a' := by
  cases op with
  | useNonce | addPubkey | removePubkey | addWallet | removeWallet => exact hop.elim
  | getOrAddAccountForKey key =>
    refine past_mono ?_ _ (by simp)
    rcases Accounts.getOrAddAccountForKey_eq_ok.mp hrun with ⟨-, rfl⟩ | ⟨-, rfl, rfl⟩
    · exact h
    · exact h.edit (e := .insertPubkey a.getNextAccountId key)
        (h.spares_next hgreatest rfl (by simp) (by simp))
  | getOrAddAccountForWallet wallet' =>
    rcases Accounts.getOrAddAccountForWallet_eq_ok.mp hrun with ⟨hid, -, rfl⟩ | ⟨hfree, rfl, rfl⟩
    · refine h.past_mono _ fun id' hmem => ?_
      simp only [List.mem_singleton, Effect.account.injEq,
        Accounts.Op.getOrAddAccountForWallet.injEq] at hmem
      obtain ⟨rfl, rfl⟩ := hmem
      exact hid
    · by_cases heq : wallet' = wallet
      · subst heq
        refine (h.insertWallet hgreatest hfree).past_mono _ fun id' hmem => ?_
        simp only [List.mem_singleton, Effect.account.injEq, true_and] at hmem
        subst hmem
        exact SortedMap.get?_insert_self ..
      · have hinsert : Accounts.Edit.insertWallet a.getNextAccountId wallet' ≠
            .insertWallet a.getNextAccountId wallet := by simp [heq]
        refine past_mono (h.edit (e := .insertWallet a.getNextAccountId wallet')
          (h.spares_next hgreatest rfl hinsert (by simp))) _ fun id' hmem => ?_
        simp only [List.mem_singleton, Effect.account.injEq,
          Accounts.Op.getOrAddAccountForWallet.injEq] at hmem
        exact absurd hmem.1.symm heq
  | addPubkeyIgnoreOverlap id' key =>
    refine past_mono ?_ _ (by simp)
    simp only [Accounts.Op.run, Exec.bind_eq_ok, Exec.pure_eq_ok] at hrun
    obtain ⟨_, _, hrun, -, rfl⟩ := hrun
    rcases Accounts.addPubkeyToAccountIgnoreOverlap_eq_ok.mp hrun with ⟨-, rfl⟩ | ⟨-, -, rfl⟩
    · exact h
    · refine h.edit (e := .insertPubkey id' key) ⟨by simp, by simp, ?_, by simp⟩
      rintro key' heq hid
      obtain ⟨-, rfl⟩ := Accounts.Edit.insertPubkey.inj heq
      exact hkey id' key rfl hid
  | mint id' assetId amount =>
    refine past_mono ?_ _ (by simp)
    simp only [Accounts.Op.run, Exec.bind_eq_ok, Exec.pure_eq_ok] at hrun
    obtain ⟨_, _, hrun, -, rfl⟩ := hrun
    obtain ⟨-, sum, -, rfl⟩ := Accounts.mint_eq_ok.mp hrun
    exact h.edit (e := .setAssets id' _) ⟨by simp, by simp, by simp, by simp⟩
  | burn id' assetId amount =>
    refine past_mono ?_ _ (by simp)
    simp only [Accounts.Op.run, Exec.bind_eq_ok, Exec.pure_eq_ok] at hrun
    obtain ⟨_, _, hrun, -, rfl⟩ := hrun
    obtain ⟨-, account, asset, -, -, ⟨-, rfl⟩ | ⟨-, rest, -, rfl⟩⟩ := Accounts.burn_eq_ok hrun
    · exact h.edit (e := .setAssets id' _) ⟨by simp, by simp, by simp, by simp⟩
    · exact h.edit (e := .setAssets id' _) ⟨by simp, by simp, by simp, by simp⟩

/-- A signer of another account manages its keys and wallets, and does not attach the wallet. -/
theorem managed {ar : Arith} {sender : AccountId} {msg : AuthMessage} (h : Owned wallet past a)
    (hsender : a.wallets.get? wallet ≠ some sender) (hmsg : msg ≠ .addWallet wallet)
    (hrun : (msg.op sender).run ar a = (.ok id, a')) :
    Owned wallet (past ++ [.account (msg.op sender) id]) a' := by
  refine past_mono ?_ _ (by cases msg <;> simp [AuthMessage.op])
  cases msg with
  | addPublicKey key =>
    simp only [AuthMessage.op, Accounts.Op.run, Exec.bind_eq_ok, Exec.pure_eq_ok] at hrun
    obtain ⟨_, _, hrun, -, rfl⟩ := hrun
    obtain ⟨-, -, rfl⟩ := Accounts.addPubkeyToAccountErrorOverlap_eq_ok.mp hrun
    exact h.edit (e := .insertPubkey sender key)
      ⟨by simp, by simp, fun _ _ hid => absurd hid hsender, by simp⟩
  | removePublicKey key =>
    simp only [AuthMessage.op, Accounts.Op.run, Exec.bind_eq_ok, Exec.pure_eq_ok] at hrun
    obtain ⟨_, _, hrun, -, rfl⟩ := hrun
    obtain ⟨-, -, rfl⟩ := Accounts.removePubkeyFromAccount_eq_ok hrun
    exact h.edit (e := .erasePubkey sender key) ⟨by simp, by simp, by simp, by simp⟩
  | addWallet wallet' =>
    simp only [AuthMessage.op, Accounts.Op.run, Exec.bind_eq_ok, Exec.pure_eq_ok] at hrun
    obtain ⟨_, _, hrun, -, rfl⟩ := hrun
    obtain ⟨-, -, rfl⟩ := Accounts.addWalletToAccount_eq_ok.mp hrun
    have hne : wallet' ≠ wallet := fun heq => hmsg (by rw [heq])
    exact h.edit (e := .insertWallet sender wallet')
      ⟨by simpa [Accounts.Edit.account] using hne, by simp, by simp, fun _ _ => hsender⟩
  | removeWallet wallet' =>
    simp only [AuthMessage.op, Accounts.Op.run, Exec.bind_eq_ok, Exec.pure_eq_ok] at hrun
    obtain ⟨_, _, hrun, -, rfl⟩ := hrun
    obtain ⟨hid, -, rfl⟩ := Accounts.removeWalletFromAccount_eq_ok hrun
    have hne : wallet' ≠ wallet := by
      rintro rfl
      exact hsender hid
    exact h.edit (e := .eraseWallet sender wallet')
      ⟨by simp, by simpa [Accounts.Edit.account] using hne, by simp, by simp⟩

end Owned

/-! ## One transaction -/

/-- During a transaction: its signer is not the owner of the wallet's account if one of its
messages is about keys or wallets. -/
structure Kept (wallet : Wallet) (sender : AccountId) (manages : Prop) (past : List Effect)
    (a : Accounts) : Prop where
  owned : Owned wallet past a
  present : a.accounts.contains sender = true
  apart : manages → a.wallets.get? wallet ≠ some sender

/-- What a change may be: an automatic operation that registers no key, or one of the signer. -/
def Harmless (wallet : Wallet) (sender : AccountId) (manages : Prop) (e : Effect) : Prop :=
  ∀ op id, e = .account op id →
    (op.Automatic ∧ ∀ id' key, op ≠ .addPubkeyIgnoreOverlap id' key) ∨
    manages ∧ ∃ msg : AuthMessage, msg ≠ .addWallet wallet ∧ op = msg.op sender

theorem greatest_of_trace {fs fs' : FrameworkState} {es : List Effect}
    (h : (effects env).Trace fs es fs')
    (hgreatest : fs'.accounts.accounts.get? Accounts.greatestId = none) :
    fs.accounts.accounts.get? Accounts.greatestId = none := by
  rw [← SortedMap.contains_eq_false, Bool.eq_false_iff] at hgreatest ⊢
  exact fun hcontains => hgreatest (contains_of_trace h hcontains)

namespace Kept

variable {sender : AccountId} {manages : Prop} {past : List Effect} {a a' : Accounts}
  {id : AccountId} {fs fs' : FrameworkState}

/-- Only the attachment of the wallet gives it an account that exists. -/
theorem apart_edits {ar : Arith} {op : Accounts.Op} (h : Kept wallet sender manages past a)
    (hgreatest : a.accounts.get? Accounts.greatestId = none)
    (hop : op ≠ .addWallet sender wallet) (hrun : op.run ar a = (.ok id, a')) (hm : manages) :
    a'.wallets.get? wallet ≠ some sender := by
  have hapart := h.apart hm
  have hnext : a.getNextAccountId ≠ sender := by
    rintro rfl
    exact lt_irrefl _ (Accounts.lt_getNextAccountId hgreatest h.present)
  have keeps {e : Accounts.Edit} (he : e ≠ .insertWallet sender wallet) {b : Accounts}
      (hb : b.wallets.get? wallet ≠ some sender) :
      (e.apply b).wallets.get? wallet ≠ some sender := by
    rw [Accounts.Edit.wallets_apply]
    cases e with
    | insertWallet id' wallet' =>
      rw [SortedMap.get?_insert]
      split
      · rename_i heq
        subst heq
        simpa using he
      · exact hb
    | eraseWallet id' wallet' =>
      rw [SortedMap.get?_erase]
      split
      · simp
      · exact hb
    | setAssets | bumpNonce | insertPubkey | erasePubkey => exact hb
  by_cases hwallet : op = .getOrAddAccountForWallet wallet
  · subst hwallet
    rcases Accounts.getOrAddAccountForWallet_eq_ok.mp hrun with ⟨-, -, rfl⟩ | ⟨-, rfl, rfl⟩
    · exact hapart
    · exact keeps (e := .insertWallet a.getNextAccountId wallet) (by simpa using hnext) hapart
  · obtain ⟨es, htrace, hes⟩ := Accounts.Op.exists_edits hrun
    refine htrace.invariant (I := fun b => b.wallets.get? wallet ≠ some sender) hapart
      fun e hmem b _ hb => keeps ?_ hb
    rintro rfl
    obtain ⟨rfl, hallows⟩ := hes _ hmem
    cases op with
    | getOrAddAccountForWallet wallet' =>
      obtain ⟨-, rfl⟩ := Accounts.Edit.insertWallet.inj hallows
      exact hwallet rfl
    | addWallet id' wallet' =>
      obtain ⟨-, rfl⟩ := Accounts.Edit.insertWallet.inj hallows
      have hid := Accounts.Op.eq_of_account? hrun rfl
      exact hop (by rw [← hid]; rfl)
    | _ => simp [Accounts.Op.Allows] at hallows

/-- One change keeps it. -/
theorem effect {e : Effect} (h : Kept wallet sender manages past fs.accounts)
    (hgreatest : fs.accounts.accounts.get? Accounts.greatestId = none)
    (hlegal : e.Legal env fs)
    (hop : ∀ op id, e = .account op id →
      (op.Automatic ∧ ∀ id' key, op = .addPubkeyIgnoreOverlap id' key →
        fs.accounts.wallets.get? wallet = some id' → Registered wallet past key) ∨
      manages ∧ ∃ msg : AuthMessage, msg ≠ .addWallet wallet ∧ op = msg.op sender) :
    Kept wallet sender manages (past ++ [e]) (e.apply env fs).accounts := by
  have hcontains := contains_of_trace (.single (L := effects env) hlegal) h.present
  rw [Effect.accounts_apply]
  cases e with
  | account op id =>
    have hrun : op.run env.arith fs.accounts =
        (.ok id, (op.run env.arith fs.accounts).2) := Prod.ext hlegal rfl
    rcases hop op id rfl with ⟨hauto, hkey⟩ | ⟨hm, msg, hmsg, rfl⟩
    · refine ⟨h.owned.automatic hgreatest hauto hkey hrun, hcontains,
        h.apart_edits hgreatest ?_ hrun⟩
      rintro rfl
      exact hauto
    · refine ⟨h.owned.managed (h.apart hm) hmsg hrun, hcontains, h.apart_edits hgreatest ?_ hrun⟩
      cases msg <;> simp [AuthMessage.op] at hmsg ⊢
      exact hmsg
  | newEvent | attest | takeEvent | deploy | deposit | confirmAction | approveAction
  | processorApprove | withdraw | emit | replaceValidator | propose | vote | enact
  | clearProposals => exact ⟨h.owned.past_mono _ (by simp), h.present, h.apart⟩

/-- Harmless changes keep it. -/
theorem trace {es : List Effect} (h : Kept wallet sender manages past fs.accounts)
    (htrace : (effects env).Trace fs es fs')
    (hgreatest : fs'.accounts.accounts.get? Accounts.greatestId = none)
    (hes : ∀ e ∈ es, Harmless wallet sender manages e) :
    Kept wallet sender manages (past ++ es) fs'.accounts := by
  induction es generalizing fs past with
  | nil => rwa [Labelled.Trace.nil_iff.mp htrace, List.append_nil]
  | cons e es ih =>
    rw [List.forall_mem_cons] at hes
    have hfirst := greatest_of_trace htrace hgreatest
    obtain ⟨hlegal, hrest⟩ := Labelled.Trace.cons_iff.mp htrace
    have hone := h.effect hfirst hlegal fun op id he => (hes.1 op id he).imp_left
      fun ⟨hauto, hkey⟩ => ⟨hauto, fun id' key hop => absurd hop (hkey id' key)⟩
    rw [← List.singleton_append, ← List.append_assoc]
    exact ih hone hrest hes.2

/-- The keys of a deposit are registered for the account of its wallet. -/
theorem registerKeys {wallet' : Wallet} {keys : List PublicKey}
    (h : Kept wallet sender manages past fs.accounts)
    (hid : fs.accounts.wallets.get? wallet' = some id)
    (hkeys : ∀ key ∈ keys, wallet' = wallet → Registered wallet past key)
    (htrace : (effects env).Trace fs
      (keys.map fun key => .account (.addPubkeyIgnoreOverlap id key) id) fs')
    (hgreatest : fs'.accounts.accounts.get? Accounts.greatestId = none) :
    Kept wallet sender manages
      (past ++ keys.map fun key => .account (.addPubkeyIgnoreOverlap id key) id) fs'.accounts := by
  induction keys generalizing fs past with
  | nil => rwa [Labelled.Trace.nil_iff.mp htrace, List.map_nil, List.append_nil]
  | cons key keys ih =>
    rw [List.forall_mem_cons] at hkeys
    rw [List.map_cons] at htrace ⊢
    have hfirst := greatest_of_trace htrace hgreatest
    obtain ⟨hlegal, hrest⟩ := Labelled.Trace.cons_iff.mp htrace
    replace hlegal : (Effect.account (.addPubkeyIgnoreOverlap id key) id).Legal env fs := hlegal
    have hone := h.effect hfirst hlegal fun op id₁ he => .inl (by
      obtain ⟨rfl, -⟩ := Effect.account.inj he
      refine ⟨trivial, fun id' key' hop hwallet => ?_⟩
      obtain ⟨rfl, rfl⟩ := Accounts.Op.addPubkeyIgnoreOverlap.inj hop
      exact hkeys.1 (h.owned.only hwallet hid))
    rw [← List.singleton_append, ← List.append_assoc]
    refine ih hone ?_ (fun k hk heq => (hkeys.2 k hk heq).append _) hrest
    refine Effect.accounts_induction (I := fun a => a.wallets.get? wallet' = some id) hlegal hid
      fun op id₁ he e b _ hallows _ hb => ?_
    obtain ⟨rfl, -⟩ := Effect.account.inj he
    rw [show e = .insertPubkey id₁ key from hallows, Accounts.Edit.wallets_apply]
    exact hb

/-- A bridge event that takes effect keeps it. -/
theorem event {cfg : AssetConfigs} {chain : ExternalChain} {es : List Effect}
    (h : Kept wallet sender manages past fs.accounts) (hb : EventBlock env cfg chain es)
    (htrace : (effects env).Trace fs es fs')
    (hgreatest : fs'.accounts.accounts.get? Accounts.greatestId = none) :
    Kept wallet sender manages (past ++ es) fs'.accounts := by
  cases hb with
  | instantiated | signed =>
    exact h.trace htrace hgreatest (by simp [Harmless])
  | regular eventId wallet' funds keys id =>
    rw [← List.singleton_append, ← List.singleton_append (l := _ ++ _), ← List.append_assoc]
      at htrace ⊢
    obtain ⟨fs₁, hopen, hrest⟩ := Labelled.Trace.append_iff.mp htrace
    obtain ⟨fs₂, hkeys, hfunds⟩ := Labelled.Trace.append_iff.mp hrest
    have hgreatest₂ := greatest_of_trace hfunds hgreatest
    have hgreatest₁ := greatest_of_trace hkeys hgreatest₂
    have h₁ := h.trace hopen hgreatest₁ (by simp [Harmless, Accounts.Op.Automatic])
    have hid : fs₁.accounts.wallets.get? wallet' = some id := by
      obtain ⟨t, -, hlegal, hend⟩ := Labelled.Trace.at hopen
      have hrun : Accounts.getOrAddAccountForWallet wallet' t.accounts =
          (.ok id, (Accounts.getOrAddAccountForWallet wallet' t.accounts).2) := Prod.ext hlegal rfl
      rw [Labelled.Trace.nil_iff.mp hend]
      change (Accounts.getOrAddAccountForWallet wallet' t.accounts).2.wallets.get? wallet' = _
      rcases Accounts.getOrAddAccountForWallet_eq_ok.mp hrun with ⟨hold, -, heq⟩ | ⟨-, -, heq⟩
      · rwa [← heq]
      · rw [← heq]
        exact SortedMap.get?_insert_self ..
    have h₂ := h₁.registerKeys hid (fun key hkey heq => ⟨chain, eventId, funds, keys, by
      subst heq
      simp, hkey⟩) hkeys hgreatest₂
    have h₃ := h₂.trace hfunds hgreatest fun e he op id' heq => by
      subst heq
      obtain ⟨fund, -, hfund⟩ := List.mem_flatMap.mp he
      obtain ⟨assetId, amount, rfl, -⟩ := creditEffects_account hfund
      exact .inl ⟨trivial, by simp⟩
    simpa using h₃

end Kept

section

variable {M : Type} {calls : M → AppCall → Prop} {cfg : AssetConfigs} {pubkey : PublicKey}
  {sender : AccountId} {message : Message M} {b : List Effect}

/-- Only bridge events register keys on their own. -/
theorem Message.Block.event_or_harmless (hb : message.Block env pubkey sender calls cfg b)
    (hwallet : message ≠ .auth (.addWallet wallet)) :
    (∃ chain, EventBlock env cfg chain b) ∨
      ∀ e ∈ b, Harmless wallet sender (∃ msg, message = .auth msg) e := by
  by_cases hevent : ∃ chain, EventBlock env cfg chain b
  · exact .inl hevent
  · refine .inr fun e hmem op id he => ?_
    subst he
    refine (hb.op_mem hmem).imp (fun hauto => ⟨hauto, ?_⟩) ?_
    · rintro id' key rfl
      cases hb with
      | event eventId event hb => exact hevent ⟨_, hb⟩
      | app hc hb => cases hb <;> simp [debitEffects] at hmem
      | newEvent | attest | approve | processorApprove | propose | vote | transfer =>
        simp at hmem
      | withdraw payload hconfig hamount => simp [debitEffects] at hmem
      | auth msg hsigning => cases msg <;> simp [AuthMessage.op] at hmem
      | selfReplace signed hes => exact hes.account (by simpa using hmem)
      | enact msg hb => exact hb.account hmem
    · rintro ⟨-, msg, rfl, -, rfl⟩
      exact ⟨⟨msg, rfl⟩, msg, fun h => hwallet (by rw [h]), rfl⟩

/-- The messages of a transaction keep it. -/
theorem Kept.messages {messages : List (Message M)} {past es : List Effect}
    {fs fs' : FrameworkState}
    (h : Kept wallet sender (∃ msg, .auth msg ∈ messages) past fs.accounts)
    (hwallet : .auth (.addWallet wallet) ∉ messages)
    (hblocks : Blocks (fun b => ∃ message ∈ messages,
      message.Block env pubkey sender calls cfg b) es)
    (htrace : (effects env).Trace fs es fs')
    (hgreatest : fs'.accounts.accounts.get? Accounts.greatestId = none) :
    Kept wallet sender (∃ msg, .auth msg ∈ messages) (past ++ es) fs'.accounts := by
  refine hblocks.induction (P := fun es => ∀ past fs,
    Kept wallet sender (∃ msg, .auth msg ∈ messages) past fs.accounts →
    (effects env).Trace fs es fs' →
    Kept wallet sender (∃ msg, .auth msg ∈ messages) (past ++ es) fs'.accounts) ?_ ?_
    past fs h htrace
  · intro past fs h htrace
    rwa [Labelled.Trace.nil_iff.mp htrace, List.append_nil]
  · rintro b es ⟨message, hmem, hb⟩ ih past fs h htrace
    obtain ⟨fs₁, hblock, hrest⟩ := Labelled.Trace.append_iff.mp htrace
    have hfirst := greatest_of_trace hrest hgreatest
    rw [← List.append_assoc]
    refine ih _ fs₁ ?_ hrest
    rcases hb.event_or_harmless (fun heq => hwallet (heq ▸ hmem)) with ⟨chain, hevent⟩ | hharmless
    · exact h.event hevent hblock hfirst
    · refine h.trace hblock hfirst fun e he op id heq => (hharmless e he op id heq).imp_right ?_
      rintro ⟨⟨msg, rfl⟩, hop⟩
      exact ⟨⟨msg, hmem⟩, hop⟩

end

/-! ## Runs -/

namespace Node

variable {self self' : Node app} {call : Call app}

/-- The transaction does not attach the wallet, and it does not manage keys or wallets if its key
came with a deposit of the wallet. -/
def Respects (wallet : Wallet) (past : List Effect) (call : Call app) : Prop :=
  .auth (.addWallet wallet) ∉ call.tx.message.value.messages ∧
    (Registered wallet past call.tx.message.value.pubkey →
      ∀ msg, .auth msg ∉ call.tx.message.value.messages)

/-- A transaction leaves the wallet to its owner. -/
theorem owned_step (h : Owned wallet self.history self.frameworkState.accounts)
    (hcall : Respects wallet self.history call)
    (hstep : (machine env).step self call = .ok self')
    (hgreatest : self'.frameworkState.accounts.accounts.get? Accounts.greatestId = none) :
    Owned wallet self'.history self'.frameworkState.accounts := by
  obtain ⟨sender, es, hhistory, htrace, hblocks⟩ := step_blocks hstep
  have hbefore := greatest_of_trace htrace hgreatest
  obtain ⟨hlegal, hrest⟩ := Labelled.Trace.cons_iff.mp htrace
  set tx := call.tx.message.value
  set fs₁ := (effects env).apply self.frameworkState (.account (.useNonce tx.pubkey tx.nonce) sender)
  have hrun : Accounts.useNonce tx.pubkey tx.nonce self.frameworkState.accounts =
      (.ok sender, fs₁.accounts) := Prod.ext hlegal rfl
  have howned : Owned wallet self.history fs₁.accounts := h.useNonce hbefore hrun
  have hstart : Kept wallet sender (∃ msg, .auth msg ∈ tx.messages)
      (self.history ++ [.account (.useNonce tx.pubkey tx.nonce) sender]) fs₁.accounts := by
    refine ⟨howned.past_mono _ (by simp), ?_, ?_⟩
    · rcases Accounts.useNonce_eq_ok hrun with ⟨-, account, haccount, -, heq⟩ | ⟨-, -, -, heq⟩
      · rw [heq]
        exact (Accounts.Edit.contains_apply _ (.bumpNonce sender) sender).mpr (.inl rfl)
      · rw [heq]
        exact (Accounts.Edit.contains_apply _ (.bumpNonce sender) sender).mpr (.inl rfl)
    · -- A key that signs for the wallet's account was registered before.
      rintro ⟨msg, hmsg⟩ hid
      rcases Accounts.useNonce_eq_ok hrun with ⟨hkey, -, -, -, heq⟩ | ⟨-, rfl, -, heq⟩
      · rw [heq] at hid
        exact hcall.2 (h.keys hid hkey) msg hmsg
      · rw [heq] at hid
        exact h.next_ne hbefore hid
  have hend := hstart.messages hcall.1 hblocks hrest hgreatest
  rw [hhistory, ← List.singleton_append, ← List.append_assoc]
  exact hend.owned

/-- A run whose transactions respect the wallet leaves it to its owner. -/
theorem owned_run {start : Node app} {calls : List (Call app)}
    (hstart : genesis app = .ok start)
    (along : (machine env).Along (fun s call => (∃ s', (machine env).step s call = .ok s') →
      Respects wallet s.history call) start calls)
    (hgreatest : ((machine env).run start calls).frameworkState.accounts.accounts.get?
      Accounts.greatestId = none) :
    Owned wallet ((machine env).run start calls).history
      ((machine env).run start calls).frameworkState.accounts := by
  refine (machine env).run_invariant_along (I := fun s : Node app =>
    s.frameworkState.accounts.accounts.get? Accounts.greatestId = none →
      Owned wallet s.history s.frameworkState.accounts) ?_ ?_ along hgreatest
  · intro s call s' hs hcall hstep hgreatest'
    obtain ⟨sender, es, -, htrace, -⟩ := step_blocks hstep
    exact owned_step (hs (greatest_of_trace htrace hgreatest')) (hcall ⟨s', hstep⟩) hstep hgreatest'
  · intro _
    obtain ⟨hfs, -, hhistory, -⟩ := genesis_eq_ok hstart
    rw [hfs, hhistory]
    exact ⟨Accounts.linked_empty, by rintro _ _ ⟨⟩, by rintro _ _ ⟨⟩, by simp⟩

end Node

open Node in
/-- Every deposit of the wallet is credited to an account that only keys which came with its
deposits can sign for, if nobody attached the wallet and the ids of accounts have not run out. -/
theorem deposits_owned {app : App} (env : Externals) (wallet : Wallet) (start : Node app)
    (calls : List (Call app)) (hstart : genesis app = .ok start)
    (along : (machine env).Along (fun s call => (∃ s', (machine env).step s call = .ok s') →
      Respects wallet s.history call) start calls)
    (hgreatest : ((machine env).run start calls).frameworkState.accounts.accounts.get?
      Accounts.greatestId = none)
    (past future : List Effect) (chain : ExternalChain) (eventId : BridgeEventId)
    (funds : List BridgedAssetAmount) (keys : List PublicKey)
    (hhistory : ((machine env).run start calls).history =
      past ++ .takeEvent chain eventId (.regular wallet funds keys) :: future) :
    ∃ id rest, future = .account (.getOrAddAccountForWallet wallet) id ::
        (keys.map (fun key => .account (.addPubkeyIgnoreOverlap id key) id) ++
          funds.flatMap (creditEffects env (FrameworkState.new app.genesisInfo).assetConfigs
            chain id)) ++ rest ∧
      ∀ key nonce a, Accounts.useNonce key nonce
          ((machine env).run start calls).frameworkState.accounts = (.ok id, a) →
        Registered wallet ((machine env).run start calls).history key := by
  have howned := owned_run hstart along hgreatest
  have hreach : ((machine env).run start calls).Reachable env := ⟨start, calls, hstart, rfl⟩
  have hblocks := hreach.blocks
  rw [hhistory] at hblocks
  obtain ⟨pre, before, after, post, -, hfuture, hb, -, -⟩ := hblocks.exists_of_append
  obtain ⟨id, hafter⟩ : ∃ id, after = .account (.getOrAddAccountForWallet wallet) id ::
      (keys.map (fun key => .account (.addPubkeyIgnoreOverlap id key) id) ++
        funds.flatMap (creditEffects env (FrameworkState.new app.genesisInfo).assetConfigs
          chain id)) := by
    obtain ⟨rfl, hevent⟩ := hb.of_takeEvent
    cases hevent with
    | regular _ _ _ _ id => exact ⟨id, rfl⟩
  refine ⟨id, post, by rw [hfuture, hafter], fun key nonce a hrun => ?_⟩
  have hcredit : .account (.getOrAddAccountForWallet wallet) id ∈
      ((machine env).run start calls).history := by
    rw [hhistory, hfuture, hafter]
    simp
  have hid := howned.credited hcredit
  rcases Accounts.useNonce_eq_ok hrun with ⟨hkey, -⟩ | ⟨-, rfl, -⟩
  · exact howned.keys hid hkey
  · exact absurd hid (howned.next_ne hgreatest)

namespace DepositsSample

open Sample

/-- Bob attaches Alice's wallet to his account. -/
def walletTx : SignedTx where
  tx := ⟨bob, 0, [.auth (.addWallet "osmo1alice")], none⟩
  s := 0x4d9c3c48eaed3807c0357aaf42edab61973dfa6dfa7c80021ad8381479ba6cbe
  recoveryId := 1

/-- The signatures of the run. -/
def table : List SignedText := [genesisTx.text, walletTx.text, depositTx.text]

theorem table_distinct : (table.map SignedText.signature).Nodup := by decide

def chain : Machine (Node (counter (info validators))) (Call (counter (info validators))) Error :=
  Node.machine (counterEnv table)

theorem mem_table : ∀ t ∈ [genesisTx, walletTx, depositTx], t.text ∈ table :=
  fun _ => List.mem_map_of_mem

/-- The keys that came with deposits of a wallet. -/
def registered (wallet : Wallet) (past : List Effect) : List PublicKey :=
  past.flatMap fun
    | .takeEvent _ _ (.regular wallet' _ keys) => if wallet' = wallet then keys else []
    | _ => []

theorem mem_registered {wallet : Wallet} {past : List Effect} {key : PublicKey}
    (h : Registered wallet past key) : key ∈ registered wallet past := by
  obtain ⟨chain, eventId, funds, keys, hmem, hkey⟩ := h
  exact List.mem_flatMap.mpr ⟨_, hmem, by simpa using hkey⟩

end DepositsSample

open Sample DepositsSample in
/-- Alice's deposit is credited to an account that only she can sign for. -/
theorem deposits_owned_example :
    ∃ past id rest,
      let s := chain.run (start validators) (calls validators [genesisTx, depositTx])
      s.history = past ++ .takeEvent .osmosisLocal 1
        (.regular "osmo1alice" [⟨"uosmo", 5000000⟩] [alice]) ::
          .account (.getOrAddAccountForWallet "osmo1alice") id :: rest ∧
      ∀ key nonce a, Accounts.useNonce key nonce s.frameworkState.accounts = (.ok id, a) →
        Registered "osmo1alice" s.history key := by
  unfold chain
  have hmem : ∀ t ∈ [genesisTx, depositTx], t.text ∈ table := fun t ht => mem_table t (by grind)
  obtain ⟨s, hs, hp⟩ := exists_steps (start validators)
    (fun s => s.frameworkState.accounts.accounts.get? Accounts.greatestId = none ∧
      .takeEvent .osmosisLocal 1 (.regular "osmo1alice" [⟨"uosmo", 5000000⟩] [alice]) ∈ s.history)
    table_distinct hmem (by decide +kernel)
  obtain ⟨hgreatest, htake⟩ := of_decide_eq_true hp
  have hrun := Machine.run_of_steps _ hs
  rw [← hrun] at hgreatest htake
  obtain ⟨past, future, hhistory⟩ := List.append_of_mem htake
  have respects : ∀ call ∈ calls validators [genesisTx, depositTx],
      ∀ s, (∃ s', (Node.machine (counterEnv table)).step s call = .ok s') →
        Node.Respects "osmo1alice" s.history call := by
    intro call hcall s _
    obtain ⟨t, ht, rfl⟩ := List.mem_map.mp hcall
    have hnone : ∀ msg, .auth msg ∉ t.tx.messages := by
      rcases List.mem_pair.mp ht with rfl | rfl <;> simp [genesisTx, depositTx]
    exact ⟨hnone _, fun _ => hnone⟩
  obtain ⟨id, rest, hfuture, hkeys⟩ := deposits_owned (counterEnv table) "osmo1alice"
    (start validators) (calls validators [genesisTx, depositTx]) (genesis_start validators_wellFormed)
    (Machine.along_of_forall _ respects _) hgreatest past future _ _ _ _ hhistory
  subst hfuture
  exact ⟨past, id, _, hhistory, hkeys⟩

open Sample DepositsSample in
/-- Bob, who has attached Alice's wallet, can sign for the account that her deposit goes to. -/
theorem deposits_owned_counterexample :
    Node.genesis (counter (info validators)) = .ok (start validators) ∧
    ∃ s, chain.steps (start validators) (calls validators [genesisTx, walletTx, depositTx]) =
        .ok s ∧
      .account (.getOrAddAccountForWallet "osmo1alice") 1 ∈ s.history ∧
      (s.frameworkState.accounts.getOrDefault 1).balance 1 = ⟨false, 5000000, 6⟩ ∧
      ¬Registered "osmo1alice" s.history bob ∧
      (Accounts.useNonce bob 1 s.frameworkState.accounts).1 = .ok 1 := by
  obtain ⟨s, hs, hp⟩ := exists_steps (start validators)
    (fun s => .account (.getOrAddAccountForWallet "osmo1alice") 1 ∈ s.history ∧
      (s.frameworkState.accounts.getOrDefault 1).balance 1 = ⟨false, 5000000, 6⟩ ∧
      bob ∉ registered "osmo1alice" s.history ∧
      (Accounts.useNonce bob 1 s.frameworkState.accounts).1.okWith (· = 1) = true)
    table_distinct mem_table (by decide +kernel)
  obtain ⟨haccount, hbalance, hbob, hsign⟩ := of_decide_eq_true hp
  obtain ⟨id, hid, hone⟩ := Except.okWith_iff.mp hsign
  obtain rfl := of_decide_eq_true hone
  exact ⟨genesis_start validators_wellFormed, s, hs, haccount, hbalance,
    fun h => hbob (mem_registered h), hid⟩

end Kolme
