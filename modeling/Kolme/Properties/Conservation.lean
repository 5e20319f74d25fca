import Kolme.Core.Chains
import Kolme.Core.Counter
import Mathlib.Tactic.Linarith

/-!
# Conservation of assets

Balances of accounts and recorded balances of chains are two ledgers. Deposits and withdrawals
change both, and a withdrawal is rounded down to the units of the asset in one of them only. For
apps that neither mint nor burn and that give up when a withdrawal fails, the ledgers agree and a
withdrawal debits what its action transfers, exactly as long as all withdrawals are of whole
units.
-/

namespace Kolme

variable {env : Externals}

/-! ## Units of an asset -/

namespace AssetConfig

variable {ar : Arith} {config : AssetConfig} {amount amountDec : Decimal} {n : U128}

/-- The amount that a number of units stands for. -/
def value (self : AssetConfig) (n : U128) : ℚ := n.val / 10 ^ self.decimals.toNat

/-- The amount is a number of units. -/
def Whole (self : AssetConfig) (amount : Decimal) : Prop := ∃ n, amount.toRat = self.value n

theorem toDecimal_value (har : ar.Lawful) (h : config.toDecimal ar n = .ok amount) :
    amount.toRat = config.value n := by
  simp only [toDecimal, Except.bind_eq_ok, Except.ensure_eq_ok, Except.fromOption_eq_ok] at h
  obtain ⟨-, -, h⟩ := h
  rw [har.tryFrom_eq] at h
  split at h
  · obtain rfl := Option.some.inj h
    simp [Decimal.toRat, Decimal.mantissa, value]
  · cases h

/-- What is burned is what the transferred units stand for. -/
theorem toU128_value (har : ar.Lawful) (h : config.toU128 ar amount = .ok (amountDec, n)) :
    amountDec.toRat = config.value n := by
  simp only [toU128, Except.bind_eq_ok, Except.pure_eq_ok, Except.ok.injEq, Prod.mk.injEq] at h
  obtain ⟨-, -, d, hd, rfl, rfl⟩ := h
  exact toDecimal_value har hd

theorem val_div_iterate (x : U128) (k : Nat) :
    ((fun n : U128 => n / 10)^[k] x).val = x.val / 10 ^ k := by
  induction k generalizing x with
  | zero => simp
  | succ k ih =>
    rw [Function.iterate_succ_apply, ih, pow_succ' 10 k, ← Nat.div_div_eq_div_mul]
    rfl

theorem val_mul_iterate (x : U128) (k : Nat) :
    ((fun n : U128 => n * 10)^[k] x).val = x.val * 10 ^ k % 2 ^ 128 := by
  induction k generalizing x with
  | zero => simpa using (Nat.mod_eq_of_lt x.isLt).symm
  | succ k ih =>
    rw [Function.iterate_succ_apply, ih, pow_succ' 10 k, ← mul_assoc, Fin.val_mul, Nat.mod_mul_mod]
    rfl

/-- An amount of whole units is transferred without a remainder, and no other amount is. -/
theorem toU128_eq_value_iff (h : config.toU128 ar amount = .ok (amountDec, n)) :
    amount.toRat = config.value n ↔ config.Whole amount := by
  refine ⟨fun heq => ⟨n, heq⟩, fun ⟨k, hk⟩ => ?_⟩
  simp only [toU128, Except.bind_eq_ok, Except.ensure_eq_ok, Except.pure_eq_ok, Except.ok.injEq,
    Prod.mk.injEq] at h
  obtain ⟨-, hnonneg, d, -, -, rfl⟩ := h
  obtain ⟨m, hm⟩ : ∃ m : Nat, amount.mantissa = m := ⟨_, (Int.toNat_of_nonneg hnonneg).symm⟩
  have hlt : m < 2 ^ 128 := by
    have h96 := amount.int.isLt
    unfold Decimal.mantissa at hm
    split at hm <;> omega
  have hmantissa : (Fin.ofNat (2 ^ 128) m).val = m := Nat.mod_eq_of_lt hlt
  have hten (j : Nat) : (10 : ℚ) ^ j ≠ 0 := by positivity
  rw [hk]
  congr 1
  apply Fin.ext
  rw [Decimal.toRat, hm, value, Int.cast_natCast, div_eq_div_iff (hten _) (hten _)] at hk
  have hk : m * 10 ^ config.decimals.toNat = k.val * 10 ^ amount.scale.val := by exact_mod_cast hk
  rw [hm, Int.toNat_natCast]
  split
  · rename_i hscale
    rw [val_div_iterate, hmantissa]
    have hsplit : 10 ^ amount.scale.val =
        10 ^ (amount.scale.val - config.decimals.toNat) * 10 ^ config.decimals.toNat := by
      rw [← pow_add, Nat.sub_add_cancel hscale.le]
    rw [hsplit, ← mul_assoc] at hk
    rw [Nat.eq_of_mul_eq_mul_right (by positivity) hk, Nat.mul_div_cancel _ (by positivity)]
  · rename_i hscale
    rw [val_mul_iterate, hmantissa]
    have hsplit : 10 ^ config.decimals.toNat =
        10 ^ (config.decimals.toNat - amount.scale.val) * 10 ^ amount.scale.val := by
      rw [← pow_add, Nat.sub_add_cancel (not_lt.mp hscale)]
    rw [hsplit, ← mul_assoc] at hk
    rw [Nat.eq_of_mul_eq_mul_right (by positivity) hk, Nat.mod_eq_of_lt k.isLt]

end AssetConfig

/-! ## The two ledgers -/

/-- The sum of the balances of all accounts. -/
def Accounts.total (self : Accounts) (assetId : AssetId) : ℚ :=
  self.accounts.sum fun _ account => (account.balance assetId).toRat

/-- The sum of the recorded balances of some chains. -/
def FrameworkState.pools (self : FrameworkState) (C : ExternalChain → Bool) (assetId : AssetId) :
    ℚ :=
  self.chains.sum fun chain state => if C chain then (state.pool assetId).toRat else 0

namespace Effect

/-- What a change adds to the balances of the accounts. -/
def credit (assetId : AssetId) : Effect → ℚ
  | account (.mint _ assetId' amount) _ => if assetId' = assetId then amount.toRat else 0
  | account (.burn _ assetId' amount) _ => if assetId' = assetId then -amount.toRat else 0
  | _ => 0

/-- What a change adds to the recorded balances of some chains. -/
def flow (C : ExternalChain → Bool) (assetId : AssetId) : Effect → ℚ
  | deposit chain assetId' amount => if C chain ∧ assetId' = assetId then amount.toRat else 0
  | withdraw chain assetId' amount => if C chain ∧ assetId' = assetId then -amount.toRat else 0
  | _ => 0

end Effect

namespace Accounts

variable {a a' : Accounts} {id : AccountId} {assetId assetId' : AssetId} {amount : Decimal}
  {op : Op}

/-- An account with new contents changes the total by the difference. -/
theorem total_insert {account : Account} (h : a'.accounts = a.accounts.insert id account)
    (assetId : AssetId) : a'.total assetId =
      a.total assetId - ((a.getOrDefault id).balance assetId).toRat +
        (account.balance assetId).toRat := by
  have hsum := SortedMap.sum_insert
    (fun (_ : AccountId) (account : Account) => (account.balance assetId).toRat) a.accounts id
    account
  have hold : (a.accounts.get? id).elim 0 (fun account => (account.balance assetId).toRat) =
      ((a.getOrDefault id).balance assetId).toRat := by
    unfold getOrDefault
    cases a.accounts.get? id with
    | none => simp [Account.empty, Account.balance]
    | some account => rfl
  rw [hold] at hsum
  simp only [total, h]
  linarith

/-- Edits of keys, wallets and nonces keep the total. -/
theorem Edit.total_apply {e : Edit} (h : ∀ id assets, e ≠ .setAssets id assets) (a : Accounts) :
    (e.apply a).total assetId = a.total assetId := by
  have hassets : (e.update (a.getOrDefault e.account)).assets =
      (a.getOrDefault e.account).assets := by
    cases e with
    | setAssets id assets => exact absurd rfl (h id assets)
    | bumpNonce | insertPubkey | erasePubkey | insertWallet | eraseWallet => rfl
  rw [total_insert (Edit.accounts_apply a e), Account.balance, Account.balance, hassets]
  ring

/-- The balance of an asset whose record is set. -/
theorem balance_insert (account : Account) (amount : Decimal) :
    ({ account with assets := account.assets.insert assetId' amount } : Account).balance assetId =
      if assetId' = assetId then amount else account.balance assetId := by
  rw [Account.balance, SortedMap.get?_insert]
  simp only [eq_comm]
  split <;> rfl

theorem balance_erase (account : Account) :
    ({ account with assets := account.assets.erase assetId' } : Account).balance assetId =
      if assetId' = assetId then .zero else account.balance assetId := by
  rw [Account.balance, SortedMap.get?_erase]
  simp only [eq_comm]
  split <;> rfl

/-- An operation that succeeds adds to the total what it mints and takes off what it burns. -/
theorem Op.total_run {ar : Arith} (har : ar.Exact) (h : op.run ar a = (.ok id, a')) :
    a'.total assetId = a.total assetId + (Effect.account op id).credit assetId := by
  cases op with
  | mint id' assetId' amount =>
    simp only [Op.run, Exec.bind_eq_ok, Exec.pure_eq_ok] at h
    obtain ⟨_, _, h, rfl, rfl⟩ := h
    obtain ⟨-, sum, hsum, rfl⟩ := mint_eq_ok.mp h
    rw [total_insert rfl, balance_insert, Effect.credit]
    split
    · rename_i hasset
      rw [har.add hsum, hasset]
      ring
    · ring
  | burn id' assetId' amount =>
    simp only [Op.run, Exec.bind_eq_ok, Exec.pure_eq_ok] at h
    obtain ⟨_, _, h, rfl, rfl⟩ := h
    obtain ⟨-, account, asset, haccount, hasset, hcase⟩ := burn_eq_ok h
    have hget := getOrDefault_of_get? haccount
    have hbalance : account.balance assetId' = asset := by simp [Account.balance, hasset]
    rcases hcase with ⟨hcmp, rfl⟩ | ⟨-, rest, hrest, rfl⟩
    · rw [total_insert rfl, hget, balance_erase, Effect.credit]
      split
      · rename_i hid
        rw [← hid, hbalance, Decimal.cmp_eq_eq.mp hcmp, Decimal.toRat_zero]
        ring
      · ring
    · rw [total_insert rfl, hget, balance_insert, Effect.credit]
      split
      · rename_i hid
        rw [← hid, hbalance, har.sub hrest]
        ring
      · ring
  | useNonce | getOrAddAccountForKey | getOrAddAccountForWallet | addPubkeyIgnoreOverlap
  | addPubkey | removePubkey | addWallet | removeWallet =>
    obtain ⟨es, htrace, hes⟩ := Op.exists_edits h
    refine Eq.trans ?_ (add_zero _).symm
    refine htrace.invariant (I := fun t => t.total assetId = a.total assetId) rfl ?_
    intro e hmem t _ ht
    obtain ⟨-, hallows⟩ := hes e hmem
    refine (Edit.total_apply (fun id assets heq => ?_) t).trans ht
    subst heq
    simp [Op.Allows] at hallows

end Accounts

/-- Along a trace the balances of the accounts change by what is minted and burned. -/
theorem total_of_trace {fs fs' : FrameworkState} {es : List Effect} (har : env.arith.Exact)
    (h : (effects env).Trace fs es fs') (assetId : AssetId) :
    fs'.accounts.total assetId = fs.accounts.total assetId + (es.map (·.credit assetId)).sum := by
  refine h.sum_eq (f := fun fs => fs.accounts.total assetId) fun fs e hlegal => ?_
  change (e.apply env fs).accounts.total assetId = _
  rw [Effect.accounts_apply]
  cases e with
  | account op id =>
    have hrun : op.run env.arith fs.accounts =
        (.ok id, (op.run env.arith fs.accounts).2) := Prod.ext hlegal rfl
    exact Accounts.Op.total_run har hrun
  | newEvent | attest | takeEvent | deploy | deposit | confirmAction | approveAction
  | processorApprove | withdraw | emit | replaceValidator | propose | vote | enact
  | clearProposals => exact (add_zero _).symm

/-- A change of a chain adds to its recorded balance what it deposits and takes off what it
withdraws. -/
theorem Effect.pool_updated {fs : FrameworkState} {e : Effect} {chain : ExternalChain}
    {state : ChainState} (assetId : AssetId) (har : env.arith.Exact)
    (hstate : fs.chains.get? chain = some state) (hchain : e.chain? = some chain)
    (hlegal : e.Legal env fs) (C : ExternalChain → Bool) :
    (if C chain then ((e.updated env state).pool assetId).toRat else 0) =
      (if C chain then (state.pool assetId).toRat else 0) + e.flow C assetId := by
  cases e with
  | deposit chain' assetId' amount =>
    obtain rfl : chain' = chain := Option.some.inj hchain
    obtain ⟨new, hnew, hupdated⟩ := Effect.updated_deposit hstate hlegal
    rw [hupdated, ChainState.pool_insert, Effect.flow]
    by_cases hC : C chain' = true <;> by_cases hid : assetId = assetId'
    · simp [hC, hid, har.add hnew]
    · simp [hC, hid, Ne.symm hid]
    · simp [hC]
    · simp [hC]
  | withdraw chain' assetId' amount =>
    obtain rfl : chain' = chain := Option.some.inj hchain
    obtain ⟨new, hnew, hupdated⟩ := Effect.updated_withdraw hstate hlegal
    rw [hupdated, ChainState.pool_insert, Effect.flow]
    by_cases hC : C chain' = true <;> by_cases hid : assetId = assetId'
    · simp [hC, hid, har.sub hnew, sub_eq_add_neg]
    · simp [hC, hid, Ne.symm hid]
    · simp [hC]
    · simp [hC]
  | account | newEvent | attest | takeEvent | deploy | confirmAction | approveAction
  | processorApprove | emit | replaceValidator | propose | vote | enact | clearProposals =>
    rw [ChainState.pool, Effect.assets_updated state (by simp) (by simp)]
    exact (add_zero _).symm

/-- Along a trace the recorded balances change by what is deposited and withdrawn. -/
theorem pools_of_trace {fs fs' : FrameworkState} {es : List Effect} (har : env.arith.Exact)
    (h : (effects env).Trace fs es fs') (C : ExternalChain → Bool) (assetId : AssetId) :
    fs'.pools C assetId = fs.pools C assetId + (es.map (·.flow C assetId)).sum := by
  refine h.sum_eq (f := fun fs => fs.pools C assetId) fun fs e hlegal => ?_
  change (e.apply env fs).pools C assetId = _
  rw [FrameworkState.pools, Effect.chains_apply]
  cases hchain : e.chain? with
  | none =>
    have hflow : e.flow C assetId = 0 := by
      cases e <;> first | rfl | cases hchain
    rw [hflow, add_zero]
    rfl
  | some chain =>
    cases hstate : fs.chains.get? chain with
    | none =>
      have hflow : e.flow C assetId = 0 := by
        cases e with
        | deposit chain' assetId' amount | withdraw chain' assetId' amount =>
          obtain ⟨state, -, hget, -⟩ := hlegal
          rw [Option.some.inj hchain, hstate] at hget
          cases hget
        | account | newEvent | attest | takeEvent | deploy | confirmAction | approveAction
        | processorApprove | emit | replaceValidator | propose | vote | enact
        | clearProposals => rfl
      rw [hflow, add_zero]
      simp only [FrameworkState.updateChain, hstate]
      rfl
    | some state =>
      have hpool := Effect.pool_updated assetId har hstate hchain hlegal C
      have hsum := SortedMap.sum_insert (fun chain (state : ChainState) =>
        if C chain then (state.pool assetId).toRat else 0) fs.chains chain (e.updated env state)
      simp only [hstate, Option.elim_some] at hsum
      simp only [FrameworkState.updateChain_of_get? hstate, FrameworkState.pools]
      linarith

/-! ## What the blocks of a run do to the ledgers -/

section Blocks

variable (env : Externals) (cfg : AssetConfigs)

/-- What one of the funds of a deposit is worth. -/
def depositValue (chain : ExternalChain) (assetId : AssetId) (fund : BridgedAssetAmount) : ℚ :=
  match (cfg chain).bind (·.get? fund.denom) with
  | none => 0
  | some config =>
    match config.toDecimal env.arith fund.amount with
    | .error _ => 0
    | .ok amount => if config.assetId = assetId then amount.toRat else 0

/-- What the funds of a transfer are worth. -/
def transferValue (chain : ExternalChain) (assetId : AssetId) (fund : AssetAmount) : ℚ :=
  if fund.id = assetId then ((cfg.find? chain assetId).map (·.value fund.amount)).getD 0 else 0

namespace Effect

/-- What a processed event deposited on some chains. -/
def deposited (C : ExternalChain → Bool) (assetId : AssetId) : Effect → ℚ
  | takeEvent chain _ (.regular _ funds _) =>
    if C chain then (funds.map (depositValue env cfg chain assetId)).sum else 0
  | _ => 0

/-- What an action transfers from some chains. -/
def transferred (C : ExternalChain → Bool) (assetId : AssetId) : Effect → ℚ
  | emit chain (.transfer _ _ funds) _ =>
    if C chain then (funds.map (transferValue cfg chain assetId)).sum else 0
  | _ => 0

/-- Changes that neither move assets nor start or end their move. -/
def Idle : Effect → Prop
  | account (.mint _ _ _) _ | account (.burn _ _ _) _ | deposit _ _ _ | withdraw _ _ _
  | takeEvent _ _ (.regular _ _ _) | emit _ (.transfer _ _ _) _ => False
  | _ => True

end Effect

/-- The changes of a withdrawal. -/
def withdrawEffects (chain : ExternalChain) (assetId : AssetId) (source : AccountId)
    (wallet : Wallet) (amountDec amount : Decimal) (n : U128) (payload : String) : List Effect :=
  debitEffects assetId chain source amountDec amount ++
    [.emit chain (.transfer chain wallet [⟨assetId, n⟩]) payload]

/-- The action is the last change of a withdrawal. -/
theorem emit_mem_withdrawEffects {chain chain' : ExternalChain} {action : ExecAction}
    {payload payload' : String} {assetId : AssetId} {source : AccountId} {wallet : Wallet}
    {amountDec amount : Decimal} {n : U128} {before after : List Effect}
    (h : before ++ .emit chain' action payload' :: after =
      withdrawEffects chain assetId source wallet amountDec amount n payload) :
    before = debitEffects assetId chain source amountDec amount ∧ after = [] ∧ chain' = chain ∧
      action = .transfer chain wallet [⟨assetId, n⟩] := by
  rcases before with _ | ⟨e₁, _ | ⟨e₂, _ | ⟨e₃, before⟩⟩⟩ <;>
    simp_all [withdrawEffects, debitEffects]

/-- How changes that belong together move assets. -/
structure Accounted (b : List Effect) : Prop where
  /-- Withdrawals and the actions that transfer come together. -/
  withdrawn : ∀ {chain assetId amount}, .withdraw chain assetId amount ∈ b →
    ∃ source wallet amountDec n payload config,
      b = withdrawEffects chain assetId source wallet amountDec amount n payload ∧
      cfg.find? chain assetId = some config ∧
      config.toU128 env.arith amount = .ok (amountDec, n)
  emitted : ∀ {chain chain' wallet funds payload},
    .emit chain (.transfer chain' wallet funds) payload ∈ b → ∃ assetId amount, .withdraw chain assetId amount ∈ b
  /-- The ledgers agree when withdrawals are of whole units. -/
  balances : (∀ chain assetId amount config, .withdraw chain assetId amount ∈ b →
      cfg.find? chain assetId = some config → config.Whole amount) →
    ∀ assetId, (b.map (·.credit assetId)).sum = (b.map (·.flow (fun _ => true) assetId)).sum
  pools : (∀ chain assetId amount config, .withdraw chain assetId amount ∈ b →
      cfg.find? chain assetId = some config → config.Whole amount) →
    ∀ C assetId, (b.map (·.flow C assetId)).sum =
      (b.map (·.deposited env cfg C assetId)).sum - (b.map (·.transferred cfg C assetId)).sum

end Blocks

namespace Accounted

variable {cfg : AssetConfigs} {b : List Effect}

/-- Sums of what idle changes move. -/
theorem sum_idle {w : Effect → ℚ} (hw : ∀ e, e.Idle → w e = 0) (h : ∀ e ∈ b, e.Idle) :
    (b.map w).sum = 0 :=
  List.sum_eq_zero fun q hq => by
    obtain ⟨e, he, rfl⟩ := List.mem_map.mp hq
    exact hw e (h e he)

theorem credit_idle (assetId : AssetId) (e : Effect) (h : e.Idle) : e.credit assetId = 0 := by
  unfold Effect.credit
  split <;> first | rfl | exact h.elim

theorem flow_idle (C : ExternalChain → Bool) (assetId : AssetId) (e : Effect) (h : e.Idle) :
    e.flow C assetId = 0 := by
  unfold Effect.flow
  split <;> first | rfl | exact h.elim

theorem deposited_idle (C : ExternalChain → Bool) (assetId : AssetId) (e : Effect) (h : e.Idle) :
    e.deposited env cfg C assetId = 0 := by
  unfold Effect.deposited
  split <;> first | rfl | exact h.elim

theorem transferred_idle (C : ExternalChain → Bool) (assetId : AssetId) (e : Effect)
    (h : e.Idle) : e.transferred cfg C assetId = 0 := by
  unfold Effect.transferred
  split <;> first | rfl | exact h.elim

theorem of_idle (h : ∀ e ∈ b, e.Idle) : Accounted env cfg b where
  withdrawn hmem := (h _ hmem).elim
  emitted hmem := (h _ hmem).elim
  balances _ assetId := by rw [sum_idle (credit_idle _) h, sum_idle (flow_idle _ _) h]
  pools _ C assetId := by
    rw [sum_idle (flow_idle _ _) h, sum_idle (deposited_idle _ _) h,
      sum_idle (transferred_idle _ _) h, sub_zero]

/-- A transfer between accounts. -/
theorem transfer (source dest : AccountId) (assetId : AssetId) (amount : Decimal) :
    Accounted env cfg [.account (.burn source assetId amount) source,
      .account (.mint dest assetId amount) dest] where
  withdrawn hmem := by simp at hmem
  emitted hmem := by simp at hmem
  balances _ assetId' := by
    simp only [List.map_cons, List.map_nil, List.sum_cons, List.sum_nil, Effect.credit,
      Effect.flow]
    split <;> ring
  pools _ C assetId' := by
    simp [Effect.flow, Effect.deposited, Effect.transferred]

/-- A withdrawal, whose rounding shows in one ledger only. -/
theorem withdraw {chain : ExternalChain} {assetId : AssetId} {amount amountDec : Decimal}
    {n : U128} {config : AssetConfig} (har : env.arith.Lawful)
    (hconfig : cfg.find? chain assetId = some config)
    (hamount : config.toU128 env.arith amount = .ok (amountDec, n)) (source : AccountId)
    (wallet : Wallet) (payload : String) :
    Accounted env cfg (withdrawEffects chain assetId source wallet amountDec amount n payload) where
  withdrawn hmem := by
    simp only [withdrawEffects, debitEffects, List.cons_append, List.nil_append, List.mem_cons,
      reduceCtorEq, Effect.withdraw.injEq, List.not_mem_nil, or_false, false_or] at hmem
    obtain ⟨rfl, rfl, rfl⟩ := hmem
    exact ⟨source, wallet, amountDec, n, payload, config, rfl, hconfig, hamount⟩
  emitted hmem := by
    simp only [withdrawEffects, debitEffects, List.cons_append, List.nil_append, List.mem_cons,
      reduceCtorEq, Effect.emit.injEq, List.not_mem_nil, or_false, false_or] at hmem
    obtain ⟨rfl, -⟩ := hmem
    exact ⟨assetId, amount, by simp [withdrawEffects, debitEffects]⟩
  balances hwhole assetId' := by
    have hvalue := (AssetConfig.toU128_eq_value_iff hamount).mpr
      (hwhole chain assetId amount config (by simp [withdrawEffects, debitEffects]) hconfig)
    simp only [withdrawEffects, debitEffects, List.cons_append, List.nil_append, List.map_cons,
      List.map_nil, List.sum_cons, List.sum_nil, Effect.credit, Effect.flow, true_and]
    rw [AssetConfig.toU128_value har hamount, hvalue]
    split <;> ring
  pools hwhole C assetId' := by
    have hvalue := (AssetConfig.toU128_eq_value_iff hamount).mpr
      (hwhole chain assetId amount config (by simp [withdrawEffects, debitEffects]) hconfig)
    simp only [withdrawEffects, debitEffects, List.cons_append, List.nil_append, List.map_cons,
      List.map_nil, List.sum_cons, List.sum_nil, Effect.flow, Effect.deposited,
      Effect.transferred, transferValue]
    by_cases hid : assetId = assetId'
    · subst hid
      by_cases hC : C chain = true <;> simp [hC, hconfig, hvalue]
    · simp [hid]

end Accounted

namespace Accounted

variable {cfg : AssetConfigs} {b : List Effect}

/-- A sum over the changes that credit the funds of a deposit. -/
theorem sum_credits {w : Effect → ℚ} {v : BridgedAssetAmount → ℚ} {chain : ExternalChain}
    {id : AccountId} (hfund : ∀ fund, ((creditEffects env cfg chain id fund).map w).sum = v fund)
    (funds : List BridgedAssetAmount) :
    ((funds.flatMap (creditEffects env cfg chain id)).map w).sum = (funds.map v).sum := by
  induction funds with
  | nil => rfl
  | cons fund funds ih =>
    rw [List.flatMap_cons, List.map_append, List.sum_append, hfund, ih, List.map_cons,
      List.sum_cons]

theorem sum_ite (C : Bool) (funds : List BridgedAssetAmount) (v : BridgedAssetAmount → ℚ) :
    (funds.map fun fund => if C then v fund else 0).sum =
      if C then (funds.map v).sum else 0 := by
  cases C <;> simp

/-- A deposit is credited in both ledgers. -/
theorem deposit (chain : ExternalChain) (eventId : BridgeEventId) (wallet : Wallet)
    (funds : List BridgedAssetAmount) (keys : List PublicKey) (id : AccountId) :
    Accounted env cfg (.takeEvent chain eventId (.regular wallet funds keys) ::
      .account (.getOrAddAccountForWallet wallet) id ::
        (keys.map (fun key => .account (.addPubkeyIgnoreOverlap id key) id) ++
          funds.flatMap (creditEffects env cfg chain id))) := by
  have credits (e : Effect) (he : e ∈ funds.flatMap (creditEffects env cfg chain id)) :
      ∃ assetId amount, e = .account (.mint id assetId amount) id ∨
        e = .deposit chain assetId amount := by
    obtain ⟨fund, -, he⟩ := List.mem_flatMap.mp he
    cases hconfig : (cfg chain).bind (·.get? fund.denom) with
    | none => simp [creditEffects, hconfig] at he
    | some config =>
      cases hamount : config.toDecimal env.arith fund.amount with
      | error e => simp [creditEffects, hconfig, hamount] at he
      | ok amount =>
        exact ⟨config.assetId, amount, by simpa [creditEffects, hconfig, hamount] using he⟩
  have hkeys : ∀ e ∈ keys.map (fun key => Effect.account (.addPubkeyIgnoreOverlap id key) id),
      e.Idle := by
    intro e he
    obtain ⟨key, -, rfl⟩ := List.mem_map.mp he
    trivial
  -- The parts of the block before the funds contribute the value of the event only.
  have total {w : Effect → ℚ} (hw : ∀ e, e.Idle → w e = 0) :
      ((Effect.takeEvent chain eventId (.regular wallet funds keys) ::
        .account (.getOrAddAccountForWallet wallet) id ::
          (keys.map (fun key => .account (.addPubkeyIgnoreOverlap id key) id) ++
            funds.flatMap (creditEffects env cfg chain id))).map w).sum =
        w (.takeEvent chain eventId (.regular wallet funds keys)) +
          ((funds.flatMap (creditEffects env cfg chain id)).map w).sum := by
    rw [List.map_cons, List.sum_cons, List.map_cons, List.sum_cons, List.map_append,
      List.sum_append, sum_idle hw hkeys, hw (.account (.getOrAddAccountForWallet wallet) id) trivial,
      zero_add, zero_add]
  have hflow (C : ExternalChain → Bool) (assetId : AssetId) :
      ((funds.flatMap (creditEffects env cfg chain id)).map (·.flow C assetId)).sum =
        if C chain then (funds.map (depositValue env cfg chain assetId)).sum else 0 := by
    rw [← sum_ite]
    refine sum_credits (fun fund => ?_) funds
    cases hconfig : (cfg chain).bind (·.get? fund.denom) with
    | none => simp [creditEffects, depositValue, hconfig]
    | some config =>
      cases hamount : config.toDecimal env.arith fund.amount with
      | error e => simp [creditEffects, depositValue, hconfig, hamount]
      | ok amount =>
        by_cases hC : C chain = true <;>
          simp [creditEffects, depositValue, hconfig, hamount, Effect.flow, hC]
  have hcredit (assetId : AssetId) :
      ((funds.flatMap (creditEffects env cfg chain id)).map (·.credit assetId)).sum =
        (funds.map (depositValue env cfg chain assetId)).sum := by
    refine sum_credits (fun fund => ?_) funds
    cases hconfig : (cfg chain).bind (·.get? fund.denom) with
    | none => simp [creditEffects, depositValue, hconfig]
    | some config =>
      cases hamount : config.toDecimal env.arith fund.amount <;>
        simp [creditEffects, depositValue, hconfig, hamount, Effect.credit]
  have hnone {w : Effect → ℚ}
      (hmint : ∀ assetId amount, w (.account (.mint id assetId amount) id) = 0)
      (hdeposit : ∀ assetId amount, w (.deposit chain assetId amount) = 0) :
      ((funds.flatMap (creditEffects env cfg chain id)).map w).sum = 0 :=
    List.sum_eq_zero fun q hq => by
      obtain ⟨e, he, rfl⟩ := List.mem_map.mp hq
      obtain ⟨assetId, amount, rfl | rfl⟩ := credits e he
      · exact hmint assetId amount
      · exact hdeposit assetId amount
  refine ⟨fun hmem => ?_, fun hmem => ?_, fun _ assetId => ?_, fun _ C assetId => ?_⟩
  · simp only [List.mem_cons, reduceCtorEq, List.mem_append, List.mem_map, and_false,
      exists_false, false_or] at hmem
    obtain ⟨_, _, heq | heq⟩ := credits _ hmem <;> cases heq
  · simp only [List.mem_cons, reduceCtorEq, List.mem_append, List.mem_map, and_false,
      exists_false, false_or] at hmem
    obtain ⟨_, _, heq | heq⟩ := credits _ hmem <;> cases heq
  · rw [total (credit_idle assetId), total (flow_idle _ assetId), hcredit, hflow, if_pos rfl]
    simp [Effect.credit, Effect.flow]
  · rw [total (flow_idle C assetId), total (deposited_idle C assetId),
      total (transferred_idle C assetId), hflow, hnone (fun _ _ => rfl) (fun _ _ => rfl),
      hnone (fun _ _ => rfl) (fun _ _ => rfl)]
    simp [Effect.flow, Effect.deposited, Effect.transferred]

theorem of_eventBlock {chain : ExternalChain} (hb : EventBlock env cfg chain b) :
    Accounted env cfg b := by
  cases hb with
  | instantiated | signed => exact of_idle (by simp [Effect.Idle])
  | regular eventId wallet funds keys id => exact deposit chain eventId wallet funds keys id

end Accounted

/-! ## Apps and messages -/

/-- The call mints or burns. -/
def AppCall.Mints : AppCall → Prop
  | mintAsset _ _ _ | burnAsset _ _ _ => True
  | _ => False

/-- The call withdraws. -/
def AppCall.Withdraws : AppCall → Prop
  | withdrawAsset _ _ _ _ _ => True
  | _ => False

namespace AppProgram

variable {S : Type}

/-- The program cannot succeed. -/
def Fails : AppProgram S → Prop
  | done _ => False
  | fail _ => True
  | call _ next => ∀ reply fs, (next reply fs).Fails

/-- When a withdrawal fails, so does the program. -/
def Propagates : AppProgram S → Prop
  | done _ | fail _ => True
  | call c next => (c.Withdraws → ∀ e fs, (next (.error e) fs).Fails) ∧
      ∀ reply fs, (next reply fs).Propagates

theorem Fails.run_ne_ok {p : AppProgram S} (hp : p.Fails) {ctx ctx' : ExecutionContext S}
    {u : Unit} : p.run env ctx ≠ (.ok u, ctx') := by
  intro h
  induction p generalizing ctx with
  | done state => exact hp
  | fail e => simp [run] at h
  | call c next ih =>
    rcases hrun : c.run env ctx with ⟨r, c₁⟩
    have hr : r ≠ .error .panic := by
      rintro rfl
      simp [run, hrun] at h
    rw [run_call hrun hr] at h
    exact ih r _ (hp r _) h

end AppProgram

def App.Propagates (app : App) : Prop :=
  ∀ world view msg, (app.execute world view msg).Propagates

namespace Accounted

variable {cfg : AssetConfigs} {b : List Effect}

/-- Calls that neither mint nor burn nor withdraw. -/
theorem of_call {c : AppCall} (hb : c.Block env cfg b) (hmints : ¬c.Mints)
    (hwithdraws : ¬c.Withdraws) : Accounted env cfg b := by
  cases hb with
  | accountForKey | accountForWallet => exact of_idle (by simp [Effect.Idle])
  | mint | burn => exact absurd trivial hmints
  | transfer assetId source dest amount => exact transfer source dest assetId amount
  | withdraw | withdrawBurn | withdrawDebit => exact absurd trivial hwithdraws

theorem of_emissions {action : ExecAction} (hes : Emissions action b)
    (haction : ∀ chain wallet funds, action ≠ .transfer chain wallet funds) :
    ∀ e ∈ b, e.Idle := by
  intro e he
  obtain ⟨chain, payload, rfl⟩ := hes e he
  cases action with
  | transfer chain' wallet funds => exact absurd rfl (haction chain' wallet funds)
  | selfReplace | newSet | migrateContract => trivial

/-- What the messages of the framework do. -/
theorem of_message {M : Type} {message : Message M} {pubkey : PublicKey} {sender : AccountId}
    {calls : M → AppCall → Prop} (har : env.arith.Lawful)
    (hb : message.Block env pubkey sender calls cfg b) (hmessage : ∀ msg, message ≠ .app msg) :
    Accounted env cfg b := by
  cases hb with
  | app => exact absurd rfl (hmessage _)
  | event eventId event hb => exact of_eventBlock hb
  | transfer asset dest amount => exact transfer sender dest asset amount
  | withdraw payload hconfig hamount => exact withdraw har hconfig hamount sender _ payload
  | newEvent | attest | approve | processorApprove | propose | vote =>
    exact of_idle (by simp [Effect.Idle])
  | auth msg => cases msg <;> exact of_idle (by simp [Effect.Idle, AuthMessage.op])
  | selfReplace signed hes =>
    have hidle := of_emissions hes (by simp)
    exact of_idle (by simpa [Effect.Idle] using hidle)
  | enact msg hb =>
    cases hb with
    | newSet set approvals hes =>
      have hidle := of_emissions hes (by simp)
      exact of_idle (by simpa [Effect.Idle, or_imp, forall_and] using hidle)
    | migrateContract | upgrade => exact of_idle (by simp [Effect.Idle])

open ExecutionContext in
/-- What a program does that neither mints nor burns and gives up with its withdrawals. -/
theorem run_leads {S : Type} {p : AppProgram S} (har : env.arith.Lawful)
    (hmints : p.Only fun c => ¬c.Mints) (hprop : p.Propagates) {ctx ctx' : ExecutionContext S}
    {u : Unit} (h : p.run env ctx = (.ok u, ctx')) : Leads env (Accounted env) ctx ctx' := by
  induction p generalizing ctx with
  | done state =>
    obtain rfl := Exec.modify_eq_ok.mp h
    exact .of_eq rfl rfl ⟨rfl, rfl, rfl, rfl, rfl⟩
  | fail e => simp [AppProgram.run] at h
  | call c next ih =>
    obtain ⟨hc, hnext⟩ := hmints
    obtain ⟨hfails, hpropagates⟩ := hprop
    rcases hrun : c.run env ctx with ⟨r, c₁⟩
    have hr : r ≠ .error .panic := by
      rintro rfl
      simp [AppProgram.run, hrun] at h
    rw [AppProgram.run_call hrun hr] at h
    have hcall : Leads env (Accounted env) ctx c₁ := by
      by_cases hw : c.Withdraws
      · cases r with
        | error e => exact absurd h (hfails hw e _).run_ne_ok
        | ok reply =>
          cases c with
          | withdrawAsset assetId chain source wallet amount =>
            simp only [AppCall.run, Exec.bind_eq_ok, Exec.pure_eq_ok] at hrun
            obtain ⟨id, _, hrun, -, rfl⟩ := hrun
            obtain ⟨config, amountDec, n, payload, hconfig, hamount, hmakes⟩ :=
              withdrawAsset_makes hrun
            exact hmakes.leads (withdraw har hconfig hamount source wallet payload)
          | getOrAddAccountIdForKey | getOrAddAccountIdForWallet | transferAsset | mintAsset
          | burnAsset | loadData | log => exact hw.elim
      · exact (call_leads hr hrun).mono fun b hb => of_call hb hc hw
    exact hcall.trans (ih r _ (hnext r _) (hpropagates r _) h)

open ExecutionContext in
/-- What a message does. -/
theorem executeMessage_leads {app : App} (har : env.arith.Lawful)
    (hmints : app.Only fun _ c => ¬c.Mints) (hprop : app.Propagates) (world : app.World)
    (message : Message app.Message) (ctx ctx' : ExecutionContext app.State)
    (hkey : ctx.signingKey = ctx.pubkey)
    (h : executeMessage env world message ctx = (.ok (), ctx')) :
    Leads env (Accounted env) ctx ctx' := by
  by_cases hmessage : ∀ msg, message ≠ .app msg
  · have hcalls : app.Only fun _ _ => True := fun _ _ _ => AppProgram.only_true _
    exact (Kolme.executeMessage_leads hcalls hkey h).mono fun b hb => of_message har hb hmessage
  · push Not at hmessage
    obtain ⟨msg, rfl⟩ := hmessage
    simp only [executeMessage, Exec.bind_eq_ok, Exec.get_eq_ok] at h
    obtain ⟨_, _, ⟨rfl, rfl⟩, h⟩ := h
    exact run_leads har (hmints world _ msg) (hprop world _ msg) h

end Accounted

/-! ## The law -/

/-- What the ledgers of a node say of each other and of the actions it emitted. -/
structure Conserved (env : Externals) {app : App} (state : Node app) : Prop where
  balances : ∀ assetId, state.frameworkState.accounts.total assetId =
    state.frameworkState.pools (fun _ => true) assetId
  pools : ∀ assetId chain chainState,
    state.frameworkState.chains.get? chain = some chainState →
    (chainState.pool assetId).toRat =
      (state.history.map (·.deposited env (FrameworkState.new app.genesisInfo).assetConfigs
        (· = chain) assetId)).sum -
      (state.history.map (·.transferred (FrameworkState.new app.genesisInfo).assetConfigs
        (· = chain) assetId)).sum
  /-- An action that transfers follows the two debits of what it transfers. -/
  debits : ∀ past future chain chain' wallet funds payload,
    state.history = past ++ .emit chain (.transfer chain' wallet funds) payload :: future →
    ∃ pre source assetId amountDec amount n config,
      past = pre ++ debitEffects assetId chain source amountDec amount ∧
      chain' = chain ∧ funds = [⟨assetId, n⟩] ∧
      (FrameworkState.new app.genesisInfo).assetConfigs.find? chain assetId = some config ∧
      amountDec.toRat = config.value n ∧ amount.toRat = config.value n

/-- The ledgers are empty at genesis. -/
theorem total_new (info : GenesisInfo) (assetId : AssetId) :
    (FrameworkState.new info).accounts.total assetId = 0 := rfl

theorem pools_new (info : GenesisInfo) (C : ExternalChain → Bool) (assetId : AssetId) :
    (FrameworkState.new info).pools C assetId = 0 := by
  refine SortedMap.sum_zero _ _ fun chain state hstate => ?_
  obtain ⟨config, -, rfl⟩ := Effect.exists_of_get?_new hstate
  have hpool : (config.intoState.pool assetId).toRat = 0 := Decimal.toRat_zero
  rw [hpool, ite_self]

/-- The recorded balance of one chain. -/
theorem pools_single {fs : FrameworkState} {chain : ExternalChain} {state : ChainState}
    (h : fs.chains.get? chain = some state) (assetId : AssetId) :
    fs.pools (· = chain) assetId = (state.pool assetId).toRat := by
  have hsum := SortedMap.sum_ite_eq
    (fun (_ : ExternalChain) (state : ChainState) => (state.pool assetId).toRat) fs.chains chain
  rw [h] at hsum
  simpa [FrameworkState.pools] using hsum

/-- The sums over a history, when its withdrawals are of whole units. -/
theorem Accounted.sums {cfg : AssetConfigs} {es : List Effect}
    (hes : Blocks (Accounted env cfg) es)
    (hwhole : ∀ chain assetId amount config, .withdraw chain assetId amount ∈ es →
      cfg.find? chain assetId = some config → config.Whole amount) (assetId : AssetId) :
    (es.map (·.credit assetId)).sum = (es.map (·.flow (fun _ => true) assetId)).sum ∧
    ∀ C, (es.map (·.flow C assetId)).sum = (es.map (·.deposited env cfg C assetId)).sum -
      (es.map (·.transferred cfg C assetId)).sum := by
  refine hes.induction (P := fun es =>
    (∀ chain assetId amount config, .withdraw chain assetId amount ∈ es →
      cfg.find? chain assetId = some config → config.Whole amount) →
    (es.map (·.credit assetId)).sum = (es.map (·.flow (fun _ => true) assetId)).sum ∧
    ∀ C, (es.map (·.flow C assetId)).sum = (es.map (·.deposited env cfg C assetId)).sum -
      (es.map (·.transferred cfg C assetId)).sum) (by simp) ?_ hwhole
  intro b es hb ih hwhole
  obtain ⟨hbalances, hpools⟩ := ih fun chain assetId amount config hmem =>
    hwhole chain assetId amount config (List.mem_append_right _ hmem)
  have hwhole' := fun chain assetId amount config (hmem : .withdraw chain assetId amount ∈ b) =>
    hwhole chain assetId amount config (List.mem_append_left _ hmem)
  refine ⟨?_, fun C => ?_⟩
  · simp only [List.map_append, List.sum_append, hb.balances hwhole' assetId, hbalances]
  · simp only [List.map_append, List.sum_append, hb.pools hwhole' C assetId, hpools C]
    ring

/-- The two ledgers agree with each other and with what the actions transfer if and only if all
withdrawals were of whole units. -/
theorem conserved_iff {app : App} (state : Node app) (hreach : state.Reachable env)
    (hlawful : env.arith.Lawful) (hexact : env.arith.Exact)
    (hmints : app.Only fun _ c => ¬c.Mints) (hprop : app.Propagates) :
    Conserved env state ↔
      ∀ chain assetId amount config, .withdraw chain assetId amount ∈ state.history →
        (FrameworkState.new app.genesisInfo).assetConfigs.find? chain assetId = some config →
        config.Whole amount := by
  have hblocks := hreach.blocks_of (B := Accounted env)
    (fun cfg pubkey nonce sender => .of_idle (by simp [Effect.Idle]))
    fun world message s s' hkey h =>
      Accounted.executeMessage_leads hlawful hmints hprop world message s s' hkey h
  constructor
  · intro hconserved chain assetId amount config hmem hconfig
    obtain ⟨past, future, hhistory⟩ := List.append_of_mem hmem
    rw [hhistory] at hblocks
    obtain ⟨pre, before, after, post, rfl, rfl, hb, -, -⟩ := hblocks.exists_of_append
    obtain ⟨source, wallet, amountDec, n, payload, config', hblock, -, -⟩ :=
      hb.withdrawn (List.mem_append_right _ (List.mem_cons_self ..))
    have hsplit : state.history = (pre ++ debitEffects assetId chain source amountDec amount) ++
        .emit chain (.transfer chain wallet [⟨assetId, n⟩]) payload :: post := by
      have hjoin : state.history =
          pre ++ (before ++ .withdraw chain assetId amount :: after) ++ post := by simp [hhistory]
      simp [hjoin, hblock, withdrawEffects]
    obtain ⟨pre', source', assetId', amountDec', amount', n', config'', hpast, -, hfunds, hconfig'',
      -, hamount⟩ := hconserved.debits _ _ _ _ _ _ _ hsplit
    obtain ⟨-, hdebit⟩ := List.append_inj' hpast rfl
    simp only [debitEffects, List.cons.injEq, Effect.withdraw.injEq, true_and, and_true] at hdebit
    obtain ⟨-, rfl, rfl⟩ := hdebit
    obtain rfl := Option.some.inj (hconfig.symm.trans hconfig'')
    exact ⟨n', hamount⟩
  · intro hwhole
    have hsums := fun assetId => Accounted.sums hblocks hwhole assetId
    refine ⟨fun assetId => ?_, fun assetId chain chainState hstate => ?_, ?_⟩
    · rw [total_of_trace hexact hreach.trace, pools_of_trace hexact hreach.trace, total_new,
        pools_new, (hsums assetId).1]
    · rw [← pools_single hstate, pools_of_trace hexact hreach.trace, pools_new, (hsums assetId).2,
        zero_add]
    · intro past future chain chain' wallet funds payload hhistory
      rw [hhistory] at hblocks
      obtain ⟨pre, before, after, post, rfl, rfl, hb, -, -⟩ := hblocks.exists_of_append
      obtain ⟨assetId, amount, hwithdraw⟩ :=
        hb.emitted (List.mem_append_right _ (List.mem_cons_self ..))
      obtain ⟨source, wallet', amountDec, n, payload', config, hblock, hconfig, hamount⟩ :=
        hb.withdrawn hwithdraw
      have hjoin : state.history = pre ++
          (before ++ .emit chain (.transfer chain' wallet funds) payload :: after) ++ post := by
        simp [hhistory]
      have hvalue := (AssetConfig.toU128_eq_value_iff hamount).mpr (hwhole _ _ amount config
        (hjoin ▸ List.mem_append_left _ (List.mem_append_right _ hwithdraw)) hconfig)
      obtain ⟨rfl, rfl, -, haction⟩ := emit_mem_withdrawEffects hblock
      obtain ⟨rfl, rfl, rfl⟩ := ExecAction.transfer.inj haction
      exact ⟨pre, source, assetId, amountDec, amount, n, config, rfl, rfl, rfl, hconfig,
        AssetConfig.toU128_value hlawful hamount, hvalue⟩

namespace ConservationSample

open Sample

/-- Alice withdraws one and half a unit. -/
def dustTx : SignedTx where
  tx := ⟨alice, 0, [.bank (.withdraw 1 .osmosisLocal "osmo1alice" ⟨false, 10000005, 7⟩)], none⟩
  s := 0x36c7c850367e8f35616af8a1a7e2353cfc829e0b392ef1e15344daf137ac6a07
  recoveryId := 1

def txs : List SignedTx := [genesisTx, depositTx, withdrawTx, dustTx]

def table : List SignedText := txs.map SignedTx.text

theorem table_distinct : (table.map SignedText.signature).Nodup := by decide

def chain : Machine (Node (counter (info validators))) (Call (counter (info validators))) Error :=
  Node.machine (counterEnv table)

/-- The withdrawals among the changes. -/
def withdrawals (es : List Effect) : List (ExternalChain × AssetId × Decimal) :=
  es.filterMap fun
    | .withdraw chain assetId amount => some (chain, assetId, amount)
    | _ => none

theorem mem_withdrawals {es : List Effect} {chain : ExternalChain} {assetId : AssetId}
    {amount : Decimal} (h : .withdraw chain assetId amount ∈ es) :
    (chain, assetId, amount) ∈ withdrawals es :=
  List.mem_filterMap.mpr ⟨_, h, rfl⟩

end ConservationSample

open Sample ConservationSample in
/-- Alice withdraws two million units. -/
theorem conserved_iff_example :
    ∃ s, chain.steps (start validators) (calls validators [genesisTx, depositTx, withdrawTx]) =
        .ok s ∧
      withdrawals s.history = [(.osmosisLocal, 1, ⟨false, 2, 0⟩)] ∧
      Conserved (counterEnv table) s := by
  have hmem : ∀ t ∈ [genesisTx, depositTx, withdrawTx], t.text ∈ table :=
    fun t ht => List.mem_map_of_mem (by simp only [txs]; grind)
  obtain ⟨s, hs, hp⟩ := exists_steps (start validators)
    (fun s => withdrawals s.history = [(.osmosisLocal, 1, ⟨false, 2, 0⟩)])
    table_distinct hmem (by decide +kernel)
  have hwithdrawals := of_decide_eq_true hp
  refine ⟨s, hs, hwithdrawals, (conserved_iff s (reachable validators_wellFormed hs)
    exactArith_lawful exactArith_exact (fun _ _ _ => trivial) (fun _ _ _ => trivial)).mpr ?_⟩
  intro chain assetId amount config hmem hconfig
  have hone := mem_withdrawals hmem
  rw [hwithdrawals, List.mem_singleton] at hone
  obtain ⟨rfl, rfl, rfl⟩ := Prod.mk.inj hone |>.imp_right Prod.mk.inj
  have hunits : (FrameworkState.new (info validators)).assetConfigs.find? .osmosisLocal 1 =
      some ⟨6, 1⟩ := by decide +kernel
  obtain rfl := Option.some.inj (hunits.symm.trans hconfig)
  have hsix : UInt8.toNat 6 = 6 := rfl
  exact ⟨2000000, by norm_num [Decimal.toRat, Decimal.mantissa, AssetConfig.value, hsix]⟩

open Sample ConservationSample in
/-- The half unit stays on Alice's account and is taken off the balance of the chain. -/
theorem conserved_iff_counterexample :
    Node.genesis (counter (info validators)) = .ok (start validators) ∧
    ∃ s, chain.steps (start validators) (calls validators [genesisTx, depositTx, dustTx]) =
        .ok s ∧
      s.frameworkState.accounts.total 1 = 4 ∧
      s.frameworkState.pools (fun _ => true) 1 = 4 - 1 / 2000000 := by
  have hmem : ∀ t ∈ [genesisTx, depositTx, dustTx], t.text ∈ table :=
    fun t ht => List.mem_map_of_mem (by simp only [txs]; grind)
  obtain ⟨s, hs, hp⟩ := exists_steps (start validators)
    (fun s => s.frameworkState.accounts.total 1 = 4 ∧
      s.frameworkState.pools (fun _ => true) 1 = 4 - 1 / 2000000)
    table_distinct hmem (by decide +kernel)
  exact ⟨genesis_start validators_wellFormed, s, hs, of_decide_eq_true hp⟩

end Kolme
