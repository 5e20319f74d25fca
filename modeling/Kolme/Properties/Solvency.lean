import Kolme.Core.Chains
import Kolme.Core.Counter

/-!
# Solvency of the chains

One asset can be held by several chains, so the balance of an account does not bound what one
chain's bridge can pay. The recorded balance of a chain stays non-negative exactly as long as no
withdrawal asks for more than it: nothing else rejects such a withdrawal.
-/

namespace Kolme

variable {env : Externals}

/-- No recorded balance is negative. -/
def Solvent (fs : FrameworkState) : Prop :=
  ∀ chain state assetId, fs.chains.get? chain = some state → 0 ≤ (state.pool assetId).toRat

/-- Amounts that were converted are not negative. -/
theorem AssetConfig.toDecimal_nonneg {ar : Arith} (har : ar.Lawful) {config : AssetConfig}
    {n : U128} {amount : Decimal} (h : config.toDecimal ar n = .ok amount) : 0 ≤ amount.toRat := by
  simp only [toDecimal, Except.bind_eq_ok, Except.ensure_eq_ok, Except.fromOption_eq_ok] at h
  obtain ⟨-, -, h⟩ := h
  rw [har.tryFrom_eq] at h
  split at h
  · obtain rfl := Option.some.inj h
    rw [Decimal.toRat]
    exact div_nonneg (by simp [Decimal.mantissa]) (by positivity)
  · cases h

/-- Only bridge events deposit, and what they deposit was converted. -/
theorem HistoryBlock.deposit_nonneg {app : App} {b : List Effect} (har : env.arith.Lawful)
    (hb : HistoryBlock env app b) {chain : ExternalChain} {assetId : AssetId} {amount : Decimal}
    (hmem : .deposit chain assetId amount ∈ b) : 0 ≤ amount.toRat := by
  have emissions {action : ExecAction} {es : List Effect} (hes : Emissions action es) :
      .deposit chain assetId amount ∉ es := fun hmem => by
    obtain ⟨_, _, heq⟩ := hes _ hmem
    cases heq
  rcases hb with ⟨pubkey, nonce, sender, rfl⟩ | ⟨pubkey, sender, message, hb⟩
  · simp at hmem
  · cases hb with
    | event eventId event hb =>
      cases hb with
      | instantiated | signed => simp at hmem
      | regular eventId wallet funds keys id =>
        simp only [List.mem_cons, reduceCtorEq, List.mem_append, List.mem_map, and_false,
          exists_false, List.mem_flatMap, false_or] at hmem
        obtain ⟨fund, -, hfund⟩ := hmem
        unfold creditEffects at hfund
        split at hfund
        · simp at hfund
        · split at hfund
          · simp at hfund
          · rename_i amount' hamount
            simp only [List.mem_cons, reduceCtorEq, Effect.deposit.injEq, List.not_mem_nil,
              or_false, false_or] at hfund
            obtain ⟨-, -, rfl⟩ := hfund
            exact AssetConfig.toDecimal_nonneg har hamount
    | app hc hb => cases hb <;> simp [debitEffects] at hmem
    | newEvent | attest | approve | processorApprove | propose | vote | transfer => simp at hmem
    | withdraw payload hconfig hamount => simp [debitEffects] at hmem
    | auth msg hsigning => cases msg <;> simp at hmem
    | selfReplace signed hes => exact absurd (by simpa using hmem) (emissions hes)
    | enact msg hb =>
      cases hb with
      | newSet set approvals hes => exact absurd (by simpa using hmem) (emissions hes)
      | migrateContract | upgrade => simp at hmem

/-- A change keeps the balances non-negative, if it withdraws no more than there is. -/
theorem Solvent.apply {fs : FrameworkState} {e : Effect} (har : env.arith.SignCorrect)
    (h : Solvent fs) (hlegal : e.Legal env fs)
    (hdeposit : ∀ chain assetId amount, e = .deposit chain assetId amount → 0 ≤ amount.toRat)
    (hwithdraw : ∀ chain assetId amount state, e = .withdraw chain assetId amount →
      fs.chains.get? chain = some state → amount.toRat ≤ (state.pool assetId).toRat) :
    Solvent (e.apply env fs) := by
  intro chain state' assetId hstate'
  obtain ⟨state, hstate, ⟨hc, rfl⟩ | ⟨-, rfl⟩⟩ := Effect.exists_of_get?_apply hstate'
  · have hpool := h chain state assetId hstate
    cases e with
    | deposit chain' assetId' amount =>
      obtain rfl : chain' = chain := Option.some.inj hc
      obtain ⟨new, hnew, hupdated⟩ := Effect.updated_deposit hstate hlegal
      rw [hupdated, ChainState.pool_insert]
      split
      · exact har.add_nonneg hnew (h _ state assetId' hstate) (hdeposit _ _ _ rfl)
      · exact hpool
    | withdraw chain' assetId' amount =>
      obtain rfl : chain' = chain := Option.some.inj hc
      obtain ⟨new, hnew, hupdated⟩ := Effect.updated_withdraw hstate hlegal
      rw [hupdated, ChainState.pool_insert]
      split
      · exact (har.sub_nonneg_iff hnew).mpr (hwithdraw _ _ _ state rfl hstate)
      · exact hpool
    | account | newEvent | attest | takeEvent | deploy | confirmAction | approveAction
    | processorApprove | emit | replaceValidator | propose | vote | enact | clearProposals =>
      rwa [ChainState.pool, Effect.assets_updated state (by simp) (by simp)]
  · exact h chain _ assetId hstate

namespace SolvencySample

open Sample

/-- Alice withdraws five to a chain that holds none. -/
def overdraftTx : SignedTx where
  tx := ⟨alice, 0, [.bank (.withdraw 1 .neutronTestnet "neutron1alice" ⟨false, 5, 0⟩)], none⟩
  s := 0x53aa59f8ee8ddcfd6a526103c6ecbe86c0ac6e33dd3f0f82f6939497bb45769b
  recoveryId := 1

def txs : List SignedTx := [genesisTx, depositTx, withdrawTx, overdraftTx]

def table : List SignedText := txs.map SignedTx.text

theorem table_distinct : (table.map SignedText.signature).Nodup := by decide

def chain : Machine (Node (counter (info validators))) (Call (counter (info validators))) Error :=
  Node.machine (counterEnv table)

/-- No withdrawal among the changes asks for more than its chain holds. -/
def covered (fs : FrameworkState) : List Effect → Bool
  | [] => true
  | e :: es =>
    (match e with
      | .withdraw chain assetId amount => (fs.chains.get? chain).all fun state =>
        amount.cmp (state.pool assetId) ≠ .gt
      | _ => true) && covered (e.apply (counterEnv table) fs) es

theorem le_of_covered {fs fs' : FrameworkState} {es past future : List Effect}
    {chain : ExternalChain} {assetId : AssetId} {amount : Decimal} {state : ChainState}
    (h : covered fs es = true) (hes : es = past ++ .withdraw chain assetId amount :: future)
    (htrace : (effects (counterEnv table)).Trace fs past fs')
    (hstate : fs'.chains.get? chain = some state) :
    amount.toRat ≤ (state.pool assetId).toRat := by
  induction past generalizing fs es with
  | nil =>
    obtain rfl := Labelled.Trace.nil_iff.mp htrace
    subst hes
    simp only [covered, List.nil_append, hstate, Option.all_some, Bool.and_eq_true,
      decide_eq_true_eq] at h
    exact not_lt.mp fun hlt => h.1 (Decimal.cmp_eq_gt.mpr hlt)
  | cons e past ih =>
    obtain ⟨-, htrace⟩ := Labelled.Trace.cons_iff.mp htrace
    subst hes
    simp only [covered, List.cons_append, Bool.and_eq_true] at h
    exact ih h.2 rfl htrace

end SolvencySample

end Kolme
