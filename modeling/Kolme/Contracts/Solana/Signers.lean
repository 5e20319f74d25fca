import Kolme.Contracts.Signers
import Kolme.Contracts.Solana.Bridge

/-!
# Who signed an instruction of the Solana program

One specification for each check of signatures: what its success says about the distinct signers.
-/

namespace Kolme.Solana

open Except

variable {sys : Sys}

/-- Who signed a text, as the program finds it. -/
def recover (sys : Sys) (text : String) (sig : SignatureWithRecovery) : Option PublicKey :=
  (secp256k1Recover sys (sys.sha256 text) sig).toOption

theorem recover_eq_some {text : String} {sig : SignatureWithRecovery} {key : PublicKey} :
    recover sys text sig = some key ↔ secp256k1Recover sys (sys.sha256 text) sig = .ok key := by
  unfold recover
  cases secp256k1Recover sys (sys.sha256 text) sig <;> simp [Except.toOption]

/-- The tally of a list of signers. -/
def Tally.of (set : ValidatorSet) (used : List PublicKey) : Tally where
  used := used
  processor := decide (set.processor ∈ used)
  listeners := used.countP (· ∈ set.listeners)
  approvers := used.countP (· ∈ set.approvers)

theorem countIf_eq_ok {found : Prop} [Decidable found] {counter n : Nat}
    (h : countIf found counter = .ok n) : n = counter + if found then 1 else 0 := by
  unfold countIf at h
  split at h
  · rename_i hfound
    simp only [bind_eq_ok, ensure_eq_ok, exists_unit, pure_eq_ok, ok.injEq] at h
    simp [hfound, h.2]
  · rename_i hfound
    simp only [pure_eq_ok, ok.injEq] at h
    simp [hfound, h]

/-- The loop over the approvals collects who signed them, and counts. -/
theorem tallyApprovals_ok {set : ValidatorSet} {text : String} {used : List PublicKey}
    {approvals : List SignatureWithRecovery} {tally : Tally}
    (h : tallyApprovals sys set (sys.sha256 text) (Tally.of set used) approvals = .ok tally) :
    tally = Tally.of set (used ++ approvals.filterMap (recover sys text)) := by
  induction approvals generalizing used with
  | nil =>
    obtain rfl := ok.inj h
    simp
  | cons sig approvals ih =>
    simp only [tallyApprovals, bind_eq_ok, ensure_eq_ok, exists_unit] at h
    obtain ⟨key, hkey, -, listeners, hlisteners, approvers, happrovers, htally⟩ := h
    have hnext : (⟨(Tally.of set used).used ++ [key],
        (Tally.of set used).processor || decide (set.processor = key), listeners,
        approvers⟩ : Tally) = Tally.of set (used ++ [key]) := by
      rw [countIf_eq_ok hlisteners, countIf_eq_ok happrovers]
      simp [Tally.of, List.countP_cons]
    rw [hnext] at htally
    rw [ih htally, List.filterMap_cons_some (recover_eq_some.mpr hkey), List.append_assoc]
    rfl

theorem countP_eq_card {used : List PublicKey} (hnodup : used.Nodup) (group : Finset PublicKey) :
    used.countP (· ∈ group) = (used.toFinset ∩ group).card := by
  rw [List.countP_eq_length_filter, ← List.toFinset_card_of_nodup (hnodup.filter _)]
  congr 1
  ext key
  simp

theorem Tally.filledBy_of_count {set : ValidatorSet} {used : List PublicKey}
    (hnodup : used.Nodup) (h : 2 ≤ (Tally.of set used).count set) :
    set.FilledBy used.toFinset := by
  refine TwoOfThree.mono ?_ ?_ ?_ ((TwoOfThree.iff_two_le _ _ _).mpr h)
  · exact fun hp => List.mem_toFinset.mpr (of_decide_eq_true hp)
  · exact fun hl => (of_decide_eq_true hl).trans (countP_eq_card hnodup _).le
  · exact fun ha => (of_decide_eq_true ha).trans (countP_eq_card hnodup _).le

/-- A rotation is accepted only if its approvals fill two groups of the stored set. -/
theorem newSet_ok {set set' : ValidatorSet} {hash : Hash} {data : SignedMsgIxData}
    {rendered : String} {approvals : List SignatureWithRecovery}
    (h : newSet sys set hash data rendered approvals = .ok set') :
    set.FilledBy (signersOf (recover sys) rendered approvals) := by
  simp only [newSet, bind_eq_ok, ensure_eq_ok, exists_unit] at h
  obtain ⟨new, -, tally, htally, hnodup, hcount, -⟩ := h
  have hempty : (⟨[], false, 0, 0⟩ : Tally) = Tally.of set [] := by simp [Tally.of]
  rw [hempty] at htally
  obtain rfl := tallyApprovals_ok htally
  exact Tally.filledBy_of_count hnodup hcount

/-- A rotation that passes every check replaces the set. -/
theorem newSet_of {set new : ValidatorSet} {hash : Hash} {data : SignedMsgIxData}
    {rendered : String} {approvals : List SignatureWithRecovery} {tally : Tally}
    (hnew : sys.validatorSetFromJson rendered = some new)
    (htally : tallyApprovals sys set (sys.sha256 rendered) ⟨[], false, 0, 0⟩ approvals = .ok tally)
    (hnodup : tally.used.Nodup) (hcount : 2 ≤ tally.count set)
    (hverify : verifySignatures sys hash data.processor new.processor data.approvers new.approvers
      new.neededApprovers = .ok ()) :
    newSet sys set hash data rendered approvals = .ok new := by
  simp only [newSet, hnew, fromOption_some, ok_bind, htally, ensure_of hnodup, ensure_of hcount,
    hverify, pure_eq_ok]

end Kolme.Solana
