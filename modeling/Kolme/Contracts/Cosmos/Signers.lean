import Kolme.Contracts.Cosmos
import Kolme.Contracts.Signers

/-!
# Who signed a call of the Cosmos contract

One specification for each check of signatures: what its success says about the distinct signers.
-/

namespace Kolme.Cosmos

open Except

variable {api : Api}

/-- Who signed a text, as the contract finds it. -/
def recover (api : Api) (text : String) (sig : SignatureWithRecovery) : Option PublicKey :=
  (validateSignature api (api.sha256 text) sig).toOption

theorem recover_eq_some {text : String} {sig : SignatureWithRecovery} {key : PublicKey} :
    recover api text sig = some key ↔ validateSignature api (api.sha256 text) sig = .ok key := by
  unfold recover
  cases validateSignature api (api.sha256 text) sig <;> simp [Except.toOption]

/-- The tally of a set of distinct signers. -/
def Tally.of (set : ValidatorSet) (used : Finset PublicKey) : Tally where
  used := used
  processor := decide (set.processor ∈ used)
  listeners := Fin.ofNat _ (used ∩ set.listeners).card
  approvers := Fin.ofNat _ (used ∩ set.approvers).card

@[simp] theorem Tally.of_empty (set : ValidatorSet) : Tally.of set ∅ = ⟨∅, false, 0, 0⟩ := by
  simp [Tally.of]

theorem card_insert_inter {used group : Finset PublicKey} {key : PublicKey} (hkey : key ∉ used) :
    (insert key used ∩ group).card =
      (used ∩ group).card + if key ∈ group then 1 else 0 := by
  split
  · rename_i h
    rw [Finset.insert_inter_of_mem h, Finset.card_insert_of_notMem]
    exact fun hmem => hkey (Finset.mem_inter.mp hmem).1
  · rename_i h
    rw [Finset.insert_inter_of_notMem h, Nat.add_zero]

theorem ofNat_count {used group : Finset PublicKey} {key : PublicKey} (hkey : key ∉ used) :
    (Fin.ofNat _ (insert key used ∩ group).card : U16) =
      if key ∈ group then Fin.ofNat _ (used ∩ group).card + 1
        else Fin.ofNat _ (used ∩ group).card := by
  rw [card_insert_inter hkey]
  split
  · rw [Fin.ext_iff, Fin.val_add]
    simp [Fin.ofNat]
  · rfl

/-- A further signer is counted in the groups it belongs to. -/
theorem Tally.of_insert {set : ValidatorSet} {used : Finset PublicKey} {key : PublicKey}
    (hkey : key ∉ used) :
    Tally.of set (insert key used) =
      { used := insert key (Tally.of set used).used
        processor := (Tally.of set used).processor || decide (set.processor = key)
        listeners := if key ∈ set.listeners then (Tally.of set used).listeners + 1
          else (Tally.of set used).listeners
        approvers := if key ∈ set.approvers then (Tally.of set used).approvers + 1
          else (Tally.of set used).approvers } := by
  simp only [Tally.of, ofNat_count hkey, Tally.mk.injEq, true_and, and_true]
  simp [Bool.or_comm]

/-- The loop over the approvals accepts exactly signatures of distinct signers, none of which has
been seen before, and counts them. -/
theorem tallyApprovals_eq_ok {set : ValidatorSet} {text : String} {used : Finset PublicKey}
    {approvals : List SignatureWithRecovery} {tally : Tally} :
    tallyApprovals api set (api.sha256 text) (Tally.of set used) approvals = .ok tally ↔
      ∃ keys, List.Forall₂ (fun sig key => recover api text sig = some key) approvals keys ∧
        keys.Nodup ∧ (∀ key ∈ keys, key ∉ used) ∧
        tally = Tally.of set (used ∪ keys.toFinset) := by
  induction approvals generalizing used with
  | nil => simp [tallyApprovals, eq_comm]
  | cons sig approvals ih =>
    simp only [tallyApprovals, bind_eq_ok, ensure_eq_ok, exists_unit, List.forall₂_cons_left_iff]
    constructor
    · rintro ⟨key, hkey, hnew, -, htally⟩
      have hnew' : key ∉ used := hnew
      rw [← Tally.of_insert hnew', ih] at htally
      obtain ⟨keys, hkeys, hnodup, hfresh, rfl⟩ := htally
      refine ⟨key :: keys, ⟨key, keys, recover_eq_some.mpr hkey, hkeys, rfl⟩, ?_, ?_, ?_⟩
      · refine List.nodup_cons.mpr ⟨fun hmem => ?_, hnodup⟩
        exact hfresh key hmem (Finset.mem_insert_self _ _)
      · rintro k hk
        rcases List.mem_cons.mp hk with rfl | hk
        · exact hnew'
        · exact fun hmem => hfresh k hk (Finset.mem_insert_of_mem hmem)
      · simp [Finset.insert_union, Finset.union_insert]
    · rintro ⟨_, ⟨key, keys, hkey, hkeys, rfl⟩, hnodup, hfresh, rfl⟩
      obtain ⟨hnotMem, hnodup⟩ := List.nodup_cons.mp hnodup
      have hnew : key ∉ used := hfresh key (List.mem_cons_self ..)
      refine ⟨key, recover_eq_some.mp hkey, hnew, ?_, ?_⟩
      · rintro ⟨rfl, hprocessor⟩
        exact hnew (of_decide_eq_true hprocessor)
      · rw [← Tally.of_insert hnew, ih]
        refine ⟨keys, hkeys, hnodup, fun k hk hmem => ?_, ?_⟩
        · rcases Finset.mem_insert.mp hmem with rfl | hmem
          · exact hnotMem hk
          · exact hfresh k (List.mem_cons_of_mem _ hk) hmem
        · simp [Finset.insert_union, Finset.union_insert]

/-- A counter that has wrapped around only counts less. -/
theorem Tally.filledBy_of_count {set : ValidatorSet} {used : Finset PublicKey}
    (h : 2 ≤ (Tally.of set used).count set) : set.FilledBy used := by
  have wrapped : ∀ {needed : U16} {n : Nat}, needed ≤ Fin.ofNat _ n → needed.val ≤ n := by
    intro needed n hle
    exact (Fin.le_def.mp hle).trans (Nat.mod_le _ _)
  refine TwoOfThree.mono ?_ ?_ ?_ ((TwoOfThree.iff_two_le _ _ _).mpr h)
  · exact of_decide_eq_true
  · exact fun hl => wrapped (of_decide_eq_true hl)
  · exact fun ha => wrapped (of_decide_eq_true ha)

theorem toFinset_of_forall₂ {text : String} {approvals : List SignatureWithRecovery}
    {keys : List PublicKey}
    (h : List.Forall₂ (fun sig key => recover api text sig = some key) approvals keys) :
    keys.toFinset = signersOf (recover api) text approvals := by
  have hmap : approvals.filterMap (recover api text) = keys := by
    induction h with
    | nil => rfl
    | cons hkey _ ih => rw [List.filterMap_cons_some hkey, ih]
  rw [signersOf, hmap]

/-- A rotation is accepted only if its approvals fill two groups of the stored set. -/
theorem expect_newSet {set : ValidatorSet} {rendered : String}
    {approvals : List SignatureWithRecovery} {expected : Expected}
    (h : expect api set (.newSet rendered approvals) = .ok expected) :
    set.FilledBy (signersOf (recover api) rendered approvals) := by
  simp only [expect, bind_eq_ok, ensure_eq_ok, exists_unit] at h
  obtain ⟨newSet, -, tally, htally, hcount, -⟩ := h
  rw [← Tally.of_empty set, tallyApprovals_eq_ok] at htally
  obtain ⟨keys, hkeys, -, -, rfl⟩ := htally
  rw [Finset.empty_union, toFinset_of_forall₂ hkeys] at hcount
  exact Tally.filledBy_of_count hcount

end Kolme.Cosmos
