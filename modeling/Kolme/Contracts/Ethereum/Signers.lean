import Kolme.Lib.Quorum
import Kolme.Contracts.Ethereum.Bridge

/-!
# Who signed a successful call

One specification for each check of signatures: what its success says about the distinct signers
that were recovered, in terms of the addresses of the keys they are compared with.
-/

namespace Kolme.Ethereum

open Except

variable {crypto : Crypto}

/-! ## Addresses of keys -/

/-- The addresses of the keys that are points of the curve. -/
def addressesOf (crypto : Crypto) (keys : List Bytes) : Finset Address :=
  (keys.filterMap fun key => (validatorAddress crypto key).toOption).toFinset

theorem mem_addressesOf {keys : List Bytes} {a : Address} :
    a ∈ addressesOf crypto keys ↔ ∃ key ∈ keys, validatorAddress crypto key = .ok a := by
  have htoOption : ∀ x : Except Error Address, x.toOption = some a ↔ x = .ok a := by
    rintro (e | b) <;> simp [Except.toOption]
  simp [addressesOf, htoOption]

@[simp] theorem addressesOf_nil : addressesOf crypto [] = ∅ := rfl

theorem containsSigner_ok {signer : Address} {keys : List Bytes} {b : Bool}
    (h : containsSigner crypto signer keys = .ok b) :
    b = true ↔ signer ∈ addressesOf crypto keys := by
  rw [mem_addressesOf]
  induction keys with
  | nil =>
    obtain rfl : false = b := by simpa [containsSigner] using h
    simp
  | cons key keys ih =>
    simp only [containsSigner, bind_eq_ok] at h
    obtain ⟨a, ha, h⟩ := h
    split at h
    · rename_i heq
      obtain rfl : true = b := by simpa using h
      simp [ha, heq]
    · rename_i hne
      rw [ih h]
      simp [ha, hne]

theorem validatorAddresses_ok {keys : List Bytes} {addrs : List Address}
    (h : validatorAddresses crypto keys = .ok addrs) :
    List.Forall₂ (fun key a => validatorAddress crypto key = .ok a) keys addrs := by
  unfold validatorAddresses at h
  induction keys generalizing addrs with
  | nil =>
    obtain rfl : [] = addrs := by simpa using h
    exact .nil
  | cons key keys ih =>
    simp only [List.mapM_cons, bind_eq_ok, pure_eq_ok, ok.injEq] at h
    obtain ⟨a, ha, rest, hrest, rfl⟩ := h
    exact .cons ha (ih hrest)

theorem mem_validatorAddresses {keys : List Bytes} {addrs : List Address} {a : Address}
    (h : validatorAddresses crypto keys = .ok addrs) :
    a ∈ addrs ↔ a ∈ addressesOf crypto keys := by
  rw [mem_addressesOf]
  have hall := validatorAddresses_ok h
  clear h
  induction hall with
  | nil => simp
  | cons ha _ ih => simp [ih, ha, eq_comm]

/-! ## The outer layer -/

/-- The approvers that were counted are distinct, configured, and each signed. -/
theorem collectApprovers_ok {payloadHash : Word} {configured : List Address} {needed : U16}
    {seen seen' : List Address} {signatures : List Bytes}
    (h : collectApprovers crypto payloadHash configured needed seen signatures = .ok seen')
    (nodup : seen.Nodup) :
    seen'.Nodup ∧ ∀ a ∈ seen', a ∈ seen ∨
      (a ∈ configured ∧ ∃ sig ∈ signatures, recoverSigner crypto payloadHash sig = .ok a) := by
  induction signatures generalizing seen with
  | nil =>
    obtain rfl : seen = seen' := by simpa [collectApprovers] using h
    exact ⟨nodup, fun a ha => .inl ha⟩
  | cons sig sigs ih =>
    simp only [collectApprovers, bind_eq_ok, ensure_eq_ok, exists_unit] at h
    obtain ⟨signer, hrec, hconf, hnew, h⟩ := h
    have nodup' : (seen ++ [signer]).Nodup := by
      simpa [List.nodup_append, nodup] using fun a ha => ne_of_mem_of_not_mem ha hnew
    have hfirst : ∀ a ∈ seen ++ [signer], a ∈ seen ∨ (a ∈ configured ∧
        ∃ s ∈ sig :: sigs, recoverSigner crypto payloadHash s = .ok a) := by
      intro a ha
      rcases List.mem_append.mp ha with ha | ha
      · exact .inl ha
      · obtain rfl := List.mem_singleton.mp ha
        exact .inr ⟨hconf, sig, List.mem_cons_self, hrec⟩
    split at h
    · obtain rfl : seen ++ [signer] = seen' := by simpa using h
      exact ⟨nodup', hfirst⟩
    · obtain ⟨hnodup, hmem⟩ := ih h nodup'
      refine ⟨hnodup, fun a ha => ?_⟩
      rcases hmem a ha with ha | ⟨hc, s, hs, hr⟩
      · exact hfirst a ha
      · exact .inr ⟨hc, s, List.mem_cons_of_mem _ hs, hr⟩

/-- What the outer layer establishes: the expected processor signed, and so did a quorum of the
expected approvers. -/
structure OuterSigners (crypto : Crypto) (payloadHash : Word) (expected : ExpectedSigners)
    (processor : Bytes) (approvers : List Bytes) : Prop where
  processor : ∃ a, validatorAddress crypto expected.processor = .ok a ∧
    recoverSigner crypto payloadHash processor = .ok a
  approvers : ∃ signers : Finset Address, signers ⊆ addressesOf crypto expected.approvers ∧
    expected.neededApprovers.val ≤ signers.card ∧
    ∀ a ∈ signers, ∃ sig ∈ approvers, recoverSigner crypto payloadHash sig = .ok a

theorem verifySignatures_ok {payloadHash : Word} {processor : Bytes} {approvers : List Bytes}
    {expected : ExpectedSigners} {u : Unit}
    (h : verifySignatures crypto payloadHash processor approvers expected = .ok u) :
    OuterSigners crypto payloadHash expected processor approvers := by
  simp only [verifySignatures, verifyApproverSignatures, bind_eq_ok, ensure_eq_ok,
    exists_unit] at h
  obtain ⟨a, ha, r, hr, rfl, addrs, haddrs, seen, hseen, hquorum⟩ := h
  obtain ⟨nodup, hmem⟩ := collectApprovers_ok hseen List.nodup_nil
  refine ⟨⟨r, ha, hr⟩, seen.toFinset, ?_, ?_, ?_⟩
  · intro a ha
    rcases hmem a (List.mem_toFinset.mp ha) with hnil | ⟨hc, -⟩
    · cases hnil
    · exact (mem_validatorAddresses haddrs).mp hc
  · rwa [List.toFinset_card_of_nodup nodup]
  · intro a ha
    rcases hmem a (List.mem_toFinset.mp ha) with hnil | ⟨-, hs⟩
    · cases hnil
    · exact hs

/-! ## The inner layer -/

/-- What the loop over the approvals keeps: the signers are distinct, and the counters count those
of each group. -/
structure Approvals.Counts (crypto : Crypto) (set : ValidatorSet) (processorSigner : Address)
    (found : Approvals) : Prop where
  nodup : found.seen.Nodup
  processor : found.hasProcessor = true → processorSigner ∈ found.seen
  listeners : found.listeners =
    (found.seen.filter (· ∈ addressesOf crypto set.listeners)).length
  approvers : found.approvers =
    (found.seen.filter (· ∈ addressesOf crypto set.approvers)).length

theorem collectApprovals_ok {set : ValidatorSet} {processorSigner : Address} {renderedHash : Word}
    {found found' : Approvals} {approvals : List Bytes}
    (h : collectApprovals crypto set processorSigner renderedHash found approvals = .ok found')
    (counts : found.Counts crypto set processorSigner) :
    found'.Counts crypto set processorSigner ∧ ∀ a ∈ found'.seen, a ∈ found.seen ∨
      ∃ sig ∈ approvals, recoverSigner crypto renderedHash sig = .ok a := by
  induction approvals generalizing found with
  | nil =>
    obtain rfl : found = found' := by simpa [collectApprovals] using h
    exact ⟨counts, fun a ha => .inl ha⟩
  | cons sig sigs ih =>
    simp only [collectApprovals, bind_eq_ok, ensure_eq_ok, exists_unit] at h
    obtain ⟨signer, hrec, hnew, l, hl, a, ha, -, h⟩ := h
    have hlisteners := containsSigner_ok hl
    have happrovers := containsSigner_ok ha
    obtain ⟨counts', hmem⟩ := ih h
      { nodup := by
          simpa [List.nodup_append, counts.nodup] using
            fun a ha => ne_of_mem_of_not_mem ha hnew
        processor := by
          intro hp
          rcases Bool.or_eq_true _ _ ▸ hp with hp | hp
          · exact List.mem_append_left _ (counts.processor hp)
          · simp [of_decide_eq_true hp]
        listeners := by
          rw [List.filter_append, List.length_append, ← counts.listeners]
          cases l <;> simp_all
        approvers := by
          rw [List.filter_append, List.length_append, ← counts.approvers]
          cases a <;> simp_all }
    refine ⟨counts', fun x hx => ?_⟩
    rcases hmem x hx with hx | ⟨s, hs, hr⟩
    · rcases List.mem_append.mp hx with hx | hx
      · exact .inl hx
      · obtain rfl := List.mem_singleton.mp hx
        exact .inr ⟨sig, List.mem_cons_self, hrec⟩
    · exact .inr ⟨s, List.mem_cons_of_mem _ hs, hr⟩

/-- `needed` distinct addresses of the group are among `signers`. -/
def GroupSigned (crypto : Crypto) (signers : Finset Address) (group : List Bytes) (needed : U16) :
    Prop :=
  needed.val ≤ (signers ∩ addressesOf crypto group).card

/-- What the inner layer establishes: at least two of the three groups of the stored set are among
the distinct signers of the rendered set. -/
structure InnerSigners (crypto : Crypto) (set : ValidatorSet) (renderedHash : Word)
    (approvals : List Bytes) (signers : Finset Address) : Prop where
  signed : ∀ a ∈ signers, ∃ sig ∈ approvals, recoverSigner crypto renderedHash sig = .ok a
  groups : TwoOfThree (∃ a ∈ signers, validatorAddress crypto set.processor = .ok a)
    (GroupSigned crypto signers set.listeners set.neededListeners)
    (GroupSigned crypto signers set.approvers set.neededApprovers)

theorem verifyNewSetApprovals_ok {set : ValidatorSet} {rendered : Bytes} {approvals : List Bytes}
    {u : Unit} (h : verifyNewSetApprovals crypto set rendered approvals = .ok u) :
    ∃ signers, InnerSigners crypto set (crypto.sha256 rendered) approvals signers := by
  simp only [verifyNewSetApprovals, bind_eq_ok, ensure_eq_ok] at h
  obtain ⟨p, hp, found, hfound, hgroups⟩ := h
  obtain ⟨counts, hmem⟩ := collectApprovals_ok hfound
    ⟨List.nodup_nil, by simp, by simp, by simp⟩
  have hcard : ∀ group, (found.seen.filter (· ∈ addressesOf crypto group)).length =
      (found.seen.toFinset ∩ addressesOf crypto group).card := by
    intro group
    rw [← List.toFinset_card_of_nodup (counts.nodup.filter _)]
    congr 1
    ext a
    simp
  have hl := counts.listeners.trans (hcard set.listeners)
  have ha := counts.approvers.trans (hcard set.approvers)
  refine ⟨found.seen.toFinset, ?_, ?_⟩
  · intro a ha
    rcases hmem a (List.mem_toFinset.mp ha) with hnil | hs
    · cases hnil
    · exact hs
  · simp only [GroupSigned, ← hl, ← ha]
    refine ((TwoOfThree.iff_two_le _ _ _).mpr hgroups).mono (fun h => ?_) of_decide_eq_true
      of_decide_eq_true
    exact ⟨p, List.mem_toFinset.mpr (counts.processor h), hp⟩

end Kolme.Ethereum
