import Kolme.Contracts.Ethereum.Execution

/-!
# Key rotation on the Ethereum bridge

What a successful signed call can do to the stored validator set, who must have signed it, and
what follows for runs of calls.

## Main results

* `selfReplace_authority`: when the holder of the overwritten key has signed, and that too small a
  coalition changes nothing as long as the holders sign.
* `newSet_binding`: the stored set is the approved one exactly when the fields and the text agree.
-/

namespace Kolme.Ethereum

open Except

section

variable {crypto : Crypto}

/-! ## Who holds and uses the keys -/

/-- Which holders, known by the addresses of their keys, have signed which hashes. -/
abbrev Ledger := Address → Word → Prop

/-- The signatures a call carries, each with the hash it is checked against: those of the payload,
and those of the text of a new set. -/
def Call.signatures (crypto : Crypto) : Call → List (Word × Bytes)
  | .regular .. => []
  | .executeSigned _ payload processor approvers =>
    (processor :: approvers).map (crypto.sha256 payload, ·) ++
      match actionOf payload with
      | .ok (.newSet action) => action.approvals.map (crypto.sha256 action.rendered, ·)
      | _ => []

/-- Signatures cannot be forged: what a call's signature recovers to has been signed. -/
def Call.Authentic (crypto : Crypto) (signed : Ledger) (call : Call) : Prop :=
  ∀ p ∈ call.signatures crypto, ∀ a, recoverSigner crypto p.1 p.2 = .ok a → signed a p.1

/-- The signers a call shows to the contract. -/
def Call.shown (crypto : Crypto) (call : Call) : Ledger :=
  fun a hash => ∃ sig, (hash, sig) ∈ call.signatures crypto ∧ recoverSigner crypto hash sig = .ok a

/-- The stored key that a self-replacement overwrites. -/
def overwrittenKey (crypto : Crypto) (set : ValidatorSet) (action : SelfReplace) : Option Bytes :=
  if action.validatorType = validatorProcessor then some set.processor
  else if action.validatorType = validatorListener then
    (findValidatorIndex crypto set.listeners action.current).bind (set.listeners[·]?)
  else if action.validatorType = validatorApprover then
    (findValidatorIndex crypto set.approvers action.current).bind (set.approvers[·]?)
  else none

/-- The holder of the key that a self-replacement overwrites has signed the payload. -/
def HolderSigned (crypto : Crypto) (signed : Ledger) (set : ValidatorSet) (action : SelfReplace)
    (payload : Bytes) : Prop :=
  ∃ key a, overwrittenKey crypto set action = some key ∧ validatorAddress crypto key = .ok a ∧
    signed a (crypto.sha256 payload)

/-- If the call is a self-replacement, one of its own signatures is that of the holder. -/
def ReplacementShown (crypto : Crypto) (s : State) : Call → Prop
  | .regular .. => True
  | .executeSigned env payload processor approvers =>
    ∀ action, actionOf payload = .ok (.selfReplace action) →
      HolderSigned crypto (Call.shown crypto (.executeSigned env payload processor approvers))
        s.validatorSet action payload

/-- The pairs of a hash and a signer that a call shows. -/
def Call.shownList (crypto : Crypto) (call : Call) : List (Word × Address) :=
  (call.signatures crypto).filterMap fun p =>
    (recoverSigner crypto p.1 p.2).toOption.map (p.1, ·)

theorem toOption_eq_some {x : Except Error Address} {a : Address} :
    x.toOption = some a ↔ x = .ok a := by
  cases x <;> simp [Except.toOption]

theorem Call.shown_iff {call : Call} {a : Address} {hash : Word} :
    call.shown crypto a hash ↔ (hash, a) ∈ call.shownList crypto := by
  simp only [shown, shownList, List.mem_filterMap, Option.map_eq_some_iff, toOption_eq_some,
    Prod.mk.injEq, Prod.exists]
  constructor
  · rintro ⟨sig, hmem, hrec⟩
    exact ⟨hash, sig, hmem, a, hrec, rfl, rfl⟩
  · rintro ⟨_, sig, hmem, _, hrec, rfl, rfl⟩
    exact ⟨sig, hmem, hrec⟩

theorem Call.Authentic.of_shown {signed : Ledger} {call : Call} (h : call.Authentic crypto signed)
    {a : Address} {hash : Word} (shown : call.shown crypto a hash) : signed a hash := by
  obtain ⟨sig, hmem, hrec⟩ := shown
  exact h (hash, sig) hmem a hrec

theorem Call.authentic_shown (call : Call) : call.Authentic crypto (call.shown crypto) :=
  fun p hp _ ha => ⟨p.2, hp, ha⟩

theorem shown_of_outer {env : Env} {payload processor sig : Bytes} {approvers : List Bytes}
    {a : Address} (hsig : sig ∈ processor :: approvers)
    (hrec : recoverSigner crypto (crypto.sha256 payload) sig = .ok a) :
    Call.shown crypto (.executeSigned env payload processor approvers) a (crypto.sha256 payload) :=
  ⟨sig, List.mem_append_left _ (List.mem_map_of_mem hsig), hrec⟩

theorem shown_of_inner {env : Env} {payload processor sig : Bytes} {approvers : List Bytes}
    {a : Address} {action : NewSet} (haction : actionOf payload = .ok (.newSet action))
    (hsig : sig ∈ action.approvals)
    (hrec : recoverSigner crypto (crypto.sha256 action.rendered) sig = .ok a) :
    Call.shown crypto (.executeSigned env payload processor approvers) a
      (crypto.sha256 action.rendered) := by
  refine ⟨sig, List.mem_append_right _ ?_, hrec⟩
  rw [haction]
  exact List.mem_map_of_mem hsig

/-! ## Coalitions -/

def ValidatorSet.keys (set : ValidatorSet) : List Bytes :=
  set.processor :: set.listeners ++ set.approvers

/-- A coalition of holders that is not meant to change any key: no listener is in it, and either
fewer approvers than the quorum or not the processor. -/
structure Coalition (crypto : Crypto) (set : ValidatorSet) (members : Finset Address) : Prop where
  noListener : Disjoint members (addressesOf crypto set.listeners)
  weak : (members ∩ addressesOf crypto set.approvers).card < set.neededApprovers.val ∨
    ∀ a, validatorAddress crypto set.processor = .ok a → a ∉ members

/-- What a coalition faces: distinct approvers have distinct addresses, and every signature under
a stored key is made by a member. -/
structure Confined (crypto : Crypto) (set : ValidatorSet) (signed : Ledger)
    (members : Finset Address) : Prop where
  distinct : (set.approvers.map (validatorAddress crypto)).Nodup
  neededListeners_pos : 0 < set.neededListeners.val
  coalition : Coalition crypto set members
  signers : ∀ a hash, a ∈ addressesOf crypto set.keys → signed a hash → a ∈ members

theorem addressesOf_mono {keys keys' : List Bytes} (h : keys ⊆ keys') :
    addressesOf crypto keys ⊆ addressesOf crypto keys' := by
  intro a ha
  obtain ⟨key, hkey, haddr⟩ := mem_addressesOf.mp ha
  exact mem_addressesOf.mpr ⟨key, h hkey, haddr⟩

namespace Confined

variable {set : ValidatorSet} {signed : Ledger} {members : Finset Address}

theorem mem_of_processor (h : Confined crypto set signed members) {a : Address} {hash : Word}
    (ha : validatorAddress crypto set.processor = .ok a) (hsigned : signed a hash) : a ∈ members :=
  h.signers a hash (mem_addressesOf.mpr ⟨_, List.mem_cons_self, ha⟩) hsigned

theorem mem_of_listener (h : Confined crypto set signed members) {a : Address} {hash : Word}
    (ha : a ∈ addressesOf crypto set.listeners) (hsigned : signed a hash) : a ∈ members :=
  h.signers a hash (addressesOf_mono (by simp [ValidatorSet.keys]) ha) hsigned

theorem mem_of_approver (h : Confined crypto set signed members) {a : Address} {hash : Word}
    (ha : a ∈ addressesOf crypto set.approvers) (hsigned : signed a hash) : a ∈ members :=
  h.signers a hash (addressesOf_mono (by simp [ValidatorSet.keys]) ha) hsigned

/-- The processor and a quorum of the approvers are never both in the coalition. -/
theorem not_quorum (h : Confined crypto set signed members) {a : Address}
    (ha : validatorAddress crypto set.processor = .ok a) (hmem : a ∈ members) :
    (members ∩ addressesOf crypto set.approvers).card < set.neededApprovers.val :=
  h.coalition.weak.resolve_right fun hno => hno a ha hmem

/-- Approvers that signed and are a quorum are a quorum of members. -/
theorem card_of_signed (h : Confined crypto set signed members) {signers : Finset Address}
    {hash : Word} (hsub : signers ⊆ addressesOf crypto set.approvers)
    (hsigned : ∀ a ∈ signers, signed a hash) :
    signers.card ≤ (members ∩ addressesOf crypto set.approvers).card := by
  refine Finset.card_le_card fun a ha => ?_
  exact Finset.mem_inter.mpr ⟨h.mem_of_approver (hsub ha) (hsigned a ha), hsub ha⟩

/-- The signers of the outer layer that are stored approvers are fewer than the quorum. -/
theorem no_new_set (h : Confined crypto set signed members) {hash : Word}
    {signers : Finset Address} (hsigned : ∀ a ∈ signers, signed a hash) :
    ¬TwoOfThree (∃ a ∈ signers, validatorAddress crypto set.processor = .ok a)
      (GroupSigned crypto signers set.listeners set.neededListeners)
      (GroupSigned crypto signers set.approvers set.neededApprovers) := by
  intro groups
  have hno : ¬GroupSigned crypto signers set.listeners set.neededListeners := by
    have hempty : signers ∩ addressesOf crypto set.listeners = ∅ := by
      rw [Finset.eq_empty_iff_forall_notMem]
      intro a ha
      obtain ⟨hs, hl⟩ := Finset.mem_inter.mp ha
      exact Finset.disjoint_left.mp h.coalition.noListener (h.mem_of_listener hl (hsigned a hs)) hl
    have hpos := h.neededListeners_pos
    rw [GroupSigned, hempty, Finset.card_empty]
    omega
  obtain ⟨⟨p, hp, haddr⟩, hquorum⟩ := groups.of_not_snd hno
  have hfew := h.not_quorum haddr (h.mem_of_processor haddr (hsigned p hp))
  have hcard := h.card_of_signed Finset.inter_subset_right fun a ha =>
    hsigned a (Finset.mem_inter.mp ha).1
  exact absurd (hquorum.trans hcard) (by omega)

/-- After the replacement of a member's approver key, the members still cannot show a quorum: the
new key takes the place of an old one. -/
theorem card_replaced (h : Confined crypto set signed members) {i : Nat} {key replacement : Bytes}
    {a : Address} {hash : Word} {signers : Finset Address} (hkey : set.approvers[i]? = some key)
    (haddr : validatorAddress crypto key = .ok a) (hmem : a ∈ members)
    (hsub : signers ⊆ addressesOf crypto (set.approvers.set i replacement))
    (hsigned : ∀ b ∈ signers, signed b hash)
    (hvalid : ∃ b, validatorAddress crypto replacement = .ok b) :
    signers.card ≤ (members ∩ addressesOf crypto set.approvers).card := by
  obtain ⟨b, hb⟩ := hvalid
  have happrover : a ∈ addressesOf crypto set.approvers :=
    mem_addressesOf.mpr ⟨key, List.mem_of_getElem? hkey, haddr⟩
  have hsubset : signers ⊆ insert b ((members ∩ addressesOf crypto set.approvers).erase a) := by
    intro x hx
    obtain ⟨k, hk, hxk⟩ := mem_addressesOf.mp (hsub hx)
    obtain ⟨j, hj, rfl⟩ := List.mem_iff_getElem.mp hk
    by_cases hij : i = j
    · subst hij
      rw [List.getElem_set_self, hb] at hxk
      exact Finset.mem_insert.mpr (.inl (Except.ok.inj hxk).symm)
    · rw [List.getElem_set_ne hij] at hxk
      rw [List.length_set] at hj
      have hxa : x ∈ addressesOf crypto set.approvers :=
        mem_addressesOf.mpr ⟨_, List.getElem_mem hj, hxk⟩
      have hne : x ≠ a := by
        rintro rfl
        obtain ⟨hi, rfl⟩ := List.getElem?_eq_some_iff.mp hkey
        have hsame : (set.approvers.map (validatorAddress crypto)).get ⟨i, by simpa using hi⟩ =
            (set.approvers.map (validatorAddress crypto)).get ⟨j, by simpa using hj⟩ := by
          simp [haddr, hxk]
        exact hij ((List.Nodup.getElem_inj_iff h.distinct).mp hsame)
      refine Finset.mem_insert_of_mem (Finset.mem_erase.mpr ⟨hne, Finset.mem_inter.mpr ⟨?_, hxa⟩⟩)
      exact h.mem_of_approver hxa (hsigned x hx)
  have hboth : a ∈ members ∩ addressesOf crypto set.approvers :=
    Finset.mem_inter.mpr ⟨hmem, happrover⟩
  have hpos : 0 < (members ∩ addressesOf crypto set.approvers).card :=
    Finset.card_pos.mpr ⟨a, hboth⟩
  calc signers.card
      ≤ (insert b ((members ∩ addressesOf crypto set.approvers).erase a)).card :=
        Finset.card_le_card hsubset
    _ ≤ ((members ∩ addressesOf crypto set.approvers).erase a).card + 1 :=
        Finset.card_insert_le _ _
    _ = (members ∩ addressesOf crypto set.approvers).card := by
        rw [Finset.card_erase_of_mem hboth]
        omega

end Confined

/-- A call whose signatures come from a coalition, and which shows the signature of the holder of
any key it overwrites, leaves the stored set as it is. -/
theorem executes_confined {set set' : ValidatorSet} {signed : Ledger} {members : Finset Address}
    {env : Env} {payload processor : Bytes} {approvers : List Bytes} {action : Action}
    (h : Confined crypto set signed members)
    (authentic : Call.Authentic crypto signed (.executeSigned env payload processor approvers))
    (haction : actionOf payload = .ok action)
    (shown : ∀ a, action = .selfReplace a → HolderSigned crypto
      (Call.shown crypto (.executeSigned env payload processor approvers)) set a payload)
    (executes : Executes crypto set (crypto.sha256 payload) processor approvers action set') :
    set' = set := by
  have outerSigned : ∀ {sig a}, sig ∈ processor :: approvers →
      recoverSigner crypto (crypto.sha256 payload) sig = .ok a → signed a (crypto.sha256 payload) :=
    fun hsig hrec => authentic.of_shown (shown_of_outer hsig hrec)
  cases executes with
  | execute => rfl
  | replaceProcessor action isType valid outer =>
    obtain ⟨key, a, hkey, haddr, hshown⟩ := shown action rfl
    obtain rfl : set.processor = key := by simpa [overwrittenKey, isType] using hkey
    have hfew := h.not_quorum haddr (h.mem_of_processor haddr (authentic.of_shown hshown))
    obtain ⟨signers, hsub, hquorum, hrec⟩ := outer.approvers
    have hcard := h.card_of_signed hsub fun b hb => by
      obtain ⟨sig, hsig, hr⟩ := hrec b hb
      exact outerSigned (List.mem_cons_of_mem _ hsig) hr
    exact absurd (hquorum.trans hcard) (by simpa using hfew)
  | replaceListener action i isType valid found outer =>
    obtain ⟨key, a, hkey, haddr, hshown⟩ := shown action rfl
    have hget : set.listeners[i]? = some key := by
      simpa [overwrittenKey, isType, validatorListener, validatorProcessor, found] using hkey
    have hmem : a ∈ addressesOf crypto set.listeners :=
      mem_addressesOf.mpr ⟨key, List.mem_of_getElem? hget, haddr⟩
    have hmember := h.mem_of_listener hmem (authentic.of_shown hshown)
    exact absurd hmem (Finset.disjoint_left.mp h.coalition.noListener hmember)
  | replaceApprover action i isType valid found outer =>
    obtain ⟨key, a, hkey, haddr, hshown⟩ := shown action rfl
    have hget : set.approvers[i]? = some key := by
      simpa [overwrittenKey, isType, validatorListener, validatorProcessor, validatorApprover,
        found] using hkey
    have happrover : a ∈ addressesOf crypto set.approvers :=
      mem_addressesOf.mpr ⟨key, List.mem_of_getElem? hget, haddr⟩
    have hmember := h.mem_of_approver happrover (authentic.of_shown hshown)
    obtain ⟨p, hp, hprec⟩ := outer.processor
    have hfew := h.not_quorum hp (h.mem_of_processor hp (outerSigned List.mem_cons_self hprec))
    obtain ⟨signers, hsub, hquorum, hrec⟩ := outer.approvers
    have hcard := h.card_replaced hget haddr hmember hsub (fun b hb => by
      obtain ⟨sig, hsig, hr⟩ := hrec b hb
      exact outerSigned (List.mem_cons_of_mem _ hsig) hr) valid
    exact absurd (hquorum.trans hcard) (by simpa using hfew)
  | newSet action signers inner outer valid =>
    have hsigned : ∀ a ∈ signers, signed a (crypto.sha256 action.rendered) := by
      intro a ha
      obtain ⟨sig, hsig, hrec⟩ := inner.signed a ha
      exact authentic.of_shown (shown_of_inner haction hsig hrec)
    exact absurd inner.groups (h.no_new_set hsigned)

/-! ## Runs -/

/-- The quorums of a set are at least one. -/
structure PositiveQuorums (set : ValidatorSet) : Prop where
  listeners : 0 < set.neededListeners.val
  approvers : 0 < set.neededApprovers.val

theorem setValidatorSet_positive {set set' : ValidatorSet}
    (h : setValidatorSet crypto set = .ok set') : PositiveQuorums set' := by
  obtain rfl := setValidatorSet_ok h
  simp only [setValidatorSet, bind_eq_ok, ensure_eq_ok, exists_unit, not_or] at h
  obtain ⟨-, _, -, -, -, -, ⟨hl, -⟩, -, -, -, ⟨ha, -⟩, -⟩ := h
  exact ⟨Nat.pos_of_ne_zero fun h => hl (Fin.ext h), Nat.pos_of_ne_zero fun h => ha (Fin.ext h)⟩

/-- The state after deployment stores the set it was deployed with, with positive quorums. -/
theorem deploy_ok {set : ValidatorSet} {s : State} (h : deploy crypto set = .ok s) :
    s.validatorSet = set ∧ PositiveQuorums set := by
  simp only [deploy, bind_eq_ok, pure_eq_ok, ok.injEq] at h
  obtain ⟨set', hset, rfl⟩ := h
  exact ⟨setValidatorSet_ok hset, setValidatorSet_ok hset ▸ setValidatorSet_positive hset⟩

/-- The key with the given bytes. -/
def keyOf (key : Bytes) : PublicKey := Fin.ofNat _ (Bytes.ofBE key)

/-- The set of keys and quorums that a stored set stands for, as the rest of the system writes it:
the order of the keys does not matter. -/
def ValidatorSet.denote (set : ValidatorSet) : Kolme.ValidatorSet where
  processor := keyOf set.processor
  listeners := (set.listeners.map keyOf).toFinset
  neededListeners := set.neededListeners
  approvers := (set.approvers.map keyOf).toFinset
  neededApprovers := set.neededApprovers

/-- Enough distinct keys of a group have signed. -/
def GroupApproved (crypto : Crypto) (signed : Ledger) (group : List Bytes) (needed : U16)
    (hash : Word) : Prop :=
  ∃ keys : Finset Bytes, (∀ key ∈ keys, key ∈ group) ∧ 0 < needed.val ∧ needed.val ≤ keys.card ∧
    ∀ key ∈ keys, ∃ a, validatorAddress crypto key = .ok a ∧ signed a hash

/-- At least two of the three groups of a set have signed. -/
def Approved (crypto : Crypto) (signed : Ledger) (set : ValidatorSet) (hash : Word) : Prop :=
  TwoOfThree (∃ a, validatorAddress crypto set.processor = .ok a ∧ signed a hash)
    (GroupApproved crypto signed set.listeners set.neededListeners hash)
    (GroupApproved crypto signed set.approvers set.neededApprovers hash)

/-- The installed set is the one that the `rendered` text stands for, and two groups of the old set
have signed that text. -/
structure NewSetBound (crypto : Crypto) (fromJson : Bytes → Option Kolme.ValidatorSet)
    (signed : Ledger) (old installed : ValidatorSet) (rendered : Bytes) : Prop where
  approved : Approved crypto signed old (crypto.sha256 rendered)
  denoted : fromJson rendered = some installed.denote

/-- Distinct addresses of a group belong to distinct keys of it. -/
theorem groupApproved_of_signed {signed : Ledger} {signers : Finset Address} {group : List Bytes}
    {needed : U16} {hash : Word} (hsigned : ∀ a ∈ signers, signed a hash) (hpos : 0 < needed.val)
    (h : GroupSigned crypto signers group needed) :
    GroupApproved crypto signed group needed hash := by
  have hkey : ∀ a ∈ signers ∩ addressesOf crypto group,
      ∃ key ∈ group, validatorAddress crypto key = .ok a :=
    fun a ha => mem_addressesOf.mp (Finset.mem_inter.mp ha).2
  choose! key hgroup haddr using hkey
  refine ⟨(signers ∩ addressesOf crypto group).image key, ?_, hpos, ?_, ?_⟩
  · intro k hk
    obtain ⟨a, ha, rfl⟩ := Finset.mem_image.mp hk
    exact hgroup a ha
  · rw [Finset.card_image_of_injOn]
    · exact h
    · intro a ha b hb hab
      have hsame := haddr b hb
      rw [← hab, haddr a ha] at hsame
      exact Except.ok.inj hsame
  · intro k hk
    obtain ⟨a, ha, rfl⟩ := Finset.mem_image.mp hk
    exact ⟨a, haddr a ha, hsigned a (Finset.mem_inter.mp ha).1⟩

theorem Executes.positive {set set' : ValidatorSet} {payloadHash : Word} {processor : Bytes}
    {approvers : List Bytes} {action : Action}
    (h : Executes crypto set payloadHash processor approvers action set')
    (positive : PositiveQuorums set) : PositiveQuorums set' := by
  cases h with
  | execute => exact positive
  | replaceProcessor | replaceListener | replaceApprover =>
    exact ⟨positive.listeners, positive.approvers⟩
  | newSet action signers inner outer valid => exact setValidatorSet_positive valid

/-- Every set the contract ever stores has positive quorums. -/
theorem run_positive {set : ValidatorSet} {s₀ : State} (deployed : deploy crypto set = .ok s₀)
    (calls : List Call) : PositiveQuorums ((machine crypto).run s₀ calls).validatorSet := by
  have start : PositiveQuorums s₀.validatorSet := by
    obtain ⟨rfl, positive⟩ := deploy_ok deployed
    exact positive
  have preserve : (machine crypto).Preserves fun s => PositiveQuorums s.validatorSet := by
    intro s call s' hs hstep
    simp only [machine, bind_eq_ok, pure_eq_ok, ok.injEq] at hstep
    obtain ⟨⟨t, event⟩, hperform, rfl⟩ := hstep
    cases call with
    | regular =>
      rw [(regular_ok hperform).1]
      exact hs
    | executeSigned =>
      obtain ⟨action, -, executes⟩ := executeSigned_ok hperform
      exact executes.positive hs
  exact (machine crypto).run_invariant preserve start calls

/-- New-set binding. After any run, a successful call that installs a new set stores exactly the
set that the approved text stands for, with two groups of the old set behind that text, if and
only if the fields that stand next to the text in the payload are those of that set. -/
theorem newSet_binding (crypto : Crypto) (fromJson : Bytes → Option Kolme.ValidatorSet)
    (set : ValidatorSet) (s₀ : State) (deployed : deploy crypto set = .ok s₀) (calls : List Call)
    (env : Env) (payload processor : Bytes) (approvers : List Bytes) (action : NewSet) (s' : State)
    (event : Event)
    (success : executeSigned crypto env ((machine crypto).run s₀ calls) payload processor
      approvers = .ok (s', event))
    (isNewSet : actionOf payload = .ok (.newSet action)) :
    (∀ signed, Call.Authentic crypto signed (.executeSigned env payload processor approvers) →
      NewSetBound crypto fromJson signed ((machine crypto).run s₀ calls).validatorSet
        s'.validatorSet action.rendered) ↔
      fromJson action.rendered = some action.set.denote := by
  have positive := run_positive deployed calls
  obtain ⟨action', haction, executes⟩ := executeSigned_ok success
  obtain rfl := Except.ok.inj (isNewSet.symm.trans haction)
  generalize hset : s'.validatorSet = installed at executes
  cases executes with
  | newSet _ signers inner outer valid =>
    constructor
    · intro h
      exact (h _ (Call.authentic_shown _)).denoted
    · intro hdenote signed authentic
      have hsigned : ∀ a ∈ signers, signed a (crypto.sha256 action.rendered) := by
        intro a ha
        obtain ⟨sig, hsig, hrec⟩ := inner.signed a ha
        exact authentic.of_shown (shown_of_inner isNewSet hsig hrec)
      refine ⟨inner.groups.mono ?_ ?_ ?_, hdenote⟩
      · rintro ⟨a, ha, haddr⟩
        exact ⟨a, haddr, hsigned a ha⟩
      · exact groupApproved_of_signed hsigned positive.listeners
      · exact groupApproved_of_signed hsigned positive.approvers

end

/-! ### A concrete deployment

Five keys with the secret scalars 11 to 14 and 21. All signatures use the nonce one, so their `r` is
the abscissa of the generator. The hash functions and the recovery are tables of the values that
occur. -/

namespace Sample

def processorKey : Bytes :=
  Bytes.toBE 33 0x03774ae7f858a9411e5ef4246b70c65aac5649980be5c17891bbec17895da008cb

def listenerKey : Bytes :=
  Bytes.toBE 33 0x03d01115d548e7561b15c38f004d734633687cf4419620095bc5b0f47070afe85a

def approver1Key : Bytes :=
  Bytes.toBE 33 0x03f28773c2d975288bc7d1d205c3748651b075fbc6610e58cddeeddf8f19405aa8

def approver2Key : Bytes :=
  Bytes.toBE 33 0x03499fdf9e895e719cfd64e67f07d38e3226aa7b63678949e6e49b241a60e823e4

def strangerKey : Bytes :=
  Bytes.toBE 33 0x02352bbf4a4cdd12564f93fa332ce333301d9ad40271f8107181340aef25be59d5

def processorAddress : Address := 0x3da8d322cb2435da26e9c9fee670f9fb7fe74e49

def listenerAddress : Address := 0xdbc23ae43a150ff8884b02cea117b22d1c3b9796

def approver1Address : Address := 0x68e527780872cda0216ba0d8fbd58b67a5d5e351

def approver2Address : Address := 0x5a83529ff76ac5723a87008c4d9b436ad4ca7d28

def strangerAddress : Address := 0x157bfbecd023fd6384dad2bded5dad7e27bf92e4

def set : ValidatorSet where
  processor := processorKey
  listeners := [listenerKey]
  neededListeners := 1
  approvers := [approver1Key, approver2Key]
  neededApprovers := 2

def state : State where
  validatorSet := set
  nextEventId := 1
  nextActionId := 0

def env : Env where
  sender := 1
  value := 0
  call _ := true
  allowance _ := 0
  transferFrom _ _ := false

/-- The payload with id zero that replaces `current` by the stranger's key. -/
def replacePayload (validatorType : Nat) (current : Bytes) : Bytes :=
  Abi.encode [.uint 0, .bytes (Abi.encode [.uint actionSelfReplace, .bytes
    (Abi.encode [.uint validatorType, .bytes current, .bytes strangerKey])])]

def generatorX : Nat :=
  0x79be667ef9dcbbac55a06295ce870b07029bfcdb2dce28d959f2815b16f81798

def signature (v : UInt8) (s : Nat) : Bytes :=
  Bytes.toBE 32 generatorX ++ Bytes.toBE 32 s ++ [v]

/-- The set of the processor, the listener and the first approver. -/
def approvedSet : ValidatorSet where
  processor := processorKey
  listeners := [listenerKey]
  neededListeners := 1
  approvers := [approver1Key]
  neededApprovers := 1

/-- A set of the stranger alone. -/
def strangerSet : ValidatorSet where
  processor := strangerKey
  listeners := [strangerKey]
  neededListeners := 1
  approvers := [strangerKey]
  neededApprovers := 1

/-- The text of `approvedSet`. -/
def rendered : Bytes :=
  ("\x7b\"processor\":\"" ++
    "03774ae7f858a9411e5ef4246b70c65aac5649980be5c17891bbec17895da008cb" ++
    "\",\"listeners\":[\"" ++
    "03d01115d548e7561b15c38f004d734633687cf4419620095bc5b0f47070afe85a" ++
    "\"],\"needed_listeners\":1,\"approvers\":[\"" ++
    "03f28773c2d975288bc7d1d205c3748651b075fbc6610e58cddeeddf8f19405aa8" ++
    "\"],\"needed_approvers\":1\x7d").toByteArray.data.toList

/-- The approvals of the text by the processor and the listener. -/
def approvals : List Bytes :=
  [signature 28
      0x3962bea1db517437a833e5da0b6d49b3ce366ea4d09c3c76fc855261caee851d,
    signature 27
      0x405ba7dd1e8b4774ad6c7cbbc319c15334658e365d31ec625d6d2ef94c09927b]

/-- The payload with id zero that installs a set, next to the approved text. -/
def newSetPayload (new : ValidatorSet) : Bytes :=
  Abi.encode [.uint 0, .bytes (Abi.encode [.uint actionNewSet, .bytes
    (Abi.encode [.bytes new.processor, .bytesArray new.listeners, .uint new.neededListeners,
      .bytesArray new.approvers, .uint new.neededApprovers, .bytes rendered,
      .bytesArray approvals])])]

def replaceProcessorProcessor : Bytes :=
  signature 28 0x3edeecdc738b3b3cd1d6e173825d55e9344dcb9fe621f3544c1418a260038108

/-- The signatures of approver1, approver2, processor. -/
def replaceProcessorApprovers : List Bytes :=
  [signature 28
      0x0cd220d44271189f7ed9f621f695ae265e723ede9770b9301c5ea947d6eb38c4,
    signature 27
      0x6cec45aab76ba30cd6c66c73d7f15ce0a429bdfc965d6fa93d93d813400cded4,
    signature 28
      0x004eedd2362a8ff82a1abb4d93a3c435a8fb5bae43c46aa710714d7134a526b3]

def replaceApprover1Processor : Bytes :=
  signature 27 0x51159e1653ef8f3a8584b6a53075d63c4dd57c18ed916ff35fe1e17bf59cae3d

/-- The signatures of stranger, approver1. -/
def replaceApprover1Approvers : List Bytes :=
  [signature 27
      0x12859f0c168ee3f5ddc8907f41bc4488c2830c274b33e746243f164aca3e53e8,
    signature 27
      0x44926b1447a9069330c57bd0cd83ec4b985e98e899e5216a53f485a553569c2c]

def replaceApprover2Processor : Bytes :=
  signature 28 0x450ac97b9835a77a3dd7b823c218235ed11d5d4f1dceb0e101b19f0f2a038d6f

/-- The signatures of approver1, stranger. -/
def replaceApprover2Approvers : List Bytes :=
  [signature 28
      0x518dfc7da47c30219296f2f8250a0d4f8694407f717aff6a0d9efae5cc499f80,
    signature 27
      0x7c65377a2a69ad411a6c21b64f2e4aec5e3f0fa5ef1c66ad827df44c7ad4597d]

def newSetProcessor : Bytes :=
  signature 28 0x29143eeeb6e4367bc3cfd29d5addd3a7bf7453a1d46070ab7e890b2e0ffc207f

/-- The signatures of approver1. -/
def newSetApprovers : List Bytes :=
  [signature 28
      0x359771f0c32abf23188f0d71bdcfbd9874eb36d2280cbf348a766704b2423290]

def otherSetProcessor : Bytes :=
  signature 27 0x62974fef76bbb4e0a1657590a7834e94157d7b403d60e5c3d3b2d40fdf3b2280

/-- The signatures of the stranger. -/
def otherSetApprovers : List Bytes :=
  [signature 27
      0x62974fef76bbb4e0a1657590a7834e94157d7b403d60e5c3d3b2d40fdf3b2280]

def keccakTable : List (Bytes × Word) :=
  [(Bytes.toBE 64 (0x774ae7f858a9411e5ef4246b70c65aac5649980be5c17891bbec17895da008cb * 2 ^ 256 +
      0xd984a032eb6b5e190243dd56d7b7b365372db1e2dff9d6a8301d74c9c953c61b),
      0xf4590461845dae2e95d134013da8d322cb2435da26e9c9fee670f9fb7fe74e49),
    (Bytes.toBE 64 (0xd01115d548e7561b15c38f004d734633687cf4419620095bc5b0f47070afe85a * 2 ^ 256 +
      0xa9f34ffdc815e0d7a8b64537e17bd81579238c5dd9a86d526b051b13f4062327),
      0x447bc2095bfabca0f603bbd7dbc23ae43a150ff8884b02cea117b22d1c3b9796),
    (Bytes.toBE 64 (0xf28773c2d975288bc7d1d205c3748651b075fbc6610e58cddeeddf8f19405aa8 * 2 ^ 256 +
      0x0ab0902e8d880a89758212eb65cdaf473a1a06da521fa91f29b5cb52db03ed81),
      0x32748591429433625956ba5768e527780872cda0216ba0d8fbd58b67a5d5e351),
    (Bytes.toBE 64 (0x499fdf9e895e719cfd64e67f07d38e3226aa7b63678949e6e49b241a60e823e4 * 2 ^ 256 +
      0xcac2f6c4b54e855190f044e4a7b3d464464279c27a3f95bcc65f40d403a13f5b),
      0x4b5e567cc60af16fb9cfe25d5a83529ff76ac5723a87008c4d9b436ad4ca7d28),
    (Bytes.toBE 64 (0x352bbf4a4cdd12564f93fa332ce333301d9ad40271f8107181340aef25be59d5 * 2 ^ 256 +
      0x321eb4075348f534d59c18259dda3e1f4a1b3b2e71b1039c67bd3d8bcf81998c),
      0x8d749865fd53b00cca76dcab157bfbecd023fd6384dad2bded5dad7e27bf92e4),
    (processorKey, 0xcd3571ba76d6ff32cfce04a53d6a07522da1f69b2c7adf81e9dcffc5cefe624a),
    (listenerKey, 0x176cffa97ec5e519c42101a20a2fecb81e58b026b6c853e7ea84f282a2b491dd),
    (approver1Key, 0x9ca3be26e88443150e65fc7d9c50582e7e2fb5f0b6c737332241f97a678ae760),
    (approver2Key, 0x67e004914bfdf5f6786bb1413e6c2c546fa4504c6e6e48d37fe87a768d03e32c),
    (strangerKey, 0x7ff1e6823e60c6daae6e6d4e931eca2d8ffadb276b985505427e175657c86b10)]

def sha256Table : List (Bytes × Word) :=
  [(rendered, 0x8b6ed9e968327b60a9e7ddb614c53cf7752ee158533bc398a4fd560119adfee1),
    (replacePayload validatorProcessor processorKey,
      0xc482aab90d595fa0280108428c8ec2759a69f44ee013956891115af1aff75d4b),
    (replacePayload validatorApprover approver1Key,
      0x15e736a197737ed2d7a07a3550a85ce8d68bef2f6220cfc741922b520a02f0fa),
    (replacePayload validatorApprover approver2Key,
      0x7fc6cf0fab4e481e14440b6c5e1a634c7247f2ae06094f2e9fd10953ba98f68f),
    (newSetPayload approvedSet,
      0x9bbd599c8c9fb91c8e4bf0f2c554b30383f0fc5b4f778f6422f99d34d4a0637f),
    (newSetPayload strangerSet,
      0x65f8e784f7a04fbd9b3d5f46b66f66f429865e48544dce44f105e9171effbf92)]

/-- The hash, the parity and the `s` of every signature, and who made it. -/
def signatureTable : List ((Word × UInt8 × Word) × Address) :=
  [((0x8b6ed9e968327b60a9e7ddb614c53cf7752ee158533bc398a4fd560119adfee1, 28,
      0x3962bea1db517437a833e5da0b6d49b3ce366ea4d09c3c76fc855261caee851d), processorAddress),
    ((0x8b6ed9e968327b60a9e7ddb614c53cf7752ee158533bc398a4fd560119adfee1, 27,
      0x405ba7dd1e8b4774ad6c7cbbc319c15334658e365d31ec625d6d2ef94c09927b), listenerAddress),
    ((0xc482aab90d595fa0280108428c8ec2759a69f44ee013956891115af1aff75d4b, 28,
      0x3edeecdc738b3b3cd1d6e173825d55e9344dcb9fe621f3544c1418a260038108), strangerAddress),
    ((0xc482aab90d595fa0280108428c8ec2759a69f44ee013956891115af1aff75d4b, 28,
      0x0cd220d44271189f7ed9f621f695ae265e723ede9770b9301c5ea947d6eb38c4), approver1Address),
    ((0xc482aab90d595fa0280108428c8ec2759a69f44ee013956891115af1aff75d4b, 27,
      0x6cec45aab76ba30cd6c66c73d7f15ce0a429bdfc965d6fa93d93d813400cded4), approver2Address),
    ((0xc482aab90d595fa0280108428c8ec2759a69f44ee013956891115af1aff75d4b, 28,
      0x004eedd2362a8ff82a1abb4d93a3c435a8fb5bae43c46aa710714d7134a526b3), processorAddress),
    ((0x15e736a197737ed2d7a07a3550a85ce8d68bef2f6220cfc741922b520a02f0fa, 27,
      0x51159e1653ef8f3a8584b6a53075d63c4dd57c18ed916ff35fe1e17bf59cae3d), processorAddress),
    ((0x15e736a197737ed2d7a07a3550a85ce8d68bef2f6220cfc741922b520a02f0fa, 27,
      0x12859f0c168ee3f5ddc8907f41bc4488c2830c274b33e746243f164aca3e53e8), strangerAddress),
    ((0x15e736a197737ed2d7a07a3550a85ce8d68bef2f6220cfc741922b520a02f0fa, 27,
      0x44926b1447a9069330c57bd0cd83ec4b985e98e899e5216a53f485a553569c2c), approver1Address),
    ((0x7fc6cf0fab4e481e14440b6c5e1a634c7247f2ae06094f2e9fd10953ba98f68f, 28,
      0x450ac97b9835a77a3dd7b823c218235ed11d5d4f1dceb0e101b19f0f2a038d6f), processorAddress),
    ((0x7fc6cf0fab4e481e14440b6c5e1a634c7247f2ae06094f2e9fd10953ba98f68f, 28,
      0x518dfc7da47c30219296f2f8250a0d4f8694407f717aff6a0d9efae5cc499f80), approver1Address),
    ((0x7fc6cf0fab4e481e14440b6c5e1a634c7247f2ae06094f2e9fd10953ba98f68f, 27,
      0x7c65377a2a69ad411a6c21b64f2e4aec5e3f0fa5ef1c66ad827df44c7ad4597d), strangerAddress),
    ((0x9bbd599c8c9fb91c8e4bf0f2c554b30383f0fc5b4f778f6422f99d34d4a0637f, 28,
      0x29143eeeb6e4367bc3cfd29d5addd3a7bf7453a1d46070ab7e890b2e0ffc207f), processorAddress),
    ((0x9bbd599c8c9fb91c8e4bf0f2c554b30383f0fc5b4f778f6422f99d34d4a0637f, 28,
      0x359771f0c32abf23188f0d71bdcfbd9874eb36d2280cbf348a766704b2423290), approver1Address),
    ((0x65f8e784f7a04fbd9b3d5f46b66f66f429865e48544dce44f105e9171effbf92, 27,
      0x62974fef76bbb4e0a1657590a7834e94157d7b403d60e5c3d3b2d40fdf3b2280), strangerAddress)]

def crypto : Crypto where
  keccak256 bs := (keccakTable.lookup bs).getD 0
  sha256 bs := (sha256Table.lookup bs).getD 0
  ecrecover hash v r s :=
    if r = Fin.ofNat _ generatorX then (signatureTable.lookup (hash, v, s)).getD 0 else 0

/-- The processor and the first approver, one approver short of the quorum. -/
def members : Finset Address := {processorAddress, approver1Address}

/-- The coalition replaces the key of one of its members, who signs; the call fails, because the
signatures it carries are then one short. -/
def ownReplacement : Call :=
  .executeSigned env (replacePayload validatorApprover approver1Key) replaceApprover1Processor
    replaceApprover1Approvers

/-- The coalition replaces the key of the other approver, who does not sign. -/
def foreignReplacement : Call :=
  .executeSigned env (replacePayload validatorApprover approver2Key) replaceApprover2Processor
    replaceApprover2Approvers

/-- The parser of the one text that occurs. -/
def fromJson (text : Bytes) : Option Kolme.ValidatorSet :=
  if text = rendered then some approvedSet.denote else none

def newSet (new : ValidatorSet) : NewSet := ⟨new, rendered, approvals⟩

/-- The call that installs the approved set. -/
def approvedCall : Call :=
  .executeSigned env (newSetPayload approvedSet) newSetProcessor newSetApprovers

/-- The signers that a call shows are members or strangers. -/
def ShowsMembers (call : Call) : Prop :=
  ((call.shownList crypto).all fun p => p.2 ∉ addressesOf crypto set.keys || p.2 ∈ members) = true

/-- What the samples evaluate to. -/
structure Evaluated : Prop where
  deployed : deploy crypto set = .ok state
  coalition : Coalition crypto set members
  distinct : (set.approvers.map (validatorAddress crypto)).Nodup
  approver1 : validatorAddress crypto approver1Key = .ok approver1Address
  approver2 : validatorAddress crypto approver2Key = .ok approver2Address
  ownAction : actionOf (replacePayload validatorApprover approver1Key) =
    .ok (.selfReplace ⟨validatorApprover, approver1Key, strangerKey⟩)
  ownSigned : (crypto.sha256 (replacePayload validatorApprover approver1Key), approver1Address) ∈
    ownReplacement.shownList crypto
  ownMembers : ShowsMembers ownReplacement
  foreignAction : actionOf (replacePayload validatorApprover approver2Key) =
    .ok (.selfReplace ⟨validatorApprover, approver2Key, strangerKey⟩)
  foreignUnsigned : (crypto.sha256 (replacePayload validatorApprover approver2Key),
    approver2Address) ∉ foreignReplacement.shownList crypto
  foreignMembers : ShowsMembers foreignReplacement
  foreignPerforms : foreignReplacement.perform crypto state =
    .ok (⟨{ set with approvers := [approver1Key, strangerKey] }, 2, 1⟩, .signed 1 1 0)
  approvedText : fromJson rendered = some approvedSet.denote
  strangerText : fromJson rendered ≠ some strangerSet.denote

theorem evaluated : Evaluated where
  deployed := by decide +kernel
  coalition := ⟨by decide +kernel, .inl (by decide +kernel)⟩
  distinct := by decide +kernel
  approver1 := by decide +kernel
  approver2 := by decide +kernel
  ownAction := by decide +kernel
  ownSigned := by decide +kernel
  ownMembers := by
    unfold ShowsMembers
    decide +kernel
  foreignAction := by decide +kernel
  foreignUnsigned := by decide +kernel
  foreignMembers := by
    unfold ShowsMembers
    decide +kernel
  foreignPerforms := by decide +kernel
  approvedText := by rw [fromJson, if_pos rfl]
  strangerText := by
    rw [fromJson, if_pos rfl]
    decide +kernel

theorem replacement_shown : ReplacementShown crypto state ownReplacement := by
  intro action haction
  obtain rfl := Action.selfReplace.inj (Except.ok.inj (evaluated.ownAction.symm.trans haction))
  refine ⟨approver1Key, approver1Address, by decide, evaluated.approver1, ?_⟩
  rw [Call.shown_iff]
  exact evaluated.ownSigned

theorem confined_of_shown {call : Call} (h : ShowsMembers call) :
    ∀ a hash, a ∈ addressesOf crypto set.keys → call.shown crypto a hash → a ∈ members := by
  intro a hash ha hshown
  have hp := List.all_eq_true.mp h (hash, a) (Call.shown_iff.mp hshown)
  simpa [ha] using hp

theorem ne_of_drop {a b : Bytes} (n : ℕ) (h : (a.drop n).headD 0 ≠ (b.drop n).headD 0) : a ≠ b :=
  fun heq => h (by rw [heq])

/-- The payloads differ from others in the byte of the action, and from each other in the first byte
of the processor's key. -/
theorem payloads_distinct (new : ValidatorSet) (hnew : new = approvedSet ∨ new = strangerSet) :
    newSetPayload new ≠ rendered ∧
    newSetPayload new ≠ replacePayload validatorProcessor processorKey ∧
    newSetPayload new ≠ replacePayload validatorApprover approver1Key ∧
    newSetPayload new ≠ replacePayload validatorApprover approver2Key ∧
    newSetPayload strangerSet ≠ newSetPayload approvedSet := by
  rcases hnew with rfl | rfl <;>
    exact ⟨ne_of_drop 0 (by decide +kernel), ne_of_drop 127 (by decide +kernel),
      ne_of_drop 127 (by decide +kernel), ne_of_drop 127 (by decide +kernel),
      ne_of_drop 448 (by decide +kernel)⟩

theorem lookup_of_ne {a b : Bytes} {word : Word} {table : List (Bytes × Word)} (h : a ≠ b) :
    List.lookup a ((b, word) :: table) = List.lookup a table := by
  rw [List.lookup_cons, beq_false_of_ne h]

theorem lookup_self {a : Bytes} {word : Word} {table : List (Bytes × Word)} :
    List.lookup a ((a, word) :: table) = some word := by
  rw [List.lookup_cons, beq_self_eq_true]

theorem sha256_of_lookup {payload : Bytes} {word : Word}
    (h : sha256Table.lookup payload = some word) : crypto.sha256 payload = word := by
  change (sha256Table.lookup payload).getD 0 = word
  rw [h, Option.getD_some]

theorem sha256_approvedSet : crypto.sha256 (newSetPayload approvedSet) =
    0x9bbd599c8c9fb91c8e4bf0f2c554b30383f0fc5b4f778f6422f99d34d4a0637f := by
  obtain ⟨h₁, h₂, h₃, h₄, -⟩ := payloads_distinct approvedSet (.inl rfl)
  refine sha256_of_lookup ?_
  rw [sha256Table, lookup_of_ne h₁, lookup_of_ne h₂, lookup_of_ne h₃, lookup_of_ne h₄, lookup_self]

theorem sha256_strangerSet : crypto.sha256 (newSetPayload strangerSet) =
    0x65f8e784f7a04fbd9b3d5f46b66f66f429865e48544dce44f105e9171effbf92 := by
  obtain ⟨h₁, h₂, h₃, h₄, h₅⟩ := payloads_distinct strangerSet (.inr rfl)
  refine sha256_of_lookup ?_
  rw [sha256Table, lookup_of_ne h₁, lookup_of_ne h₂, lookup_of_ne h₃, lookup_of_ne h₄,
    lookup_of_ne h₅, lookup_self]

/-- Both sets are installed. -/
theorem newSets_installed :
    (approvedCall.perform crypto state = .ok (⟨approvedSet, 2, 1⟩, .signed 1 1 0) ∧
      actionOf (newSetPayload approvedSet) = .ok (.newSet (newSet approvedSet))) ∧
    (executeSigned crypto env state (newSetPayload strangerSet) otherSetProcessor
        otherSetApprovers = .ok (⟨strangerSet, 2, 1⟩, .signed 1 1 0) ∧
      actionOf (newSetPayload strangerSet) = .ok (.newSet (newSet strangerSet))) := by
  rw [approvedCall, Call.perform, executeSigned, executeSigned]
  simp only [sha256_approvedSet, sha256_strangerSet]
  exact ⟨by decide +kernel, by decide +kernel⟩

end Sample

theorem newSet_binding_example :
    NewSetBound Sample.crypto Sample.fromJson (Sample.approvedCall.shown Sample.crypto) Sample.set
      Sample.approvedSet Sample.rendered :=
  (newSet_binding Sample.crypto Sample.fromJson Sample.set Sample.state Sample.evaluated.deployed []
    Sample.env (Sample.newSetPayload Sample.approvedSet) Sample.newSetProcessor
    Sample.newSetApprovers (Sample.newSet Sample.approvedSet) ⟨Sample.approvedSet, 2, 1⟩
    (.signed 1 1 0) Sample.newSets_installed.1.1 Sample.newSets_installed.1.2).mpr
      Sample.evaluated.approvedText _
    (Call.authentic_shown Sample.approvedCall)

/-- A stranger who controls no key of the old set shows the approvals of one set and installs
another one, a set of the stranger alone. -/
theorem newSet_binding_counterexample :
    deploy Sample.crypto Sample.set = .ok Sample.state ∧
    actionOf (Sample.newSetPayload Sample.strangerSet) =
      .ok (.newSet (Sample.newSet Sample.strangerSet)) ∧
    executeSigned Sample.crypto Sample.env Sample.state (Sample.newSetPayload Sample.strangerSet)
      Sample.otherSetProcessor Sample.otherSetApprovers =
        .ok (⟨Sample.strangerSet, 2, 1⟩, .signed 1 1 0) ∧
    (∀ signed, ¬NewSetBound Sample.crypto Sample.fromJson signed Sample.set Sample.strangerSet
      Sample.rendered) := by
  refine ⟨Sample.evaluated.deployed, Sample.newSets_installed.2.2, Sample.newSets_installed.2.1, ?_⟩
  rintro signed ⟨-, hdenoted⟩
  exact Sample.evaluated.strangerText hdenoted

end Kolme.Ethereum
