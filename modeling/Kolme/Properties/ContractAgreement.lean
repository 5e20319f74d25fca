import Kolme.Contracts.Authority
import Kolme.Contracts.Solana.Signers
import Kolme.Properties.CosmosSafety
import Kolme.Properties.RotationReplay

/-!
# The contracts follow one authority

A signed action is accepted by the Cosmos contract exactly if it is a step of the authority, and the
Solana program lets it change its set exactly then, besides what its accounts and the invoked
program have to say. So the two contracts decide alike, and end in the same set.
-/

namespace Kolme

open Authority

/-! ## The Cosmos contract -/

namespace Cosmos

open Except

variable {api : Api}

def reader (api : Api) : Reader := ⟨recover api, api.selfReplaceFromJson, api.validatorSetFromJson⟩

def CosmosAction.authority : CosmosAction → Action
  | .cosmos _ => .execute
  | .selfReplace rendered signature => .selfReplace rendered signature
  | .newSet rendered approvals => .newSet rendered approvals

def State.authority (state : State) : Authority.State :=
  ⟨state.set, state.nextEventId, state.nextActionId⟩

/-- The loop over the approvers keeps the expected ones among the signers. -/
theorem collectApprovers_eq_ok {text : String} {expected : Finset PublicKey}
    {used used' : List PublicKey} {approvers : List SignatureWithRecovery} :
    collectApprovers api (api.sha256 text) expected used approvers = .ok used' ↔
      ∃ keys, (reader api).Signed text approvers keys ∧
        (keys.filter (· ∈ expected)).Nodup ∧ (∀ key ∈ keys, key ∈ expected → key ∉ used) ∧
        used' = used ++ keys.filter (· ∈ expected) := by
  induction approvers generalizing used with
  | nil => simp [collectApprovers, Reader.signed_nil, eq_comm]
  | cons sig approvers ih =>
    simp only [collectApprovers, bind_eq_ok, Reader.signed_cons]
    constructor
    · rintro ⟨key, hkey, h⟩
      have hkey : (reader api).signer text sig = some key := recover_eq_some.mpr hkey
      split at h
      · rename_i hother
        obtain ⟨keys, hkeys, hnodup, hfresh, rfl⟩ := ih.mp h
        have hfilter : (key :: keys).filter (· ∈ expected) = keys.filter (· ∈ expected) :=
          List.filter_cons_of_neg (by simpa using hother)
        refine ⟨key :: keys, ⟨key, keys, rfl, hkey, hkeys⟩, hfilter ▸ hnodup, ?_, by rw [hfilter]⟩
        rintro k hk hmem
        rcases List.mem_cons.mp hk with rfl | hk
        · exact absurd hmem hother
        · exact hfresh k hk hmem
      · rename_i hmember
        rw [not_not] at hmember
        simp only [bind_eq_ok, ensure_eq_ok, exists_unit] at h
        obtain ⟨hnew, h⟩ := h
        obtain ⟨keys, hkeys, hnodup, hfresh, rfl⟩ := ih.mp h
        have hfilter : (key :: keys).filter (· ∈ expected) = key :: keys.filter (· ∈ expected) :=
          List.filter_cons_of_pos (by simpa using hmember)
        refine ⟨key :: keys, ⟨key, keys, rfl, hkey, hkeys⟩, ?_, ?_, by rw [hfilter]; simp⟩
        · rw [hfilter, List.nodup_cons]
          refine ⟨fun hmem => ?_, hnodup⟩
          exact hfresh key (List.mem_of_mem_filter hmem) hmember (by simp)
        · rintro k hk hmem
          rcases List.mem_cons.mp hk with rfl | hk
          · exact hnew
          · exact fun hused => hfresh k hk hmem (List.mem_append_left _ hused)
    · rintro ⟨_, ⟨key, keys, rfl, hkey, hkeys⟩, hnodup, hfresh, rfl⟩
      refine ⟨key, recover_eq_some.mp hkey, ?_⟩
      by_cases hmember : key ∈ expected
      · have hfilter : (key :: keys).filter (· ∈ expected) = key :: keys.filter (· ∈ expected) :=
          List.filter_cons_of_pos (by simpa using hmember)
        rw [hfilter, List.nodup_cons] at hnodup
        obtain ⟨hnotMem, hnodup⟩ := hnodup
        have hnew : key ∉ used := hfresh key (List.mem_cons_self ..) hmember
        simp only [not_not.mpr hmember, if_false, bind_eq_ok, ensure_eq_ok, exists_unit]
        refine ⟨hnew, ih.mpr ⟨keys, hkeys, hnodup, fun k hk hmem hused => ?_, by
          rw [hfilter]; simp⟩⟩
        rcases List.mem_append.mp hused with hused | hlast
        · exact hfresh k (List.mem_cons_of_mem _ hk) hmem hused
        · obtain rfl := List.mem_singleton.mp hlast
          exact hnotMem (List.mem_filter.mpr ⟨hk, by simpa using hmem⟩)
      · have hfilter : (key :: keys).filter (· ∈ expected) = keys.filter (· ∈ expected) :=
          List.filter_cons_of_neg (by simpa using hmember)
        rw [hfilter] at hnodup
        simp only [hmember, not_false_eq_true, if_true]
        exact ih.mpr ⟨keys, hkeys, hnodup,
          fun k hk hmem => hfresh k (List.mem_cons_of_mem _ hk) hmem, by rw [hfilter]⟩

/-- In a bounded set no counter wraps around. -/
theorem Tally.two_le_count_iff {set : ValidatorSet} (bounded : set.Bounded)
    {used : Finset PublicKey} : 2 ≤ (Tally.of set used).count set ↔ set.FilledBy used := by
  have exact {needed : U16} {group : Finset PublicKey} (h : group.card < 2 ^ 16) :
      needed ≤ (Fin.ofNat _ (used ∩ group).card : U16) ↔ needed.val ≤ (used ∩ group).card := by
    have hlt : (used ∩ group).card < 256 ^ 2 :=
      (Finset.card_le_card Finset.inter_subset_right).trans_lt h
    rw [Fin.le_def, Fin.val_ofNat, Nat.mod_eq_of_lt hlt]
  rw [ValidatorSet.FilledBy, ← exact bounded.listeners, ← exact bounded.approvers]
  unfold Tally.count
  rw [← TwoOfThree.iff_two_le]
  exact ⟨TwoOfThree.mono of_decide_eq_true of_decide_eq_true of_decide_eq_true,
    TwoOfThree.mono decide_eq_true decide_eq_true decide_eq_true⟩

/-- A rotation that the authority allows passes the checks, and those who have to sign are those of
the set it leads to. -/
theorem expect_of_leads {set set' : ValidatorSet} {action : CosmosAction} (bounded : set.Bounded)
    (h : Leads (reader api) set action.authority set') :
    ∃ expected messages, expect api set action = .ok expected ∧
      expected.action.apply set = .ok (set', messages) := by
  cases action with
  | cosmos messages =>
    cases h
    exact ⟨_, messages, rfl, rfl⟩
  | selfReplace rendered signature =>
    obtain _ | ⟨signed, parsed, member, fresh⟩ := h
    rename_i old new validatorType
    have hsigner : validateSignature api (api.sha256 rendered) signature = .ok old :=
      recover_eq_some.mp signed
    have hread : api.selfReplaceFromJson rendered = some ⟨validatorType, new⟩ := parsed
    simp only [expect, hsigner, ok_bind, hread, fromOption_some]
    cases validatorType with
    | listener =>
      have hcheck : ¬(old ∉ set.listeners ∨ new ∈ set.listeners) :=
        not_or.mpr ⟨not_not.mpr member, fresh.resolve_left (by decide)⟩
      exact ⟨_, [], by rw [expectSelfReplace, ensure_of hcheck]; rfl, rfl⟩
    | processor =>
      have hold : old = set.processor := Finset.mem_singleton.mp member
      refine ⟨_, [], by rw [expectSelfReplace, ensure_of hold]; rfl, ?_⟩
      simp only [ParsedAction.apply, ensure_of hold.symm]
      rfl
    | approver =>
      have hcheck : ¬(old ∉ set.approvers ∨ new ∈ set.approvers) :=
        not_or.mpr ⟨not_not.mpr member, fresh.resolve_left (by decide)⟩
      exact ⟨_, [], by rw [expectSelfReplace, ensure_of hcheck]; rfl, rfl⟩
  | newSet rendered approvals =>
    obtain _ | _ | ⟨parsed, signed, distinct, filled⟩ := h
    rename_i keys
    have hread : api.validatorSetFromJson rendered = some set' := parsed
    have htally : tallyApprovals api set (api.sha256 rendered) (Tally.of set ∅) approvals =
        .ok (Tally.of set (∅ ∪ keys.toFinset)) :=
      tallyApprovals_eq_ok.mpr
        ⟨keys, Reader.signed_iff_forall₂.mp signed, distinct, by simp, rfl⟩
    rw [Tally.of_empty, Finset.empty_union] at htally
    have hcount := (Tally.two_le_count_iff bounded).mpr filled
    refine ⟨⟨set'.processor, set'.approvers, set'.neededApprovers, .newSet set'⟩, [], ?_, rfl⟩
    simp only [expect, hread, fromOption_some, ok_bind, htally, ensure_of hcount]
    rfl

/-- What passes the checks is allowed by the authority. -/
theorem leads_of_expect {set set' : ValidatorSet} {action : CosmosAction} (bounded : set.Bounded)
    {expected : Expected} {messages : List CosmosMsg} (h : expect api set action = .ok expected)
    (happly : expected.action.apply set = .ok (set', messages)) :
    Leads (reader api) set action.authority set' := by
  cases action with
  | cosmos messages' =>
    obtain rfl := ok.inj h
    obtain ⟨rfl, -⟩ := Prod.mk.inj (ok.inj happly)
    exact .execute
  | selfReplace rendered signature =>
    simp only [expect, bind_eq_ok, fromOption_eq_ok] at h
    obtain ⟨old, hold, ⟨validatorType, new⟩, hparsed, h⟩ := h
    have hfresh : validatorType = .processor ∨ new ∉ set.membersOf validatorType := by
      cases validatorType with
      | processor => exact .inl rfl
      | listener | approver =>
        simp only [expectSelfReplace, bind_eq_ok, ensure_eq_ok, exists_unit, not_or] at h
        exact .inr h.1.2
    obtain ⟨hmember, rfl, -, -⟩ := expectSelfReplace_ok h happly
    exact .selfReplace (recover_eq_some.mpr hold) hparsed hmember hfresh
  | newSet rendered approvals =>
    simp only [expect, bind_eq_ok, ensure_eq_ok, exists_unit, fromOption_eq_ok, pure_eq_ok,
      ok.injEq] at h
    obtain ⟨new, hparsed, tally, htally, hcount, rfl⟩ := h
    obtain ⟨rfl, -⟩ := Prod.mk.inj (ok.inj happly)
    rw [← Tally.of_empty set, tallyApprovals_eq_ok] at htally
    obtain ⟨keys, hkeys, hnodup, -, rfl⟩ := htally
    rw [Finset.empty_union] at hcount
    exact .newSet hparsed (Reader.signed_iff_forall₂.mpr hkeys) hnodup
      ((Tally.two_le_count_iff bounded).mp hcount)

/-- A signed action is accepted exactly if it is a step of the authority. -/
theorem signed_iff {storage : Storage} {info : MessageInfo} {processor : SignatureWithRecovery}
    {approvers : List SignatureWithRecovery} {text : String} {state' : Authority.State}
    (bounded : storage.state.set.Bounded) :
    (∃ storage' response, signed api storage info processor approvers text =
        .ok (storage', response) ∧ storage'.state.authority = state') ↔
      ∃ payload, api.payloadFromJson text = some payload ∧
        storage.state.authority.Signed (reader api) payload.id payload.action.authority text
          processor approvers state' := by
  simp only [signed, bind_eq_ok, ensure_eq_ok, exists_unit, fromOption_eq_ok, pure_eq_ok, ok.injEq,
    Prod.mk.injEq]
  constructor
  · rintro ⟨storage', response, ⟨payload, hparsed, hid, expected, hexpected, key, hkey, hprocessor,
      used, hused, hneeded, ⟨set, messages⟩, happly, rfl, rfl⟩, rfl⟩
    obtain ⟨-, hfor⟩ := expect_ok hexpected happly
    obtain ⟨keys, hkeys, hnodup, -, rfl⟩ := collectApprovers_eq_ok.mp hused
    refine ⟨payload, hparsed, hid, leads_of_expect bounded hexpected happly, ⟨?_, ?_⟩, rfl, ?_⟩
    · exact recover_eq_some.mpr (hkey.trans (congrArg ok (hprocessor.trans hfor.processor)))
    · rw [hfor.approvers] at hnodup hneeded
      rw [hfor.neededApprovers, List.nil_append] at hneeded
      exact ⟨keys, hkeys, hnodup, hneeded⟩
    · exact congrArg (· + 1) hid
  · rintro ⟨payload, hparsed, hid, hleads, ⟨hprocessor, keys, hkeys, hnodup, hneeded⟩, hevent,
      haction⟩
    obtain ⟨expected, messages, hexpected, happly⟩ := expect_of_leads bounded hleads
    obtain ⟨-, hfor⟩ := expect_ok hexpected happly
    refine ⟨_, _, ⟨payload, hparsed, hid, expected, hexpected, _, recover_eq_some.mp hprocessor,
      hfor.processor.symm, _, collectApprovers_eq_ok.mpr ⟨keys, hkeys, ?_, by simp, rfl⟩, ?_, _,
      happly, rfl, rfl⟩, ?_⟩
    · rw [hfor.approvers]
      exact hnodup
    · rw [hfor.approvers, hfor.neededApprovers, List.nil_append]
      exact hneeded
    · refine Authority.State.ext rfl hevent.symm ?_
      rw [haction, ← hid]
      rfl

theorem step_of_execute {storage storage' : Storage} {call : MessageInfo × ExecuteMsg}
    {response : Response} (bounded : storage.state.set.Bounded)
    (h : execute api storage call.1 call.2 = .ok (storage', response)) :
    storage.state.authority.Step (reader api) storage'.state.authority := by
  obtain ⟨info, keys | ⟨processor, approvers, text⟩⟩ := call
  · simp only [execute, regular, bind_eq_ok, exists_unit, pure_eq_ok, ok.injEq,
      Prod.mk.injEq] at h
    obtain ⟨-, rfl, rfl⟩ := h
    exact .deposit _
  · obtain ⟨payload, -, step⟩ := (signed_iff bounded).mp ⟨_, _, h, rfl⟩
    exact .signed step

/-- Whatever messages a contract receives, it goes through steps of the authority only; so its
counters advance together, and without an action its validator set stays as it is. -/
theorem run_follows (api : Api)
    (proposed : ∀ text set, api.validatorSetFromJson text = some set → set.Bounded)
    (storage : Storage) (bounded : storage.state.set.Bounded)
    (calls : List (MessageInfo × ExecuteMsg)) :
    let storage' := (machine api).run storage calls
    Relation.ReflTransGen (Authority.State.Step (reader api)) storage.state.authority
        storage'.state.authority ∧
      storage.state.nextActionId ≤ storage'.state.nextActionId ∧
      storage.state.nextEventId + (storage'.state.nextActionId - storage.state.nextActionId) ≤
        storage'.state.nextEventId ∧
      (storage'.state.nextActionId = storage.state.nextActionId →
        storage'.state.set = storage.state.set) := by
  have path : Relation.ReflTransGen (Authority.State.Step (reader api)) storage.state.authority
        ((machine api).run storage calls).state.authority ∧
      ((machine api).run storage calls).state.set.Bounded := by
    refine (machine api).run_invariant
      (I := fun s => Relation.ReflTransGen (Authority.State.Step (reader api))
        storage.state.authority s.state.authority ∧ s.state.set.Bounded) ?_ ⟨.refl, bounded⟩ calls
    rintro s call s' ⟨path, bounded⟩ hstep
    obtain ⟨⟨_, response⟩, hexecute, hs'⟩ := bind_eq_ok.mp hstep
    obtain rfl := ok.inj hs'
    have step := step_of_execute bounded hexecute
    exact ⟨path.tail step, step.bounded bounded proposed⟩
  exact ⟨path.1, Authority.State.counters path.1⟩

end Cosmos

/-! ## The Solana program -/

namespace Solana

open Except

variable {sys : Sys}

def reader (sys : Sys) : Reader := ⟨recover sys, sys.selfReplaceFromJson, sys.validatorSetFromJson⟩

def SignedAction.authority : SignedAction → Action
  | .execute _ => .execute
  | .selfReplace rendered signature => .selfReplace rendered signature
  | .newSet rendered approvals => .newSet rendered approvals

theorem collectApprovers_eq_ok {text : String} {expected : Finset PublicKey}
    {used : List PublicKey} {approvers : List SignatureWithRecovery} :
    collectApprovers sys (sys.sha256 text) expected approvers = .ok used ↔
      ∃ keys, (reader sys).Signed text approvers keys ∧ used = keys.filter (· ∈ expected) := by
  induction approvers generalizing used with
  | nil => simp [collectApprovers, Reader.signed_nil, eq_comm]
  | cons sig approvers ih =>
    simp only [collectApprovers, bind_eq_ok, Reader.signed_cons, pure_eq_ok, ok.injEq]
    constructor
    · rintro ⟨key, hkey, rest, hrest, rfl⟩
      obtain ⟨keys, hkeys, rfl⟩ := ih.mp hrest
      refine ⟨key :: keys, ⟨key, keys, rfl, recover_eq_some.mpr hkey, hkeys⟩, ?_⟩
      rw [List.filter_cons]
      simp
    · rintro ⟨_, ⟨key, keys, rfl, hkey, hkeys⟩, rfl⟩
      refine ⟨key, recover_eq_some.mp hkey, _, ih.mpr ⟨keys, hkeys, rfl⟩, ?_⟩
      rw [List.filter_cons]
      simp

theorem verifySignatures_eq_ok {set : ValidatorSet} {text : String}
    {processor : SignatureWithRecovery} {approvers : List SignatureWithRecovery} {u : Unit} :
    verifySignatures sys (sys.sha256 text) processor set.processor approvers set.approvers
        set.neededApprovers = .ok u ↔ CoSigns (reader sys) set text processor approvers := by
  simp only [verifySignatures, bind_eq_ok, ensure_eq_ok, exists_unit, collectApprovers_eq_ok]
  constructor
  · rintro ⟨key, hkey, rfl, used, ⟨keys, hkeys, rfl⟩, hnodup, hneeded⟩
    exact ⟨recover_eq_some.mpr hkey, keys, hkeys, hnodup, hneeded⟩
  · rintro ⟨hprocessor, keys, hkeys, hnodup, hneeded⟩
    exact ⟨_, recover_eq_some.mp hprocessor, rfl, _, ⟨keys, hkeys, rfl⟩, hnodup, hneeded⟩

/-- Distinct signers never make a counter of a bounded set overflow. -/
theorem countIf_of_nodup {group : Finset PublicKey} (bounded : group.card < 2 ^ 16)
    {used : List PublicKey} {key : PublicKey} (hnodup : (used ++ [key]).Nodup) :
    countIf (key ∈ group) (used.countP (· ∈ group)) =
      .ok ((used ++ [key]).countP (· ∈ group)) := by
  have hle : (used ++ [key]).countP (· ∈ group) < 2 ^ 16 := by
    rw [countP_eq_card hnodup]
    exact (Finset.card_le_card Finset.inter_subset_right).trans_lt bounded
  unfold countIf
  rw [List.countP_append] at hle ⊢
  by_cases hmem : key ∈ group
  · have hone : [key].countP (· ∈ group) = 1 := by simp [hmem]
    rw [hone] at hle ⊢
    rw [if_pos hmem, ensure_of hle]
    rfl
  · have hzero : [key].countP (· ∈ group) = 0 := by simp [hmem]
    rw [hzero, if_neg hmem]
    rfl

theorem tallyApprovals_of_nodup {set : ValidatorSet} (bounded : set.Bounded) {text : String}
    {used keys : List PublicKey} {approvals : List SignatureWithRecovery}
    (signed : (reader sys).Signed text approvals keys) (hnodup : (used ++ keys).Nodup) :
    tallyApprovals sys set (sys.sha256 text) (Tally.of set used) approvals =
      .ok (Tally.of set (used ++ keys)) := by
  induction approvals generalizing used keys with
  | nil =>
    obtain rfl := Reader.signed_nil.mp signed
    rw [List.append_nil]
    rfl
  | cons sig approvals ih =>
    obtain ⟨key, rest, rfl, hkey, hrest⟩ := Reader.signed_cons.mp signed
    have hkey : secp256k1Recover sys (sys.sha256 text) sig = .ok key := recover_eq_some.mp hkey
    have hsplit : used ++ key :: rest = (used ++ [key]) ++ rest := by simp
    rw [hsplit] at hnodup
    have hfirst : (used ++ [key]).Nodup := hnodup.of_append_left
    have hnew : ¬(set.processor = key ∧ (Tally.of set used).processor = true) := by
      rintro ⟨rfl, hprocessor⟩
      have hmem : set.processor ∈ used := of_decide_eq_true hprocessor
      exact (List.nodup_append.mp hfirst).2.2 _ hmem _ (List.mem_singleton_self _) rfl
    have hlisteners : countIf (key ∈ set.listeners) (Tally.of set used).listeners =
        .ok (Tally.of set (used ++ [key])).listeners := countIf_of_nodup bounded.listeners hfirst
    have happrovers : countIf (key ∈ set.approvers) (Tally.of set used).approvers =
        .ok (Tally.of set (used ++ [key])).approvers := countIf_of_nodup bounded.approvers hfirst
    have hprocessor : ((Tally.of set used).processor || decide (set.processor = key)) =
        (Tally.of set (used ++ [key])).processor := by simp [Tally.of]
    rw [hsplit, tallyApprovals, hkey, ok_bind, ensure_of hnew, ok_bind, hlisteners, ok_bind,
      happrovers, ok_bind, hprocessor]
    exact ih hrest hnodup

theorem Tally.two_le_count_iff {set : ValidatorSet} {used : List PublicKey}
    (hnodup : used.Nodup) : 2 ≤ (Tally.of set used).count set ↔ set.FilledBy used.toFinset := by
  refine ⟨Tally.filledBy_of_count hnodup, fun h => (TwoOfThree.iff_two_le _ _ _).mp ?_⟩
  refine TwoOfThree.mono ?_ ?_ ?_ h
  · exact fun hp => decide_eq_true (List.mem_toFinset.mp hp)
  · exact fun hl => decide_eq_true (hl.trans (countP_eq_card hnodup _).ge)
  · exact fun ha => decide_eq_true (ha.trans (countP_eq_card hnodup _).ge)

theorem signed_of_tally {set : ValidatorSet} {text : String} {tally tally' : Tally}
    {approvals : List SignatureWithRecovery}
    (h : tallyApprovals sys set (sys.sha256 text) tally approvals = .ok tally') :
    (reader sys).Signed text approvals (approvals.filterMap (recover sys text)) := by
  induction approvals generalizing tally with
  | nil => exact Reader.signed_nil.mpr rfl
  | cons sig approvals ih =>
    simp only [tallyApprovals, bind_eq_ok, ensure_eq_ok, exists_unit] at h
    obtain ⟨key, hkey, -, listeners, -, approvers, -, h⟩ := h
    have hkey : recover sys text sig = some key := recover_eq_some.mpr hkey
    rw [List.filterMap_cons_some hkey]
    exact Reader.signed_cons.mpr ⟨key, _, rfl, hkey, ih h⟩

theorem newSet_eq_ok {set set' : ValidatorSet} (bounded : set.Bounded) {data : SignedMsgIxData}
    {rendered : String} {approvals : List SignatureWithRecovery} :
    newSet sys set (sys.sha256 data.payload) data rendered approvals = .ok set' ↔
      Leads (reader sys) set (.newSet rendered approvals) set' ∧
        CoSigns (reader sys) set' data.payload data.processor data.approvers := by
  have hempty : (⟨[], false, 0, 0⟩ : Tally) = Tally.of set [] := by simp [Tally.of]
  simp only [newSet, bind_eq_ok, ensure_eq_ok, exists_unit, fromOption_eq_ok, pure_eq_ok, ok.injEq,
    verifySignatures_eq_ok, hempty]
  constructor
  · rintro ⟨new, hparsed, tally, htally, hnodup, hcount, hsigned, rfl⟩
    have happroved := signed_of_tally htally
    obtain rfl := tallyApprovals_ok htally
    rw [List.nil_append] at hnodup hcount
    exact ⟨.newSet hparsed happroved hnodup ((Tally.two_le_count_iff hnodup).mp hcount), hsigned⟩
  · rintro ⟨hleads, hsigned⟩
    obtain _ | _ | ⟨parsed, signed, distinct, filled⟩ := hleads
    refine ⟨set', parsed, _, tallyApprovals_of_nodup bounded signed ?_, ?_, ?_, hsigned, rfl⟩
    · simpa using distinct
    · simpa [Tally.of] using distinct
    · exact (Tally.two_le_count_iff (by simpa using distinct)).mpr (by simpa using filled)

theorem selfReplace_eq_ok {set set' : ValidatorSet} {data : SignedMsgIxData} {rendered : String}
    {signature : SignatureWithRecovery} :
    selfReplace sys set (sys.sha256 data.payload) data rendered signature = .ok set' ↔
      Leads (reader sys) set (.selfReplace rendered signature) set' ∧
        CoSigns (reader sys) set' data.payload data.processor data.approvers := by
  simp only [selfReplace, bind_eq_ok, fromOption_eq_ok]
  constructor
  · rintro ⟨⟨validatorType, new⟩, hparsed, old, hold, h⟩
    have signed : (reader sys).signer rendered signature = some old := recover_eq_some.mpr hold
    cases validatorType with
    | processor =>
      simp only [bind_eq_ok, ensure_eq_ok, exists_unit, pure_eq_ok, ok.injEq] at h
      obtain ⟨rfl, hsigned, rfl⟩ := h
      exact ⟨.selfReplace signed hparsed (Finset.mem_singleton_self _) (.inl rfl),
        verifySignatures_eq_ok.mp hsigned⟩
    | listener | approver =>
      simp only [bind_eq_ok, ensure_eq_ok, exists_unit, pure_eq_ok, ok.injEq, not_or,
        not_not] at h
      obtain ⟨⟨hmember, hfresh⟩, hsigned, rfl⟩ := h
      exact ⟨.selfReplace signed hparsed hmember (.inr hfresh),
        verifySignatures_eq_ok.mp hsigned⟩
  · rintro ⟨hleads, hsigned⟩
    obtain _ | ⟨signed, parsed, member, fresh⟩ := hleads
    rename_i old new validatorType
    refine ⟨⟨validatorType, new⟩, parsed, old, recover_eq_some.mp signed, ?_⟩
    have hverify : verifySignatures sys (sys.sha256 data.payload) data.processor
        (set.replaceValidator validatorType old new).processor data.approvers
        (set.replaceValidator validatorType old new).approvers
        (set.replaceValidator validatorType old new).neededApprovers = .ok () :=
      verifySignatures_eq_ok.mpr hsigned
    cases validatorType with
    | processor =>
      have hold : old = set.processor := Finset.mem_singleton.mp member
      simp only [bind_eq_ok, ensure_eq_ok, exists_unit, pure_eq_ok, ok.injEq]
      exact ⟨hold, hverify, rfl⟩
    | listener | approver =>
      simp only [bind_eq_ok, ensure_eq_ok, exists_unit, pure_eq_ok, ok.injEq, not_or, not_not]
      exact ⟨⟨member, fresh.resolve_left (by decide)⟩, hverify, rfl⟩

/-- A signed action changes the set exactly as the authority lets it, if the action it executes
succeeds with the accounts that are passed. -/
theorem applyAction_eq_ok {set set' : ValidatorSet} (bounded : set.Bounded)
    {data : SignedMsgIxData} {ixAccounts : List AccountInfo} {action : SignedAction} :
    applyAction sys set (sys.sha256 data.payload) data ixAccounts action = .ok set' ↔
      Leads (reader sys) set action.authority set' ∧
        CoSigns (reader sys) set' data.payload data.processor data.approvers ∧
        ∀ executed, action = .execute executed →
          1 ≤ ixAccounts.length ∧ executeAction sys executed (ixAccounts.drop 1) = .ok () := by
  cases action with
  | execute executed =>
    simp only [applyAction, bind_eq_ok, ensure_eq_ok, exists_unit, pure_eq_ok, ok.injEq,
      verifySignatures_eq_ok]
    constructor
    · rintro ⟨hsigned, haccounts, hexecuted, rfl⟩
      refine ⟨.execute, hsigned, fun executed' h => ?_⟩
      obtain rfl := SignedAction.execute.inj h
      exact ⟨haccounts, hexecuted⟩
    · rintro ⟨hleads, hsigned, hexecute⟩
      cases hleads
      obtain ⟨haccounts, hexecuted⟩ := hexecute executed rfl
      exact ⟨hsigned, haccounts, hexecuted, rfl⟩
  | selfReplace rendered signature => simp [applyAction, selfReplace_eq_ok, SignedAction.authority]
  | newSet rendered approvals => simp [applyAction, newSet_eq_ok bounded, SignedAction.authority]

end Solana

/-! ## Both contracts -/

/-- A call of the Cosmos contract and one of the Solana program for the same action: the two hosts
find the same signers of the payloads, and read the rotation in the action alike. -/
structure SameCall (api : Cosmos.Api) (sys : Solana.Sys) (text : String)
    (processor : SignatureWithRecovery) (approvers : List SignatureWithRecovery)
    (action : Cosmos.CosmosAction) (data : Solana.SignedMsgIxData)
    (action' : Solana.SignedAction) : Prop where
  authority : action'.authority = action.authority
  processor : Cosmos.recover api text processor = Solana.recover sys data.payload data.processor
  approvers : approvers.map (Cosmos.recover api text) =
    data.approvers.map (Solana.recover sys data.payload)
  selfReplace : ∀ rendered signature, action = .selfReplace rendered signature →
    Cosmos.recover api rendered signature = Solana.recover sys rendered signature ∧
      api.selfReplaceFromJson rendered = sys.selfReplaceFromJson rendered
  newSet : ∀ rendered approvals, action = .newSet rendered approvals →
    approvals.map (Cosmos.recover api rendered) = approvals.map (Solana.recover sys rendered) ∧
      api.validatorSetFromJson rendered = sys.validatorSetFromJson rendered

namespace SameCall

variable {api : Cosmos.Api} {sys : Solana.Sys} {text : String} {processor : SignatureWithRecovery}
  {approvers : List SignatureWithRecovery} {action : Cosmos.CosmosAction}
  {data : Solana.SignedMsgIxData} {action' : Solana.SignedAction}

theorem coSigns_iff (same : SameCall api sys text processor approvers action data action')
    {set : ValidatorSet} : CoSigns (Cosmos.reader api) set text processor approvers ↔
      CoSigns (Solana.reader sys) set data.payload data.processor data.approvers := by
  have hsigned (keys : List PublicKey) : (Cosmos.reader api).Signed text approvers keys ↔
      (Solana.reader sys).Signed data.payload data.approvers keys :=
    ⟨same.approvers.symm.trans, same.approvers.trans⟩
  constructor
  · rintro ⟨hprocessor, keys, hkeys, hquorum⟩
    exact ⟨same.processor.symm.trans hprocessor, keys, (hsigned keys).mp hkeys, hquorum⟩
  · rintro ⟨hprocessor, keys, hkeys, hquorum⟩
    exact ⟨same.processor.trans hprocessor, keys, (hsigned keys).mpr hkeys, hquorum⟩

theorem leads_iff (same : SameCall api sys text processor approvers action data action')
    {set set' : ValidatorSet} : Leads (Cosmos.reader api) set action.authority set' ↔
      Leads (Solana.reader sys) set action'.authority set' := by
  have htexts : ∀ rendered signature, action.authority = .selfReplace rendered signature →
      action = .selfReplace rendered signature := by
    cases action <;> rintro _ _ ⟨⟩
    rfl
  have hsets : ∀ rendered approvals, action.authority = .newSet rendered approvals →
      action = .newSet rendered approvals := by
    cases action <;> rintro _ _ ⟨⟩
    rfl
  rw [same.authority]
  constructor
  · refine fun h => h.congr (fun rendered signature heq => ?_) fun rendered approvals heq => ?_
    · obtain ⟨hsigner, hread⟩ := same.selfReplace _ _ (htexts _ _ heq)
      exact ⟨hsigner.symm, hread.symm⟩
    · obtain ⟨hsigners, hread⟩ := same.newSet _ _ (hsets _ _ heq)
      exact ⟨hsigners.symm, hread.symm⟩
  · exact fun h => h.congr (fun _ _ heq => same.selfReplace _ _ (htexts _ _ heq))
      fun _ _ heq => same.newSet _ _ (hsets _ _ heq)

end SameCall

/-- A Cosmos contract and a Solana program that store the same validator set are given the same next
action, signed by the same keys. The Cosmos contract accepts it exactly if the Solana program lets
it change its set, and the sets after it are the same. -/
theorem contracts_agree (api : Cosmos.Api) (sys : Solana.Sys) (storage : Cosmos.Storage)
    (bounded : storage.state.set.Bounded) (info : Cosmos.MessageInfo)
    (processor : SignatureWithRecovery) (approvers : List SignatureWithRecovery) (text : String)
    (action : Cosmos.CosmosAction)
    (parsed : api.payloadFromJson text = some ⟨storage.state.nextActionId, action⟩)
    (data : Solana.SignedMsgIxData) (action' : Solana.SignedAction)
    (same : SameCall api sys text processor approvers action data action')
    (ixAccounts : List Solana.AccountInfo)
    (executes : ∀ executed, action' = .execute executed → 1 ≤ ixAccounts.length ∧
      Solana.executeAction sys executed (ixAccounts.drop 1) = .ok ())
    (set' : ValidatorSet) :
    (∃ storage' response, Cosmos.signed api storage info processor approvers text =
        .ok (storage', response) ∧ storage'.state.set = set') ↔
      Solana.applyAction sys storage.state.set (sys.sha256 data.payload) data ixAccounts action' =
        .ok set' := by
  rw [Solana.applyAction_eq_ok bounded, ← same.coSigns_iff, ← same.leads_iff]
  constructor
  · rintro ⟨storage', response, hsigned, rfl⟩
    obtain ⟨payload, hparsed, step⟩ := (Cosmos.signed_iff bounded).mp ⟨_, _, hsigned, rfl⟩
    obtain rfl := Option.some.inj (parsed.symm.trans hparsed)
    exact ⟨step.leads, step.coSigns, executes⟩
  · rintro ⟨hleads, hcoSigns, -⟩
    have step : storage.state.authority.Signed (Cosmos.reader api) storage.state.nextActionId
        action.authority text processor approvers
        ⟨set', storage.state.nextEventId + 1, storage.state.nextActionId + 1⟩ :=
      ⟨rfl, hleads, hcoSigns, rfl, rfl⟩
    obtain ⟨storage', response, hsigned, hstate⟩ :=
      (Cosmos.signed_iff bounded).mpr ⟨_, parsed, step⟩
    exact ⟨storage', response, hsigned, congrArg Authority.State.set hstate⟩

namespace RotationSample

theorem bounded_set (point : Nat) : (set point).Bounded := by
  rw [set_eq]
  exact ⟨by simp, by simp⟩

/-- Each rotation is given to both contracts alike. -/
theorem sameCall {r : Rotation} (hr : r ∈ rotations) :
    SameCall api sys (String.ofList r.cosmosText.chars) r.cosmosSignature [r.cosmosSignature]
      (.newSet (rendered r.point) [r.approval]) r.solanaData
      (.newSet (rendered r.point) [r.approval]) := by
  obtain ⟨happroval, hsignature, -⟩ := (checked hr).cosmos
  obtain ⟨happroval', hsignature'⟩ := (checked hr).solana
  have hcosmos : Cosmos.recover api (String.ofList r.cosmosText.chars) r.cosmosSignature =
      some (key r.point) :=
    Cosmos.recover_eq_some.mpr (by rw [api_sha256, sha256_cosmos hr, hsignature])
  have hsolana : Solana.recover sys r.solanaData.payload r.solanaSignature = some (key r.point) :=
    Solana.recover_eq_some.mpr (by
      rw [sys_sha256, Rotation.solanaData, sha256_solana hr, hsignature'])
  have hset : Cosmos.recover api (rendered r.point) r.approval = some (key r.approver) :=
    Cosmos.recover_eq_some.mpr (by rw [api_sha256, sha256_set hr, happroval])
  have hset' : Solana.recover sys (rendered r.point) r.approval = some (key r.approver) :=
    Solana.recover_eq_some.mpr (by rw [sys_sha256, sha256_set hr, happroval'])
  have hprocessor := hcosmos.trans hsolana.symm
  refine ⟨rfl, hprocessor, congrArg (fun key => [key]) hprocessor, ?_, ?_⟩
  · rintro _ _ ⟨⟩
  · rintro _ _ ⟨⟩
    exact ⟨congrArg (fun key => [key]) (hset.trans hset'.symm), rfl⟩

/-- The Cosmos contract accepts a rotation of the set of one key. -/
theorem cosmos_signed {r : Rotation} (hr : r ∈ rotations) (e : Nat) :
    ∃ storage' response, Cosmos.signed api ⟨⟨set r.approver, e, r.id⟩, ∅⟩ ⟨"relayer", []⟩
        r.cosmosSignature [r.cosmosSignature] (String.ofList r.cosmosText.chars) =
          .ok (storage', response) ∧ storage'.state.set = set r.point := by
  obtain ⟨⟨storage', response⟩, hsigned, hstorage⟩ :=
    Except.bind_eq_ok.mp (cosmos_step hr e ∅)
  obtain rfl := Except.ok.inj hstorage
  exact ⟨_, response, hsigned, rfl⟩

theorem bounded_of_parsed {text : String} {new : ValidatorSet}
    (h : api.validatorSetFromJson text = some new) : new.Bounded := by
  rw [api_validatorSetFromJson, validatorSetFromJson] at h
  obtain ⟨r, -, rfl⟩ := Option.map_eq_some_iff.mp h
  exact bounded_set r.point

end RotationSample

open RotationSample in
theorem contracts_agree_example :
    Solana.applyAction sys (set pointV) (sys.sha256 install.solanaData.payload) install.solanaData []
      (.newSet (rendered pointS) [install.approval]) = .ok (set pointS) :=
  have hr : install ∈ rotations := List.mem_cons_self
  (contracts_agree api sys ⟨⟨set pointV, 1, 0⟩, ∅⟩ (bounded_set pointV) ⟨"relayer", []⟩
    install.cosmosSignature [install.cosmosSignature] (String.ofList install.cosmosText.chars)
    (.newSet (rendered pointS) [install.approval]) (parsed_cosmos hr) install.solanaData
    (.newSet (rendered pointS) [install.approval]) (sameCall hr) [] nofun (set pointS)).mp
      (cosmos_signed hr 1)

open RotationSample in
theorem Cosmos.run_follows_example :
    let storage : Cosmos.Storage := ⟨⟨set pointV, 1, 0⟩, ∅⟩
    let storage' := (Cosmos.machine api).run storage [install.cosmosCall, next.cosmosCall]
    Relation.ReflTransGen (Authority.State.Step (Cosmos.reader api)) storage.state.authority
      storage'.state.authority :=
  (Cosmos.run_follows api (fun _ _ => bounded_of_parsed) ⟨⟨set pointV, 1, 0⟩, ∅⟩
    (bounded_set pointV) [install.cosmosCall, next.cosmosCall]).1

end Kolme
