import Kolme.Contracts.Cosmos.Signers
import Kolme.Lib.Numbering

/-!
# Safety of the Cosmos bridge contract

The messages of a contract are numbered by their events and its actions by their ids, both in
order. Only a rotation that the stored validators and the new ones signed changes the validator
set, and only an action that the stored processor and a quorum of the stored approvers signed
sends messages.
-/

namespace Kolme.Cosmos

open Except

variable {api : Api}

/-- What the successful messages of a run respond. -/
def responses (api : Api) : Storage → List (MessageInfo × ExecuteMsg) → List Response
  | _, [] => []
  | storage, call :: calls =>
    match execute api storage call.1 call.2 with
    | .ok (storage', response) => response :: responses api storage' calls
    | .error _ => responses api storage calls

def Response.actionId? (response : Response) : Option BridgeActionId :=
  match response.event with
  | .regular .. => none
  | .signed _ actionId => some actionId

/-- The rotation puts the second set in the place of the first, and validators of the first set
signed it. -/
inductive Rotates (api : Api) (set : ValidatorSet) : CosmosAction → ValidatorSet → Prop
  | selfReplace {rendered : String} {signature : SignatureWithRecovery} {old new : PublicKey}
    {validatorType : ValidatorType} (signed : recover api rendered signature = some old)
    (parsed : api.selfReplaceFromJson rendered = some ⟨validatorType, new⟩)
    (member : old ∈ set.membersOf validatorType) :
    Rotates api set (.selfReplace rendered signature) (set.replaceValidator validatorType old new)
  | newSet {rendered : String} {approvals : List SignatureWithRecovery} {new : ValidatorSet}
    (parsed : api.validatorSetFromJson rendered = some new)
    (filled : set.FilledBy (signersOf (recover api) rendered approvals)) :
    Rotates api set (.newSet rendered approvals) new

/-! ## The checks of a signed action -/

/-- The approvers that are found are distinct, expected, and signed the text. -/
theorem collectApprovers_ok {text : String} {expected : Finset PublicKey} {used used' : List PublicKey}
    {approvers : List SignatureWithRecovery}
    (h : collectApprovers api (api.sha256 text) expected used approvers = .ok used')
    (nodup : used.Nodup) :
    used'.Nodup ∧ ∀ key ∈ used', key ∈ used ∨
      key ∈ expected ∧ key ∈ signersOf (recover api) text approvers := by
  induction approvers generalizing used with
  | nil =>
    obtain rfl := ok.inj h
    exact ⟨nodup, fun key hkey => .inl hkey⟩
  | cons sig approvers ih =>
    simp only [collectApprovers, bind_eq_ok] at h
    obtain ⟨key, hkey, h⟩ := h
    have hmore : ∀ k, k ∈ signersOf (recover api) text approvers →
        k ∈ signersOf (recover api) text (sig :: approvers) := fun k hk => by
      obtain ⟨s, hs, hrec⟩ := mem_signersOf.mp hk
      exact mem_signersOf.mpr ⟨s, List.mem_cons_of_mem _ hs, hrec⟩
    split at h
    · obtain ⟨hnodup, hall⟩ := ih h nodup
      exact ⟨hnodup, fun k hk => (hall k hk).imp_right fun ⟨he, hs⟩ => ⟨he, hmore k hs⟩⟩
    · rename_i hexpected
      simp only [bind_eq_ok, ensure_eq_ok, exists_unit] at h
      obtain ⟨hnew, h⟩ := h
      obtain ⟨hnodup, hall⟩ := ih h (List.nodup_append.mpr ⟨nodup, by simp, by
        rintro a ha b hb rfl
        exact hnew (List.mem_singleton.mp hb ▸ ha)⟩)
      refine ⟨hnodup, fun k hk => ?_⟩
      rcases hall k hk with hmem | ⟨he, hs⟩
      · rcases List.mem_append.mp hmem with hused | hlast
        · exact .inl hused
        · obtain rfl := List.mem_singleton.mp hlast
          exact .inr ⟨not_not.mp hexpected,
            mem_signersOf.mpr ⟨sig, List.mem_cons_self .., recover_eq_some.mpr hkey⟩⟩
      · exact .inr ⟨he, hmore k hs⟩

theorem quorum_of_collectApprovers {text : String} {expected : Finset PublicKey}
    {used : List PublicKey} {approvers : List SignatureWithRecovery}
    (h : collectApprovers api (api.sha256 text) expected [] approvers = .ok used) :
    used.length ≤ (signersOf (recover api) text approvers ∩ expected).card := by
  obtain ⟨nodup, hall⟩ := collectApprovers_ok h .nil
  rw [← List.toFinset_card_of_nodup nodup]
  refine Finset.card_le_card fun key hkey => ?_
  rcases hall key (List.mem_toFinset.mp hkey) with hnil | ⟨he, hs⟩
  · nomatch hnil
  · exact Finset.mem_inter.mpr ⟨hs, he⟩

/-! ## One message -/

/-- What a successful message records. -/
structure Records (storage : Storage) (response : Response) (storage' : Storage) : Prop where
  eventId : response.eventId = storage.state.nextEventId
  nextEventId : storage'.state.nextEventId = storage.state.nextEventId + 1
  events : storage'.events = storage.events.insert response.eventId response.event

/-- Those who have to sign are the processor and the approvers of a set. -/
structure Expected.For (expected : Expected) (set : ValidatorSet) : Prop where
  processor : expected.processor = set.processor
  approvers : expected.approvers = set.approvers
  neededApprovers : expected.neededApprovers = set.neededApprovers

theorem expectSelfReplace_ok {set set' : ValidatorSet} {old new : PublicKey}
    {validatorType : ValidatorType} {expected : Expected} {messages : List CosmosMsg}
    (h : expectSelfReplace set old ⟨validatorType, new⟩ = .ok expected)
    (happly : expected.action.apply set = .ok (set', messages)) :
    old ∈ set.membersOf validatorType ∧ set' = set.replaceValidator validatorType old new ∧
      messages = [] ∧ expected.For set' := by
  cases validatorType with
  | listener =>
    simp only [expectSelfReplace, bind_eq_ok, ensure_eq_ok, exists_unit, pure_eq_ok, ok.injEq,
      not_or, not_not] at h
    obtain ⟨⟨hold, -⟩, rfl⟩ := h
    obtain ⟨rfl, rfl⟩ := Prod.mk.inj (ok.inj happly)
    exact ⟨hold, rfl, rfl, rfl, rfl, rfl⟩
  | processor =>
    simp only [expectSelfReplace, bind_eq_ok, ensure_eq_ok, exists_unit, pure_eq_ok, ok.injEq] at h
    obtain ⟨hold, rfl⟩ := h
    simp only [ParsedAction.apply, bind_eq_ok, ensure_eq_ok, exists_unit, pure_eq_ok, ok.injEq,
      Prod.mk.injEq] at happly
    obtain ⟨-, rfl, rfl⟩ := happly
    exact ⟨Finset.mem_singleton.mpr hold, rfl, rfl, rfl, rfl, rfl⟩
  | approver =>
    simp only [expectSelfReplace, bind_eq_ok, ensure_eq_ok, exists_unit, pure_eq_ok, ok.injEq,
      not_or, not_not] at h
    obtain ⟨⟨hold, -⟩, rfl⟩ := h
    obtain ⟨rfl, rfl⟩ := Prod.mk.inj (ok.inj happly)
    exact ⟨hold, rfl, rfl, rfl, rfl, rfl⟩

/-- The action sends its messages, or rotates the set, and the set after it has to sign. -/
theorem expect_ok {set set' : ValidatorSet} {action : CosmosAction} {expected : Expected}
    {messages : List CosmosMsg} (h : expect api set action = .ok expected)
    (happly : expected.action.apply set = .ok (set', messages)) :
    (set' = set ∧ action = .cosmos messages ∨ messages = [] ∧ Rotates api set action set') ∧
      expected.For set' := by
  cases action with
  | cosmos messages' =>
    obtain rfl := ok.inj h
    obtain ⟨rfl, rfl⟩ := Prod.mk.inj (ok.inj happly)
    exact ⟨.inl ⟨rfl, rfl⟩, rfl, rfl, rfl⟩
  | selfReplace rendered signature =>
    simp only [expect, bind_eq_ok, fromOption_eq_ok] at h
    obtain ⟨old, hold, ⟨validatorType, new⟩, hparsed, h⟩ := h
    obtain ⟨hmember, rfl, rfl, hfor⟩ := expectSelfReplace_ok h happly
    exact ⟨.inr ⟨rfl, .selfReplace (recover_eq_some.mpr hold) hparsed hmember⟩, hfor⟩
  | newSet rendered approvals =>
    have hfilled := expect_newSet h
    simp only [expect, bind_eq_ok, ensure_eq_ok, exists_unit, fromOption_eq_ok, pure_eq_ok,
      ok.injEq] at h
    obtain ⟨new, hparsed, tally, -, -, rfl⟩ := h
    obtain ⟨rfl, rfl⟩ := Prod.mk.inj (ok.inj happly)
    exact ⟨.inr ⟨rfl, .newSet hparsed hfilled⟩, rfl, rfl, rfl⟩

/-- What the success of a message says. -/
inductive Performs (api : Api) (storage : Storage) :
    MessageInfo × ExecuteMsg → Response → Storage → Prop
  | regular {info : MessageInfo} {keys : List KeyRegistration} {response : Response}
    {storage' : Storage} (records : Records storage response storage')
    (set : storage'.state.set = storage.state.set)
    (nextActionId : storage'.state.nextActionId = storage.state.nextActionId)
    (actionId : response.actionId? = none) (messages : response.messages = []) :
    Performs api storage (info, .regular keys) response storage'
  | signed {info : MessageInfo} {processor : SignatureWithRecovery}
    {approvers : List SignatureWithRecovery} {payload : String} {action : CosmosAction}
    {response : Response} {storage' : Storage} (records : Records storage response storage')
    (parsed : api.payloadFromJson payload = some ⟨storage.state.nextActionId, action⟩)
    (nextActionId : storage'.state.nextActionId = storage.state.nextActionId + 1)
    (actionId : response.actionId? = some storage.state.nextActionId)
    (performed : storage'.state.set = storage.state.set ∧ action = .cosmos response.messages ∨
      response.messages = [] ∧ Rotates api storage.state.set action storage'.state.set)
    (coSigned : CoSigned (recover api) payload processor approvers storage'.state.set) :
    Performs api storage (info, .signed processor approvers payload) response storage'

theorem execute_ok {storage storage' : Storage} {call : MessageInfo × ExecuteMsg}
    {response : Response} (h : execute api storage call.1 call.2 = .ok (storage', response)) :
    Performs api storage call response storage' := by
  obtain ⟨info, keys | ⟨processor, approvers, payload⟩⟩ := call
  · simp only [execute, regular, bind_eq_ok, exists_unit, pure_eq_ok, ok.injEq,
      Prod.mk.injEq] at h
    obtain ⟨-, rfl, rfl⟩ := h
    exact .regular ⟨rfl, rfl, rfl⟩ rfl rfl rfl rfl
  · simp only [execute, signed, bind_eq_ok, ensure_eq_ok, exists_unit, fromOption_eq_ok,
      pure_eq_ok, ok.injEq, Prod.mk.injEq] at h
    obtain ⟨⟨id, action⟩, hparsed, rfl, expected, hexpected, key, hkey, hprocessor, used, hused,
      hneeded, ⟨set, messages⟩, happly, rfl, rfl⟩ := h
    obtain ⟨hperformed, hfor⟩ := expect_ok hexpected happly
    refine .signed ⟨rfl, rfl, rfl⟩ hparsed rfl rfl hperformed ⟨?_, ?_⟩
    · rw [recover_eq_some, hkey, hprocessor, hfor.processor]
    · rw [hfor.approvers] at hused
      rw [hfor.neededApprovers] at hneeded
      exact hneeded.trans (quorum_of_collectApprovers hused)

/-! ## Runs -/

theorem machine_apply {storage : Storage} {call : MessageInfo × ExecuteMsg} :
    (machine api).apply storage call = match execute api storage call.1 call.2 with
      | .ok (storage', _) => storage'
      | .error _ => storage := by
  simp only [Machine.apply, machine]
  cases execute api storage call.1 call.2 <;> rfl

/-- The events and actions of a contract are numbered in the order of its responses, and the events
are stored. -/
structure InOrder (storage : Storage) (past : List Response) : Prop where
  numbered : Numbered Response.eventId Response.actionId? past storage.state.nextEventId
    storage.state.nextActionId
  events : storage.events.toList = past.map fun response => (response.eventId, response.event)

theorem InOrder.instantiate {set : ValidatorSet} {storage : Storage}
    (h : instantiate set = .ok storage) : InOrder storage [] := by
  simp only [Cosmos.instantiate, bind_eq_ok, ensure_eq_ok, exists_unit, pure_eq_ok, ok.injEq] at h
  obtain ⟨-, -, rfl⟩ := h
  exact ⟨.nil, rfl⟩

/-- The next message has the next numbers. -/
theorem InOrder.performs {storage storage' : Storage} {past : List Response}
    {call : MessageInfo × ExecuteMsg} {response : Response} (h : InOrder storage past)
    (performs : Performs api storage call response storage') :
    InOrder storage' (past ++ [response]) := by
  have records : Records storage response storage' := by
    cases performs <;> assumption
  constructor
  · rw [records.nextEventId]
    cases performs with
    | regular _ _ hnext hactionId _ =>
      rw [hnext]
      exact h.numbered.event records.eventId hactionId
    | signed _ _ hnext hactionId _ _ =>
      rw [hnext]
      exact h.numbered.action records.eventId hactionId
  · rw [records.events, SortedMap.toList_insert_last, h.events, List.map_append, List.map_singleton]
    intro p hp
    rw [h.events] at hp
    obtain ⟨other, hother, rfl⟩ := List.mem_map.mp hp
    exact Nat.lt_of_lt_of_eq (h.numbered.lt_next other hother) records.eventId.symm

theorem InOrder.run {storage : Storage} {past : List Response} (h : InOrder storage past)
    (calls : List (MessageInfo × ExecuteMsg)) :
    InOrder ((machine api).run storage calls) (past ++ responses api storage calls) := by
  induction calls generalizing storage past with
  | nil => simpa [responses] using h
  | cons call calls ih =>
    rw [Machine.run_cons, machine_apply]
    unfold responses
    cases hexecute : execute api storage call.1 call.2 with
    | error e => exact ih h
    | ok result =>
      obtain ⟨storage', response⟩ := result
      have hrun := ih (h.performs (execute_ok hexecute))
      rwa [List.append_assoc] at hrun

namespace Sample

/-- One listener and one approver. -/
def genesisSet : ValidatorSet := ⟨1, {2}, 1, {3}, 1⟩

/-- A host on which no signature is valid and no text parses. -/
def closedApi : Api where
  sha256 _ := 0
  secp256k1RecoverPubkey _ _ _ := none
  payloadFromJson _ := none
  selfReplaceFromJson _ := none
  validatorSetFromJson _ := none

def deposit : MessageInfo × ExecuteMsg := (⟨"depositor", [⟨"coin", 5⟩]⟩, .regular [])

end Sample

end Kolme.Cosmos
