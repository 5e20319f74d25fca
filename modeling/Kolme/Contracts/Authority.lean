import Kolme.Contracts.Signers

/-!
# Who decides over a bridge contract

What the contracts on different chains have in common, apart from the hosts they run on: a validator
set and two counters. A deposit advances the events. A signed action has to be the next one, leads
to a validator set, and is signed by the processor and a quorum of approvers of that set.
-/

namespace Kolme

/-- Groups whose sizes fit the counters of the contracts. -/
structure ValidatorSet.Bounded (set : ValidatorSet) : Prop where
  listeners : set.listeners.card < 2 ^ 16
  approvers : set.approvers.card < 2 ^ 16

namespace Authority

/-- How a chain reads signatures and the texts that rotate a set. -/
structure Reader where
  signer : String → SignatureWithRecovery → Option PublicKey
  selfReplace : String → Option SelfReplace
  validatorSet : String → Option ValidatorSet

/-- An action, as far as the validator set is concerned. -/
inductive Action
  | execute
  | selfReplace (rendered : String) (signature : SignatureWithRecovery)
  | newSet (rendered : String) (approvals : List SignatureWithRecovery)

variable (reader : Reader)

/-- The keys that made the signatures, in order, as signatures of the given text. -/
def Reader.Signed (text : String) (signatures : List SignatureWithRecovery)
    (keys : List PublicKey) : Prop :=
  signatures.map (reader.signer text) = keys.map some

/-- The set to which an action leads. A replacement is signed by the key that is replaced and is not
in its group yet; a new set is approved by distinct keys that fill two groups of the old one. -/
inductive Leads (set : ValidatorSet) : Action → ValidatorSet → Prop
  | execute : Leads set .execute set
  | selfReplace {rendered : String} {signature : SignatureWithRecovery} {old new : PublicKey}
    {validatorType : ValidatorType} (signed : reader.signer rendered signature = some old)
    (parsed : reader.selfReplace rendered = some ⟨validatorType, new⟩)
    (member : old ∈ set.membersOf validatorType)
    (fresh : validatorType = .processor ∨ new ∉ set.membersOf validatorType) :
    Leads set (.selfReplace rendered signature) (set.replaceValidator validatorType old new)
  | newSet {rendered : String} {approvals : List SignatureWithRecovery} {keys : List PublicKey}
    {new : ValidatorSet} (parsed : reader.validatorSet rendered = some new)
    (signed : reader.Signed rendered approvals keys) (distinct : keys.Nodup)
    (filled : set.FilledBy keys.toFinset) :
    Leads set (.newSet rendered approvals) new

/-- The processor of a set and a quorum of its approvers, none of them twice, signed a text. Other
signatures may be among those of the approvers. -/
structure CoSigns (set : ValidatorSet) (text : String) (processor : SignatureWithRecovery)
    (approvers : List SignatureWithRecovery) : Prop where
  processor : reader.signer text processor = some set.processor
  approvers : ∃ keys, reader.Signed text approvers keys ∧
    (keys.filter (· ∈ set.approvers)).Nodup ∧
    set.neededApprovers.val ≤ (keys.filter (· ∈ set.approvers)).length

/-- What a contract stores. -/
@[ext] structure State where
  set : ValidatorSet
  nextEventId : BridgeEventId
  nextActionId : BridgeActionId

/-- The step of a signed action. -/
structure State.Signed (state : State) (id : BridgeActionId) (action : Action) (text : String)
    (processor : SignatureWithRecovery) (approvers : List SignatureWithRecovery)
    (state' : State) : Prop where
  id : id = state.nextActionId
  leads : Leads reader state.set action state'.set
  coSigns : CoSigns reader state'.set text processor approvers
  nextEventId : state'.nextEventId = state.nextEventId + 1
  nextActionId : state'.nextActionId = state.nextActionId + 1

/-- The steps of a contract: deposits and signed actions. -/
inductive State.Step : State → State → Prop
  | deposit (state : State) : Step state { state with nextEventId := state.nextEventId + 1 }
  | signed {state state' : State} {id : BridgeActionId} {action : Action} {text : String}
    {processor : SignatureWithRecovery} {approvers : List SignatureWithRecovery}
    (h : state.Signed reader id action text processor approvers state') : Step state state'

variable {reader}

theorem Reader.signed_nil {text : String} {keys : List PublicKey} :
    reader.Signed text [] keys ↔ keys = [] := by
  cases keys <;> simp [Reader.Signed]

theorem Reader.signed_cons {text : String} {sig : SignatureWithRecovery}
    {sigs : List SignatureWithRecovery} {keys : List PublicKey} :
    reader.Signed text (sig :: sigs) keys ↔ ∃ key rest, keys = key :: rest ∧
      reader.signer text sig = some key ∧ reader.Signed text sigs rest := by
  cases keys with
  | nil => simp [Reader.Signed]
  | cons key rest => simp [Reader.Signed, eq_comm]

theorem Reader.signed_iff_forall₂ {text : String} {sigs : List SignatureWithRecovery}
    {keys : List PublicKey} : reader.Signed text sigs keys ↔
      List.Forall₂ (fun sig key => reader.signer text sig = some key) sigs keys := by
  rw [Reader.Signed, ← List.forall₂_eq_eq_eq, List.forall₂_map_left_iff, List.forall₂_map_right_iff]

/-- Only the texts and signatures of the action matter. -/
theorem Leads.congr {reader' : Reader} {set set' : ValidatorSet} {action : Action}
    (h : Leads reader set action set') (texts : ∀ rendered signature,
      action = .selfReplace rendered signature →
        reader'.signer rendered signature = reader.signer rendered signature ∧
          reader'.selfReplace rendered = reader.selfReplace rendered)
    (sets : ∀ rendered approvals, action = .newSet rendered approvals →
      approvals.map (reader'.signer rendered) = approvals.map (reader.signer rendered) ∧
        reader'.validatorSet rendered = reader.validatorSet rendered) :
    Leads reader' set action set' := by
  cases h with
  | execute => exact .execute
  | selfReplace signed parsed member fresh =>
    obtain ⟨hsigner, hread⟩ := texts _ _ rfl
    exact .selfReplace (hsigner.trans signed) (hread.trans parsed) member fresh
  | newSet parsed signed distinct filled =>
    obtain ⟨hsigners, hread⟩ := sets _ _ rfl
    exact .newSet (hread.trans parsed) (hsigners.trans signed) distinct filled

/-- A replacement keeps the sizes of the groups. -/
theorem Leads.bounded {set set' : ValidatorSet} {action : Action}
    (h : Leads reader set action set') (bounded : set.Bounded)
    (proposed : ∀ text new, reader.validatorSet text = some new → new.Bounded) :
    set'.Bounded := by
  cases h with
  | execute => exact bounded
  | newSet parsed => exact proposed _ _ parsed
  | @selfReplace _ _ old new validatorType signed parsed member fresh =>
    cases validatorType with
    | processor => exact ⟨bounded.listeners, bounded.approvers⟩
    | listener =>
      have hcard := ValidatorSet.card_replaceKey member (fresh.resolve_left (by decide))
      exact ⟨hcard.trans_lt bounded.listeners, bounded.approvers⟩
    | approver =>
      have hcard := ValidatorSet.card_replaceKey member (fresh.resolve_left (by decide))
      exact ⟨bounded.listeners, hcard.trans_lt bounded.approvers⟩

theorem State.Step.bounded {state state' : State} (h : state.Step reader state')
    (bounded : state.set.Bounded)
    (proposed : ∀ text new, reader.validatorSet text = some new → new.Bounded) :
    state'.set.Bounded := by
  cases h with
  | deposit => exact bounded
  | signed h => exact h.leads.bounded bounded proposed

/-- Along a run of a contract every action is an event too, and the set is the same as long as there
is no action. -/
theorem State.counters {state state' : State}
    (h : Relation.ReflTransGen (State.Step reader) state state') :
    state.nextActionId ≤ state'.nextActionId ∧
      state.nextEventId + (state'.nextActionId - state.nextActionId) ≤ state'.nextEventId ∧
      (state'.nextActionId = state.nextActionId → state'.set = state.set) := by
  unfold BridgeActionId BridgeEventId
  induction h with
  | refl => exact ⟨le_rfl, by omega, fun _ => rfl⟩
  | tail _ hstep ih =>
    obtain ⟨haction, hevent, hset⟩ := ih
    cases hstep with
    | deposit => exact ⟨haction, Nat.le_succ_of_le hevent, hset⟩
    | signed h =>
      have hnextAction := h.nextActionId
      have hnextEvent := h.nextEventId
      unfold BridgeActionId at hnextAction
      unfold BridgeEventId at hnextEvent
      exact ⟨by omega, by omega, fun heq => by omega⟩

end Authority

end Kolme
