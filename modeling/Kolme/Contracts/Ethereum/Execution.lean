import Kolme.Contracts.Ethereum.Signers

/-!
# What a successful call does

The effect of a signed call on the stored validator set, with the checks it has passed. A
self-replacement is authorised by the signers that the *action itself* brings in; the key that
is overwritten is never asked. A new set is authorised by the signers of the `rendered` text, but
what is stored are the fields that stand next to that text.
-/

namespace Kolme.Ethereum

open Except

/-! ## The action of a payload -/

inductive Action
  | execute (action : ExecuteCall)
  | selfReplace (action : SelfReplace)
  | newSet (action : NewSet)
deriving DecidableEq

/-- The action a payload carries. -/
def actionOf (payload : Bytes) : Except Error Action := do
  let (_, actionData) ← decodePayload payload
  let (actionType, data) ← decodeAction actionData
  if actionType = actionExecute then return .execute (← decodeExecuteCall data)
  if actionType = actionSelfReplace then return .selfReplace (← decodeSelfReplace data)
  if actionType = actionNewSet then return .newSet (← decodeNewSet data)
  throw (.invalidActionType actionType)

/-! ## What a signed call can do -/

/-- The effect of a successful signed call on the stored set, with the checks it has passed. -/
inductive Executes (crypto : Crypto) (set : ValidatorSet) (payloadHash : Word) (processor : Bytes)
    (approvers : List Bytes) : Action → ValidatorSet → Prop
  | execute (action : ExecuteCall)
      (outer : OuterSigners crypto payloadHash ⟨set.processor, set.approvers, set.neededApprovers⟩
        processor approvers) :
      Executes crypto set payloadHash processor approvers (.execute action) set
  | replaceProcessor (action : SelfReplace) (isType : action.validatorType = validatorProcessor)
      (valid : ∃ a, validatorAddress crypto action.replacement = .ok a)
      (outer : OuterSigners crypto payloadHash
        ⟨action.replacement, set.approvers, set.neededApprovers⟩ processor approvers) :
      Executes crypto set payloadHash processor approvers (.selfReplace action)
        { set with processor := action.replacement }
  | replaceListener (action : SelfReplace) (i : Nat)
      (isType : action.validatorType = validatorListener)
      (valid : ∃ a, validatorAddress crypto action.replacement = .ok a)
      (found : findValidatorIndex crypto set.listeners action.current = some i)
      (outer : OuterSigners crypto payloadHash ⟨set.processor, set.approvers, set.neededApprovers⟩
        processor approvers) :
      Executes crypto set payloadHash processor approvers (.selfReplace action)
        { set with listeners := set.listeners.set i action.replacement }
  | replaceApprover (action : SelfReplace) (i : Nat)
      (isType : action.validatorType = validatorApprover)
      (valid : ∃ a, validatorAddress crypto action.replacement = .ok a)
      (found : findValidatorIndex crypto set.approvers action.current = some i)
      (outer : OuterSigners crypto payloadHash
        ⟨set.processor, set.approvers.set i action.replacement, set.neededApprovers⟩ processor
        approvers) :
      Executes crypto set payloadHash processor approvers (.selfReplace action)
        { set with approvers := set.approvers.set i action.replacement }
  | newSet (action : NewSet) (signers : Finset Address)
      (inner : InnerSigners crypto set (crypto.sha256 action.rendered) action.approvals signers)
      (outer : OuterSigners crypto payloadHash
        ⟨action.set.processor, action.set.approvers, action.set.neededApprovers⟩ processor
        approvers)
      (valid : setValidatorSet crypto action.set = .ok action.set) :
      Executes crypto set payloadHash processor approvers (.newSet action) action.set

section

variable {crypto : Crypto}

theorem setValidatorSet_ok {set set' : ValidatorSet} (h : setValidatorSet crypto set = .ok set') :
    set' = set := by
  simp only [setValidatorSet, bind_eq_ok, ensure_eq_ok, pure_eq_ok, ok.injEq] at h
  grind

theorem validateReplace_ok {validatorType : Nat} {keys : List Bytes} {current replacement : Bytes}
    {u : Unit}
    (h : validateReplaceValidatorInArray crypto validatorType keys current replacement = .ok u) :
    ∃ i, findValidatorIndex crypto keys current = some i := by
  simp only [validateReplaceValidatorInArray, bind_eq_ok, fromOption_eq_ok] at h
  obtain ⟨i, hi, -⟩ := h
  exact ⟨i, hi⟩

section

variable {set set' : ValidatorSet} {payloadHash : Word} {processor : Bytes}
  {approvers : List Bytes} {actionData data : Bytes} {expected : ExpectedSigners}

theorem executeCall_executes (haction : decodeAction actionData = .ok (actionExecute, data))
    (hexpected : expectedSignersForAction crypto set actionData = .ok expected)
    (outer : OuterSigners crypto payloadHash expected processor approvers) (call : ExecuteCall) :
    Executes crypto set payloadHash processor approvers (.execute call) set := by
  obtain rfl : ⟨set.processor, set.approvers, set.neededApprovers⟩ = expected := by
    simpa [expectedSignersForAction, haction, actionExecute, actionNewSet, actionSelfReplace] using
      hexpected
  exact .execute call outer

theorem selfReplace_executes {action : SelfReplace}
    (haction : decodeAction actionData = .ok (actionSelfReplace, data))
    (hdecode : decodeSelfReplace data = .ok action)
    (hexpected : expectedSignersForAction crypto set actionData = .ok expected)
    (outer : OuterSigners crypto payloadHash expected processor approvers)
    (hvalid : validateSelfReplace crypto set action = .ok ())
    (hdo : doSelfReplace crypto set action = .ok set') :
    Executes crypto set payloadHash processor approvers (.selfReplace action) set' := by
  obtain ⟨validatorType, current, replacement⟩ := action
  simp only [expectedSignersForAction, haction, ok_bind, actionSelfReplace, actionNewSet, hdecode,
    OfNat.one_ne_ofNat, if_false, ne_eq, not_true_eq_false] at hexpected
  simp only [validateSelfReplace, bind_eq_ok, ensure_eq_ok, exists_unit] at hvalid
  obtain ⟨-, a, ha, hvalid⟩ := hvalid
  by_cases hp : validatorType = validatorProcessor
  · rw [if_pos hp] at hexpected
    obtain rfl := Except.ok.inj hexpected
    simp only [doSelfReplace, if_pos hp] at hdo
    obtain rfl := Except.ok.inj hdo
    exact .replaceProcessor ⟨validatorType, current, replacement⟩ hp ⟨a, ha⟩ outer
  by_cases hl : validatorType = validatorListener
  · rw [if_neg hp, if_pos hl] at hvalid
    obtain ⟨i, hi⟩ := validateReplace_ok hvalid
    rw [if_neg hp, if_pos hl] at hexpected
    obtain rfl := Except.ok.inj hexpected
    simp only [doSelfReplace, if_neg hp, if_pos hl, doReplaceValidatorInArray, hi,
      fromOption_some, ok_bind] at hdo
    obtain rfl := Except.ok.inj hdo
    exact .replaceListener ⟨validatorType, current, replacement⟩ i hl ⟨a, ha⟩ hi outer
  by_cases hr : validatorType = validatorApprover
  · rw [if_neg hp, if_neg hl, if_pos hr] at hvalid
    obtain ⟨i, hi⟩ := validateReplace_ok hvalid
    rw [if_neg hp, if_neg hl, if_pos hr, hi] at hexpected
    obtain rfl := Except.ok.inj hexpected
    simp only [doSelfReplace, if_neg hp, if_neg hl, if_pos hr, doReplaceValidatorInArray, hi,
      fromOption_some, ok_bind] at hdo
    obtain rfl := Except.ok.inj hdo
    exact .replaceApprover ⟨validatorType, current, replacement⟩ i hr ⟨a, ha⟩ hi outer
  · simp [doSelfReplace, hp, hl, hr] at hdo

theorem newSet_executes {action : NewSet}
    (haction : decodeAction actionData = .ok (actionNewSet, data))
    (hdecode : decodeNewSet data = .ok action)
    (hexpected : expectedSignersForAction crypto set actionData = .ok expected)
    (outer : OuterSigners crypto payloadHash expected processor approvers)
    (hexecute : executeNewSet crypto set data = .ok set') :
    Executes crypto set payloadHash processor approvers (.newSet action) set' := by
  simp only [expectedSignersForAction, haction, ok_bind, hdecode, if_true, pure_eq_ok,
    ok.injEq] at hexpected
  simp only [executeNewSet, hdecode, ok_bind, bind_eq_ok, exists_unit] at hexecute
  obtain ⟨happrovals, hset⟩ := hexecute
  obtain ⟨signers, inner⟩ := verifyNewSetApprovals_ok happrovals
  obtain rfl := setValidatorSet_ok hset
  exact .newSet action signers inner (hexpected ▸ outer) hset

end

theorem executeSigned_ok {env : Env} {s s' : State} {payload processor : Bytes}
    {approvers : List Bytes} {event : Event}
    (h : executeSigned crypto env s payload processor approvers = .ok (s', event)) :
    ∃ action, actionOf payload = .ok action ∧
      Executes crypto s.validatorSet (crypto.sha256 payload) processor approvers action
        s'.validatorSet := by
  simp only [executeSigned, bind_eq_ok, ensure_eq_ok, exists_unit, pure_eq_ok, ok.injEq,
    Prod.mk.injEq] at h
  obtain ⟨⟨id, actionData⟩, hpayload, -, expected, hexpected, hverify, hvalidate, set', hexecute,
    _, -, _, -, rfl, -⟩ := h
  have outer := verifySignatures_ok hverify
  simp only [executeAction, bind_eq_ok] at hexecute
  obtain ⟨⟨actionType, data⟩, haction, hexecute⟩ := hexecute
  simp only [validateActionForExecution, haction, ok_bind] at hvalidate
  split at hexecute
  · rename_i htype
    subst htype
    simp only [executeCall, bind_eq_ok, ensure_eq_ok, pure_eq_ok, ok.injEq] at hexecute
    obtain ⟨_, ⟨call, hcall, -⟩, rfl⟩ := hexecute
    refine ⟨.execute call, ?_, executeCall_executes haction hexpected outer call⟩
    simp [actionOf, hpayload, haction, hcall]
  split at hexecute
  · rename_i htype
    subst htype
    simp only [executeSelfReplace, bind_eq_ok, exists_unit] at hexecute
    obtain ⟨action, hdecode, hvalid, hdo⟩ := hexecute
    refine ⟨.selfReplace action, ?_,
      selfReplace_executes haction hdecode hexpected outer hvalid hdo⟩
    simp [actionOf, hpayload, haction, hdecode, actionExecute, actionSelfReplace]
  split at hexecute
  · rename_i htype
    subst htype
    have hdecode : ∃ action, decodeNewSet data = .ok action := by
      simp only [executeNewSet, bind_eq_ok] at hexecute
      exact hexecute.imp fun _ h => h.1
    obtain ⟨action, hdecode⟩ := hdecode
    refine ⟨.newSet action, ?_, newSet_executes haction hdecode hexpected outer hexecute⟩
    simp [actionOf, hpayload, haction, hdecode, actionExecute, actionSelfReplace, actionNewSet]
  · cases hexecute

theorem regular_ok {env : Env} {s s' : State} {tokens : List Address} {amounts : List Word}
    {keys : List Bytes} {event : Event}
    (h : regular crypto env s tokens amounts keys = .ok (s', event)) :
    s'.validatorSet = s.validatorSet ∧ s'.nextActionId = s.nextActionId := by
  simp only [regular, bind_eq_ok, ensure_eq_ok, exists_unit] at h
  obtain ⟨-, _, -, -, h⟩ := h
  simp only [pure_eq_ok, ok.injEq, Prod.mk.injEq] at h
  obtain ⟨_, -, rfl, -⟩ := h
  exact ⟨rfl, rfl⟩

end

end Kolme.Ethereum
