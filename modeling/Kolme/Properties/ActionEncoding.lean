import Kolme.Core.Payload
import Kolme.Properties.EthereumRotation

/-!
# Actions as the Ethereum contract reads them

The contract reads the data of an action as a bare tuple. Calls are encoded as such; rotations are
encoded as structures, with an offset in front that the contract takes for the first field.
-/

namespace Kolme.Ethereum

open Except

/-- A vector of bytes. It never holds more than the largest `isize`. -/
abbrev ByteVec := { bytes : Bytes // bytes.length < 2 ^ 63 }

/-- An action before it is encoded for the contract. -/
inductive CoreAction
  | execute (target : Address) (value : Word) (data : Bytes)
  | selfReplace (validatorType : ValidatorType) (current replacement : PublicKey)
  | newSet (set : Kolme.ValidatorSet) (rendered : String) (approvals : List SignatureWithRecovery)

namespace CoreAction

def encode : CoreAction → Except Kolme.Error Bytes
  | .execute target value data => .ok (encodeExecuteAction target value.val data)
  | .selfReplace validatorType current replacement =>
    .ok (encodeSelfReplaceAction validatorType current replacement)
  | .newSet set rendered approvals => encodeNewSetAction set rendered approvals

/-- The bytes that are signed and sent. -/
def payload (self : CoreAction) (id : U64) : Except Kolme.Error Bytes := do
  return abiEncodeU64AndBytes id (← self.encode)

def validatorTypeOf : ValidatorType → Nat
  | .listener => validatorListener
  | .processor => validatorProcessor
  | .approver => validatorApprover

/-- The fields in the contract's own types. -/
def fields : CoreAction → Except Kolme.Error Action
  | .execute target value data => .ok (.execute ⟨target, value, data⟩)
  | .selfReplace validatorType current replacement =>
    .ok (.selfReplace ⟨validatorTypeOf validatorType, keyBytes current, keyBytes replacement⟩)
  | .newSet set rendered approvals => do
    let approvals ← signaturesToEthereumBytes approvals
    return .newSet
      { set :=
          { processor := keyBytes set.processor
            listeners := (set.listeners.sort (· ≤ ·)).map keyBytes
            neededListeners := set.neededListeners
            approvers := (set.approvers.sort (· ≤ ·)).map keyBytes
            neededApprovers := set.neededApprovers }
        rendered := rendered.toByteArray.data.toList
        approvals }

def IsExecute : CoreAction → Prop
  | .execute .. => True
  | _ => False

/-- The contract reads the id and the fields of the action. -/
def ReadAs (self : CoreAction) (id : U64) (payload : Bytes) : Prop :=
  (∃ actionData, decodePayload payload = .ok (id, actionData)) ∧
    ∃ original, self.fields = .ok original ∧ actionOf payload = .ok original

end CoreAction

/-! ## Tuples -/

theorem decodePayload_encode {id : U64} {data : Bytes}
    (h : (abiEncodeU64AndBytes id data).length < 2 ^ 63) :
    decodePayload (abiEncodeU64AndBytes id data) = .ok (id, data) := by
  have hlength : (Abi.encode [.uint id.val, .bytes data]).length < 2 ^ 64 := h.trans (by decide)
  rw [decodePayload, abiEncodeU64AndBytes, Abi.head_encode (by simp),
    Abi.decodeUint_encode (n := id.val) (by simp) id.isLt (by decide),
    Abi.decodeBytes_encode (b := data) (by simp) hlength]
  rfl

theorem decodeAction_encode {actionType : UInt8} {data : Bytes}
    (h : (abiEncodeU8AndBytes actionType data).length < 2 ^ 63) :
    decodeAction (abiEncodeU8AndBytes actionType data) = .ok (actionType.toNat, data) := by
  have hlength : (Abi.encode [.uint actionType.toNat, .bytes data]).length < 2 ^ 64 :=
    h.trans (by decide)
  rw [decodeAction, abiEncodeU8AndBytes, Abi.head_encode (by simp),
    Abi.decodeUint_encode (n := actionType.toNat) (by simp) actionType.toNat_lt (by decide),
    Abi.decodeBytes_encode (b := data) (by simp) hlength]
  rfl

theorem decodeExecuteCall_encode {target : Address} {value : Word} {data : Bytes}
    (h : (Abi.encode [.uint target.val, .uint value.val, .bytes data]).length < 2 ^ 63) :
    decodeExecuteCall (Abi.encode [.uint target.val, .uint value.val, .bytes data]) =
      .ok ⟨target, value, data⟩ := by
  rw [decodeExecuteCall, Abi.head_encode (by simp),
    Abi.decodeUint_encode (n := target.val) (by simp) target.isLt (by decide),
    Abi.decodeUint_encode (n := value.val) (by simp) value.isLt (by decide),
    Abi.decodeBytes_encode (b := data) (by simp) (h.trans (by decide))]
  rfl

section

variable {id : U64} {data : Bytes}

/-- The two layers around the data of an action are read as they were encoded. -/
theorem decode_layers {actionType : UInt8}
    (h : (abiEncodeU64AndBytes id (abiEncodeU8AndBytes actionType data)).length < 2 ^ 63) :
    decodePayload (abiEncodeU64AndBytes id (abiEncodeU8AndBytes actionType data)) =
        .ok (id, abiEncodeU8AndBytes actionType data) ∧
      decodeAction (abiEncodeU8AndBytes actionType data) = .ok (actionType.toNat, data) ∧
      data.length < 2 ^ 63 := by
  have houter : (abiEncodeU8AndBytes actionType data).length ≤
      (Abi.encode [.uint id.val, .bytes (abiEncodeU8AndBytes actionType data)]).length :=
    Abi.length_le_encode (i := 1) rfl
  have hinner : data.length ≤ (Abi.encode [.uint actionType.toNat, .bytes data]).length :=
    Abi.length_le_encode (i := 1) rfl
  have haction : (abiEncodeU8AndBytes actionType data).length < 2 ^ 63 := houter.trans_lt h
  exact ⟨decodePayload_encode h, decodeAction_encode haction, hinner.trans_lt haction⟩

theorem actionOf_execute
    (h : (abiEncodeU64AndBytes id (abiEncodeU8AndBytes ACTION_EXECUTE data)).length < 2 ^ 63) :
    actionOf (abiEncodeU64AndBytes id (abiEncodeU8AndBytes ACTION_EXECUTE data)) =
      (decodeExecuteCall data >>= fun action => .ok (.execute action)) := by
  obtain ⟨hpayload, haction, -⟩ := decode_layers h
  simp only [actionOf, hpayload, haction, ok_bind]
  rfl

theorem actionOf_selfReplace
    (h : (abiEncodeU64AndBytes id (abiEncodeU8AndBytes ACTION_SELF_REPLACE data)).length < 2 ^ 63) :
    actionOf (abiEncodeU64AndBytes id (abiEncodeU8AndBytes ACTION_SELF_REPLACE data)) =
      (decodeSelfReplace data >>= fun action => .ok (.selfReplace action)) := by
  obtain ⟨hpayload, haction, -⟩ := decode_layers h
  simp only [actionOf, hpayload, haction, ok_bind]
  rfl

theorem actionOf_newSet
    (h : (abiEncodeU64AndBytes id (abiEncodeU8AndBytes ACTION_NEW_SET data)).length < 2 ^ 63) :
    actionOf (abiEncodeU64AndBytes id (abiEncodeU8AndBytes ACTION_NEW_SET data)) =
      (decodeNewSet data >>= fun action => .ok (.newSet action)) := by
  obtain ⟨hpayload, haction, -⟩ := decode_layers h
  simp only [actionOf, hpayload, haction, ok_bind]
  rfl

end

/-! ## Structures -/

section

variable {fields : List Abi.Field}

theorem offset_abiEncodeStruct : Abi.offset (abiEncodeStruct fields) 0 = some 32 :=
  Abi.offset_of_at (Abi.at_zero ..) (by decide)

/-- The offset in front of a structure is read as the type of the validator. -/
theorem decodeSelfReplace_struct {action : SelfReplace}
    (h : decodeSelfReplace (abiEncodeStruct fields) = .ok action) : action.validatorType = 32 := by
  have htype : Abi.decodeUint 8 (abiEncodeStruct fields) 0 = some 32 := by
    have hword : Abi.word (abiEncodeStruct fields) 0 = some 32 :=
      Abi.word_of_at (Abi.at_zero ..) (by decide)
    rw [Abi.decodeUint, Nat.mul_zero, hword]
    rfl
  simp only [decodeSelfReplace, htype, fromOption_eq_ok, Option.bind_eq_bind,
    Option.bind_eq_some_iff, Option.some.injEq] at h
  obtain ⟨-, -, _, rfl, current, -, replacement, -, rfl⟩ := h
  rfl

/-- What is read as the processor is as long as the head of the structure. -/
theorem decodeNewSet_struct {processor : Bytes} {new : NewSet}
    (hlength : 32 * (fields.length + 1) < 2 ^ 64)
    (h : decodeNewSet (abiEncodeStruct (.bytes processor :: fields)) = .ok new) :
    new.set.processor.length = 32 * (fields.length + 1) := by
  have hword : Abi.At (Abi.encode (.bytes processor :: fields)) 0
      (Bytes.toBE 32 (32 * (fields.length + 1))) := by
    rw [Abi.encode, Abi.heads_cons, List.append_assoc]
    exact Abi.at_zero ..
  have hword := Abi.at_append_left (Bytes.toBE 32 32) hword
  rw [Bytes.length_toBE] at hword
  have hprocessor : Abi.decodeBytes (abiEncodeStruct (.bytes processor :: fields)) 0 =
      some new.set.processor := by
    simp only [decodeNewSet, fromOption_eq_ok, Option.bind_eq_bind, Option.bind_eq_some_iff,
      Option.some.injEq] at h
    obtain ⟨-, -, _, hprocessor, _, -, _, -, _, -, _, -, _, -, _, -, rfl⟩ := h
    exact hprocessor
  rw [Abi.decodeBytes, Nat.mul_zero, offset_abiEncodeStruct] at hprocessor
  simp only [Option.bind_eq_bind, Option.bind_some, Abi.bytesAt] at hprocessor
  rw [abiEncodeStruct, Abi.offset_of_at hword hlength, Option.bind_some] at hprocessor
  split at hprocessor
  · rw [← Option.some.inj hprocessor, List.length_take, List.length_drop]
    omega
  · cases hprocessor

end

/-! ## Actions -/

theorem length_keyBytes (key : PublicKey) : (keyBytes key).length = 33 := Bytes.length_toBE ..

/-- The contract reads what was encoded exactly if the action is a call. -/
theorem action_read_iff (id : U64) (action : CoreAction) (payload : ByteVec)
    (hbuilt : action.payload id = .ok payload.val) :
    action.ReadAs id payload.val ↔ action.IsExecute := by
  obtain ⟨payload, hlength⟩ := payload
  change action.payload id = .ok payload at hbuilt
  change action.ReadAs id payload ↔ _
  simp only [CoreAction.payload, bind_eq_ok, pure_eq_ok, ok.injEq] at hbuilt
  obtain ⟨actionData, hencode, rfl⟩ := hbuilt
  have hpayload := decodePayload_encode hlength
  cases action with
  | execute target value data =>
    obtain rfl := ok.inj hencode
    rw [encodeExecuteAction] at hlength hpayload ⊢
    obtain ⟨-, -, hdata⟩ := decode_layers hlength
    refine ⟨fun _ => trivial, fun _ => ⟨⟨_, hpayload⟩, _, rfl, ?_⟩⟩
    rw [actionOf_execute hlength, decodeExecuteCall_encode hdata]
    rfl
  | selfReplace validatorType current replacement =>
    obtain rfl := ok.inj hencode
    unfold encodeSelfReplaceAction at hlength ⊢
    refine ⟨?_, False.elim⟩
    rintro ⟨-, original, horiginal, hread⟩
    obtain rfl := ok.inj horiginal
    rw [actionOf_selfReplace hlength, bind_eq_ok] at hread
    obtain ⟨decoded, hdecoded, hread⟩ := hread
    obtain rfl := Action.selfReplace.inj (ok.inj hread)
    have htype : CoreAction.validatorTypeOf validatorType = 32 := decodeSelfReplace_struct hdecoded
    cases validatorType <;> cases htype
  | newSet set rendered approvals =>
    simp only [CoreAction.encode, encodeNewSetAction, bind_eq_ok, pure_eq_ok, ok.injEq] at hencode
    obtain ⟨signatures, hsignatures, rfl⟩ := hencode
    refine ⟨?_, False.elim⟩
    rintro ⟨-, original, horiginal, hread⟩
    simp only [CoreAction.fields, bind_eq_ok, pure_eq_ok, ok.injEq] at horiginal
    obtain ⟨_, -, rfl⟩ := horiginal
    rw [actionOf_newSet hlength, bind_eq_ok] at hread
    obtain ⟨decoded, hdecoded, hread⟩ := hread
    obtain rfl := Action.newSet.inj (ok.inj hread)
    have hprocessor := decodeNewSet_struct (by simp) hdecoded
    rw [length_keyBytes] at hprocessor
    simp at hprocessor

namespace Sample

/-- The listener's key is replaced by another. -/
def listenerReplacement : CoreAction :=
  .selfReplace .listener (keyOf listenerKey) (keyOf strangerKey)

def listenerPayload : ByteVec where
  val := abiEncodeU64AndBytes 0
    (encodeSelfReplaceAction .listener (keyOf listenerKey) (keyOf strangerKey))
  property := by decide +kernel

/-- Seven wei are sent to the listener's address. -/
def transfer : CoreAction := .execute listenerAddress 7 []

def transferPayload : ByteVec where
  val := abiEncodeU64AndBytes 0 (encodeExecuteAction listenerAddress 7 [])
  property := by decide +kernel

end Sample

open Sample in
theorem action_read_iff_example : transfer.payload 0 = .ok transferPayload.val ∧
    transfer.ReadAs 0 transferPayload.val :=
  ⟨rfl, (action_read_iff 0 transfer transferPayload rfl).mpr trivial⟩

open Sample in
/-- The replacement of the listener's key is read as that of a validator of an unknown type, with
other keys. -/
theorem action_read_iff_counterexample :
    listenerReplacement.payload 0 = .ok listenerPayload.val ∧
    actionOf listenerPayload.val = .ok (.selfReplace
      ⟨32, List.replicate 32 0, (listenerPayload.val.drop 320).take 192⟩) ∧
    ¬listenerReplacement.ReadAs 0 listenerPayload.val := by
  have hread : actionOf listenerPayload.val = .ok (.selfReplace
      ⟨32, List.replicate 32 0, (listenerPayload.val.drop 320).take 192⟩) := by decide +kernel
  refine ⟨rfl, hread, ?_⟩
  rintro ⟨-, original, horiginal, horiginal'⟩
  obtain rfl := ok.inj horiginal
  rw [hread] at horiginal'
  cases (SelfReplace.mk.inj (Action.selfReplace.inj (ok.inj horiginal'))).1

end Kolme.Ethereum
