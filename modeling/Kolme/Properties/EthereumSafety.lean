import Kolme.Contracts.Ethereum.Execution
import Kolme.Contracts.Ethereum.Onchain
import Kolme.Lib.Numbering

/-!
# Safety of the Ethereum bridge under reentrancy

While the bridge is in a call, every call that comes back to it is reverted, so foreign code can
only force ether on it. A call that succeeds therefore does what it does alone, and the events and
actions of any history are numbered in order. What the bridge sends out is a deposit to itself or
the action of a payload that the stored validators signed.
-/

namespace Kolme.Ethereum

open Exec

variable {crypto : Crypto}

/-! ## Calls back into the bridge -/

theorem Foreign.induction {P : Foreign → Prop} (answers : ∀ success, P (.answers success))
    (sends : ∀ value rest, P rest → P (.sends value rest))
    (calls : ∀ call rest, (∀ success, P (rest success)) → P (.calls call rest))
    (tries : ∀ inner rest, P inner → (∀ success, P (rest success)) → P (.tries inner rest))
    (foreign : Foreign) : P foreign :=
  Foreign.rec (motive_1 := P) (motive_2 := fun _ => True) answers sends
    (fun call rest _ ih => calls call rest ih) tries (fun _ _ _ _ _ _ _ _ => trivial)
    (fun _ _ _ _ _ _ _ => trivial) foreign

@[simp] theorem reverting_eq_ok {σ α : Type} {x : Except Error α} {s s' : σ} {a : α} :
    reverting x s = (.ok a, s') ↔ x = .ok a ∧ s = s' := by
  cases x <;> simp [reverting, Except.mapError]

@[simp] theorem handOver_eq_ok {foreign : Onchain → Onchain × Bool} {w w' : Onchain} {success : Bool} :
    handOver foreign w = (.ok success, w') ↔ foreign w = (w', success) := by
  simp [handOver, Prod.ext_iff, and_comm]

@[simp] theorem emit_eq_ok {event : Event} {w w' : Onchain} {u : Unit} :
    emit event w = (.ok u, w') ↔ { w with log := w.log ++ [event] } = w' := by
  simp [emit]

theorem nonReentrant_eq_ok {body : Exec Revert Onchain Unit} {w w' : Onchain} {u : Unit} :
    nonReentrant body w = (.ok u, w') ↔ w.entered = false ∧
      ∃ w₁, body { w with entered := true } = (.ok (), w₁) ∧ { w₁ with entered := false } = w' := by
  simp only [nonReentrant, bind_eq_ok, get_eq_ok, ensure_eq_ok, modify_eq_ok]
  constructor
  · rintro ⟨_, _, ⟨rfl, rfl⟩, _, _, ⟨hentered, rfl⟩, _, _, rfl, _, w₁, hbody, rfl⟩
    exact ⟨hentered, w₁, hbody, rfl⟩
  · rintro ⟨hentered, w₁, hbody, rfl⟩
    exact ⟨_, _, ⟨rfl, rfl⟩, (), _, ⟨hentered, rfl⟩, (), _, rfl, (), w₁, hbody, rfl⟩

/-- A call that succeeds is not a call back. -/
theorem BridgeCall.entered_of_ok {call : BridgeCall} {w w' : Onchain}
    (h : call.perform crypto w = (.ok (), w')) : w.entered = false := by
  cases call with
  | regular =>
    simp only [BridgeCall.perform, bind_eq_ok, modify_eq_ok] at h
    obtain ⟨_, _, rfl, h⟩ := h
    exact (nonReentrant_eq_ok.mp h).1
  | executeSigned =>
    simp only [BridgeCall.perform, bind_eq_ok, ensure_eq_ok] at h
    obtain ⟨_, _, ⟨-, rfl⟩, h⟩ := h
    exact (nonReentrant_eq_ok.mp h).1

/-- Only ether has come in. -/
def OnlyPaid (w w' : Onchain) : Prop := ∃ balance, w.balance ≤ balance ∧ w' = { w with balance }

theorem OnlyPaid.refl (w : Onchain) : OnlyPaid w w := ⟨w.balance, le_rfl, rfl⟩

theorem OnlyPaid.trans {w₁ w₂ w₃ : Onchain} (h : OnlyPaid w₁ w₂) (h' : OnlyPaid w₂ w₃) :
    OnlyPaid w₁ w₃ := by
  obtain ⟨b, hb, rfl⟩ := h
  obtain ⟨b', hb', rfl⟩ := h'
  exact ⟨b', hb.trans hb', rfl⟩

/-- Foreign code that the bridge calls can only pay it. -/
theorem Foreign.run_entered (foreign : Foreign) {w : Onchain} (hentered : w.entered = true) :
    OnlyPaid w (foreign.run crypto w).1 := by
  induction foreign using Foreign.induction generalizing w with
  | answers success => exact .refl w
  | sends value rest ih =>
    exact OnlyPaid.trans ⟨w.balance + value, Nat.le_add_right _ _, rfl⟩ (ih hentered)
  | calls call rest ih =>
    rw [Foreign.run]
    split
    · rename_i hperform
      rw [call.entered_of_ok hperform] at hentered
      cases hentered
    · exact ih false hentered
  | tries inner rest ihInner ih =>
    rw [Foreign.run]
    have hinner := ihInner hentered
    split
    · rename_i w' hrun
      rw [hrun] at hinner
      obtain ⟨b, -, rfl⟩ := id hinner
      exact hinner.trans (ih true hentered)
    · exact ih false hentered

/-! ## One call -/

/-- The ether that a call takes along. -/
def Outgoing.value : Outgoing → Nat
  | .transferFrom .. => 0
  | .execute action => action.value.val

def BridgeCall.sender : BridgeCall → Address
  | .regular sender .. => sender
  | .executeSigned sender .. => sender

/-- What a successful call adds to the world. -/
structure Adds (w w' : Onchain) (event : Event) (new : List Outgoing) : Prop where
  entered : w'.entered = w.entered
  log : w'.log = w.log ++ [event]
  outgoing : w'.outgoing = w.outgoing ++ new
  balance : w.balance ≤ w'.balance + (new.map Outgoing.value).sum

/-- A world that never says no. -/
def willing (sender : Address) (value : Word) : Env where
  sender
  value
  call _ := true
  allowance _ := Fin.last _
  transferFrom _ _ := true

theorem takeTokens_ok {sender : Address} {allowance : Nat → Word}
    {run : Nat → Onchain → Onchain × Bool} {i : Nat} {deposits : List (Address × Word)} {w w' : Onchain}
    (hrun : ∀ i w, w.entered = true → OnlyPaid w (run i w).1) (hentered : w.entered = true)
    (h : takeTokens sender allowance run i deposits w = (.ok (), w')) :
    (∀ p ∈ deposits, p.1 ≠ 0) ∧ ∃ balance, w.balance ≤ balance ∧
      w' = { w with
        balance, outgoing := w.outgoing ++ deposits.map fun p => .transferFrom p.1 sender p.2 } := by
  induction deposits generalizing i w with
  | nil =>
    obtain ⟨-, rfl⟩ := pure_eq_ok.mp h
    exact ⟨fun p hp => (nomatch hp), w.balance, le_rfl, by simp⟩
  | cons p deposits ih =>
    obtain ⟨token, amount⟩ := p
    simp only [takeTokens, bind_eq_ok, ensure_eq_ok, modify_eq_ok, handOver_eq_ok] at h
    obtain ⟨_, _, ⟨htoken, rfl⟩, _, _, ⟨-, rfl⟩, _, _, rfl, success, w₁, hcall, _, _, ⟨-, rfl⟩,
      hrest⟩ := h
    have hpaid := hrun i { w with outgoing := w.outgoing ++ [.transferFrom token sender amount] }
      hentered
    rw [hcall] at hpaid
    obtain ⟨b, hb, rfl⟩ := hpaid
    obtain ⟨hall, b', hb', rfl⟩ := ih (by exact hentered) hrest
    refine ⟨List.forall_mem_cons.mpr ⟨htoken, hall⟩, b', hb.trans hb', ?_⟩
    simp

theorem takeDeposits_willing {sender : Address} {value : Word} {deposits : List (Address × Word)}
    (h : ∀ p ∈ deposits, p.1 ≠ 0) : takeDeposits (willing sender value) deposits = .ok () := by
  induction deposits with
  | nil => rfl
  | cons p deposits ih =>
    obtain ⟨hp, hall⟩ := List.forall_mem_cons.mp h
    have hallowed : p.2 ≤ (willing sender value).allowance p.1 := Nat.le_pred_of_lt p.2.isLt
    have hsuccess : (willing sender value).transferFrom p.1 p.2 = true := rfl
    simp only [takeDeposits, Except.ensure_of hp, Except.ok_bind, Except.ensure_of hallowed,
      Except.ensure_of hsuccess]
    exact ih hall

theorem depositBody_ok {sender : Address} {value : Word} {tokens : List Address}
    {amounts : List Word} {keys : List Bytes} {allowance : Nat → Word}
    {run : Nat → Onchain → Onchain × Bool} {w w' : Onchain}
    (hrun : ∀ i w, w.entered = true → OnlyPaid w (run i w).1) (hentered : w.entered = true)
    (h : depositBody crypto sender value tokens amounts keys allowance run w = (.ok (), w')) :
    ∃ event, Ethereum.regular crypto (willing sender value) w.state tokens amounts keys =
        .ok (w'.state, event) ∧
      Adds w w' event ((tokens.zip amounts).map fun p => .transferFrom p.1 sender p.2) := by
  simp only [depositBody, bind_eq_ok, ensure_eq_ok, reverting_eq_ok, get_eq_ok, emit_eq_ok,
    modify_eq_ok] at h
  obtain ⟨_, _, ⟨hlength, rfl⟩, regularKeys, _, ⟨hkeys, rfl⟩, _, w₁, htake, _, _, ⟨rfl, rfl⟩, _, _,
    rfl, _, _, ⟨rfl, rfl⟩, nextEventId, _, ⟨hnext, rfl⟩, rfl⟩ := h
  obtain ⟨htokens, b, hb, rfl⟩ := takeTokens_ok hrun hentered htake
  refine ⟨_, ?_, rfl, rfl, rfl, ?_⟩
  · simp only [Ethereum.regular, Except.ensure_of hlength, Except.ok_bind, takeDeposits_willing htokens]
    change (regularKeysFrom crypto (crypto.sha256 (Bytes.toBE 20 sender.val)) 0 keys >>= _) = _
    rw [hkeys, Except.ok_bind]
    rw [hnext]
    rfl
  · exact hb.trans (Nat.le_add_right _ _)

theorem callTarget_ok {run : Onchain → Onchain × Bool} {action : ExecuteCall} {w w' : Onchain}
    (hrun : ∀ w, w.entered = true → OnlyPaid w (run w).1) (hentered : w.entered = true)
    (h : callTarget run action w = (.ok (), w')) :
    ∃ balance, w.balance ≤ balance + action.value.val ∧
      w' = { w with balance, outgoing := w.outgoing ++ [.execute action] } := by
  simp only [callTarget, bind_eq_ok, get_eq_ok, ensure_eq_ok, modify_eq_ok, handOver_eq_ok] at h
  obtain ⟨_, _, ⟨rfl, rfl⟩, _, _, ⟨hvalue, rfl⟩, _, _, rfl, success, w₁, hcall, -, rfl⟩ := h
  have hpaid := hrun { w with
    balance := w.balance - action.value.val, outgoing := w.outgoing ++ [.execute action] } hentered
  rw [hcall] at hpaid
  obtain ⟨b, hb, rfl⟩ := hpaid
  exact ⟨b, by dsimp only at hb; omega, rfl⟩

/-- An action that is executed calls its target, or rotates the validator set. -/
theorem runAction_ok {run : Onchain → Onchain × Bool} {actionData : Bytes} {w w' : Onchain}
    (hrun : ∀ w, w.entered = true → OnlyPaid w (run w).1) (hentered : w.entered = true)
    (h : runAction crypto run actionData w = (.ok (), w')) :
    ∃ validatorSet balance new, executeAction crypto (fun _ => true) w.state.validatorSet actionData =
        .ok validatorSet ∧
      w' = { w with
        state := { w.state with validatorSet }, balance, outgoing := w.outgoing ++ new } ∧
      w.balance ≤ balance + (new.map Outgoing.value).sum ∧
      ∀ out ∈ new, ∃ data action, decodeAction actionData = .ok (actionExecute, data) ∧
        decodeExecuteCall data = .ok action ∧ out = .execute action := by
  simp only [runAction, bind_eq_ok, reverting_eq_ok] at h
  obtain ⟨⟨actionType, data⟩, _, ⟨haction, rfl⟩, h⟩ := h
  simp only [executeAction, haction, Except.ok_bind]
  split at h
  · rename_i htype
    subst htype
    simp only [bind_eq_ok, reverting_eq_ok] at h
    obtain ⟨action, _, ⟨hdecode, rfl⟩, hcall⟩ := h
    obtain ⟨b, hb, rfl⟩ := callTarget_ok hrun hentered hcall
    refine ⟨w.state.validatorSet, b, [.execute action], ?_, rfl, by simpa [Outgoing.value], ?_⟩
    · simp only [if_true, executeCall, hdecode, Except.ok_bind, Except.ensure_of]
      rfl
    · intro out hout
      exact ⟨data, action, rfl, hdecode, List.mem_singleton.mp hout⟩
  rename_i hexecute
  rw [if_neg hexecute]
  split at h
  · rename_i htype
    simp only [bind_eq_ok, get_eq_ok, reverting_eq_ok, modify_eq_ok] at h
    obtain ⟨_, _, ⟨rfl, rfl⟩, set, _, ⟨hset, rfl⟩, rfl⟩ := h
    exact ⟨set, w.balance, [], by rw [if_pos htype, hset], by simp, by simp, by simp⟩
  rename_i hreplace
  rw [if_neg hreplace]
  split at h
  · rename_i htype
    simp only [bind_eq_ok, get_eq_ok, reverting_eq_ok, modify_eq_ok] at h
    obtain ⟨_, _, ⟨rfl, rfl⟩, set, _, ⟨hset, rfl⟩, rfl⟩ := h
    exact ⟨set, w.balance, [], by rw [if_pos htype, hset], by simp, by simp, by simp⟩
  · exact absurd h throw_ne_ok

theorem signedBody_ok {sender : Address} {payload processor : Bytes} {approvers : List Bytes}
    {run : Onchain → Onchain × Bool} {w w' : Onchain}
    (hrun : ∀ w, w.entered = true → OnlyPaid w (run w).1) (hentered : w.entered = true)
    (h : signedBody crypto sender payload processor approvers run w = (.ok (), w')) :
    ∃ event new, Ethereum.executeSigned crypto (willing sender 0) w.state payload processor
        approvers = .ok (w'.state, event) ∧ Adds w w' event new ∧
      ∀ out ∈ new, ∃ action, actionOf payload = .ok (.execute action) ∧ out = .execute action := by
  simp only [signedBody, bind_eq_ok, ensure_eq_ok, reverting_eq_ok, get_eq_ok, emit_eq_ok,
    modify_eq_ok] at h
  obtain ⟨⟨id, actionData⟩, _, ⟨hpayload, rfl⟩, _, _, ⟨rfl, rfl⟩, _, _, ⟨hid, rfl⟩, expected, _,
    ⟨hexpected, rfl⟩, _, _, ⟨hverify, rfl⟩, _, _, ⟨hvalidate, rfl⟩, _, w₁, haction, _, _, ⟨rfl, rfl⟩,
    _, _, rfl, _, _, ⟨rfl, rfl⟩, nextEventId, _, ⟨hevent, rfl⟩, _, _, rfl, _, _, ⟨rfl, rfl⟩,
    nextActionId, _, ⟨hnext, rfl⟩, rfl⟩ := h
  obtain ⟨set, b, new, hexecute, rfl, hb, hnew⟩ := runAction_ok hrun hentered haction
  refine ⟨_, new, ?_, ⟨rfl, rfl, rfl, hb⟩, fun out hout => ?_⟩
  · simp only [Ethereum.executeSigned, hpayload, Except.ok_bind, Except.ensure_of hid, hexpected,
      hverify, hvalidate]
    change (executeAction crypto (fun _ => true) w.state.validatorSet actionData >>= _) = _
    rw [hexecute, Except.ok_bind]
    rw [hevent, Except.ok_bind, hnext]
    rfl
  · obtain ⟨data, action, hdecode, hcall, rfl⟩ := hnew out hout
    exact ⟨action, by simp [actionOf, hpayload, hdecode, hcall], rfl⟩

/-- The call without what the called contracts do. -/
def BridgeCall.alone : BridgeCall → Call
  | .regular sender value tokens amounts keys _ _ =>
    .regular (willing sender value) tokens amounts keys
  | .executeSigned sender _ payload processor approvers _ =>
    .executeSigned (willing sender 0) payload processor approvers

/-- The holder of a key signed the hash. -/
def SignedWith (crypto : Crypto) (hash : Word) (key sig : Bytes) : Prop :=
  ∃ a, validatorAddress crypto key = .ok a ∧ recoverSigner crypto hash sig = .ok a

/-- The payload of the call is an action to execute, and the processor of the set and a quorum of
its approvers signed exactly this payload. -/
inductive BridgeCall.Authorizes (crypto : Crypto) (set : ValidatorSet) (action : ExecuteCall) :
    BridgeCall → Prop
  | executeSigned {sender : Address} {value : Word} {payload processor : Bytes}
    {approvers : List Bytes} {target : Foreign} (carried : actionOf payload = .ok (.execute action))
    (signedProcessor : SignedWith crypto (crypto.sha256 payload) set.processor processor)
    (signers : Finset Bytes) (quorum : set.neededApprovers.val ≤ signers.card)
    (signed : ∀ key ∈ signers, key ∈ set.approvers ∧
      ∃ sig ∈ approvers, SignedWith crypto (crypto.sha256 payload) key sig) :
    Authorizes crypto set action (.executeSigned sender value payload processor approvers target)

/-- Distinct addresses of keys are addresses of distinct keys. -/
theorem exists_keys {keys : List Bytes} {addresses : Finset Address}
    (h : addresses ⊆ addressesOf crypto keys) :
    ∃ signers : Finset Bytes, signers.card = addresses.card ∧ ∀ key ∈ signers, key ∈ keys ∧
      ∃ a ∈ addresses, validatorAddress crypto key = .ok a := by
  have hkey : ∀ a : addresses, ∃ key ∈ keys, validatorAddress crypto key = .ok a.val := fun a =>
    mem_addressesOf.mp (h a.property)
  choose key hmem haddress using hkey
  have hinjective : Function.Injective key := fun a b hab =>
    Subtype.ext (Except.ok.inj ((haddress a).symm.trans (hab ▸ haddress b)))
  refine ⟨Finset.univ.image key, ?_, fun k hk => ?_⟩
  · rw [Finset.card_image_of_injective _ hinjective, Finset.card_univ, Fintype.card_coe]
  · obtain ⟨a, -, rfl⟩ := Finset.mem_image.mp hk
    exact ⟨hmem a, a, a.property, haddress a⟩

/-- A call that succeeds does what it does alone, and sends out deposits to the bridge or the
action it carries. -/
theorem BridgeCall.perform_ok {call : BridgeCall} {w w' : Onchain}
    (h : call.perform crypto w = (.ok (), w')) :
    ∃ event new, call.alone.perform crypto w.state = .ok (w'.state, event) ∧ Adds w w' event new ∧
      ∀ out ∈ new, (∃ token amount, out = .transferFrom token call.sender amount) ∨
        ∃ action, out = .execute action ∧ call.Authorizes crypto w.state.validatorSet action := by
  have hentered := call.entered_of_ok h
  cases call with
  | regular sender value tokens amounts keys allowance transferFrom =>
    simp only [BridgeCall.perform, bind_eq_ok, modify_eq_ok] at h
    obtain ⟨_, _, rfl, h⟩ := h
    obtain ⟨-, w₁, hbody, rfl⟩ := nonReentrant_eq_ok.mp h
    obtain ⟨event, hflat, hadds⟩ :=
      depositBody_ok (fun i w hw => (transferFrom i).run_entered hw) rfl hbody
    refine ⟨event, _, hflat, ⟨hentered.symm, hadds.log, hadds.outgoing, ?_⟩, fun out hout => ?_⟩
    · exact (Nat.le_add_right _ _).trans hadds.balance
    · obtain ⟨p, -, rfl⟩ := List.mem_map.mp hout
      exact .inl ⟨p.1, p.2, rfl⟩
  | executeSigned sender value payload processor approvers target =>
    simp only [BridgeCall.perform, bind_eq_ok, ensure_eq_ok] at h
    obtain ⟨_, _, ⟨-, rfl⟩, h⟩ := h
    obtain ⟨-, w₁, hbody, rfl⟩ := nonReentrant_eq_ok.mp h
    obtain ⟨event, new, hflat, hadds, hnew⟩ :=
      signedBody_ok (fun w hw => target.run_entered hw) rfl hbody
    refine ⟨event, new, hflat, ⟨hentered.symm, hadds.log, hadds.outgoing, hadds.balance⟩,
      fun out hout => .inr ?_⟩
    obtain ⟨action, haction, rfl⟩ := hnew out hout
    obtain ⟨action', haction', executes⟩ := executeSigned_ok hflat
    obtain rfl := Except.ok.inj (haction.symm.trans haction')
    generalize w₁.state.validatorSet = set' at executes
    cases executes with
    | execute _ outer =>
      obtain ⟨addresses, hsub, hquorum, hsigned⟩ := outer.approvers
      obtain ⟨signers, hcard, hsigners⟩ := exists_keys hsub
      refine ⟨action, rfl, .executeSigned haction outer.processor signers (hcard ▸ hquorum)
        fun key hkey => ?_⟩
      obtain ⟨hmem, a, ha, haddress⟩ := hsigners key hkey
      obtain ⟨sig, hsig, hrecover⟩ := hsigned a ha
      exact ⟨hmem, sig, hsig, a, haddress, hrecover⟩

/-! ## Histories -/

def Event.number : Event → Nat
  | .fundsReceived eventId .. => eventId.val
  | .signed eventId .. => eventId.val

def Event.actionNumber? : Event → Option Nat
  | .fundsReceived .. => none
  | .signed _ _ actionId => some actionId.val

/-- No call is going on, and the log is numbered in order. -/
structure Onchain.InOrder (w : Onchain) : Prop where
  entered : w.entered = false
  numbered : Numbered Event.number Event.actionNumber? w.log w.state.nextEventId.val
    w.state.nextActionId.val

/-- An event has the next number, and that of a signed action the next action's. -/
theorem Call.perform_numbers {call : Call} {s s' : State} {event : Event}
    (h : call.perform crypto s = .ok (s', event)) :
    event.number = s.nextEventId.val ∧ s'.nextEventId.val = s.nextEventId.val + 1 ∧
      (event.actionNumber? = none ∧ s'.nextActionId = s.nextActionId ∨
        event.actionNumber? = some s.nextActionId.val ∧
          s'.nextActionId.val = s.nextActionId.val + 1) := by
  cases call with
  | regular env tokens amounts keys =>
    simp only [Call.perform, Ethereum.regular, Except.bind_eq_ok, Except.ensure_eq_ok,
      Except.exists_unit, Except.pure_eq_ok, Except.ok.injEq, Prod.mk.injEq] at h
    obtain ⟨-, _, -, -, nextEventId, hnext, rfl, rfl⟩ := h
    exact ⟨rfl, increment_ok hnext, .inl ⟨rfl, rfl⟩⟩
  | executeSigned env payload processor approvers =>
    simp only [Call.perform, Ethereum.executeSigned, Except.bind_eq_ok, Except.ensure_eq_ok,
      Except.exists_unit, Except.pure_eq_ok, Except.ok.injEq, Prod.mk.injEq] at h
    obtain ⟨_, -, hid, _, -, -, -, _, -, nextEventId, hevent, nextActionId, hnext, rfl, rfl⟩ := h
    exact ⟨rfl, increment_ok hevent, .inr ⟨congrArg (fun id : U64 => some id.val) hid,
      increment_ok hnext⟩⟩

theorem Onchain.InOrder.perform {call : BridgeCall} {w w' : Onchain} (hw : w.InOrder)
    (h : call.perform crypto w = (.ok (), w')) : w'.InOrder := by
  obtain ⟨event, new, hflat, hadds, -⟩ := call.perform_ok h
  refine ⟨hadds.entered.trans hw.entered, ?_⟩
  obtain ⟨hid, hnext, haction⟩ := Call.perform_numbers hflat
  rw [hadds.log, hnext]
  rcases haction with ⟨hnone, hsame⟩ | ⟨hsome, hnextAction⟩
  · rw [hsame]
    exact hw.numbered.event hid hnone
  · rw [hnextAction]
    exact hw.numbered.action hid hsome

/-- Any history of calls by foreign code keeps the order. -/
theorem Onchain.InOrder.run (history : Foreign) {w : Onchain} (hw : w.InOrder) :
    (history.run crypto w).1.InOrder := by
  induction history using Foreign.induction generalizing w with
  | answers success => exact hw
  | sends value rest ih => exact ih ⟨hw.entered, hw.numbered⟩
  | calls call rest ih =>
    rw [Foreign.run]
    split
    · rename_i hperform
      exact ih true (hw.perform hperform)
    · exact ih false hw
  | tries inner rest ihInner ih =>
    rw [Foreign.run]
    have hinner := ihInner hw
    split
    · rename_i hrun
      rw [hrun] at hinner
      exact ih true hinner
    · exact ih false hw

/-- The world right after the deployment of the bridge. -/
def Onchain.deployed (validatorSet : ValidatorSet) : Onchain where
  state := { validatorSet, nextEventId := 1, nextActionId := 0 }
  entered := false
  balance := 0
  log := []
  outgoing := []

theorem deploy_state {set : ValidatorSet} {state : State} (h : deploy crypto set = .ok state) :
    state = (Onchain.deployed set).state := by
  simp only [deploy, Except.bind_eq_ok, Except.pure_eq_ok, Except.ok.injEq] at h
  obtain ⟨set', hset, rfl⟩ := h
  rw [setValidatorSet_ok hset]
  rfl

theorem Onchain.deployed_inOrder (set : ValidatorSet) : (Onchain.deployed set).InOrder := ⟨rfl, .nil⟩

end Kolme.Ethereum
