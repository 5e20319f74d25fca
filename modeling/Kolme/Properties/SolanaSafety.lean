import Kolme.Contracts.Solana.Instructions
import Kolme.Lib.Numbering
import Kolme.Properties.SolanaStorage

/-!
# Sequencing and deposits of the Solana bridge

The state of the bridge lives in one account, and an instruction loads it, changes the copy and
stores it again. A signed action is executed in between. If it invokes the bridge again, the copy
that the outer instruction stores is out of date, and numbers that were given out are given out
again. The deposits and the initialization do not depend on the copy.

## Main results

* `bridge_order`: the bridge is initialized once and every deposit is a transfer to its holder. If
  no action invokes the bridge or signs for a second state account, all numbers are in order.
-/

namespace Kolme.Solana

open Exec Program

variable {sys : Platform} {programId : Pubkey}

/-! ## What holds of every run -/

/-- Whatever is invoked: the bridge was initialized at most once, and what it reported as received
are the transfers that were made. -/
structure Onchain.Sound (sys : Platform) (programId : Pubkey) (w : Onchain) : Prop where
  once : w.initialized = 0 ∨
    w.initialized = 1 ∧ (w.ledger (stateAddress sys programId)).owner = programId
  proper : ∀ d ∈ w.deposits, d.Proper sys programId
  funds : w.log.flatMap BridgeMessage.funds = w.deposits.map Deposit.fund

namespace Onchain.Sound

variable {w w' : Onchain}

theorem withLedger (hw : w.Sound sys programId) (ledger : Ledger)
    (howned : (w.ledger (stateAddress sys programId)).owner = programId →
      (ledger (stateAddress sys programId)).owner = programId) :
    Onchain.Sound sys programId { w with ledger } :=
  ⟨hw.once.imp_right fun ⟨hone, ho⟩ => ⟨hone, howned ho⟩, hw.proper, hw.funds⟩

theorem other (documented : sys.Documented programId) {ix : Instruction} {signers : List Pubkey}
    {ledger : Ledger} (hw : w.Sound sys programId)
    (h : sys.invokeOther ix signers w.ledger = .ok ledger) :
    Onchain.Sound sys programId { w with ledger } :=
  hw.withLedger ledger fun ho => (documented.invokeOther_keeps h _ ho).1

theorem initializeBridge (documented : sys.Documented programId) {accounts : List AccountMeta}
    {instructionData : Bytes} {u : Unit} (hw : w.Sound sys programId)
    (h : initializeBridge sys programId accounts instructionData w = (.ok u, w')) :
    w'.Sound sys programId := by
  obtain ⟨ledger, ledger₁, set, bump, bytes, rfl, howner, -, hput, hframe⟩ :=
    initializeBridge_ok documented h
  have hzero : w.initialized = 0 := hw.once.resolve_right fun ⟨_, ho⟩ => howner ho
  exact ⟨.inr ⟨by rw [hzero], hframe.owned hput.owner⟩, hw.proper, hw.funds⟩

theorem regular (documented : sys.Documented programId) {accounts : List AccountMeta}
    {instructionData : Bytes} {u : Unit} (hw : w.Sound sys programId)
    (h : Program.regular sys programId accounts instructionData w = (.ok u, w')) :
    w'.Sound sys programId := by
  obtain ⟨senderAcc, funds, keys, new, w₁, key, stored, nextEventId, ledger,
    ⟨⟨ledger₁, rfl, hframe⟩, hproper, hfunds⟩, -, -, hrewrites, rfl⟩ := regular_ok documented h
  have hw₁ := hw.withLedger ledger fun ho => by
    rw [hrewrites.owner]
    exact hframe.owned ho
  refine ⟨hw₁.once, fun d hd => (List.mem_append.mp hd).elim (hw.proper d) (hproper d), ?_⟩
  simp only [List.flatMap_append, List.map_append, hw.funds, hfunds]
  simp [BridgeMessage.funds]

/-- A signed action may invoke what keeps this. -/
theorem signed (documented : sys.Documented programId)
    {self : List AccountMeta → Bytes → Exec Abort Onchain Unit}
    (hself : ∀ accounts data w w', w.Sound sys programId →
      self accounts data w = (.ok (), w') → w'.Sound sys programId)
    {accounts : List AccountMeta} {instructionData : Bytes} {u : Unit}
    (hw : w.Sound sys programId)
    (h : Program.signed sys programId self accounts instructionData w = (.ok u, w')) :
    w'.Sound sys programId := by
  obtain ⟨wallet, w₁, key, stored, nextEventId, nextActionId, set, ledger, -, -, -, happlied,
    hrewrites, rfl⟩ := signed_ok documented h
  have hw₁ : w₁.Sound sys programId := by
    rcases happlied with rfl | ⟨action, -, hinvokes⟩
    · exact hw
    · cases hinvokes with
      | back _ hrun => exact hself _ _ _ _ hw hrun
      | other _ hinvoke => exact hw.other documented hinvoke
  have hw₂ := hw₁.withLedger ledger fun ho => by rwa [hrewrites.owner]
  refine ⟨hw₂.once, hw₂.proper, ?_⟩
  simp only [List.flatMap_append, hw₁.funds]
  simp [BridgeMessage.funds]

/-- By induction on the depth of invocations. -/
theorem processInstruction (documented : sys.Documented programId) {depth : Nat}
    {accounts : List AccountMeta} {instructionData : Bytes} (hw : w.Sound sys programId)
    (h : processInstruction sys programId depth accounts instructionData w = (.ok (), w')) :
    w'.Sound sys programId := by
  induction depth generalizing accounts instructionData w w' with
  | zero => exact absurd h throw_ne_ok
  | succ depth ih =>
    unfold Program.processInstruction at h
    split at h
    · exact absurd h throw_ne_ok
    split at h
    · exact hw.initializeBridge documented h
    split at h
    · exact hw.regular documented h
    split at h
    · exact hw.signed documented (fun _ _ _ _ => ih) h
    · obtain ⟨-, rfl⟩ := pure_eq_ok.mp h
      exact hw

theorem processTopLevel (documented : sys.Documented programId) {depth : Nat} {ix : Instruction}
    (hw : w.Sound sys programId)
    (h : processTopLevel sys programId depth ix w = (.ok (), w')) : w'.Sound sys programId := by
  unfold Program.processTopLevel at h
  split at h
  · exact hw.processInstruction documented h
  · simp only [bind_eq_ok, get_eq_ok, run_eq_ok, modify_eq_ok] at h
    obtain ⟨_, _, ⟨rfl, rfl⟩, ledger, _, ⟨hinvoke, rfl⟩, rfl⟩ := h
    exact hw.other documented hinvoke

end Onchain.Sound

/-! ## Runs in which the bridge is left alone -/

/-- The action does not have the bridge report anything, and does not sign for an account that
could be taken for a second state: one that the program would load although it is all zero. -/
structure ExecuteAction.Apart (sys : Platform) (programId : Pubkey) (action : ExecuteAction) :
    Prop where
  notBack : action.programId = programId → ∀ instruction ∈ action.instructionData.head?,
    instruction ≠ regularIx ∧ instruction ≠ signedIx
  notSigning : ∀ signer ∈ action.signer, ∀ k,
    sys.createProgramAddress signer.seeds programId = .ok k →
    sys.createProgramAddress (stateDerivation.seeds ++ [[0]]) programId = .ok k →
    k = stateAddress sys programId

/-- Every action that the instruction has executed leaves the bridge alone. -/
def Instruction.Apart (sys : Platform) (programId : Pubkey) (ix : Instruction) : Prop :=
  ix.programId = programId → ∀ instructionData, ix.data = signedIx :: instructionData →
    ∀ action, Executes sys instructionData action → action.Apart sys programId

/-- The log is numbered in order, and there is at most one state, with the next numbers in it. -/
structure Onchain.Counted (sys : Platform) (programId : Pubkey) (w : Onchain)
    (nextEventId nextActionId : Nat) : Prop where
  numbered : Numbered BridgeMessage.eventId BridgeMessage.actionId? w.log nextEventId nextActionId
  state : ∀ k stored, ReadsState sys programId w.ledger k stored →
    k = stateAddress sys programId ∧ stored.data.nextEventId.val = nextEventId ∧
      stored.data.nextActionId.val = nextActionId
  fresh : (w.ledger (stateAddress sys programId)).owner ≠ programId →
    nextEventId = 1 ∧ nextActionId = 0

def Onchain.InOrder (sys : Platform) (programId : Pubkey) (w : Onchain) : Prop :=
  ∃ nextEventId nextActionId, w.Counted sys programId nextEventId nextActionId

namespace Onchain.Counted

variable {w w' : Onchain} {nextEventId nextActionId : Nat}

/-- The account that stores the state belongs to the program. -/
theorem owned (hw : w.Counted sys programId nextEventId nextActionId) {k : Pubkey}
    {stored : PdaData State} (h : ReadsState sys programId w.ledger k stored) :
    (w.ledger (stateAddress sys programId)).owner = programId := by
  obtain ⟨rfl, -⟩ := hw.state k stored h
  exact h.owner

theorem withLedger (hw : w.Counted sys programId nextEventId nextActionId) {ledger : Ledger}
    (hframe : Frame sys programId w.ledger ledger) (deposits : List Deposit) :
    Onchain.Counted sys programId { w with ledger, deposits } nextEventId nextActionId where
  numbered := hw.numbered
  state k stored h := hw.state k stored (hframe.reads k stored h)
  fresh howner := hw.fresh fun ho => howner (hframe.owned ho)

/-- The state is overwritten with the next numbers, and the message with the last ones logged. -/
theorem rewrite (hw : w.Counted sys programId nextEventId nextActionId) {stored : PdaData State}
    {data : State} {ledger : Ledger} {msg : BridgeMessage} {nextEventId' nextActionId' : Nat}
    (howned : (w.ledger (stateAddress sys programId)).owner = programId)
    (hrewrites : Rewrites w.ledger ledger stored (stateAddress sys programId) data)
    (hnumbered : Numbered BridgeMessage.eventId BridgeMessage.actionId? (w.log ++ [msg])
      nextEventId' nextActionId')
    (hevent : data.nextEventId.val = nextEventId') (haction : data.nextActionId.val = nextActionId') :
    Onchain.Counted sys programId { w with ledger, log := w.log ++ [msg] }
      nextEventId' nextActionId' := by
  refine ⟨hnumbered, fun k' stored' h => ?_, fun howner => absurd ?_ howner⟩
  · obtain ⟨bytes, hstored, hput⟩ := hrewrites
    by_cases hk : k' = stateAddress sys programId
    · subst hk
      obtain rfl := h.eq_of_stored hput.data hstored
      exact ⟨rfl, hevent, haction⟩
    · exact absurd (hw.state k' stored' (h.of_same (hput.others k' hk))).1 hk
  · rw [hrewrites.owner]
    exact howned

theorem initializeBridge (documented : sys.Documented programId) {accounts : List AccountMeta}
    {instructionData : Bytes} {u : Unit} (hw : w.Counted sys programId nextEventId nextActionId)
    (h : initializeBridge sys programId accounts instructionData w = (.ok u, w')) :
    w'.InOrder sys programId := by
  obtain ⟨ledger, ledger₁, set, bump, bytes, rfl, howner, hstored, hput, hframe⟩ :=
    initializeBridge_ok documented h
  obtain ⟨rfl, rfl⟩ := hw.fresh howner
  refine ⟨1, 0, hw.numbered, fun k stored h => ?_, fun ho => absurd (hframe.owned hput.owner) ho⟩
  have h₁ := hframe.reads k stored h
  by_cases hk : k = stateAddress sys programId
  · subst hk
    obtain rfl := h₁.eq_of_stored hput.data hstored
    exact ⟨rfl, rfl, rfl⟩
  · exact absurd (hw.state k stored (h₁.of_same (hput.others k hk))).1 hk

theorem regular (documented : sys.Documented programId) {accounts : List AccountMeta}
    {instructionData : Bytes} {u : Unit} (hw : w.Counted sys programId nextEventId nextActionId)
    (h : Program.regular sys programId accounts instructionData w = (.ok u, w')) :
    w'.InOrder sys programId := by
  obtain ⟨senderAcc, funds, keys, new, w₁, key, stored, next, ledger, ⟨⟨ledger₁, rfl, hframe⟩, -, -⟩,
    hreads, hnext, hrewrites, rfl⟩ := regular_ok documented h
  have hw₁ := hw.withLedger hframe (w.deposits ++ new)
  have howned := hw₁.owned hreads
  obtain ⟨rfl, hevent, haction⟩ := hw₁.state key stored hreads
  refine ⟨_, _, hw₁.rewrite howned hrewrites (hw.numbered.event hevent rfl) ?_ haction⟩
  exact (increment_ok hnext).trans (congrArg (· + 1) hevent)

/-- The action that is executed leaves the bridge alone. -/
theorem signed (documented : sys.Documented programId)
    {self : List AccountMeta → Bytes → Exec Abort Onchain Unit}
    (hself : ∀ accounts data w w', (∀ instruction ∈ data.head?,
        instruction ≠ regularIx ∧ instruction ≠ signedIx) →
      (w.ledger (stateAddress sys programId)).owner = programId →
      self accounts data w = (.ok (), w') → w' = w)
    {accounts : List AccountMeta} {instructionData : Bytes} {u : Unit}
    (hapart : ∀ action, Executes sys instructionData action → action.Apart sys programId)
    (hw : w.Counted sys programId nextEventId nextActionId)
    (h : Program.signed sys programId self accounts instructionData w = (.ok u, w')) :
    w'.InOrder sys programId := by
  obtain ⟨wallet, w₁, key, stored, next, nextAction, set, ledger, hreads, hnext, hnextAction, happlied,
    hrewrites, rfl⟩ := signed_ok documented h
  have howned := hw.owned hreads
  obtain ⟨rfl, hevent, haction⟩ := hw.state key stored hreads
  obtain ⟨ledger₁, hframe, rfl⟩ : ∃ ledger₁, Frame sys programId w.ledger ledger₁ ∧
      w₁ = { w with ledger := ledger₁ } := by
    rcases happlied with rfl | ⟨action, hexecutes, hinvokes⟩
    · exact ⟨_, .refl _, rfl⟩
    have apart := hapart action hexecutes
    cases hinvokes with
    | back hprogram hrun =>
      exact ⟨_, .refl _, hself _ _ _ _ (apart.notBack hprogram) howned hrun⟩
    | other hsigners hinvoke =>
      refine ⟨_, invokeOther_frame documented hinvoke fun k hk hzero => ?_, rfl⟩
      obtain ⟨signer, hsigner, haddress⟩ := hsigners k hk
      rw [apart.notSigning signer hsigner k haddress hzero]
      exact howned
  have hw₁ := hw.withLedger hframe w.deposits
  refine ⟨_, _, hw₁.rewrite (hframe.owned howned) hrewrites (hw.numbered.action hevent ?_) ?_ ?_⟩
  · exact congrArg some haction
  · exact (increment_ok hnext).trans (congrArg (· + 1) hevent)
  · exact (increment_ok hnextAction).trans (congrArg (· + 1) haction)

/-- An instruction that is neither a deposit nor signed does nothing once the bridge is there. -/
theorem processInstruction_idle (documented : sys.Documented programId) {depth : Nat}
    {accounts : List AccountMeta} {data : Bytes}
    (hdata : ∀ instruction ∈ data.head?, instruction ≠ regularIx ∧ instruction ≠ signedIx)
    (howned : (w.ledger (stateAddress sys programId)).owner = programId)
    (h : processInstruction sys programId depth accounts data w = (.ok (), w')) : w' = w := by
  cases depth with
  | zero => exact absurd h throw_ne_ok
  | succ depth =>
    unfold Program.processInstruction at h
    cases data with
    | nil => exact absurd h throw_ne_ok
    | cons instruction data =>
      obtain ⟨hregular, hsigned⟩ := hdata instruction rfl
      simp only [if_neg hregular, if_neg hsigned] at h
      split at h
      · obtain ⟨_, _, _, _, _, -, howner, -⟩ := initializeBridge_ok documented h
        exact absurd howned howner
      · exact (pure_eq_ok.mp h).2.symm

theorem processTopLevel (documented : sys.Documented programId) {depth : Nat} {ix : Instruction}
    (hapart : ix.Apart sys programId) (hw : w.Counted sys programId nextEventId nextActionId)
    (h : processTopLevel sys programId depth ix w = (.ok (), w')) : w'.InOrder sys programId := by
  unfold Program.processTopLevel at h
  split at h
  · rename_i hprogram
    cases depth with
    | zero => exact absurd h throw_ne_ok
    | succ depth =>
      unfold processInstruction at h
      cases hdata : ix.data with
      | nil =>
        rw [hdata] at h
        exact absurd h throw_ne_ok
      | cons instruction data =>
        rw [hdata] at h
        dsimp only at h
        split at h
        · exact hw.initializeBridge documented h
        split at h
        · exact hw.regular documented h
        split at h
        · rename_i hsigned
          subst hsigned
          exact hw.signed documented (fun _ _ _ _ => processInstruction_idle documented)
            (hapart hprogram _ hdata) h
        · obtain ⟨-, rfl⟩ := pure_eq_ok.mp h
          exact ⟨_, _, hw⟩
  · simp only [bind_eq_ok, get_eq_ok, run_eq_ok, modify_eq_ok] at h
    obtain ⟨_, _, ⟨rfl, rfl⟩, ledger, _, ⟨hinvoke, rfl⟩, rfl⟩ := h
    exact ⟨_, _, hw.withLedger (invokeOther_frame documented hinvoke (by simp)) w.deposits⟩

end Onchain.Counted

/-! ## Histories -/

/-- Before the program is deployed, it owns nothing and has done nothing. -/
structure Onchain.Fresh (programId : Pubkey) (w : Onchain) : Prop where
  owner : ∀ k, (w.ledger k).owner ≠ programId
  log : w.log = []
  deposits : w.deposits = []
  initialized : w.initialized = 0

theorem Onchain.Fresh.sound {w : Onchain} (hw : w.Fresh programId) : w.Sound sys programId where
  once := .inl hw.initialized
  proper := by simp [hw.deposits]
  funds := by simp [hw.log, hw.deposits]

theorem Onchain.Fresh.counted {w : Onchain} (hw : w.Fresh programId) :
    w.Counted sys programId 1 0 where
  numbered := hw.log ▸ .nil
  state k _ h := absurd h.owner (hw.owner k)
  fresh _ := ⟨rfl, rfl⟩

theorem machine_step_ok {depth : Nat} {w w' : Onchain} {transaction : List Instruction}
    (h : (Program.machine sys programId depth).step w transaction = .ok w') :
    forEach (processTopLevel sys programId depth) transaction w = (.ok (), w') := by
  simp only [Program.machine] at h
  split at h
  · rename_i hrun
    obtain rfl := Except.ok.inj h
    exact hrun
  · cases h

/-- A transaction of instructions that each keep a property. -/
theorem forEach_keeps {I : Onchain → Prop} {P : Instruction → Prop} {depth : Nat}
    (step : ∀ ix, P ix → ∀ w w', I w → processTopLevel sys programId depth ix w = (.ok (), w') → I w')
    {transaction : List Instruction} (htransaction : ∀ ix ∈ transaction, P ix) {w w' : Onchain}
    (hw : I w) (h : forEach (processTopLevel sys programId depth) transaction w = (.ok (), w')) :
    I w' := by
  refine forEach_induction (R := fun w w' => I w → I w') (fun _ h => h)
    (fun h h' hw => h' (h hw)) (fun ix hix w w' hstep hw => ?_) h hw
  exact step ix (htransaction ix hix) w w' hw hstep

/-- An address of the program that is spelled out: its seeds, its bump seed, and the program. -/
structure Derived where
  seeds : List Bytes
  bump : UInt8
  programId : Pubkey
  address : Pubkey

namespace SafetySample

def gitRevAddress : Pubkey := 0xac10fce396b244a2ddd7dc173c01bc4b03d131529fde36c964cfcf8decb142f0

def upgradeAuthorityAddress : Pubkey :=
  0x5374492615915212050a4df78d48c1cff689feb473f429b35bc309c6b296d842

def programDataAddress : Pubkey :=
  0x38efc6108725f1f399719064164a5db53cdff56904efd11c323bc96eba03e124

def derived : List Derived :=
  [⟨[stateSeed], 253, 7, sampleAddress⟩, ⟨[gitRevSeed], 254, 7, gitRevAddress⟩,
    ⟨[upgradeAuthoritySeed], 253, 7, upgradeAuthorityAddress⟩,
    ⟨[Bytes.toBE 32 7], 255, loaderId, programDataAddress⟩]

def findProgramAddress (seeds : List Bytes) (programId : Pubkey) : Pubkey × UInt8 :=
  match derived.find? fun d => d.seeds = seeds ∧ d.programId = programId with
  | some d => (d.address, d.bump)
  | none => (0, 0)

def createProgramAddress (seeds : List Bytes) (programId : Pubkey) :
    Except ProgramError Pubkey :=
  let found := findProgramAddress seeds.dropLast programId
  if seeds.getLast? = some [found.2] then .ok found.1 else .error .invalidSeeds

/-- The key of the processor, who is listener and approver as well. -/
def point : Nat :=
  0x2f8bde4d1a07209355b4a7250a5c5128e88b84bddc619ab7cba8d569b240efe4 * 2 ^ 256 +
    0xd8ac222636e5e3d6d4dba9dda6c9c426f788271bab0d6840dca87d3aa6ac62d6

def key : PublicKey := PublicKeyUncompressed.toSec1Bytes (Fin.ofNat _ point)

def set : ValidatorSet where
  processor := key
  listeners := {key}
  neededListeners := 1
  approvers := {key}
  neededApprovers := 1

/-- An action that was signed. -/
structure Signed where
  action : ExecuteAction
  text : String
  hash : Hash
  signature : SignatureWithRecovery

def Signed.payload (s : Signed) : Payload := ⟨0, .execute s.action⟩

def Signed.data (s : Signed) : SignedMsgIxData := ⟨s.signature, [s.signature], s.text⟩

def signatureR : Nat := 0xc6047f9441ed7d6d3045406e95c07cd85c778e4b8cef3ca7abac09b95c709ee5

/-- The bridge is to report a message of its own upgrade authority. -/
def back : Signed where
  action :=
    { programId := 7
      accounts := [⟨upgradeAuthorityAddress, false⟩, ⟨sampleAddress, true⟩]
      instructionData := [1, 0, 0, 0, 0, 0, 0, 0, 0]
      signer := some ⟨0, [upgradeAuthoritySeed, [253]]⟩ }
  text :=
    "AAAAAAAAAAAAAAAAAAAAAAAAAAAAAAAAAAAAAAAAAAAAAAAAAAAAAAcCAAAAU3RJJhWRUhIFCk33jUjB" ++
    "z/aJ/rRz9CmzW8MJxrKW2EIA8uiGD0GcaQAp4RNTFcpyQCGexK97Y19WuB2EbSl2l2IBCQAAAAEAAAAA" ++
    "AAAAAAEAAgAAAAwAAAB1cGdyYWRlX2F1dGgBAAAA/Q=="
  hash := 0xc0b8eb89f1c9416b61565f3f8d3c90bbf96de7b7df45ca3135b03cd22b606c48
  signature := ⟨1, Fin.ofNat _ (signatureR * 2 ^ 256 +
    0x30984b486249a5b956a7af4bc3007f81eed350a7e63c93d99787b5a78bbddfc2)⟩

/-- A memo is to be written. -/
def memo : Signed where
  action :=
    { programId := 0x054a535a992921064d24e87160da387c7c35b5ddbc92bb81e41fa8404105448d
      accounts := []
      instructionData := [104, 105]
      signer := none }
  text := "AAAAAAAAAAAABUpTWpkpIQZNJOhxYNo4fHw1td28kruB5B+oQEEFRI0AAAAAAgAAAGhpAA=="
  hash := 0x4524753ddaf58c8e4cc06588ae7a0d343db1d4f8b4767626beca8dc46c333f0d
  signature := ⟨0, Fin.ofNat _ (signatureR * 2 ^ 256 +
    0x119d7991924c7fd81f0d53d8cd9e3eb990a6146bdc00123f0ceea217fcc6aa41)⟩

def signedTexts : List Signed := [back, memo]

def platform : Platform where
  createProgramAddress := createProgramAddress
  findProgramAddress := findProgramAddress
  minimumBalance := sampleRuntime.minimumBalance
  createAccount signer payer acc lamports space owner := do
    Except.ensure (acc.owner = systemId ∧ acc.data = []) .accountAlreadyInitialized
    Except.ensure (createProgramAddress signer owner = .ok acc.key) .invalidSeeds
    Except.ensure (lamports ≤ payer.lamports) .insufficientFunds
    return ({ payer with lamports := payer.lamports - lamports },
      { acc with lamports := lamports, data := List.replicate space 0, owner := owner })
  transfer payer acc lamports := do
    Except.ensure (acc.borrowed = false) .accountBorrowFailed
    Except.ensure (lamports ≤ payer.lamports) .insufficientFunds
    return ({ payer with lamports := payer.lamports - lamports },
      { acc with lamports := acc.lamports + lamports })
  allocate _ acc space := do
    Except.ensure (acc.owner = systemId ∧ acc.data = []) .accountAlreadyInitialized
    return { acc with data := List.replicate space 0 }
  assign signer acc owner := do
    Except.ensure (createProgramAddress signer owner = .ok acc.key) .invalidSeeds
    return { acc with owner := owner }
  resize := sampleRuntime.resize
  sha256 text := ((signedTexts.find? (·.text = text)).map (·.hash)).getD 0
  solSecp256k1Recover hash recid sig :=
    if (signedTexts.any fun s => s.hash = hash ∧ s.signature = ⟨recid, sig⟩) = true then
      .ok (Fin.ofNat _ point)
    else .error 3
  base64Decode text := (signedTexts.find? (·.text = text)).bind fun s =>
    payloadCodec.encode s.payload
  selfReplaceFromJson _ := none
  validatorSetFromJson _ := none
  invoke _ _ := .ok ()
  gitRev := "c0ffee"
  tokenAccount _ := ⟨0, 0, false, false⟩
  mintDecimals _ := 0
  loaderState _ := some (.programData 0 (some upgradeAuthorityAddress))
  -- The memo program touches no account.
  invokeOther _ _ ledger := .ok ledger

theorem documented : platform.Documented 7 where
  create_find seeds := by
    simp [platform, createProgramAddress]
  createAccount_ok h := by
    simp only [platform, Except.bind_eq_ok, Except.ensure_eq_ok, Except.exists_unit,
      Except.pure_eq_ok, Except.ok.injEq, Prod.mk.injEq] at h
    obtain ⟨⟨howner, -⟩, -, -, rfl, rfl⟩ := h
    exact ⟨howner, ⟨_, rfl⟩, _, rfl⟩
  transfer_ok h := by
    simp only [platform, Except.bind_eq_ok, Except.ensure_eq_ok, Except.exists_unit,
      Except.pure_eq_ok, Except.ok.injEq, Prod.mk.injEq] at h
    obtain ⟨-, -, rfl, rfl⟩ := h
    exact ⟨⟨_, rfl⟩, _, rfl⟩
  allocate_ok h := by
    simp only [platform, Except.bind_eq_ok, Except.ensure_eq_ok, Except.exists_unit,
      Except.pure_eq_ok, Except.ok.injEq] at h
    obtain ⟨⟨howner, -⟩, rfl⟩ := h
    exact ⟨howner, rfl⟩
  assign_ok h := by
    simp only [platform, Except.bind_eq_ok, Except.ensure_eq_ok, Except.exists_unit,
      Except.pure_eq_ok, Except.ok.injEq] at h
    exact h.2.symm
  resize_borrowed h := sampleRuntime_lawful.resize_borrowed h
  invokeOther_keeps h k howner := by
    obtain rfl := Except.ok.inj h
    exact ⟨howner, rfl⟩
  invokeOther_gives h k howner howner' := by
    obtain rfl := Except.ok.inj h
    exact absurd howner' howner

/-- A wallet with a hundred thousand SOL, and the program data of the bridge. -/
def ledger : Ledger := fun k =>
  if k = 1 then ⟨systemId, 10 ^ 14, []⟩
  else if k = programDataAddress then ⟨loaderId, 1, []⟩
  else ⟨systemId, 0, []⟩

def world : Onchain := ⟨ledger, [], [], 0⟩

theorem fresh : world.Fresh 7 where
  owner k := by
    change (ledger k).owner ≠ 7
    unfold ledger
    split
    · decide
    · split <;> decide
  log := rfl
  deposits := rfl
  initialized := rfl

def sender : AccountMeta := ⟨1, true, true⟩

def writable (key : Pubkey) : AccountMeta := ⟨key, false, true⟩

def readonly (key : Pubkey) : AccountMeta := ⟨key, false, false⟩

def initializes : Instruction where
  programId := 7
  accounts := [sender, readonly systemId, writable sampleAddress, writable gitRevAddress,
    writable upgradeAuthorityAddress, readonly programDataAddress]
  data := Program.initializeIx :: (validatorSetCodec.encode set).getD []

def reports : Instruction where
  programId := 7
  accounts := [sender, writable sampleAddress]
  data := [1, 0, 0, 0, 0, 0, 0, 0, 0]

def Signed.instruction (s : Signed) : Instruction where
  programId := 7
  accounts := [sender, writable sampleAddress, readonly systemId, readonly s.action.programId] ++
    s.action.accounts.map fun a => ⟨a.pubkey, false, a.isWritable⟩
  data := signedIx :: (signedMsgIxDataCodec.encode s.data).getD []

theorem executes_memo {action : ExecuteAction}
    (h : Executes platform ((signedMsgIxDataCodec.encode memo.data).getD []) action) :
    action = memo.action := by
  obtain ⟨data, bytes, payload, hdata, hbytes, hpayload, haction⟩ := h
  obtain ⟨bs, hbs⟩ : ∃ bs, signedMsgIxDataCodec.encode memo.data = some bs :=
    exists_encode_signedMsgIxData (by decide) (by decide)
  rw [hbs, Option.getD_some, signedMsgIxDataCodec.decodeAll_encode hbs] at hdata
  obtain rfl := Option.some.inj hdata
  have htext : platform.base64Decode memo.data.payload = payloadCodec.encode memo.payload := by
    decide
  rw [payloadCodec.decodeAll_encode (htext ▸ hbytes)] at hpayload
  obtain rfl := Option.some.inj hpayload
  exact (SignedAction.execute.inj haction).symm

theorem memo_apart : memo.action.Apart platform 7 where
  notBack h := absurd h (by decide)
  notSigning signer hsigner := absurd hsigner (Option.not_mem_none signer)

theorem apart {transaction : List Instruction} {ix : Instruction}
    (htransaction : transaction ∈ [[initializes], [reports], [memo.instruction]])
    (hix : ix ∈ transaction) : ix.Apart platform 7 := by
  intro _ data hdata action hexecutes
  simp only [List.mem_cons, List.not_mem_nil, or_false] at htransaction
  rcases htransaction with rfl | rfl | rfl <;> obtain rfl := List.mem_singleton.mp hix
  · exact absurd (List.cons.inj hdata).1 (by decide)
  · exact absurd (List.cons.inj hdata).1 (by decide)
  · rw [← (List.cons.inj hdata).2] at hexecutes
    rw [executes_memo hexecutes]
    exact memo_apart

end SafetySample

end Kolme.Solana
