import Kolme.Core.Runs

/-!
# A counter app

The simplest app: each of its messages adds one to a counter. It runs on a chain with two Cosmos
bridges that hold the same asset. The texts that validators and users sign are rendered as JSON,
and keys are recovered from a table of signatures.
-/

namespace Kolme

/-! ## JSON -/

namespace Json

/-- A string with its quotes and backslashes escaped. -/
def string (s : String) : String :=
  let escape (c : Char) : List Char := if c.val = 34 ∨ c.val = 92 then [Char.ofNat 92, c] else [c]
  "\"" ++ String.ofList (s.toList.flatMap escape) ++ "\""

def array (items : List String) : String := "[" ++ ",".intercalate items ++ "]"

def object (fields : List (String × String)) : String :=
  "\x7b" ++ ",".intercalate (fields.map fun f => string f.1 ++ ":" ++ f.2) ++ "\x7d"

/-- A variant of an enumeration with its contents. -/
def variant (name contents : String) : String := object [(name, contents)]

/-- The lower-case hexadecimal digits of a number, as a string. -/
def hex (digits n : Nat) : String :=
  let shown := Nat.toDigits 16 n
  string (String.ofList (List.replicate (digits - shown.length) '0' ++ shown))

def option {α : Type} (render : α → String) : Option α → String
  | none => "null"
  | some a => render a

def publicKey (key : PublicKey) : String := hex 66 key.val

def publicKeys (keys : Finset PublicKey) : String :=
  array ((keys.sort (· ≤ ·)).map publicKey)

def signature (sig : Signature) : String := hex 128 sig.val

def signatureWithRecovery (sig : SignatureWithRecovery) : String :=
  object [("recid", toString sig.recid), ("sig", signature sig.sig)]

/-- A text is rendered as a string, whatever it stands for. -/
def signed {α : Type} (s : SignedTaggedJson α) : String :=
  object [("message", string s.message.serialized), ("signature", signature s.signature),
    ("recovery_id", toString s.recoveryId)]

def decimal (d : Decimal) : String :=
  let digits := toString (d.int.val / 10 ^ d.scale.val)
  let fraction := toString (d.int.val % 10 ^ d.scale.val)
  let sign := if d.negative then "-" else ""
  if d.scale.val = 0 then string (sign ++ digits)
  else
    let zeros := String.ofList (List.replicate (d.scale.val - fraction.length) '0')
    string (sign ++ digits ++ "." ++ zeros ++ fraction)

def validatorType : ValidatorType → String
  | .listener => string "listener"
  | .processor => string "processor"
  | .approver => string "approver"

def selfReplace (s : SelfReplace) : String :=
  object [("validator_type", validatorType s.validatorType),
    ("replacement", publicKey s.replacement)]

def validatorSet (set : ValidatorSet) : String :=
  object [("processor", publicKey set.processor), ("listeners", publicKeys set.listeners),
    ("needed_listeners", toString set.neededListeners.val),
    ("approvers", publicKeys set.approvers),
    ("needed_approvers", toString set.neededApprovers.val)]

def externalChain : ExternalChain → String
  | .osmosisTestnet => "OsmosisTestnet"
  | .neutronTestnet => "NeutronTestnet"
  | .osmosisLocal => "OsmosisLocal"
  | .solanaMainnet => "SolanaMainnet"
  | .solanaTestnet => "SolanaTestnet"
  | .solanaDevnet => "SolanaDevnet"
  | .solanaLocal => "SolanaLocal"
  | .ethereumMainnet => "EthereumMainnet"
  | .ethereumSepolia => "EthereumSepolia"
  | .ethereumLocal => "EthereumLocal"
  | .passThrough => "PassThrough"

def bridgeContract : BridgeContract → String
  | .neededCosmosBridge codeId =>
    variant "NeededCosmosBridge" (object [("code_id", toString codeId.val)])
  | .neededSolanaBridge programId =>
    variant "NeededSolanaBridge" (object [("program_id", string programId)])
  | .neededEthereumBridge => string "NeededEthereumBridge"
  | .deployed contract => variant "Deployed" (string contract)

def chainConfig (config : ChainConfig) : String :=
  object [("assets", object (config.assets.toList.map fun (name, asset) =>
      (name, object [("decimals", toString asset.decimals),
        ("asset_id", toString asset.assetId.val)]))),
    ("bridge", bridgeContract config.bridge)]

def genesisInfo (info : GenesisInfo) : String :=
  object [("kolme_ident", string info.kolmeIdent),
    ("validator_set", validatorSet info.validatorSet),
    ("chains", object (info.chains.toList.map fun (chain, config) =>
      (externalChain chain, chainConfig config))),
    ("version", string info.version)]

def bridgeEvent : BridgeEvent → String
  | .instantiated contract => variant "Instantiated" (object [("contract", string contract)])
  | .regular wallet funds keys => variant "Regular" (object [("wallet", string wallet),
      ("funds", array (funds.map fun fund =>
        object [("denom", string fund.denom), ("amount", toString fund.amount.val)])),
      ("keys", array (keys.map publicKey))])
  | .signed wallet actionId => variant "Signed" (object [("wallet", string wallet),
      ("action_id", toString actionId)])

def authMessage : AuthMessage → String
  | .addPublicKey key => variant "add_public_key" (object [("key", publicKey key)])
  | .removePublicKey key => variant "remove_public_key" (object [("key", publicKey key)])
  | .addWallet wallet => variant "add_wallet" (object [("wallet", string wallet)])
  | .removeWallet wallet => variant "remove_wallet" (object [("wallet", string wallet)])

def bankMessage : BankMessage → String
  | .transfer asset dest amount => variant "transfer" (object [("asset", toString asset.val),
      ("dest", toString dest.val), ("amount", decimal amount)])
  | .withdraw asset chain dest amount => variant "withdraw" (object [("asset", toString asset.val),
      ("chain", string (externalChain chain)), ("dest", string dest), ("amount", decimal amount)])

def adminMessage : AdminMessage → String
  | .selfReplace s => variant "self_replace" (signed s)
  | .newSet s => variant "new_set" (object [("validator_set", signed s)])
  | .migrateContract s => variant "migrate_contract" (signed s)
  | .upgrade s => variant "upgrade" (signed s)
  | .approve id sig => variant "approve" (object [("admin_proposal_id", toString id),
      ("signature", signatureWithRecovery sig)])

def message : Message Unit → String
  | .genesis info => variant "genesis" (genesisInfo info)
  | .app () => variant "app" "null"
  | .listener chain eventId event => variant "listener"
      (object [("chain", string (externalChain chain)), ("event_id", toString eventId),
        ("event", bridgeEvent event)])
  | .approve chain actionId sig => variant "approve"
      (object [("chain", string (externalChain chain)), ("action_id", toString actionId),
        ("signature", signatureWithRecovery sig)])
  | .processorApprove chain actionId processor approvers => variant "processor_approve"
      (object [("chain", string (externalChain chain)), ("action_id", toString actionId),
        ("processor", signatureWithRecovery processor),
        ("approvers", array (approvers.map signatureWithRecovery))])
  | .auth msg => variant "auth" (authMessage msg)
  | .bank msg => variant "bank" (bankMessage msg)
  | .admin msg => variant "admin" (adminMessage msg)

def transaction (tx : Transaction Unit) : String :=
  object [("pubkey", publicKey tx.pubkey), ("nonce", toString tx.nonce.val),
    ("created", string "2025-01-01T00:00:00Z"),
    ("messages", array (tx.messages.map message)),
    ("max_height", option toString tx.maxHeight)]

def logEvent : LogEvent → String
  | .processedBridgeEvent eventId accountId => variant "processed_bridge_event"
      (variant "regular" (object [("bridge_event_id", toString eventId),
        ("account_id", toString accountId.val)]))
  | .newAdminProposal id => variant "new_admin_proposal" (toString id)
  | .adminProposalApproved id => variant "admin_proposal_approved" (toString id)
  | .newBridgeAction chain id => variant "new_bridge_action"
      (object [("chain", string (externalChain chain)), ("id", toString id)])

def cosmosMsg : Cosmos.CosmosMsg → String
  | .bankSend toAddress coins => variant "bank" (variant "send"
      (object [("to_address", string toAddress),
        ("amount", array (coins.map fun coin =>
          object [("denom", string coin.denom), ("amount", string (toString coin.amount))]))]))
  | .other rendered => rendered

def cosmosAction : Cosmos.CosmosAction → String
  | .cosmos messages => variant "cosmos" (array (messages.map cosmosMsg))
  | .selfReplace rendered sig => variant "self_replace"
      (object [("rendered", string rendered), ("signature", signatureWithRecovery sig)])
  | .newSet rendered approvals => variant "new_set" (object [("rendered", string rendered),
      ("approvals", array (approvals.map signatureWithRecovery))])

def cosmosPayload (payload : Cosmos.PayloadWithId) : String :=
  object [("id", toString payload.id), ("action", cosmosAction payload.action)]

end Json

/-! ## Signed texts -/

/-- Byte strings are compared as lists, so that a signed text can be checked by evaluation. -/
instance (priority := high) decidableEqByteArray : DecidableEq ByteArray := fun a b =>
  decidable_of_iff (a.data.toList = b.data.toList)
    ⟨fun h => ByteArray.ext (Array.ext' h), fun h => by rw [h]⟩

/-- A text with a signature of it. -/
structure SignedText where
  text : String
  signature : Signature
  recoveryId : UInt8
  key : PublicKey

namespace SignedText

/-- The text as the rendering of a value. -/
def tagged {α : Type} (self : SignedText) (value : α) : SignedTaggedJson α :=
  ⟨⟨self.text, value⟩, self.signature, self.recoveryId⟩

def signatureWithRecovery (self : SignedText) : SignatureWithRecovery :=
  ⟨self.recoveryId, self.signature⟩

/-- The key of a signature that is listed for the message. -/
def recover (table : List SignedText) (msg : ByteArray) (sig : Signature) (recid : UInt8) :
    Option PublicKey :=
  (table.find? fun t => t.signature = sig).bind fun t =>
    if t.recoveryId = recid ∧ t.text.toByteArray = msg then some t.key else none

theorem recover_text {table : List SignedText} {t : SignedText}
    (hdistinct : (table.map SignedText.signature).Nodup) (hmem : t ∈ table) :
    recover table t.text.toByteArray t.signature t.recoveryId = some t.key := by
  have hfind : table.find? (fun t' => t'.signature = t.signature) = some t := by
    obtain ⟨before, after, rfl⟩ := List.append_of_mem hmem
    rw [List.find?_append, List.find?_cons_of_pos (by simp), List.find?_eq_none.mpr, Option.none_or]
    intro t' ht' heq
    rw [List.map_append, List.map_cons] at hdistinct
    have hne := (List.nodup_append.mp hdistinct).2.2 _ (List.mem_map_of_mem ht') _
      (List.mem_cons_self ..)
    exact hne (of_decide_eq_true heq)
  simp [recover, hfind]

end SignedText

/-! ## The app -/

def counter (info : GenesisInfo) : App where
  State := Nat
  Message := Unit
  World := Unit
  genesisInfo := info
  newState := .ok 0
  execute _ view _ := .done (view.appState + 1)

/-- The counter calls nothing. -/
theorem counter_only (info : GenesisInfo) : (counter info).Only fun _ _ => False :=
  fun _ _ _ => trivial

/-- The libraries as far as transfers and rotations on Cosmos chains use them, with the given
signatures. -/
def counterEnv (table : List SignedText) : Externals where
  arith := exactArith
  recoverFromMsg := SignedText.recover table
  logEventToJson := Json.logEvent
  cosmosPayloadToJson := Json.cosmosPayload
  wasmMigrate _ _ msg := .other msg
  passThroughTransferToJson _ _ _ := ""
  base64Encode _ := ""
  base64Decode _ := none
  solanaPubkeyFromStr _ := none
  findProgramAddress _ programId := (programId, 0)
  getAssociatedTokenAddress _ mint _ := mint
  loaderUpgrade _ _ _ _ := ([], [])
  ethereumAddressFromStr _ := none
  ethereumAddressToString _ := ""

/-! ## Runs of signed transactions -/

namespace Node

variable {app : App} (env : Externals)

/-- What is checked of a transaction besides its signature. -/
def validateMessages (self : Node app) (tx : Transaction app.Message) : Except Error Unit :=
  if self.nextHeight = 0 then do
    tx.ensureIsGenesis
    Except.ensure (tx.pubkey = self.frameworkState.validatorSet.processor)
      (.conditionFailed "tx.pubkey == self.get_processor_pubkey()")
  else tx.ensureNoGenesis

/-- The call comes with a good signature. -/
def Signed (call : Call app) : Prop :=
  call.tx.verifySignature env = .ok call.tx.message.value.pubkey

theorem validateTx_of_signed {self : Node app} {call : Call app} (h : Signed env call) :
    self.validateTx env call.tx = self.validateMessages call.tx.message.value := by
  simp only [validateTx, show call.tx.verifySignature env = _ from h, Except.ok_bind]
  rfl

/-- The start of a call whose signature is known to be good. -/
def startSigned (self : Node app) (call : Call app) :
    Except Error (ExecutionContext app.State) := do
  Except.ensure (self.frameworkState.version = call.codeVersion)
    (.codeVersionMismatch call.codeVersion self.frameworkState.version)
  let tx := call.tx.message.value
  self.validateMessages tx
  let op := Accounts.Op.useNonce tx.pubkey tx.nonce
  let sender ← (op.run env.arith self.frameworkState.accounts).1
  return {
    frameworkState := (Effect.account op sender).apply env self.frameworkState
    appState := self.appState
    blockDataHandling := call.handling
    pubkey := tx.pubkey
    sender
    signingKey := tx.pubkey
    timestamp := call.timestamp
    logs := []
    loads := []
    height := self.nextHeight
    history := [.account op sender] }

/-- The step of a call whose signature is known to be good. -/
def stepSigned (self : Node app) (call : Call app) : Except Error (Node app) := do
  let ctx ← self.startSigned env call
  match executeMessages env call.world call.tx.message.value.messages ctx with
  | (.error e, _) => .error e
  | (.ok (), ctx) => do
    ctx.blockDataHandling.finish
    return self.advance {
      frameworkState := ctx.frameworkState
      appState := ctx.appState
      logs := ctx.logs
      loads := ctx.loads
      height := ctx.height
      history := ctx.history }

theorem step_of_signed {self : Node app} {call : Call app} (h : Signed env call) :
    (machine env).step self call = self.stepSigned env call := by
  have hstart : self.start env call = self.startSigned env call := by
    simp only [start, startSigned, validateTx_of_signed env h]
  simp only [machine, executeTransaction, hstart, stepSigned]
  cases self.startSigned env call with
  | error e => rfl
  | ok ctx =>
    simp only [Except.ok_bind]
    rcases executeMessages env call.world call.tx.message.value.messages ctx with ⟨_ | ⟨⟨⟩⟩, ctx'⟩
    · rfl
    · simp only
      cases ctx'.blockDataHandling.finish with
      | error e => rfl
      | ok _ => rfl

/-- The machine without the checks of signatures. -/
def signedMachine : Machine (Node app) (Call app) Error := ⟨stepSigned env⟩

theorem steps_of_signed {self : Node app} {calls : List (Call app)}
    (h : ∀ call ∈ calls, Signed env call) :
    (machine env).steps self calls = (signedMachine env).steps self calls := by
  induction calls generalizing self with
  | nil => rfl
  | cons call calls ih =>
    rw [List.forall_mem_cons] at h
    simp only [Machine.steps, step_of_signed env h.1, ih h.2]
    rfl

end Node

/-! ## A sample chain -/

namespace Sample

def processor : PublicKey :=
  ⟨0x02352bbf4a4cdd12564f93fa332ce333301d9ad40271f8107181340aef25be59d5, by decide⟩

def listener : PublicKey :=
  ⟨0x03421f5fc9a21065445c96fdb91c0c1e2f2431741c72713b4b99ddcb316f31e9fc, by decide⟩

def approver : PublicKey :=
  ⟨0x032fa2104d6b38d11b0230010559879124e42ab8dfeff5ff29dc9cdadd4ecacc3f, by decide⟩

def alice : PublicKey :=
  ⟨0x03fe72c435413d33d48ac09c9161ba8b09683215439d62b7940502bda8b202e6ce, by decide⟩

def bob : PublicKey :=
  ⟨0x029248279b09b4d68dab21a9b066edda83263c3d84e09572e269ca0cd7f5453714, by decide⟩

/-- One key in each role. -/
def validators : ValidatorSet := ⟨processor, {listener}, 1, {approver}, 1⟩

/-- A bridge that holds one asset, with six decimals. -/
def bridge : ChainConfig where
  assets := (∅ : SortedMap _ _).insert "uosmo" ⟨6, 1⟩
  bridge := .neededCosmosBridge 1

def info (set : ValidatorSet) : GenesisInfo where
  kolmeIdent := "counter"
  validatorSet := set
  chains := ((∅ : SortedMap _ _).insert .neutronTestnet bridge).insert .osmosisLocal bridge
  version := "v1"

/-- The signature whose first half belongs to the generator of the curve. -/
def signature (s : Nat) : Signature :=
  Fin.ofNat _ (0x79be667ef9dcbbac55a06295ce870b07029bfcdb2dce28d959f2815b16f81798 * 2 ^ 256 + s)

/-- A transaction with its signature. -/
structure SignedTx where
  tx : Transaction Unit
  s : Nat
  recoveryId : UInt8

namespace SignedTx

def text (self : SignedTx) : SignedText :=
  ⟨Json.transaction self.tx, signature self.s, self.recoveryId, self.tx.pubkey⟩

/-- The transaction submitted to a node that runs the version of the genesis. -/
def call (self : SignedTx) (set : ValidatorSet) : Call (counter (info set)) where
  tx := self.text.tagged self.tx
  timestamp := 0
  handling := .noPriorData
  codeVersion := "v1"
  world := ()

theorem signed_call {table : List SignedText} {self : SignedTx} (set : ValidatorSet)
    (hdistinct : (table.map SignedText.signature).Nodup) (hmem : self.text ∈ table) :
    Node.Signed (counterEnv table) (self.call set) := by
  have h := SignedText.recover_text hdistinct hmem
  exact congrArg (Except.fromOption _) h

end SignedTx

/-- The state of the counter before the first block. -/
def start (set : ValidatorSet) : Node (counter (info set)) :=
  ⟨FrameworkState.new (info set), (0 : Nat), 0, []⟩

theorem genesis_start {set : ValidatorSet} (h : set.WellFormed) :
    Node.genesis (counter (info set)) = .ok (start set) := by
  have hvalid : set.validate = .ok () := ValidatorSet.validate_eq_ok.mpr h
  simp only [Node.genesis, counter, Except.ok_bind, start]
  change ((set.validate.mapError _) >>= _) = _
  rw [hvalid]
  rfl

/-- The value of the counter. -/
def count {set : ValidatorSet} (self : Node (counter (info set))) : Nat := self.appState

/-- The calls of signed transactions. -/
def calls (set : ValidatorSet) (txs : List SignedTx) : List (Call (counter (info set))) :=
  txs.map (·.call set)

/-- A run of signed transactions can be computed without their signatures. -/
theorem exists_steps {table : List SignedText} {set : ValidatorSet} {txs : List SignedTx}
    (self : Node (counter (info set))) (p : Node (counter (info set)) → Bool)
    (hdistinct : (table.map SignedText.signature).Nodup) (hmem : ∀ t ∈ txs, t.text ∈ table)
    (h : ((Node.signedMachine (counterEnv table)).steps self (calls set txs)).okWith p = true) :
    ∃ s, (Node.machine (counterEnv table)).steps self (calls set txs) = .ok s ∧ p s = true := by
  have hsigned : ∀ call ∈ calls set txs, Node.Signed (counterEnv table) call := by
    intro call hcall
    obtain ⟨t, ht, rfl⟩ := List.mem_map.mp hcall
    exact t.signed_call set hdistinct (hmem t ht)
  rw [Node.steps_of_signed _ hsigned]
  exact Except.okWith_iff.mp h

/-- The same for a run that is looked at twice. -/
theorem exists_steps_append {table : List SignedText} {set : ValidatorSet}
    {txs txs' : List SignedTx} (self : Node (counter (info set)))
    (p q : Node (counter (info set)) → Bool)
    (hdistinct : (table.map SignedText.signature).Nodup) (hmem : ∀ t ∈ txs ++ txs', t.text ∈ table)
    (h : ((Node.signedMachine (counterEnv table)).steps self (calls set txs)).okWith
      (fun s => p s && ((Node.signedMachine (counterEnv table)).steps s (calls set txs')).okWith q)
        = true) :
    ∃ s s', (Node.machine (counterEnv table)).steps self (calls set txs) = .ok s ∧ p s = true ∧
      (Node.machine (counterEnv table)).steps s (calls set txs') = .ok s' ∧ q s' = true := by
  obtain ⟨s, hs, hps⟩ := exists_steps self _ hdistinct
    (fun t ht => hmem t (List.mem_append_left _ ht)) h
  rw [Bool.and_eq_true] at hps
  obtain ⟨s', hs', hqs⟩ := exists_steps s q hdistinct
    (fun t ht => hmem t (List.mem_append_right _ ht)) hps.2
  exact ⟨s, s', hs, hps.1, hs', hqs⟩

/-- The first transaction of the chain. -/
def genesisTx : SignedTx where
  tx := ⟨processor, 0, [.genesis (info validators)], none⟩
  s := 0x07f5eb33c799f36d425fc1dfb4e79a2300057295dad4c336540083e3695e1751
  recoveryId := 1

/-- The listener reports the contract and a deposit of five by Alice. -/
def depositTx : SignedTx where
  tx := ⟨listener, 0, [.listener .osmosisLocal 0 (.instantiated "osmo1bridge"),
    .listener .osmosisLocal 1 (.regular "osmo1alice" [⟨"uosmo", 5000000⟩] [alice])], none⟩
  s := 0x271ae65c910400b8547723468070984fa480bb4da57a80269a235791a84112b0
  recoveryId := 0

/-- Alice withdraws two of the five to the same chain. -/
def withdrawTx : SignedTx where
  tx := ⟨alice, 0, [.bank (.withdraw 1 .osmosisLocal "osmo1alice" ⟨false, 2, 0⟩)], none⟩
  s := 0x09a9739a73db0a5a78e4bc23894868a4476d738556465abe65a0349e66d14702
  recoveryId := 0

theorem reachable {table : List SignedText} {set : ValidatorSet} {txs : List SignedTx}
    {self : Node (counter (info set))} (hset : set.WellFormed)
    (h : (Node.machine (counterEnv table)).steps (start set) (calls set txs) = .ok self) :
    self.Reachable (counterEnv table) :=
  ⟨start set, calls set txs, genesis_start hset, (Machine.run_of_steps _ h).symm⟩

theorem validators_wellFormed : validators.WellFormed := by constructor <;> decide

end Sample

end Kolme
