import Kolme.Lib.Frame
import Kolme.Properties.Conservation

/-!
# A transaction executed again

A processor executes a transaction with the data that it loads, and puts the loads on record. Who
executes the transaction again with these loads gets the same results, whatever the outside world
says then, provided that an app gives up when a load fails: a load that fails leaves no trace in the
record, so an app that goes on without the data would find another load in its place.
-/

namespace Kolme

open Exec

namespace ExecutionContext

variable {S : Type} {env : Externals} {handling : BlockDataHandling} {loads : List BlockDataLoad}

/-- Other data to load from, and other loads on record. -/
def withData (handling : BlockDataHandling) (loads : List BlockDataLoad)
    (ctx : ExecutionContext S) : ExecutionContext S :=
  { ctx with blockDataHandling := handling, loads }

/-! ## What loads no data -/

theorem perform_ignores (e : Effect) :
    Ignores (withData (S := S) handling loads) (perform env e) :=
  ignores_modify fun _ => rfl

theorem account_ignores (op : Accounts.Op) :
    Ignores (withData (S := S) handling loads) (account env op) := by
  refine Ignores.get_bind (fun ctx => ?_) fun _ => rfl
  split
  · exact (perform_ignores _).bind fun _ => ignores_pure _
  · refine Ignores.bind (ignores_modify ?_) fun _ => ignores_throw _
    exact fun _ => rfl

theorem getChain_ignores (chain : ExternalChain) :
    Ignores (withData (S := S) handling loads) (getChain chain) :=
  Ignores.get_bind (fun _ => ignores_lift _) fun _ => rfl

theorem log_ignores (msg : String) : Ignores (withData (S := S) handling loads) (log msg) := by
  refine Ignores.get_bind (fun ctx => ?_) fun _ => rfl
  split
  · exact ignores_throw _
  · exact ignores_modify fun _ => rfl

theorem logEvent_ignores (event : LogEvent) :
    Ignores (withData (S := S) handling loads) (logEvent env event) :=
  log_ignores _

theorem addAction_ignores (chain : ExternalChain) (action : ExecAction) :
    Ignores (withData (S := S) handling loads) (addAction env chain action) :=
  (getChain_ignores chain).bind fun _ => (ignores_lift _).bind fun _ =>
    (perform_ignores _).bind fun _ => (logEvent_ignores _).bind fun _ => ignores_pure _

theorem addActionAllChains_ignores (action : ExecAction) :
    Ignores (withData (S := S) handling loads) (addActionAllChains env action) :=
  Ignores.get_bind (fun _ => ignores_forEach
    (fun chain => (addAction_ignores chain action).bind fun _ => ignores_pure _) _) fun _ => rfl

theorem withdrawAsset_ignores (assetId : AssetId) (chain : ExternalChain) (source : AccountId)
    (wallet : Wallet) (amount : Decimal) :
    Ignores (withData (S := S) handling loads)
      (withdrawAsset env assetId chain source wallet amount) :=
  Ignores.get_bind (fun _ => (ignores_lift _).bind fun _ => (ignores_lift _).bind fun _ =>
    (account_ignores _).bind fun _ => (getChain_ignores chain).bind fun _ =>
    (ignores_lift _).bind fun _ => (perform_ignores _).bind fun _ => addAction_ignores chain _)
    fun _ => rfl

theorem mintAsset_ignores (assetId : AssetId) (recipient : AccountId) (amount : Decimal) :
    Ignores (withData (S := S) handling loads) (mintAsset env assetId recipient amount) :=
  (account_ignores _).bind fun _ => ignores_pure _

theorem burnAsset_ignores (assetId : AssetId) (owner : AccountId) (amount : Decimal) :
    Ignores (withData (S := S) handling loads) (burnAsset env assetId owner amount) :=
  (account_ignores _).bind fun _ => ignores_pure _

theorem transferAsset_ignores (assetId : AssetId) (source dest : AccountId) (amount : Decimal) :
    Ignores (withData (S := S) handling loads) (transferAsset env assetId source dest amount) :=
  (burnAsset_ignores assetId source amount).bind fun _ => mintAsset_ignores assetId dest amount

theorem creditFund_ignores (chain : ExternalChain) (accountId : AccountId)
    (fund : BridgedAssetAmount) :
    Ignores (withData (S := S) handling loads) (creditFund env chain accountId fund) := by
  refine (getChain_ignores chain).bind fun state => ?_
  split
  · exact ignores_pure _
  · exact (ignores_lift _).bind fun _ => (account_ignores _).bind fun _ =>
      (getChain_ignores chain).bind fun _ => (ignores_lift _).bind fun _ => perform_ignores _

theorem processEvent_ignores (chain : ExternalChain) (eventId : BridgeEventId)
    (event : BridgeEvent) :
    Ignores (withData (S := S) handling loads) (processEvent env chain eventId event) := by
  cases event with
  | instantiated contract =>
    refine (getChain_ignores chain).bind fun state => ?_
    split
    · exact ignores_throw _
    · exact perform_ignores _
  | regular wallet funds keys =>
    exact (account_ignores _).bind fun accountId =>
      (ignores_forEach (fun key => (account_ignores _).bind fun _ => ignores_pure _) keys).bind
        fun _ => (ignores_forEach (creditFund_ignores chain accountId) funds).bind
        fun _ => logEvent_ignores _
  | signed wallet actionId =>
    exact (getChain_ignores chain).bind fun _ => (ignores_lift _).bind fun _ =>
      (ignores_lift _).bind fun _ => perform_ignores _

theorem drainEvents_ignores (chain : ExternalChain) (fuel : ℕ) :
    Ignores (withData (S := S) handling loads) (drainEvents env chain fuel) := by
  induction fuel with
  | zero => exact ignores_pure _
  | succ fuel ih =>
    refine Ignores.get_bind (fun _ => (ignores_lift _).bind fun ready => ?_) fun _ => rfl
    cases ready with
    | none => exact ignores_pure _
    | some eventId =>
      exact (getChain_ignores chain).bind fun _ => (ignores_lift _).bind fun _ =>
        (perform_ignores _).bind fun _ => (processEvent_ignores chain eventId _).bind fun _ => ih

theorem reportEvent_ignores (chain : ExternalChain) (event : BridgeEvent)
    (eventId : BridgeEventId) (state : ChainState) :
    Ignores (withData (S := S) handling loads) (reportEvent env chain event eventId state) := by
  unfold reportEvent
  split
  · exact ignores_lift _
  · exact (ignores_lift _).bind fun _ => perform_ignores _

theorem listener_ignores (chain : ExternalChain) (event : BridgeEvent) (eventId : BridgeEventId) :
    Ignores (withData (S := S) handling loads) (listener env chain event eventId) :=
  Ignores.get_bind (fun _ => (ignores_lift _).bind fun _ => (getChain_ignores chain).bind fun _ =>
    (reportEvent_ignores chain event eventId _).bind fun _ => (perform_ignores _).bind fun _ =>
    (ignores_lift _).bind fun _ => (getChain_ignores chain).bind fun _ =>
    drainEvents_ignores chain _) fun _ => rfl

theorem approve_ignores (chain : ExternalChain) (actionId : BridgeActionId)
    (signature : SignatureWithRecovery) :
    Ignores (withData (S := S) handling loads) (approve env chain actionId signature) :=
  (getChain_ignores chain).bind fun _ => (ignores_lift _).bind fun _ =>
    (ignores_lift _).bind fun _ => (ignores_lift _).bind fun _ =>
    Ignores.get_bind (fun _ => (ignores_lift _).bind fun _ => (perform_ignores _).bind fun _ =>
      ignores_lift _) fun _ => rfl

theorem processorApprove_ignores (chain : ExternalChain) (actionId : BridgeActionId)
    (processor : SignatureWithRecovery) (approvers : List SignatureWithRecovery) :
    Ignores (withData (S := S) handling loads)
      (processorApprove env chain actionId processor approvers) :=
  Ignores.get_bind (fun _ => (ignores_lift _).bind fun _ => (getChain_ignores chain).bind fun _ =>
    (ignores_lift _).bind fun _ => (ignores_lift _).bind fun _ => (ignores_lift _).bind fun _ =>
    (ignores_lift _).bind fun _ => (ignores_lift _).bind fun _ => (ignores_lift _).bind fun _ =>
    (ignores_lift _).bind fun _ => perform_ignores _) fun _ => rfl

theorem bank_ignores (msg : BankMessage) :
    Ignores (withData (S := S) handling loads) (bank env msg) := by
  cases msg with
  | withdraw asset chain dest amount =>
    exact Ignores.get_bind (fun ctx => (withdrawAsset_ignores asset chain ctx.sender dest
      amount).bind fun _ => ignores_pure _) fun _ => rfl
  | transfer asset dest amount =>
    exact Ignores.get_bind (fun ctx => transferAsset_ignores asset ctx.sender dest amount)
      fun _ => rfl

theorem auth_ignores (msg : AuthMessage) :
    Ignores (withData (S := S) handling loads) (auth env msg) := by
  cases msg with
  | removePublicKey key =>
    exact Ignores.get_bind (fun _ => (ignores_lift _).bind fun _ =>
      (account_ignores _).bind fun _ => ignores_pure _) fun _ => rfl
  | _ =>
    exact Ignores.get_bind (fun _ => (account_ignores _).bind fun _ => ignores_pure _)
      fun _ => rfl

theorem addAdminProposal_ignores (payload : ProposalPayload) (pubkey : PublicKey)
    (sigrec : SignatureWithRecovery) :
    Ignores (withData (S := S) handling loads) (addAdminProposal env payload pubkey sigrec) := by
  refine Ignores.get_bind (fun ctx => ?_) fun _ => rfl
  dsimp only
  split
  · exact ignores_throw _
  · exact (perform_ignores _).bind fun _ => logEvent_ignores _

theorem addProposalActions_ignores (payload : ProposalPayload)
    (approvals : List SignatureWithRecovery) :
    Ignores (withData (S := S) handling loads) (addProposalActions env payload approvals) := by
  cases payload with
  | newSet validatorSet => exact addActionAllChains_ignores _
  | migrateContract migrate => exact (addAction_ignores _ _).bind fun _ => ignores_pure _
  | upgrade upgrade => exact ignores_pure _

theorem checkPendingProposals_ignores :
    Ignores (withData (S := S) handling loads) (checkPendingProposals env) := by
  refine Ignores.get_bind (fun ctx => ?_) fun _ => rfl
  split
  · exact ignores_pure _
  · exact (logEvent_ignores _).bind fun _ => (perform_ignores _).bind fun _ =>
      (addProposalActions_ignores _ _).bind fun _ => perform_ignores _

theorem proposeSigned_ignores {α : Type} (signed : SignedTaggedJson α)
    (payload : TaggedJson α → ProposalPayload) (valid : α → Except Error Unit) :
    Ignores (withData (S := S) handling loads) (proposeSigned env signed payload valid) :=
  Ignores.get_bind (fun _ => (ignores_lift _).bind fun _ => (ignores_lift _).bind fun _ =>
    (ignores_lift _).bind fun _ => (ignores_lift _).bind fun _ =>
    (addAdminProposal_ignores _ _ _).bind fun _ => checkPendingProposals_ignores) fun _ => rfl

theorem admin_ignores (msg : AdminMessage) :
    Ignores (withData (S := S) handling loads) (admin env msg) := by
  cases msg with
  | selfReplace signed =>
    exact Ignores.get_bind (fun _ => (ignores_lift _).bind fun _ => (ignores_lift _).bind fun _ =>
      (ignores_lift _).bind fun _ => (perform_ignores _).bind fun _ =>
      addActionAllChains_ignores _) fun _ => rfl
  | newSet signed =>
    exact proposeSigned_ignores signed .newSet fun set => set.validate.mapError .validatorSet
  | migrateContract signed => exact proposeSigned_ignores signed .migrateContract fun _ => .ok ()
  | upgrade signed => exact proposeSigned_ignores signed .upgrade fun _ => .ok ()
  | approve adminProposalId signature =>
    exact Ignores.get_bind (fun _ => (ignores_lift _).bind fun _ => (ignores_lift _).bind fun _ =>
      (ignores_lift _).bind fun _ => (ignores_lift _).bind fun _ =>
      (perform_ignores _).bind fun _ => (ignores_lift _).bind fun _ =>
      checkPendingProposals_ignores) fun _ => rfl

theorem call_ignores {c : AppCall} (h : ∀ req, c ≠ .loadData req) :
    Ignores (withData (S := S) handling loads) (c.run env) := by
  cases c with
  | getOrAddAccountIdForKey key => exact (account_ignores _).bind fun _ => ignores_pure _
  | getOrAddAccountIdForWallet wallet => exact (account_ignores _).bind fun _ => ignores_pure _
  | withdrawAsset assetId chain source wallet amount =>
    exact (withdrawAsset_ignores assetId chain source wallet amount).bind fun _ => ignores_pure _
  | transferAsset assetId source dest amount =>
    exact (transferAsset_ignores assetId source dest amount).bind fun _ => ignores_pure _
  | mintAsset assetId recipient amount =>
    exact (mintAsset_ignores assetId recipient amount).bind fun _ => ignores_pure _
  | burnAsset assetId owner amount =>
    exact (burnAsset_ignores assetId owner amount).bind fun _ => ignores_pure _
  | loadData req => exact absurd rfl (h req)
  | log msg => exact (log_ignores msg).bind fun _ => ignores_pure _

end ExecutionContext

/-! ## Requests and programs -/

/-- The same request, made where the world may be another one. The text of the first request is
read as this request and what the first one loaded is read as it was, and passes as valid if that
is checked. -/
structure DataRequest.Repeats (validation : DataLoadValidation) (req again : DataRequest) :
    Prop where
  request : again.request = req.request
  parseRequest : again.parseRequest req.request = some true
  parseResponse : ∀ {res}, req.load = .ok res → again.parseResponse res = some res
  validate : ∀ {res}, req.load = .ok res → validation = .validateDataLoads →
    again.validate res = .ok ()

/-- The programs differ at most in what the outside world says to their requests, and the first one
gives up when a load fails. -/
inductive AppProgram.Repeats {S : Type} (validation : DataLoadValidation) :
    AppProgram S → AppProgram S → Prop
  | done (state : S) : Repeats validation (.done state) (.done state)
  | fail (e e' : Error) : Repeats validation (.fail e) (.fail e')
  | call {c : AppCall} {next next' : Except Error AppReply → FrameworkState → AppProgram S}
    (other : ∀ req, c ≠ .loadData req)
    (rest : ∀ reply fs, Repeats validation (next reply fs) (next' reply fs)) :
    Repeats validation (.call c next) (.call c next')
  | load {req again : DataRequest}
    {next next' : Except Error AppReply → FrameworkState → AppProgram S}
    (same : req.Repeats validation again) (givesUp : ∀ e fs, (next (.error e) fs).Fails)
    (rest : ∀ res fs, Repeats validation (next (.ok (.data res)) fs) (next' (.ok (.data res)) fs)) :
    Repeats validation (.call (.loadData req) next) (.call (.loadData again) next')

/-- In both worlds the app does the same with the same data. -/
def App.Repeats (app : App) (validation : DataLoadValidation) (world again : app.World) : Prop :=
  ∀ view msg, (app.execute world view msg).Repeats validation (app.execute again view msg)

namespace ExecutionContext

variable {S : Type} {env : Externals} {validation : DataLoadValidation}

theorem checkLoad_of_repeats {req again : DataRequest} (same : req.Repeats validation again)
    {res : String} (hload : req.load = .ok res) :
    checkLoad again ⟨req.request, res⟩ validation = .ok res := by
  simp only [checkLoad, same.parseRequest, same.parseResponse hload, Except.fromOption,
    Except.ok_bind, Except.ensure]
  cases validation with
  | validateDataLoads => simp [same.validate hload rfl]
  | trustDataLoads => rfl

/-! ## Programs in two runs -/

/-- The loads of a block to take the data from. -/
def withPrior (validation : DataLoadValidation) (prior : List BlockDataLoad)
    (ctx : ExecutionContext S) : ExecutionContext S :=
  { ctx with blockDataHandling := .priorData prior validation }

/-- When `x` succeeds without prior data, then so does `y` with the loads that `x` put on record,
to the same effect, and leaves the loads that come after them. -/
def Replays {α : Type} (validation : DataLoadValidation) (x y : Exec Error (ExecutionContext S) α) :
    Prop :=
  ∀ ctx a ctx', ctx.blockDataHandling = .noPriorData → x ctx = (.ok a, ctx') →
    ctx'.blockDataHandling = .noPriorData ∧ ∃ loads, ctx'.loads = ctx.loads ++ loads ∧
      ∀ rest, y (ctx.withPrior validation (loads ++ rest)) = (.ok a, ctx'.withPrior validation rest)

variable {α β : Type}

/-- What loads no data does the same with any prior data, also where it fails, and puts no loads on
record. -/
theorem withPrior_of_ignores (validation : DataLoadValidation)
    {x : Exec Error (ExecutionContext S) α}
    (hx : ∀ handling loads, Ignores (withData handling loads) x) {ctx mid : ExecutionContext S}
    {r : Except Error α} (hnone : ctx.blockDataHandling = .noPriorData) (hrun : x ctx = (r, mid)) :
    mid.blockDataHandling = .noPriorData ∧ mid.loads = ctx.loads ∧
      ∀ prior, x (ctx.withPrior validation prior) = (r, mid.withPrior validation prior) := by
  have hsame : withData .noPriorData ctx.loads ctx = ctx := by
    rw [← hnone]
    rfl
  have hfix : withData .noPriorData ctx.loads mid = mid := by
    have hfixes := (hx .noPriorData ctx.loads).fixes hsame
    rwa [hrun] at hfixes
  have hloads : mid.loads = ctx.loads := by
    rw [← hfix]
    rfl
  refine ⟨by rw [← hfix]; rfl, hloads, fun prior => ?_⟩
  have hagain := hx (.priorData prior validation) ctx.loads ctx
  rw [hrun] at hagain
  refine hagain.trans (congrArg (Prod.mk r) ?_)
  rw [← hloads]
  rfl

theorem Replays.of_ignores {x : Exec Error (ExecutionContext S) α}
    (hx : ∀ handling loads, Ignores (withData handling loads) x) : Replays validation x x := by
  intro ctx a ctx' hnone hrun
  obtain ⟨hnone', hloads, hagain⟩ := withPrior_of_ignores validation hx hnone hrun
  exact ⟨hnone', [], by rw [hloads, List.append_nil], hagain⟩

theorem Replays.bind {x y : Exec Error (ExecutionContext S) α}
    {f g : α → Exec Error (ExecutionContext S) β} (hx : Replays validation x y)
    (hf : ∀ a, Replays validation (f a) (g a)) : Replays validation (x >>= f) (y >>= g) := by
  intro ctx b ctx' hnone hrun
  obtain ⟨a, mid, hxrun, hfrun⟩ := bind_eq_ok.mp hrun
  obtain ⟨hmid, first, hfirst, hy⟩ := hx _ _ _ hnone hxrun
  obtain ⟨hnone', second, hsecond, hg⟩ := hf a _ _ _ hmid hfrun
  refine ⟨hnone', first ++ second, by rw [hsecond, hfirst, List.append_assoc], fun rest => ?_⟩
  rw [List.append_assoc, bind_of_ok (hy (second ++ rest))]
  exact hg rest

theorem Replays.forEach {f g : β → Exec Error (ExecutionContext S) Unit} {bs : List β}
    (h : ∀ b ∈ bs, Replays validation (f b) (g b)) :
    Replays validation (Exec.forEach f bs) (Exec.forEach g bs) := by
  induction bs with
  | nil => exact .of_ignores fun _ _ => ignores_pure ()
  | cons b bs ih =>
    exact (h b (List.mem_cons_self ..)).bind fun _ => ih fun c hc => h c (List.mem_cons_of_mem _ hc)

/-- A load is put on record, and the second run takes it from there. -/
theorem loadData_replays {req again : DataRequest} (same : req.Repeats validation again) :
    Replays (S := S) validation (loadData req) (loadData again) := by
  intro ctx res ctx' hnone hrun
  rw [loadData, Exec.get_bind, hnone] at hrun
  obtain ⟨res', mid, hload, hrun⟩ := bind_eq_ok.mp hrun
  obtain ⟨hres, rfl⟩ : req.load = .ok res' ∧ ctx = mid := lift_eq_ok.mp hload
  obtain ⟨_, _, hmodify, hpure⟩ := bind_eq_ok.mp hrun
  obtain ⟨rfl, rfl⟩ := pure_eq_ok.mp hpure
  obtain rfl := modify_eq_ok.mp hmodify
  refine ⟨hnone, [⟨req.request, res'⟩], rfl, fun rest => ?_⟩
  have htake : takeLoad again (⟨req.request, res'⟩ :: rest) validation
      (ctx.withPrior validation (⟨req.request, res'⟩ :: rest)) =
      (.ok res', ctx.withPrior validation rest) := by
    change lift (checkLoad again ⟨req.request, res'⟩ validation) _ = _
    rw [checkLoad_of_repeats same hres]
    rfl
  rw [loadData, Exec.get_bind]
  refine (bind_of_ok htake).trans ?_
  rw [same.request]
  rfl

theorem run_call_eq_ok {c : AppCall} {next : Except Error AppReply → FrameworkState → AppProgram S}
    {ctx ctx' : ExecutionContext S} {u : Unit}
    (h : (AppProgram.call c next).run env ctx = (.ok u, ctx')) :
    ∃ reply mid, c.run env ctx = (reply, mid) ∧ reply ≠ .error .panic ∧
      (next reply mid.frameworkState).run env mid = (.ok u, ctx') := by
  rcases hrun : c.run env ctx with ⟨reply, mid⟩
  have hreply : reply ≠ .error .panic := by
    rintro rfl
    simp [AppProgram.run, hrun] at h
  rw [AppProgram.run_call hrun hreply] at h
  exact ⟨reply, mid, rfl, hreply, h⟩

/-- The runs of an app without and with prior data. -/
theorem program_replays {p q : AppProgram S} (h : p.Repeats validation q) :
    Replays validation (p.run env) (q.run env) := by
  induction h with
  | done state => exact .of_ignores fun _ _ => ignores_modify fun _ => rfl
  | fail e e' =>
    intro ctx a ctx' _ hrun
    exact absurd hrun throw_ne_ok
  | @call c next next' other rest ih =>
    intro ctx u ctx' hnone hrun
    obtain ⟨reply, mid, hcall, hreply, hnext⟩ := run_call_eq_ok hrun
    -- The program may go on after a call that fails.
    obtain ⟨hmid, hloads, hagain⟩ :=
      withPrior_of_ignores validation (fun _ _ => call_ignores other) hnone hcall
    obtain ⟨hnone', loads, hrest, hg⟩ := ih reply _ _ _ _ hmid hnext
    refine ⟨hnone', loads, by rw [hrest, hloads], fun rest => ?_⟩
    exact (AppProgram.run_call (hagain (loads ++ rest)) hreply).trans (hg rest)
  | @load req again next next' same givesUp rest ih =>
    intro ctx u ctx' hnone hrun
    obtain ⟨reply, mid, hcall, hreply, hnext⟩ := run_call_eq_ok hrun
    cases reply with
    | error e => exact absurd hnext (givesUp e _).run_ne_ok
    | ok reply =>
      obtain ⟨res, mid', hload, hpure⟩ := bind_eq_ok.mp hcall
      obtain ⟨rfl, rfl⟩ := pure_eq_ok.mp hpure
      obtain ⟨hmid, first, hfirst, hy⟩ := loadData_replays same _ _ _ hnone hload
      obtain ⟨hnone', second, hsecond, hg⟩ := ih res _ _ _ _ hmid hnext
      refine ⟨hnone', first ++ second, by rw [hsecond, hfirst, List.append_assoc], fun rest => ?_⟩
      rw [List.append_assoc]
      have hagain : (AppCall.loadData again).run env
          (ctx.withPrior validation (first ++ (second ++ rest))) =
          (.ok (.data res), mid'.withPrior validation (second ++ rest)) :=
        bind_of_ok (hy (second ++ rest))
      exact (AppProgram.run_call hagain nofun).trans (hg rest)

end ExecutionContext

/-! ## Transactions -/

open ExecutionContext

variable {app : App} {env : Externals} {validation : DataLoadValidation}

theorem executeMessage_replays {world again : app.World}
    (same : app.Repeats validation world again) (message : Message app.Message) :
    Replays validation (executeMessage env world message) (executeMessage env again message) := by
  cases message with
  | app msg =>
    intro ctx u ctx' hnone hrun
    exact program_replays (same ctx.view msg) ctx u ctx' hnone hrun
  | genesis actual => exact .of_ignores fun _ _ => ignores_lift _
  | listener chain eventId event => exact .of_ignores fun _ _ => listener_ignores chain event eventId
  | approve chain actionId signature =>
    exact .of_ignores fun _ _ => approve_ignores chain actionId signature
  | processorApprove chain actionId processor approvers =>
    exact .of_ignores fun _ _ => processorApprove_ignores chain actionId processor approvers
  | bank msg => exact .of_ignores fun _ _ => bank_ignores msg
  | auth msg => exact .of_ignores fun _ _ => auth_ignores msg
  | admin msg => exact .of_ignores fun _ _ => admin_ignores msg

theorem executeMessages_replays {world again : app.World}
    (same : app.Repeats validation world again) (messages : List (Message app.Message)) :
    Replays validation (executeMessages env world messages) (executeMessages env again messages) :=
  Replays.forEach fun message _ =>
    (Replays.of_ignores fun _ _ => ignores_modify fun _ => rfl).bind
      fun _ => executeMessage_replays same message

namespace Node

variable {node : Node app} {call : Call app}

theorem start_again {ctx : ExecutionContext app.State} {prior : List BlockDataLoad}
    {again : app.World} (h : node.start env call = .ok ctx) :
    node.start env { call with handling := .priorData prior validation, world := again } =
      .ok (ctx.withPrior validation prior) := by
  simp only [start, Except.bind_eq_ok] at h
  obtain ⟨_, hversion, _, hvalid, sender, hsender, h⟩ := h
  obtain rfl := Except.ok.inj h
  simp only [start, hversion, hvalid, hsender, Except.ok_bind]
  rfl

/-- Whoever executes a transaction again with the loads that were put on record gets the same
results, the loads included. -/
theorem executeTransaction_again {again : app.World} {results : ExecutionResults app.State}
    (hnone : call.handling = .noPriorData) (same : app.Repeats validation call.world again)
    (h : node.executeTransaction env call = .ok results) :
    node.executeTransaction env
      { call with handling := .priorData results.loads validation, world := again } =
      .ok results := by
  rw [executeTransaction] at h
  obtain ⟨ctx, hstart, h⟩ := Except.bind_eq_ok.mp h
  obtain ⟨sender, -, -, -, hctx⟩ := start_eq_ok hstart
  have hhandling : ctx.blockDataHandling = call.handling := by rw [hctx]
  have hloads : ctx.loads = [] := by rw [hctx]
  rcases hrun : executeMessages env call.world call.tx.message.value.messages ctx with
    ⟨_ | _, ctx'⟩
  · rw [hrun] at h
    cases h
  · rw [hrun] at h
    obtain ⟨-, -, h⟩ := Except.bind_eq_ok.mp h
    obtain rfl := Except.ok.inj h
    obtain ⟨-, loads, hrest, hagain⟩ :=
      executeMessages_replays same _ ctx () ctx' (hhandling.trans hnone) hrun
    have hall : loads ++ [] = ctx'.loads := by rw [hrest, hloads, List.append_nil, List.nil_append]
    have hrun' := hagain []
    rw [hall] at hrun'
    rw [executeTransaction, start_again hstart, Except.ok_bind]
    dsimp only
    rw [hrun']
    rfl

end Node

end Kolme
