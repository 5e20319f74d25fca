import Kolme.Core.Block
import Kolme.Core.Counter

/-!
# The upgrader

The upgrader of a validator reads the table of proposals and decides which message to sign: a vote
or a proposal of its own. It skips upgrades to other versions and votes for the first of the
remaining proposals, also when that one installs a validator set or migrates a contract.
-/

namespace Kolme

open Except

/-! ## Signing messages -/

namespace AdminMessage

/-- A vote for a proposal. -/
def voteFor (adminProposalId : AdminProposalId) (payload : ProposalPayload)
    (validator : SecretKey) : Except Error AdminMessage := do
  let signature ← validator.signRecoverable payload.serialized.toByteArray
  return .approve adminProposalId signature

/-- A proposal to upgrade, rendered as JSON. -/
def proposeUpgrade (toJson : Upgrade → Except Error String) (desiredVersion : String)
    (proposer : SecretKey) : Except Error AdminMessage := do
  let json ← toJson ⟨desiredVersion⟩
  let signed ← TaggedJson.sign ⟨json, ⟨desiredVersion⟩⟩ proposer
  return .upgrade signed

end AdminMessage

/-! ## The decision -/

/-- A component that ensures a proposal is sent to upgrade the chain, if needed. -/
structure Upgrader where
  secret : SecretKey
  desiredVersion : String

namespace Upgrader

variable (toJson : Upgrade → Except Error String) (self : Upgrader)

/-- The loop over the proposals. -/
def search : List (AdminProposalId × PendingProposal) → Except Error (Option AdminMessage)
  -- No matching upgrade proposal found and we're on the wrong version.
  | [] => return some (← AdminMessage.proposeUpgrade toJson self.desiredVersion self.secret)
  | (id, proposal) :: proposals =>
    let found : Except Error (Option AdminMessage) := do
      if proposal.approvals.contains self.secret.publicKey then return none
      else return some (← AdminMessage.voteFor id proposal.payload self.secret)
    match proposal.payload with
    | .upgrade upgrade =>
      if upgrade.value.desiredVersion ≠ self.desiredVersion then search proposals else found
    | _ => found

/-- The message that is signed and proposed, if there is one. -/
def runSingle (fs : FrameworkState) : Except Error (Option AdminMessage) :=
  -- Are we already on the desired version? If so, nothing to be done.
  if fs.version = self.desiredVersion then .ok none
  else
    match fs.validatorSet.ensureIsValidator self.secret.publicKey with
    | .error _ => .ok none
    | .ok () => self.search toJson fs.adminProposalState.proposals.toList

end Upgrader

/-! ## What the upgrader is for -/

/-- The proposal is an upgrade to a version other than `version`. -/
def PendingProposal.isOtherUpgrade (self : PendingProposal) (version : String) : Bool :=
  match self.payload with
  | .upgrade upgrade => upgrade.value.desiredVersion ≠ version
  | _ => false

/-- The proposal is an upgrade to the version. -/
def PendingProposal.UpgradesTo (self : PendingProposal) (version : String) : Prop :=
  ∃ upgrade, self.payload = .upgrade upgrade ∧ upgrade.value.desiredVersion = version

namespace Upgrader

variable {toJson : Upgrade → Except Error String} {self : Upgrader} {fs : FrameworkState}

/-- The search stops at the first proposal that is not an upgrade to another version. -/
theorem search_eq (l : List (AdminProposalId × PendingProposal)) :
    self.search toJson l = match l.find? (!·.2.isOtherUpgrade self.desiredVersion) with
      | none => (AdminMessage.proposeUpgrade toJson self.desiredVersion self.secret).map some
      | some (id, proposal) =>
        if proposal.approvals.contains self.secret.publicKey then .ok none
        else (AdminMessage.voteFor id proposal.payload self.secret).map some := by
  have map_some (x : Except Error AdminMessage) : (do return some (← x)) = x.map some := by
    cases x <;> rfl
  induction l with
  | nil => exact map_some _
  | cons p l ih =>
    obtain ⟨id, payload, approvals⟩ := p
    cases payload with
    | upgrade u =>
      by_cases hversion : u.value.desiredVersion = self.desiredVersion
      · simp only [search, List.find?_cons, PendingProposal.isOtherUpgrade, hversion, ne_eq,
          not_true_eq_false, decide_false, Bool.not_false, if_false, map_some]
        rfl
      · simp only [search, List.find?_cons, PendingProposal.isOtherUpgrade, hversion, ne_eq,
          not_false_eq_true, decide_true, Bool.not_true, if_true, ih]
    | newSet | migrateContract =>
      simp only [search, List.find?_cons, PendingProposal.isOtherUpgrade, Bool.not_false, map_some]
      rfl

/-- What the upgrader does on behalf of its version, and that it does nothing else. -/
structure Supports (toJson : Upgrade → Except Error String) (state : Upgrader)
    (fs : FrameworkState) : Prop where
  /-- It votes only for upgrades to its version. -/
  votes : ∀ id signature, state.runSingle toJson fs = .ok (some (.approve id signature)) →
    ∃ proposal, fs.adminProposalState.proposals.get? id = some proposal ∧
      proposal.UpgradesTo state.desiredVersion
  /-- It votes for an upgrade to its version that lacks its vote. -/
  supports : fs.version ≠ state.desiredVersion →
    fs.validatorSet.ensureIsValidator state.secret.publicKey = .ok () →
    (∃ id proposal, fs.adminProposalState.proposals.get? id = some proposal ∧
      proposal.UpgradesTo state.desiredVersion ∧
      proposal.approvals.get? state.secret.publicKey = none) →
    ∃ id proposal msg, fs.adminProposalState.proposals.get? id = some proposal ∧
      proposal.UpgradesTo state.desiredVersion ∧
      proposal.approvals.get? state.secret.publicKey = none ∧
      AdminMessage.voteFor id proposal.payload state.secret = .ok msg ∧
      state.runSingle toJson fs = .ok (some msg)
  /-- It proposes the upgrade when nobody has. -/
  proposes : fs.version ≠ state.desiredVersion →
    fs.validatorSet.ensureIsValidator state.secret.publicKey = .ok () →
    (∀ id proposal, fs.adminProposalState.proposals.get? id = some proposal →
      ¬proposal.UpgradesTo state.desiredVersion) →
    ∃ msg, AdminMessage.proposeUpgrade toJson state.desiredVersion state.secret = .ok msg ∧
      state.runSingle toJson fs = .ok (some msg)

/-- The first proposal of the table that the search stops at is one that it may stop at. -/
def Unobstructed (state : Upgrader) (fs : FrameworkState) : Prop :=
  match fs.adminProposalState.proposals.find? (!·.isOtherUpgrade state.desiredVersion) with
  | none => True
  | some (_, proposal) =>
    if proposal.approvals.get? state.secret.publicKey = none then
      proposal.UpgradesTo state.desiredVersion
    else
      (∃ id p, fs.adminProposalState.proposals.get? id = some p ∧
        p.UpgradesTo state.desiredVersion) ∧
      ∀ id p, fs.adminProposalState.proposals.get? id = some p →
        p.UpgradesTo state.desiredVersion → p.approvals.get? state.secret.publicKey ≠ none

theorem not_isOtherUpgrade {proposal : PendingProposal} {version : String}
    (h : proposal.UpgradesTo version) : (!proposal.isOtherUpgrade version) = true := by
  obtain ⟨upgrade, hpayload, hversion⟩ := h
  simp [PendingProposal.isOtherUpgrade, hpayload, hversion]

/-- Signing a vote succeeds, and the vote is for the given proposal. -/
theorem voteFor_eq {secret : SecretKey}
    (hsign : ∀ msg, ∃ signature, secret.signRecoverable msg = .ok signature)
    (id : AdminProposalId) (payload : ProposalPayload) :
    ∃ signature, AdminMessage.voteFor id payload secret = .ok (.approve id signature) := by
  obtain ⟨signature, hsignature⟩ := hsign payload.serialized.toByteArray
  exact ⟨signature, by simp [AdminMessage.voteFor, hsignature]⟩

theorem proposeUpgrade_eq {secret : SecretKey} (version : String)
    (hsign : ∀ msg, ∃ signature, secret.signRecoverable msg = .ok signature)
    (hjson : ∀ upgrade, ∃ text, toJson upgrade = .ok text) :
    ∃ signed, AdminMessage.proposeUpgrade toJson version secret = .ok (.upgrade signed) := by
  obtain ⟨text, htext⟩ := hjson ⟨version⟩
  obtain ⟨signature, hsignature⟩ := hsign text.toByteArray
  exact ⟨⟨⟨text, ⟨version⟩⟩, signature.sig, signature.recid⟩,
    by simp [AdminMessage.proposeUpgrade, TaggedJson.sign, htext, hsignature]⟩

/-- What a member of the validator set does while the chain is on another version. -/
theorem runSingle_eq (hversion : fs.version ≠ self.desiredVersion)
    (hvalid : fs.validatorSet.ensureIsValidator self.secret.publicKey = .ok ()) :
    self.runSingle toJson fs =
      match fs.adminProposalState.proposals.find? (!·.isOtherUpgrade self.desiredVersion) with
      | none => (AdminMessage.proposeUpgrade toJson self.desiredVersion self.secret).map some
      | some (id, proposal) =>
        if proposal.approvals.contains self.secret.publicKey then .ok none
        else (AdminMessage.voteFor id proposal.payload self.secret).map some := by
  simp only [runSingle, if_neg hversion, hvalid]
  exact search_eq _

/-- An upgrader that does nothing is right to do so if there is an upgrade to its version and all
of them have its vote. -/
theorem supports_iff_of_idle (hidle : self.runSingle toJson fs = .ok none) :
    self.Supports toJson fs ↔ (fs.version ≠ self.desiredVersion →
      fs.validatorSet.ensureIsValidator self.secret.publicKey = .ok () →
      (∃ id p, fs.adminProposalState.proposals.get? id = some p ∧
        p.UpgradesTo self.desiredVersion) ∧
      ∀ id p, fs.adminProposalState.proposals.get? id = some p →
        p.UpgradesTo self.desiredVersion → p.approvals.get? self.secret.publicKey ≠ none) := by
  constructor
  · intro hsupports hversion hvalid
    refine ⟨?_, fun id p hget hupgrades hnovote => ?_⟩
    · by_contra hno
      push Not at hno
      obtain ⟨_, -, hproposes⟩ := hsupports.proposes hversion hvalid hno
      rw [hidle] at hproposes
      cases hproposes
    · obtain ⟨_, _, _, -, -, -, -, hvotes⟩ :=
        hsupports.supports hversion hvalid ⟨id, p, hget, hupgrades, hnovote⟩
      rw [hidle] at hvotes
      cases hvotes
  · intro hall
    refine ⟨by simp [hidle], ?_, ?_⟩
    · rintro hversion hvalid ⟨id, p, hget, hupgrades, hnovote⟩
      exact absurd hnovote ((hall hversion hvalid).2 id p hget hupgrades)
    · intro hversion hvalid hno
      obtain ⟨⟨id, p, hget, hupgrades⟩, -⟩ := hall hversion hvalid
      exact absurd hupgrades (hno id p hget)

/-- An upgrader that votes is right to do so if the proposal upgrades to its version. -/
theorem supports_iff_of_vote {id : AdminProposalId} {proposal : PendingProposal}
    {signature : SignatureWithRecovery}
    (hget : fs.adminProposalState.proposals.get? id = some proposal)
    (hnovote : proposal.approvals.get? self.secret.publicKey = none)
    (hvote : AdminMessage.voteFor id proposal.payload self.secret = .ok (.approve id signature))
    (hrun : self.runSingle toJson fs = .ok (some (.approve id signature))) :
    self.Supports toJson fs ↔ proposal.UpgradesTo self.desiredVersion := by
  constructor
  · intro hsupports
    obtain ⟨proposal', hget', hupgrades⟩ := hsupports.votes id signature hrun
    obtain rfl := Option.some.inj (hget.symm.trans hget')
    exact hupgrades
  · intro hupgrades
    refine ⟨fun id' signature' hrun' => ?_, fun _ _ _ => ?_, fun _ _ hno => ?_⟩
    · rw [hrun] at hrun'
      obtain ⟨rfl, rfl⟩ := AdminMessage.approve.inj (Option.some.inj (Except.ok.inj hrun'))
      exact ⟨proposal, hget, hupgrades⟩
    · exact ⟨id, proposal, _, hget, hupgrades, hnovote, hvote, hrun⟩
    · exact absurd hupgrades (hno id proposal hget)

/-- An upgrader that proposes is right to do so if all proposals are other upgrades. -/
theorem supports_of_proposal {signed : SignedTaggedJson Upgrade}
    (hfind : fs.adminProposalState.proposals.find?
      (!·.isOtherUpgrade self.desiredVersion) = none)
    (hsigned : AdminMessage.proposeUpgrade toJson self.desiredVersion self.secret =
      .ok (.upgrade signed))
    (hrun : self.runSingle toJson fs = .ok (some (.upgrade signed))) :
    self.Supports toJson fs := by
  refine ⟨by simp [hrun], ?_, fun _ _ _ => ⟨_, hsigned, hrun⟩⟩
  rintro - - ⟨id, proposal, hget, hupgrades, -⟩
  have hother := SortedMap.find?_eq_none.mp hfind id proposal hget
  rw [not_isOtherUpgrade hupgrades] at hother
  cases hother

/-- The upgrader supports its upgrade and nothing else if and only if it has nothing to do, or no
other proposal stands in the way. -/
theorem supports_iff (toJson : Upgrade → Except Error String) (self : Upgrader)
    (fs : FrameworkState)
    (hsign : ∀ msg, ∃ signature, self.secret.signRecoverable msg = .ok signature)
    (hjson : ∀ upgrade, ∃ text, toJson upgrade = .ok text) :
    self.Supports toJson fs ↔ fs.version = self.desiredVersion ∨
      fs.validatorSet.ensureIsValidator self.secret.publicKey ≠ .ok () ∨ self.Unobstructed fs := by
  by_cases hversion : fs.version = self.desiredVersion
  · have hidle : self.runSingle toJson fs = .ok none := by simp [runSingle, hversion]
    rw [supports_iff_of_idle hidle]
    exact iff_of_true (fun hne => absurd hversion hne) (.inl hversion)
  by_cases hvalid : fs.validatorSet.ensureIsValidator self.secret.publicKey = .ok ()
  · simp only [hversion, hvalid, ne_eq, not_true_eq_false, false_or]
    have hrun : self.runSingle toJson fs = _ := runSingle_eq hversion hvalid
    unfold Unobstructed
    cases hfind : fs.adminProposalState.proposals.find?
      (!·.isOtherUpgrade self.desiredVersion) with
    | none =>
      obtain ⟨signed, hsigned⟩ := proposeUpgrade_eq self.desiredVersion hsign hjson
      rw [hfind, hsigned] at hrun
      exact iff_of_true (supports_of_proposal hfind hsigned hrun) trivial
    | some found =>
      obtain ⟨id, proposal⟩ := found
      obtain ⟨hget, -⟩ := SortedMap.find?_spec hfind
      rw [hfind] at hrun
      by_cases hvote : proposal.approvals.get? self.secret.publicKey = none
      · obtain ⟨signature, hsignature⟩ := voteFor_eq hsign id proposal.payload
        simp only [SortedMap.contains_eq_false.mpr hvote, hsignature, Bool.false_eq_true,
          if_false] at hrun
        simp only [if_pos hvote]
        exact supports_iff_of_vote hget hvote hsignature hrun
      · have hcontains : proposal.approvals.contains self.secret.publicKey = true := by
          rw [SortedMap.contains_iff]
          exact Option.ne_none_iff_exists'.mp hvote
        simp only [hcontains, if_true] at hrun
        simp only [if_neg hvote]
        rw [supports_iff_of_idle hrun]
        simp only [hversion, hvalid, ne_eq, not_false_eq_true, true_implies]
  · have hidle : self.runSingle toJson fs = .ok none := by
      rw [runSingle, if_neg hversion]
      cases h : fs.validatorSet.ensureIsValidator self.secret.publicKey with
      | error e => rfl
      | ok v => exact absurd h hvalid
    rw [supports_iff_of_idle hidle]
    exact iff_of_true (fun _ hok => absurd hok hvalid) (.inr (.inl hvalid))

end Upgrader

namespace UpgraderSample

open Sample

def rotated : ValidatorSet := ⟨processor, {bob}, 1, {approver}, 1⟩

/-- The processor's signature of the new set. -/
def rotation : SignedText where
  text := Json.validatorSet rotated
  signature := signature
    0x15a8393c2596d834aec05eace64d5f51eb5300bbf7fb3bb285d699c662281603
  recoveryId := 1
  key := processor

/-- The signature that the listener's upgrader makes. -/
def rotationVote : SignedText where
  text := Json.validatorSet rotated
  signature := signature
    0x64162d42d445e377a6e003e8e839abb51748fc1f35d2ed26d41be794b4d00195
  recoveryId := 0
  key := listener

def upgrade : SignedText where
  text := "\x7b\"desired_version\":\"v2\"\x7d"
  signature := signature
    0x575e72739cc48f872fa2788895626a58aaf8776709b1ad06209060256325c787
  recoveryId := 1
  key := processor

def upgradeVote : SignedText where
  text := "\x7b\"desired_version\":\"v2\"\x7d"
  signature := signature
    0x225ff40b5d182c2525fdea0d3924a0ae57a38574241c7bd339622135b3d25011
  recoveryId := 0
  key := listener

def rotateTx : SignedTx where
  tx := ⟨processor, 1, [.admin (.newSet (rotation.tagged rotated))], none⟩
  s := 0x44ee7f29f46566cab4636742ea78a949c1016ce9c7ebe6a1a7fcc16ddd182c16
  recoveryId := 1

def upgradeTx : SignedTx where
  tx := ⟨processor, 1, [.admin (.upgrade (upgrade.tagged ⟨"v2"⟩))], none⟩
  s := 0x3e57f93ba9383c3963cb19ca84a9406dfbec72bbc374ed24f7849b2eeaddbaff
  recoveryId := 1

def voteTx : SignedTx where
  tx := ⟨listener, 0, [.admin (.approve 0 rotationVote.signatureWithRecovery)], none⟩
  s := 0x16bb865b9e14f87bf670bfc5620db50485357f00c5791d099ecfc8dea4fc889b
  recoveryId := 1

def table : List SignedText :=
  [rotation, rotationVote, upgrade, upgradeVote, genesisTx.text, rotateTx.text, upgradeTx.text,
    voteTx.text]

theorem table_distinct : (table.map SignedText.signature).Nodup := by decide

def chain : Machine (Node (counter (info validators))) (Call (counter (info validators))) Error :=
  Node.machine (counterEnv table)

def upgradeToJson (upgrade : Upgrade) : Except Error String :=
  .ok (Json.object [("desired_version", Json.string upgrade.desiredVersion)])

/-- The upgrader of the listener. -/
def upgrader : Upgrader where
  secret :=
    { publicKey := listener
      signRecoverable msg := .ok (((table.find? fun t => t.key = listener ∧
        t.text.toByteArray = msg).map SignedText.signatureWithRecovery).getD ⟨0, 0⟩) }
  desiredVersion := "v2"

/-- The upgrader votes for a proposal with the given signature. -/
def votes (fs : FrameworkState) (id : AdminProposalId) (signature : SignatureWithRecovery) :
    Bool :=
  match upgrader.runSingle upgradeToJson fs with
  | .ok (some (.approve id' signature')) => id' = id ∧ signature' = signature
  | _ => false

theorem eq_of_votes {fs : FrameworkState} {id : AdminProposalId}
    {signature : SignatureWithRecovery} (h : votes fs id signature = true) :
    upgrader.runSingle upgradeToJson fs = .ok (some (.approve id signature)) := by
  unfold votes at h
  split at h
  · rename_i hrun
    obtain ⟨rfl, rfl⟩ := of_decide_eq_true h
    exact hrun
  · cases h

end UpgraderSample

open Sample UpgraderSample in
/-- The listener's upgrader votes for the upgrade that the processor proposed. -/
theorem supports_iff_example :
    ∃ s, chain.steps (start validators) (calls validators [genesisTx, upgradeTx]) = .ok s ∧
      upgrader.runSingle upgradeToJson s.frameworkState =
        .ok (some (.approve 0 upgradeVote.signatureWithRecovery)) ∧
      upgrader.Supports upgradeToJson s.frameworkState := by
  have hmem : ∀ t ∈ [genesisTx, upgradeTx], t.text ∈ table := by simp [table]
  obtain ⟨s, hs, hp⟩ := exists_steps (start validators)
    (fun s => votes s.frameworkState 0 upgradeVote.signatureWithRecovery &&
      (s.frameworkState.adminProposalState.proposals.find? (!·.isOtherUpgrade "v2")).any fun p =>
        p.2.approvals.get? listener = none ∧ p.2.payload = .upgrade ⟨upgrade.text, ⟨"v2"⟩⟩)
    table_distinct hmem (by decide)
  rw [Bool.and_eq_true] at hp
  obtain ⟨⟨id, proposal⟩, hfind, hproposal⟩ := (Option.any_eq_true _ _).mp hp.2
  obtain ⟨hnovote, hpayload⟩ := of_decide_eq_true hproposal
  refine ⟨s, hs, eq_of_votes hp.1, (Upgrader.supports_iff upgradeToJson upgrader s.frameworkState
    (fun _ => ⟨_, rfl⟩) (fun _ => ⟨_, rfl⟩)).mpr (.inr (.inr ?_))⟩
  unfold Upgrader.Unobstructed
  simp only [show upgrader.desiredVersion = "v2" from rfl, hfind,
    show upgrader.secret.publicKey = listener from rfl, hnovote, if_true]
  exact ⟨_, hpayload, rfl⟩

open Sample UpgraderSample in
/-- The listener's upgrader votes for a new validator set that the processor proposed, and this
vote brings the set into force. -/
theorem supports_iff_counterexample :
    Node.genesis (counter (info validators)) = .ok (start validators) ∧
    ∃ s s' proposal, chain.steps (start validators) (calls validators [genesisTx, rotateTx]) =
        .ok s ∧
      s.frameworkState.adminProposalState.proposals.get? 0 = some proposal ∧
      proposal.payload = .newSet ⟨rotation.text, rotated⟩ ∧
      upgrader.runSingle upgradeToJson s.frameworkState =
        .ok (some (.approve 0 rotationVote.signatureWithRecovery)) ∧
      chain.steps s (calls validators [voteTx]) = .ok s' ∧
      voteTx.tx.messages = [.admin (.approve 0 rotationVote.signatureWithRecovery)] ∧
      s'.frameworkState.validatorSet = rotated := by
  have hmem : ∀ t ∈ [genesisTx, rotateTx] ++ [voteTx], t.text ∈ table := by simp [table]
  obtain ⟨s, s', hs, hp, hs', hq⟩ := exists_steps_append (start validators)
    (fun s => votes s.frameworkState 0 rotationVote.signatureWithRecovery &&
      (s.frameworkState.adminProposalState.proposals.get? 0).any fun p =>
        p.payload = .newSet ⟨rotation.text, rotated⟩)
    (fun s => s.frameworkState.validatorSet = rotated)
    table_distinct hmem (by decide +kernel)
  rw [Bool.and_eq_true] at hp
  obtain ⟨proposal, hget, hpayload⟩ := (Option.any_eq_true _ _).mp hp.2
  exact ⟨genesis_start validators_wellFormed, s, s', proposal, hs, hget,
    of_decide_eq_true hpayload, eq_of_votes hp.1, hs', rfl, of_decide_eq_true hq⟩

end Kolme
