import Kolme.Core.Counter

/-!
# Governance

The validator set changes by the replacement of a key, signed with that key, or by a proposal that
two of the three groups signed; the version changes by an approved proposal for an upgrade. The
history tells where every approval of a pending proposal comes from: it was given to that proposal,
after the table was last emptied.

## Main result

* `governance_safety`: what every change in the history of a reachable node may do.
-/

namespace Kolme

variable {env : Externals}

/-! ## Approvals -/

/-- The keys that approved. -/
def PendingProposal.signers (self : PendingProposal) : Finset PublicKey :=
  self.approvals.keys.toFinset

namespace PendingProposal

variable {self : PendingProposal} {set : ValidatorSet}

theorem mem_signers {key : PublicKey} :
    key ∈ self.signers ↔ self.approvals.contains key = true := by
  rw [signers, List.mem_toFinset, SortedMap.mem_keys, SortedMap.contains_iff]

theorem filter_contains (group : Finset PublicKey) :
    group.filter (fun member => self.approvals.contains member) = self.signers ∩ group := by
  ext key
  rw [Finset.mem_filter, Finset.mem_inter, mem_signers, and_comm]

/-- A group that counts as fulfilled has enough members among the signers. -/
theorem needed_le_of_fulfillsGroups {group : Finset PublicKey} {needed : U16}
    (h : self.fulfillsGroups group needed = true) :
    needed.val ≤ (self.signers ∩ group).card := by
  rw [fulfillsGroups, filter_contains] at h
  have hle : needed.val ≤ (self.signers ∩ group).card % 256 ^ 2 := of_decide_eq_true h
  exact hle.trans (Nat.mod_le _ _)

/-- Sufficient approvals fill two of the three groups, and those of an upgrade include the
processor's. -/
theorem filledBy_of_sufficient (h : self.hasSufficientApprovals set = true) :
    set.FilledBy self.signers ∧
      ∀ u, self.payload = .upgrade u → set.processor ∈ self.signers := by
  unfold hasSufficientApprovals at h
  simp only [Bool.and_eq_true, Bool.not_eq_true', Bool.if_false_left, decide_eq_true_eq] at h
  obtain ⟨hupgrade, hgroups⟩ := h
  constructor
  · rw [← TwoOfThree.iff_two_le] at hgroups
    exact hgroups.mono mem_signers.mpr needed_le_of_fulfillsGroups needed_le_of_fulfillsGroups
  · intro u hu
    rw [mem_signers]
    simpa [hu] using hupgrade

end PendingProposal

/-! ## The table of proposals -/

/-- The change makes a proposal. -/
def Effect.isPropose : Effect → Bool
  | propose _ _ _ => true
  | _ => false

/-- The number of proposals made. -/
def proposalsMade (past : List Effect) : Nat := past.countP (·.isPropose)

@[simp] theorem proposalsMade_nil : proposalsMade [] = 0 := rfl

@[simp] theorem proposalsMade_append (past es : List Effect) :
    proposalsMade (past ++ es) = proposalsMade past + proposalsMade es := List.countP_append

@[simp] theorem proposalsMade_cons (e : Effect) (es : List Effect) :
    proposalsMade (e :: es) = proposalsMade es + e.isPropose.toNat := by
  rw [proposalsMade, List.countP_cons]
  cases e.isPropose <;> rfl

/-- Where a pending proposal comes from: it was made under its id, the table was not emptied
since then, and its approvals are signatures of its text that were given to it. -/
def Recorded (env : Externals) (past : List Effect) (id : AdminProposalId)
    (pending : PendingProposal) : Prop :=
  ∃ before key signature since, past = before ++ .propose pending.payload key signature :: since ∧
    id = proposalsMade before ∧ .clearProposals ∉ since ∧
    ∀ key' signature', pending.approvals.get? key' = some signature' →
      signature'.validate env pending.payload.serialized.toByteArray = .ok key' ∧
      (key' = key ∧ signature' = signature ∨ .vote id key' signature' ∈ since)

/-- The table agrees with the record. -/
structure ProposalLog (env : Externals) (past : List Effect) (state : AdminProposalState) :
    Prop where
  next : state.nextAdminProposalId = proposalsMade past
  recorded : ∀ {id pending}, state.proposals.get? id = some pending → Recorded env past id pending

theorem Recorded.append {past : List Effect} {id : AdminProposalId} {pending : PendingProposal}
    {e : Effect} (h : Recorded env past id pending) (he : e ≠ .clearProposals) :
    Recorded env (past ++ [e]) id pending := by
  obtain ⟨before, key, signature, since, rfl, hid, hclear, happrovals⟩ := h
  refine ⟨before, key, signature, since ++ [e], by simp, hid, ?_, fun key' signature' hget => ?_⟩
  · simpa [hclear] using he.symm
  · obtain ⟨hvalid, hgiven⟩ := happrovals key' signature' hget
    exact ⟨hvalid, hgiven.imp_right fun hmem => List.mem_append_left _ hmem⟩

/-- What a change does to the table. -/
theorem Effect.adminProposalState_apply (fs : FrameworkState) (e : Effect) :
    (e.apply env fs).adminProposalState = match e with
      | propose payload key signature => fs.adminProposalState.add payload key signature
      | vote id key signature => fs.adminProposalState.vote id key signature
      | clearProposals => { fs.adminProposalState with proposals := ∅ }
      | _ => fs.adminProposalState := by
  cases e with
  | account | replaceValidator | propose | vote | clearProposals => rfl
  | enact id payload => cases payload <;> rfl
  | newEvent | attest | takeEvent | deploy | deposit | confirmAction | approveAction
  | processorApprove | withdraw | emit => exact FrameworkState.adminProposalState_updateChain ..

namespace ProposalLog

variable {past : List Effect} {fs : FrameworkState} {e : Effect}

/-- Changes that are not about proposals. -/
theorem other {state : AdminProposalState} (h : ProposalLog env past state)
    (hpropose : e.isPropose = false) (hclear : e ≠ .clearProposals) :
    ProposalLog env (past ++ [e]) state where
  next := by simp [hpropose, h.next]
  recorded hget := (h.recorded hget).append hclear

theorem effect (h : ProposalLog env past fs.adminProposalState) (hlegal : e.Legal env fs) :
    ProposalLog env (past ++ [e]) (e.apply env fs).adminProposalState := by
  rw [Effect.adminProposalState_apply]
  cases e with
  | propose payload key signature =>
    obtain ⟨-, hvalid, -, -⟩ := hlegal
    refine ⟨by simp [AdminProposalState.add, h.next, Effect.isPropose], ?_⟩
    intro id pending hget
    simp only [AdminProposalState.add, SortedMap.get?_insert] at hget
    split at hget
    · -- The new proposal carries the proposer's signature.
      rename_i hid
      obtain rfl := Option.some.inj hget
      refine ⟨past, key, signature, [], rfl, hid.trans h.next, by simp, fun key' sig' hsig => ?_⟩
      rw [SortedMap.get?_insert] at hsig
      split at hsig
      · rename_i hkey
        obtain rfl := Option.some.inj hsig
        subst hkey
        exact ⟨hvalid, .inl ⟨rfl, rfl⟩⟩
      · cases hsig
    · exact (h.recorded hget).append (by simp)
  | vote id key signature =>
    obtain ⟨-, pending, hpending, hvalid, -⟩ := hlegal
    refine ⟨by simp [AdminProposalState.vote, hpending, h.next, Effect.isPropose], ?_⟩
    intro id' pending' hget
    simp only [AdminProposalState.vote, hpending, SortedMap.get?_insert] at hget
    split at hget
    · rename_i hid
      obtain rfl := Option.some.inj hget
      subst hid
      obtain ⟨before, key₀, sig₀, since, rfl, hid, hclear, happrovals⟩ := h.recorded hpending
      refine ⟨before, key₀, sig₀, since ++ [.vote id' key signature], by simp, hid,
        by simpa using hclear, fun key' sig' hsig => ?_⟩
      rw [SortedMap.get?_insert] at hsig
      split at hsig
      · rename_i hkey
        obtain rfl := Option.some.inj hsig
        subst hkey
        exact ⟨hvalid, .inr (by simp)⟩
      · obtain ⟨hvalid', hgiven⟩ := happrovals key' sig' hsig
        exact ⟨hvalid', hgiven.imp_right fun hmem => List.mem_append_left _ hmem⟩
    · exact (h.recorded hget).append (by simp)
  | clearProposals =>
    exact ⟨by simp [h.next, Effect.isPropose], by rintro _ _ ⟨⟩⟩
  | account | newEvent | attest | takeEvent | deploy | deposit | confirmAction | approveAction
  | processorApprove | withdraw | emit | replaceValidator | enact =>
    exact h.other rfl (by simp)

theorem of_trace {info : GenesisInfo} (h : (effects env).Trace (FrameworkState.new info) past fs) :
    ProposalLog env past fs.adminProposalState :=
  h.history_induction (I := fun past fs => ProposalLog env past fs.adminProposalState)
    ⟨rfl, by rintro _ _ ⟨⟩⟩ fun _ _ _ _ hlegal hlog => hlog.effect hlegal

end ProposalLog

/-! ## What changes do -/

/-- A change of the validator set is the replacement of a key in one of its roles, signed with that
key, or the set of a proposal whose text was signed by two of the three groups. -/
def SetChange (env : Externals) (fs : FrameworkState) (e : Effect) : Prop :=
  (e.apply env fs).validatorSet ≠ fs.validatorSet →
    (∃ signed key, e = .replaceValidator signed key ∧ signed.verifySignature env = .ok key ∧
      ExecutionContext.holdsRole fs.validatorSet signed.message.value.validatorType key = true ∧
      (e.apply env fs).validatorSet = fs.validatorSet.replaceValidator
        signed.message.value.validatorType key signed.message.value.replacement) ∨
    ∃ id set, e = .enact id (.newSet set) ∧ (e.apply env fs).validatorSet = set.value ∧
      ∃ signers, fs.validatorSet.FilledBy signers ∧ ∀ key ∈ signers,
        ∃ signature : SignatureWithRecovery, signature.validate env set.serialized.toByteArray = .ok key

/-- A change of the version is an upgrade that is approved under the rule for upgrades. -/
def VersionChange (env : Externals) (fs : FrameworkState) (e : Effect) : Prop :=
  (e.apply env fs).version ≠ fs.version →
    ∃ id u approvals, e = .enact id (.upgrade u) ∧
      (e.apply env fs).version = u.value.desiredVersion ∧
      (⟨.upgrade u, approvals⟩ : PendingProposal).hasSufficientApprovals fs.validatorSet = true ∧
      ∀ key (signature : SignatureWithRecovery), approvals.get? key = some signature →
        signature.validate env u.serialized.toByteArray = .ok key

/-- A proposal that comes into force has sufficient approvals, all of them given to it since the
table was last emptied, it comes into force once, and it empties the table when its actions are
queued. -/
def EnactedSafely (env : Externals) (past future : List Effect) (fs : FrameworkState)
    (e : Effect) : Prop :=
  ∀ id payload, e = .enact id payload →
    (∃ approvals, Recorded env past id ⟨payload, approvals⟩ ∧
      (⟨payload, approvals⟩ : PendingProposal).hasSufficientApprovals fs.validatorSet = true) ∧
    (∀ payload', .enact id payload' ∉ past) ∧
    ∃ es rest, future = es ++ .clearProposals :: rest ∧
      ∀ e' ∈ es, ∃ chain action text, e' = .emit chain action text

/-- A new proposal gets the number of those before it as its id, which no pending one has. -/
def ProposedFresh (env : Externals) (past : List Effect) (fs : FrameworkState) (e : Effect) :
    Prop :=
  ∀ payload key signature, e = .propose payload key signature →
    fs.adminProposalState.proposals.get? (proposalsMade past) = none ∧
    (e.apply env fs).adminProposalState.proposals.get? (proposalsMade past) =
      some ⟨payload, (∅ : SortedMap _ _).insert key signature⟩

section

variable {fs : FrameworkState} {e : Effect} {past future : List Effect}

theorem Recorded.lt_proposalsMade {id : AdminProposalId} {pending : PendingProposal}
    (h : Recorded env past id pending) : id < proposalsMade past := by
  obtain ⟨before, key, signature, since, rfl, rfl, -⟩ := h
  have hone : proposalsMade (.propose pending.payload key signature :: since) =
      proposalsMade since + 1 := proposalsMade_cons ..
  rw [proposalsMade_append, hone]
  exact Nat.lt_add_of_pos_right (Nat.succ_pos _)

theorem setChange_of_legal (hlog : ProposalLog env past fs.adminProposalState)
    (hlegal : e.Legal env fs) : SetChange env fs e := by
  intro hchange
  cases e with
  | replaceValidator signed key => exact .inl ⟨signed, key, rfl, hlegal.1, hlegal.2, rfl⟩
  | enact id payload =>
    cases payload with
    | newSet set =>
      obtain ⟨approvals, hfind⟩ := hlegal
      obtain ⟨hget, hsufficient⟩ := SortedMap.find?_spec hfind
      obtain ⟨before, key, signature, since, -, -, -, happrovals⟩ := hlog.recorded hget
      refine .inr ⟨id, set, rfl, rfl, _, (PendingProposal.filledBy_of_sufficient hsufficient).1,
        fun key hkey => ?_⟩
      obtain ⟨sig, hsig⟩ := SortedMap.contains_iff.mp (PendingProposal.mem_signers.mp hkey)
      exact ⟨sig, (happrovals key sig hsig).1⟩
    | migrateContract | upgrade => exact absurd rfl hchange
  | account | propose | vote | clearProposals => exact absurd rfl hchange
  | newEvent | attest | takeEvent | deploy | deposit | confirmAction | approveAction
  | processorApprove | withdraw | emit =>
    exact absurd (FrameworkState.validatorSet_updateChain ..) hchange

theorem versionChange_of_legal (hlog : ProposalLog env past fs.adminProposalState)
    (hlegal : e.Legal env fs) : VersionChange env fs e := by
  intro hchange
  cases e with
  | enact id payload =>
    cases payload with
    | upgrade u =>
      obtain ⟨approvals, hfind⟩ := hlegal
      obtain ⟨hget, hsufficient⟩ := SortedMap.find?_spec hfind
      obtain ⟨before, key, signature, since, -, -, -, happrovals⟩ := hlog.recorded hget
      exact ⟨id, u, approvals, rfl, rfl, hsufficient, fun key sig hsig => (happrovals key sig hsig).1⟩
    | newSet | migrateContract => exact absurd rfl hchange
  | account | propose | vote | clearProposals | replaceValidator => exact absurd rfl hchange
  | newEvent | attest | takeEvent | deploy | deposit | confirmAction | approveAction
  | processorApprove | withdraw | emit =>
    exact absurd (FrameworkState.version_updateChain ..) hchange

theorem proposedFresh_of_log (hlog : ProposalLog env past fs.adminProposalState) :
    ProposedFresh env past fs e := by
  rintro payload key signature rfl
  constructor
  · cases hget : fs.adminProposalState.proposals.get? (proposalsMade past) with
    | none => rfl
    | some pending => exact absurd (hlog.recorded hget).lt_proposalsMade (lt_irrefl _)
  · rw [← hlog.next]
    exact SortedMap.get?_insert_self ..

/-- The table is emptied before the next proposal comes into force. -/
theorem clear_mem {id : AdminProposalId} {payload : ProposalPayload}
    {between after : List Effect} (hes : ∃ es rest, between ++ .enact id payload :: after =
      es ++ .clearProposals :: rest ∧ ∀ e' ∈ es, ∃ chain action text, e' = .emit chain action text) :
    .clearProposals ∈ between := by
  obtain ⟨es, rest, heq, hemits⟩ := hes
  rcases List.append_eq_append_iff.mp heq with ⟨mid, rfl, hmid⟩ | ⟨mid, rfl, hmid⟩
  · cases mid with
    | nil => simp at hmid
    | cons e mid =>
      obtain ⟨rfl, -⟩ := List.cons.inj hmid
      obtain ⟨_, _, _, heq⟩ := hemits (.enact id payload) (by simp)
      cases heq
  · cases mid with
    | nil => simp at hmid
    | cons e mid =>
      obtain ⟨rfl, -⟩ := List.cons.inj hmid
      simp

/-- What follows a proposal that comes into force. -/
theorem enact_future {app : App} {id : AdminProposalId} {payload : ProposalPayload}
    (hblocks : Blocks (HistoryBlock env app) (past ++ .enact id payload :: future)) :
    ∃ es rest, future = es ++ .clearProposals :: rest ∧
      ∀ e' ∈ es, ∃ chain action text, e' = .emit chain action text := by
  obtain ⟨pre, before, after, post, -, rfl, hb, -, -⟩ := hblocks.exists_of_append
  obtain ⟨rfl, henact⟩ := hb.of_enact
  generalize heq : Effect.enact id payload :: after = b at henact
  cases henact with
  | @newSet set approvals es hes =>
    obtain ⟨-, rfl⟩ := List.cons.inj heq
    refine ⟨es, post, List.append_assoc .., fun e' he' => ?_⟩
    obtain ⟨chain, text, rfl⟩ := hes e' he'
    exact ⟨chain, _, text, rfl⟩
  | migrateContract migrate text =>
    obtain ⟨-, rfl⟩ := List.cons.inj heq
    exact ⟨[_], post, rfl, by simp⟩
  | upgrade u =>
    obtain ⟨-, rfl⟩ := List.cons.inj heq
    exact ⟨[], post, rfl, by simp⟩

end

/-- In every run the validator set and the version change only as the rules for replacements and
proposals say, and neither approvals nor ids pass from one proposal to another. -/
theorem governance_safety {app : App} (self : Node app) (hreach : self.Reachable env)
    (past future : List Effect) (e : Effect) (fs : FrameworkState)
    (hhistory : self.history = past ++ e :: future)
    (hpast : (effects env).Trace (FrameworkState.new app.genesisInfo) past fs) :
    SetChange env fs e ∧ VersionChange env fs e ∧ EnactedSafely env past future fs e ∧
      ProposedFresh env past fs e := by
  have htrace := hreach.trace
  have hblocks := hreach.blocks
  rw [Node.HasTrace, hhistory] at htrace
  rw [hhistory] at hblocks
  obtain ⟨fs', hpast', hlegal, -⟩ := htrace.at
  obtain rfl := hpast.unique hpast'
  have hlog := ProposalLog.of_trace hpast
  refine ⟨setChange_of_legal hlog hlegal, versionChange_of_legal hlog hlegal, ?_,
    proposedFresh_of_log hlog⟩
  rintro id payload rfl
  obtain ⟨approvals, hfind⟩ := hlegal
  obtain ⟨hget, hsufficient⟩ := SortedMap.find?_spec hfind
  have hrecorded := hlog.recorded hget
  refine ⟨⟨approvals, hrecorded, hsufficient⟩, fun payload' hmem => ?_, enact_future hblocks⟩
  -- An earlier proposal of this id was made before the table was last emptied.
  obtain ⟨first, between, rfl⟩ := List.append_of_mem hmem
  rw [List.append_assoc, List.cons_append] at hblocks
  have hclear : .clearProposals ∈ between := clear_mem (enact_future hblocks)
  obtain ⟨t, hfirst, ⟨approvals', hfind'⟩, -⟩ := hpast.at
  have hearlier := (ProposalLog.of_trace hfirst).recorded (SortedMap.find?_spec hfind').1
  obtain ⟨before, key, signature, since, heq, hid, hnone, -⟩ := hrecorded
  have hlt := hearlier.lt_proposalsMade
  rcases List.append_eq_append_iff.mp heq with ⟨mid, rfl, hmid⟩ | ⟨mid, rfl, hmid⟩
  · rw [hid, proposalsMade_append] at hlt
    exact absurd hlt (Nat.not_lt.mpr (Nat.le_add_right _ _))
  · cases mid with
    | nil => simp at hmid
    | cons e' mid =>
      obtain ⟨rfl, rfl⟩ := List.cons.inj hmid
      exact hnone (by simp [hclear])

namespace GovernanceSample

open Sample

/-- Alice becomes the approver. -/
def rotated : ValidatorSet := ⟨processor, {listener}, 1, {alice}, 1⟩

def rendered : TaggedJson ValidatorSet := ⟨Json.validatorSet rotated, rotated⟩

/-- The processor's signature of the new set. -/
def proposal : SignedText where
  text := Json.validatorSet rotated
  signature := signature
    0x6f96aff835f21a4507123df6ecad217cc96067d8aacdaf46a1e0a5836bafa322
  recoveryId := 0
  key := processor

def vote : SignedText where
  text := Json.validatorSet rotated
  signature := signature
    0x16aae988d0312a0ea34d5f7344cbd37aeeb27832d6acc81bc3ff37ae4d8e8687
  recoveryId := 1
  key := listener

def proposeTx : SignedTx where
  tx := ⟨processor, 1, [.admin (.newSet (proposal.tagged rotated))], none⟩
  s := 0x69d590fcab2b93799a0f3484b51532afab1acf123f2fba8cc124c81f14471c08
  recoveryId := 1

def voteTx : SignedTx where
  tx := ⟨listener, 0, [.admin (.approve 0 vote.signatureWithRecovery)], none⟩
  s := 0x0a5c1d9d90c08a4224349448e472665056f6adecfbd727bb22e41395b3312dbb
  recoveryId := 0

def table : List SignedText :=
  [proposal, vote, genesisTx.text, proposeTx.text, voteTx.text]

theorem table_distinct : (table.map SignedText.signature).Nodup := by decide

theorem mem_table : ∀ t ∈ [genesisTx, proposeTx, voteTx], t.text ∈ table := by
  intro t ht
  exact List.mem_cons_of_mem _ (List.mem_cons_of_mem _ (List.mem_map_of_mem ht))

def chain : Machine (Node (counter (info validators))) (Call (counter (info validators))) Error :=
  Node.machine (counterEnv table)

end GovernanceSample

open Sample GovernanceSample in
/-- The processor proposes a set and the listener approves it. -/
theorem governance_safety_example :
    ∃ s past future fs,
      chain.steps (start validators) (calls validators [genesisTx, proposeTx, voteTx]) = .ok s ∧
      s.frameworkState.validatorSet = rotated ∧
      s.history = past ++ .enact 0 (.newSet rendered) :: future ∧
      SetChange (counterEnv table) fs (.enact 0 (.newSet rendered)) ∧
      VersionChange (counterEnv table) fs (.enact 0 (.newSet rendered)) ∧
      EnactedSafely (counterEnv table) past future fs (.enact 0 (.newSet rendered)) ∧
      ProposedFresh (counterEnv table) past fs (.enact 0 (.newSet rendered)) := by
  obtain ⟨s, hs, hp⟩ := exists_steps (start validators)
    (fun s => s.frameworkState.validatorSet = rotated ∧
      .enact 0 (.newSet rendered) ∈ s.history) table_distinct mem_table (by decide +kernel)
  obtain ⟨hset, henact⟩ := of_decide_eq_true hp
  obtain ⟨past, future, hhistory⟩ := List.append_of_mem henact
  have hreach := reachable validators_wellFormed hs
  have htrace := hreach.trace
  rw [Node.HasTrace, hhistory] at htrace
  obtain ⟨fs, hpast, -⟩ := htrace.at
  exact ⟨s, past, future, fs, hs, hset, hhistory,
    governance_safety s hreach past future _ fs hhistory hpast⟩

end Kolme
