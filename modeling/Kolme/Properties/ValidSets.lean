import Kolme.Properties.Settled

/-!
# Valid validator sets

A set that a proposal installs has been validated, but a key that replaces itself by another member
of its group makes the group smaller. The set stays valid exactly as long as that happens only in
groups with more members than their quorum.
-/

namespace Kolme

variable {env : Externals}

namespace ValidatorSet

variable {self : ValidatorSet} {validatorType : ValidatorType} {old new : PublicKey}

/-- The replacement leaves a quorum: the new key is no other member of the group, or the group has
members to spare. -/
def Spares (self : ValidatorSet) (validatorType : ValidatorType) (old new : PublicKey) : Prop :=
  match validatorType with
  | .processor => True
  | .listener => new ∈ self.listeners.erase old →
      self.neededListeners.val < self.listeners.card
  | .approver => new ∈ self.approvers.erase old →
      self.neededApprovers.val < self.approvers.card

instance : Decidable (self.Spares validatorType old new) :=
  match validatorType with
  | .processor => inferInstanceAs (Decidable True)
  | .listener => inferInstanceAs (Decidable (_ → _))
  | .approver => inferInstanceAs (Decidable (_ → _))

/-- A replacement leaves at least `n` keys if there were more, or none is lost. -/
theorem le_card_replaceKey_iff {keys : Finset PublicKey} {n : Nat} (new : PublicKey)
    (hold : old ∈ keys) (hn : n ≤ keys.card) :
    n ≤ (replaceKey keys old new).card ↔ (new ∈ keys.erase old → n < keys.card) := by
  have herase := Finset.card_erase_add_one hold
  by_cases hnew : new ∈ keys.erase old
  · rw [replaceKey, Finset.insert_eq_of_mem hnew]
    simp only [hnew, forall_const]
    omega
  · rw [replaceKey, Finset.card_insert_of_notMem hnew, herase]
    simp [hnew, hn]

theorem card_replaceKey_le {keys : Finset PublicKey} (new : PublicKey) (hold : old ∈ keys) :
    (replaceKey keys old new).card ≤ keys.card := by
  have herase := Finset.card_erase_add_one hold
  have hinsert := Finset.card_insert_le new (keys.erase old)
  rw [replaceKey]
  omega

theorem wellFormed_replaceValidator_iff (h : self.WellFormed)
    (hrole : ExecutionContext.holdsRole self validatorType old = true) :
    (self.replaceValidator validatorType old new).WellFormed ↔
      self.Spares validatorType old new := by
  cases validatorType with
  | processor => exact ⟨fun _ => trivial, fun _ => ⟨h.1, h.2, h.3, h.4, h.5, h.6⟩⟩
  | listener =>
    have hold : old ∈ self.listeners := by simpa [ExecutionContext.holdsRole] using hrole
    have hiff := le_card_replaceKey_iff new hold h.neededListeners_le
    have hle := card_replaceKey_le new hold
    constructor
    · exact fun hset => hiff.mp hset.neededListeners_le
    · exact fun hspares => ⟨hle.trans_lt h.1, h.2, h.3, hiff.mpr hspares, h.5, h.6⟩
  | approver =>
    have hold : old ∈ self.approvers := by simpa [ExecutionContext.holdsRole] using hrole
    have hiff := le_card_replaceKey_iff new hold h.neededApprovers_le
    have hle := card_replaceKey_le new hold
    constructor
    · exact fun hset => hiff.mp hset.neededApprovers_le
    · exact fun hspares => ⟨h.1, hle.trans_lt h.2, h.3, h.4, h.5, hiff.mpr hspares⟩

end ValidatorSet

/-- A set that is installed by a proposal was valid when it was proposed. -/
theorem wellFormed_of_enact {info : GenesisInfo} {past : List Effect} {fs : FrameworkState}
    {id : AdminProposalId} {set : TaggedJson ValidatorSet}
    (htrace : (effects env).Trace (FrameworkState.new info) past fs)
    (hlegal : (Effect.enact id (.newSet set)).Legal env fs) : set.value.WellFormed := by
  obtain ⟨approvals, hfind⟩ := hlegal
  obtain ⟨hget, -⟩ := SortedMap.find?_spec hfind
  obtain ⟨before, key, signature, since, rfl, -⟩ := (ProposalLog.of_trace htrace).recorded hget
  obtain ⟨t, -, hpropose, -⟩ := htrace.at
  obtain ⟨-, -, -, hvalid⟩ := hpropose
  exact hvalid set rfl

/-- A legal change keeps the set valid exactly if it is no replacement without a quorum left. -/
theorem wellFormed_apply_iff {info : GenesisInfo} {past : List Effect} {fs : FrameworkState}
    {e : Effect} (htrace : (effects env).Trace (FrameworkState.new info) past fs)
    (hlegal : e.Legal env fs) (h : fs.validatorSet.WellFormed) :
    (e.apply env fs).validatorSet.WellFormed ↔ ∀ signed key, e = .replaceValidator signed key →
      fs.validatorSet.Spares signed.message.value.validatorType key
        signed.message.value.replacement := by
  rw [Effect.validatorSet_apply]
  cases e with
  | replaceValidator signed key =>
    refine (ValidatorSet.wellFormed_replaceValidator_iff h hlegal.2).trans ⟨?_, fun hs => hs _ _ rfl⟩
    rintro hspares _ _ ⟨⟩
    exact hspares
  | enact id payload =>
    cases payload with
    | newSet set => exact ⟨fun _ _ _ => by simp, fun _ => wellFormed_of_enact htrace hlegal⟩
    | migrateContract | upgrade => exact ⟨fun _ _ _ => by simp, fun _ => h⟩
  | account | newEvent | attest | takeEvent | deploy | deposit | confirmAction | approveAction
  | processorApprove | withdraw | emit | propose | vote | clearProposals =>
    exact ⟨fun _ _ _ => by simp, fun _ => h⟩

variable {app : App}

/-- In every run the validator set is valid after each change exactly if every key that replaces
itself leaves its group a quorum. -/
theorem validator_set_valid_iff (self : Node app) (hreach : self.Reachable env) :
    (∀ past rest fs, self.history = past ++ rest →
      (effects env).Trace (FrameworkState.new app.genesisInfo) past fs →
      fs.validatorSet.validate = .ok ()) ↔
    ∀ past signed key rest fs, self.history = past ++ .replaceValidator signed key :: rest →
      (effects env).Trace (FrameworkState.new app.genesisInfo) past fs →
      fs.validatorSet.Spares signed.message.value.validatorType key
        signed.message.value.replacement := by
  have htrace := hreach.trace
  obtain ⟨start, calls, hstart, -⟩ := hreach
  obtain ⟨-, -, -, hgenesis⟩ := Node.genesis_eq_ok hstart
  simp only [ValidatorSet.validate_eq_ok]
  constructor
  · intro hvalid past signed key rest fs hhistory hpast
    rw [Node.HasTrace, hhistory] at htrace
    obtain ⟨t, ht, hlegal, -⟩ := htrace.at
    obtain rfl := hpast.unique ht
    have hbefore := hvalid past _ fs hhistory hpast
    have hafter := hvalid (past ++ [.replaceValidator signed key]) rest _ (by simp [hhistory])
      (hpast.concat hlegal)
    have hlegal : (Effect.replaceValidator signed key).Legal env fs := hlegal
    exact (wellFormed_apply_iff hpast hlegal hbefore).mp hafter signed key rfl
  · intro hspares past rest fs hhistory hpast
    refine hpast.history_induction (I := fun before fs => ∀ after, past = before ++ after →
      fs.validatorSet.WellFormed) (fun _ _ => hgenesis) ?_ [] (by simp)
    intro before e t ht hlegal ih after heq
    refine (wellFormed_apply_iff ht hlegal (ih (e :: after) (by simp [heq]))).mpr ?_
    rintro signed key rfl
    exact hspares before signed key (after ++ rest) t (by simp [hhistory, heq]) ht

namespace ValidSetsSample

open Sample
open SettledSample (listener2 pair pairTx pair_wellFormed)

def listener3 : PublicKey :=
  ⟨0x03daed4f2be3a8bf278e70132fb0beb7522f570e144bf615c07e996d443dee8729, by decide⟩

/-- The first listener names the second as its replacement. -/
def merge : SignedText where
  text := Json.selfReplace ⟨.listener, listener2⟩
  signature := signature
    0x587a3579fb76804d391242520611aec93463c3ae2dc8f7728819f24cc5609ed6
  recoveryId := 0
  key := listener

/-- The first listener names a new key as its replacement. -/
def fresh : SignedText where
  text := Json.selfReplace ⟨.listener, listener3⟩
  signature := signature
    0x768af75a53e15a3fa161e34431e5c1f8bb9fd232acbf816796658babd490799f
  recoveryId := 0
  key := listener

def mergeTx : SignedTx where
  tx := ⟨listener, 0, [.admin (.selfReplace (merge.tagged ⟨.listener, listener2⟩))], none⟩
  s := 0x180085e8f593d6a513ff8079c745474b3763015d3d24f91ee3a9f9f48236d007
  recoveryId := 0

def freshTx : SignedTx where
  tx := ⟨listener, 0, [.admin (.selfReplace (fresh.tagged ⟨.listener, listener3⟩))], none⟩
  s := 0x1a2c639482f109f527c4a847223f11d72a3b8079fc2807ad8f6ff7a82d21224d
  recoveryId := 0

def table : List SignedText := merge :: fresh :: [pairTx, mergeTx, freshTx].map SignedTx.text

theorem table_distinct : (table.map SignedText.signature).Nodup := by decide +kernel

theorem mem_table : ∀ t ∈ [pairTx, mergeTx, freshTx], t.text ∈ table := fun _ ht =>
  List.mem_cons_of_mem _ (List.mem_cons_of_mem _ (List.mem_map_of_mem ht))

def chain : Machine (Node (counter (info pair))) (Call (counter (info pair))) Error :=
  Node.machine (counterEnv table)

/-- Every replacement of the changes leaves a quorum. -/
def spared (env : Externals) (fs : FrameworkState) : List Effect → Bool
  | [] => true
  | e :: es =>
    (match e with
      | .replaceValidator signed key => fs.validatorSet.Spares signed.message.value.validatorType key
          signed.message.value.replacement
      | _ => true) && spared env (e.apply env fs) es

theorem spares_of_spared {past rest : List Effect} {signed : SignedTaggedJson SelfReplace}
    {key : PublicKey} {fs t : FrameworkState}
    (h : spared env fs (past ++ .replaceValidator signed key :: rest) = true)
    (hpast : (effects env).Trace fs past t) :
    t.validatorSet.Spares signed.message.value.validatorType key
      signed.message.value.replacement := by
  induction hpast with
  | nil => exact of_decide_eq_true (Bool.and_eq_true_iff.mp h).1
  | cons _ _ ih => exact ih (Bool.and_eq_true_iff.mp h).2

end ValidSetsSample

open Sample ValidSetsSample in
open SettledSample (listener2 pair pairTx pair_wellFormed) in
/-- The first listener replaces itself by a new key. -/
theorem validator_set_valid_iff_example :
    ∃ s, chain.steps (start pair) (calls pair [pairTx, freshTx]) = .ok s ∧
      s.frameworkState.validatorSet.listeners = {listener2, listener3} ∧
      s.frameworkState.validatorSet.validate = .ok () := by
  have hmem : ∀ t ∈ [pairTx, freshTx], t.text ∈ table :=
    fun t ht => mem_table t (by grind)
  obtain ⟨s, hs, hp⟩ := exists_steps (start pair) (fun s =>
      s.frameworkState.validatorSet.listeners = {listener2, listener3} &&
      spared (counterEnv table) (FrameworkState.new (info pair)) s.history)
    table_distinct hmem (by decide +kernel)
  simp only [Bool.and_eq_true, decide_eq_true_eq] at hp
  obtain ⟨hlisteners, hspared⟩ := hp
  have hreach := reachable pair_wellFormed hs
  refine ⟨s, hs, hlisteners, (validator_set_valid_iff s hreach).mpr ?_ s.history [] _
    (by simp) hreach.trace⟩
  intro past signed key rest fs hhistory hpast
  rw [hhistory] at hspared
  exact spares_of_spared hspared hpast

open Sample ValidSetsSample in
open SettledSample (listener2 pair pairTx pair_wellFormed) in
/-- The first listener replaces itself by the second; one listener is left where two are needed. -/
theorem validator_set_valid_iff_counterexample :
    Node.genesis (counter (info pair)) = .ok (start pair) ∧ pair.validate = .ok () ∧
    ∃ s, chain.steps (start pair) (calls pair [pairTx, mergeTx]) = .ok s ∧
      s.frameworkState.validatorSet.listeners = {listener2} ∧
      s.frameworkState.validatorSet.neededListeners = 2 ∧
      s.frameworkState.validatorSet.validate ≠ .ok () := by
  have hmem : ∀ t ∈ [pairTx, mergeTx], t.text ∈ table :=
    fun t ht => mem_table t (by grind)
  obtain ⟨s, hs, hp⟩ := exists_steps (start pair) (fun s =>
      s.frameworkState.validatorSet.listeners = {listener2} &&
      s.frameworkState.validatorSet.neededListeners = 2 &&
      s.frameworkState.validatorSet.validate ≠ .ok ())
    table_distinct hmem (by decide +kernel)
  simp only [Bool.and_eq_true, decide_eq_true_eq] at hp
  obtain ⟨⟨hlisteners, hneeded⟩, hinvalid⟩ := hp
  exact ⟨genesis_start pair_wellFormed, ValidatorSet.validate_eq_ok.mpr pair_wellFormed, s, hs,
    hlisteners, hneeded, hinvalid⟩

end Kolme
