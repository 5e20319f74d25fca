import Kolme.Merkle.Closure
import Kolme.Properties.AccountMaps
import Kolme.Properties.MerkleMaps
import Kolme.Store.Formats

/-!
# Values are reloaded as they were saved

A value that was serialized and saved to a store is loaded from it again: its bytes are read to an
equal value, and none is left over.
-/

namespace Kolme

open Exec Merkle MerkleDeserializer MerkleSerializer

variable {K V : Type}

/-! ## Merkle maps -/

/-- Keys that are read from their bytes, and are short enough for the depth of the trees. -/
class LawfulMerkleKey (K : Type) [ToMerkleKey K] [FromMerkleKey K] where
  FitsKey : K → Prop
  from_to : ∀ {key : K}, FitsKey key →
    FromMerkleKey.fromMerkleKey (ToMerkleKey.toMerkleKey key).bytes = .ok key
  short : ∀ key : K, (ToMerkleKey.toMerkleKey key).Fits

export LawfulMerkleKey (FitsKey)

instance : LawfulMerkleKey U64 where
  FitsKey _ := True
  from_to {key} _ := by
    have hread : fromBE8 (Bytes.toBE 8 key) = .ok key.val := by
      rw [fromBE8, Bytes.ofBE_toBE key.isLt]
      simp [Except.ensure]
    change fromBE8 (Bytes.toBE 8 key) >>= _ = _
    rw [hread]
    exact congrArg Except.ok (Fin.ofNat_val_eq_self key)
  short key := fits_of_short (by simp [ToMerkleKey.toMerkleKey])

instance : LawfulMerkleKey ℕ where
  FitsKey key := key < usizeLimit
  from_to {key} hfits := by
    change fromBE8 (Bytes.toBE 8 key) = _
    rw [fromBE8, Bytes.ofBE_toBE hfits]
    simp [Except.ensure]
  short key := fits_of_short (by simp [ToMerkleKey.toMerkleKey])

theorem fromUtf8_utf8 (text : String) : fromUtf8 (utf8 text) = .ok text := by
  simp [fromUtf8, utf8, String.fromUTF8?, text.isValidUTF8, String.fromUTF8]

theorem ExternalChain.parse_asRef (chain : ExternalChain) : parse chain.asRef = .ok chain := by
  cases chain <;> decide

instance : LawfulMerkleKey ExternalChain where
  FitsKey _ := True
  from_to {chain} _ := by
    change fromUtf8 (utf8 chain.asRef) >>= ExternalChain.parse = _
    rw [fromUtf8_utf8]
    exact chain.parse_asRef
  short chain := fits_of_short (by cases chain <;> decide)

section

variable [ToMerkleKey K] [FromMerkleKey K] [LawfulMerkleKey K]

theorem toMerkleKey_inj {k k' : K} (hk : FitsKey k) (hk' : FitsKey k')
    (h : ToMerkleKey.toMerkleKey k = ToMerkleKey.toMerkleKey k') : k = k' := by
  have hread := LawfulMerkleKey.from_to hk
  rw [h, LawfulMerkleKey.from_to hk'] at hread
  exact (Except.ok.inj hread).symm

/-- The entries of a sorted map under the bytes of their keys. -/
def keyed (entries : List (K × V)) : List (MerkleKey × (K × V)) :=
  entries.map fun entry => (ToMerkleKey.toMerkleKey entry.1, entry)

omit [FromMerkleKey K] [LawfulMerkleKey K] in
theorem represents_foldlM {entries : List (K × V)} {map : MerkleMap K V} {m : EntryMap K V}
    (h : Represents map m) (short : ∀ entry ∈ entries, (ToMerkleKey.toMerkleKey entry.1).Fits) :
    ∃ map', entries.foldlM
        (fun map entry => (map.insert entry.1 entry.2).map Prod.fst) map = some map' ∧
      Represents map' ((keyed entries).foldl (fun m entry => m.insert entry.1 entry.2) m) := by
  induction entries generalizing map m with
  | nil => exact ⟨map, rfl, h⟩
  | cons entry entries ih =>
    rw [List.forall_mem_cons] at short
    obtain ⟨map₁, hinsert, h₁⟩ := h.insert entry.2 short.1
    obtain ⟨map', hrest, h'⟩ := ih h₁ short.2
    refine ⟨map', ?_, h'⟩
    rw [List.foldlM_cons, hinsert]
    exact hrest

variable [LinearOrder K] {m : SortedMap K V}

/-- The Merkle map of a sorted map has its entries. -/
theorem represents_toMerkleMap (m : SortedMap K V) :
    Represents (toMerkleMap m) (SortedMap.ofList (keyed m.toList)) := by
  have short : ∀ entry ∈ m.toList, (ToMerkleKey.toMerkleKey entry.1).Fits := fun entry _ =>
    LawfulMerkleKey.short entry.1
  obtain ⟨map, hrun, h⟩ := represents_foldlM represents_new short
  have hmap : toMerkleMap m = map := congrArg (Option.getD · _) hrun
  exact hmap ▸ h

theorem nodup_keyed (hkeys : ∀ entry ∈ m.toList, FitsKey entry.1) :
    ((keyed m.toList).map Prod.fst).Nodup := by
  have hnodup := m.nodup_keys.map_on (f := ToMerkleKey.toMerkleKey) fun k hk k' hk' => by
    obtain ⟨entry, hentry, rfl⟩ := List.mem_map.mp hk
    obtain ⟨entry', hentry', rfl⟩ := List.mem_map.mp hk'
    exact toMerkleKey_inj (hkeys entry hentry) (hkeys entry' hentry')
  rw [List.map_map] at hnodup
  rwa [keyed, List.map_map]

theorem mem_entries_toMerkleMap (hkeys : ∀ entry ∈ m.toList, FitsKey entry.1) (pair : K × V) :
    pair ∈ (toMerkleMap m).node.entries.map LeafEntry.pair ↔ pair ∈ m.toList := by
  have hrepresents := represents_toMerkleMap m
  have hassoc : pair ∈ (toMerkleMap m).node.entries.map LeafEntry.pair ↔
      ∃ key, (key, pair) ∈ (SortedMap.ofList (keyed m.toList)).toList := by
    simp [hrepresents.entries, LeafEntry.assoc]
  rw [hassoc]
  simp only [← SortedMap.get?_eq_some, SortedMap.get?_ofList (nodup_keyed hkeys)]
  simp [keyed]

theorem nodup_entries_toMerkleMap (m : SortedMap K V) :
    (((toMerkleMap m).node.entries.map LeafEntry.pair).map Prod.fst).Nodup := by
  have hrepresents := represents_toMerkleMap m
  refine List.Nodup.of_map ToMerkleKey.toMerkleKey ?_
  have hkeys := nodup_keys hrepresents.valid.sorted
  rw [List.map_map, List.map_map]
  rwa [List.map_congr_left hrepresents.keyed] at hkeys

/-- A sorted map is what its Merkle map holds. -/
theorem ofList_entries_toMerkleMap (hkeys : ∀ entry ∈ m.toList, FitsKey entry.1) :
    SortedMap.ofList ((toMerkleMap m).node.entries.map LeafEntry.pair) = m := by
  refine SortedMap.eq_of_get? fun k => Option.ext fun v => ?_
  rw [SortedMap.get?_ofList (nodup_entries_toMerkleMap m), mem_entries_toMerkleMap hkeys,
    SortedMap.get?_eq_some]

theorem len_toMerkleMap (hkeys : ∀ entry ∈ m.toList, FitsKey entry.1) :
    (toMerkleMap m).len = m.toList.length := by
  have hnodup := (nodup_entries_toMerkleMap m).of_map
  have hperm : ((toMerkleMap m).node.entries.map LeafEntry.pair).Perm m.toList :=
    (List.perm_ext_iff_of_nodup hnodup m.nodup_keys.of_map).mpr (mem_entries_toMerkleMap hkeys)
  have hlen : (toMerkleMap m).len = (toMerkleMap m).node.entries.length :=
    (represents_toMerkleMap m).valid.len_eq
  rw [hlen, ← hperm.length_eq, List.length_map]

variable [MerkleSerializeRaw V] [MerkleDeserializeRaw V] [Sha256] [LawfulMerkle V]

/-- The entries of the map fit. -/
def FitsMap (m : SortedMap K V) : Prop :=
  m.toList.length < usizeLimit ∧ ∀ entry ∈ m.toList, FitsKey entry.1 ∧ Fits entry.2

theorem Merkle.Reads.loadMerkleMap (hfits : FitsMap m) :
    Reads loadMerkleMap (storeMerkleMap m) m := by
  have hkeys : ∀ entry ∈ m.toList, FitsKey entry.1 := fun entry hentry => (hfits.2 entry hentry).1
  have hrepresents := represents_toMerkleMap m
  have hmap : Fits (toMerkleMap m) := by
    refine ⟨hrepresents.valid, (len_toMerkleMap hkeys).trans_lt hfits.1, fun entry hentry => ?_⟩
    have hpair := hfits.2 entry.pair
      ((mem_entries_toMerkleMap hkeys entry.pair).mp (List.mem_map_of_mem hentry))
    refine ⟨?_, hpair.2⟩
    rw [hrepresents.keyed entry hentry]
    exact LawfulMerkleKey.from_to hpair.1
  exact (LawfulMerkle.reads hmap).map (by rw [ofList_entries_toMerkleMap hkeys])

end

/-! ## Texts and JSON -/

section

variable [Sha256] {α : Type} [Rendered α]

theorem Merkle.Reads.loadJson {a : α} (hfits : ReadsBack a) : Reads loadJson (storeJson a) a := by
  unfold Kolme.loadJson
  refine (Reads.loadBytes (utf8 (Rendered.toText a))).map ?_
  rw [fromUtf8_utf8]
  have hvalue : Rendered.fromText (Rendered.toText a) = some a := hfits
  change fromOption _ (Rendered.fromText (Rendered.toText a)) = _
  rw [hvalue]
  rfl

/-- The value is what its text stands for. -/
instance : LawfulMerkle (TaggedJson α) where
  Fits json := Rendered.fromText json.serialized = some json.value
  reads {json} hfits := by
    have htext : Reads load (store json.serialized) json.serialized := LawfulMerkle.reads trivial
    refine htext.map ?_
    rw [hfits]
    rfl

variable [ByteFormats]

instance : LawfulMerkle (SignedTaggedJson α) where
  Fits signed := Fits signed.message ∧ Fits signed.signature ∧ signed.recoveryId.toNat < 4
  reads hfits := .versioned zero_lt_usizeLimit <| .assoc <|
    (LawfulMerkle.reads hfits.1).bind <| (LawfulMerkle.reads hfits.2.1).bind <|
    (Reads.loadRecoveryId hfits.2.2).map rfl

theorem Merkle.Reads.loadSignedBlock {block : SignedTaggedJson α} (hfits : Fits block) :
    Reads loadSignedBlock (storeSignedBlock block) block :=
  (Reads.loadUsize zero_lt_usizeLimit).bind (LawfulMerkle.reads hfits)

/-- Blocks are written in the newest version of their format. -/
instance : LawfulMerkle (StorableBlock (SignedTaggedJson α)) where
  Fits block := Fits block.height ∧ Fits block.blockhash ∧ Fits block.txhash ∧ Fits block.block
  reads hfits := .versioned (show 2 < usizeLimit by decide) <| .assoc <| .assoc <|
    (LawfulMerkle.reads hfits.1).bind <| (LawfulMerkle.reads hfits.2.1).bind <|
    (LawfulMerkle.reads hfits.2.2.1).bind <| (Reads.loadSignedBlock hfits.2.2.2).map rfl

end

/-! ## Accounts -/

namespace Accounts

variable {keysOf : Account → Finset K} {accounts done : List (AccountId × Account)} {id : AccountId}
  {account : Account} {a : Accounts}

section

variable [LinearOrder K] {map : SortedMap K AccountId}

theorem reverse_eq_ok {keys : List K} (describe : K → String) (id : AccountId) (nodup : keys.Nodup)
    (absent : ∀ k ∈ keys, map.get? k = none) :
    ∃ map', reverse describe id keys map = .ok map' ∧
      ∀ k, map'.get? k = if k ∈ keys then some id else map.get? k := by
  induction keys generalizing map with
  | nil => exact ⟨map, rfl, fun k => rfl⟩
  | cons key keys ih =>
    rw [List.nodup_cons] at nodup
    rw [List.forall_mem_cons] at absent
    have hrest : ∀ k ∈ keys, (map.insert key id).get? k = none := by
      intro k hk
      have hne : k ≠ key := fun h => nodup.1 (h ▸ hk)
      rw [SortedMap.get?_insert_of_ne hne, absent.2 k hk]
    obtain ⟨map', hrun, hget⟩ := ih nodup.2 hrest
    refine ⟨map', ?_, fun k => ?_⟩
    · simp only [reverse, absent.1]
      exact hrun
    · rw [hget, SortedMap.get?_insert]
      by_cases hk : k = key
      · subst hk
        simp [nodup.1]
      · simp [hk]

/-- The map leads from the keys of some accounts to the accounts. -/
def Reverses (keysOf : Account → Finset K) (done : List (AccountId × Account))
    (map : SortedMap K AccountId) : Prop :=
  ∀ k id, map.get? k = some id ↔ ∃ account, (id, account) ∈ done ∧ k ∈ keysOf account

theorem reverses_nil : Reverses keysOf [] ∅ := fun k id => by simp

/-- The keys of another account are added, if no account so far has one of them. -/
theorem Reverses.add (h : Reverses keysOf done map) (describe : K → String) (id : AccountId)
    (apart : ∀ entry ∈ done, Disjoint (keysOf entry.2) (keysOf account)) :
    ∃ map', reverse describe id ((keysOf account).sort (· ≤ ·)) map = .ok map' ∧
      Reverses keysOf (done ++ [(id, account)]) map' := by
  have absent : ∀ k ∈ (keysOf account).sort (· ≤ ·), map.get? k = none := by
    intro k hk
    cases hget : map.get? k with
    | none => rfl
    | some id' =>
      obtain ⟨account', hdone, hk'⟩ := (h k id').mp hget
      exact absurd ((Finset.mem_sort _).mp hk) (Finset.disjoint_left.mp (apart _ hdone) hk')
  obtain ⟨map', hrun, hget⟩ := reverse_eq_ok describe id (Finset.sort_nodup _ _) absent
  refine ⟨map', hrun, fun k id' => ?_⟩
  simp only [hget, Finset.mem_sort]
  by_cases hk : k ∈ keysOf account
  · have hdone : ¬∃ account', (id', account') ∈ done ∧ k ∈ keysOf account' :=
      fun ⟨account', hdone, hk'⟩ => Finset.disjoint_left.mp (apart _ hdone) hk' hk
    simp only [hk, if_true, Option.some.injEq, List.mem_append, List.mem_singleton,
      Prod.mk.injEq]
    constructor
    · rintro rfl
      exact ⟨account, .inr ⟨rfl, rfl⟩, hk⟩
    · rintro ⟨account', hmem | ⟨rfl, rfl⟩, hk'⟩
      · exact absurd ⟨account', hmem, hk'⟩ hdone
      · rfl
  · simp only [hk, if_false, h k id', List.mem_append, List.mem_singleton, Prod.mk.injEq]
    constructor
    · rintro ⟨account', hmem, hk'⟩
      exact ⟨account', .inl hmem, hk'⟩
    · rintro ⟨account', hmem | ⟨rfl, rfl⟩, hk'⟩
      · exact ⟨account', hmem, hk'⟩
      · exact absurd hk' hk

/-- No two accounts share a key. -/
def Apart (keysOf : Account → Finset K) (accounts : List (AccountId × Account)) : Prop :=
  accounts.Pairwise fun p q => Disjoint (keysOf p.2) (keysOf q.2)

end

/-- The reverse maps of accounts that share no keys and no wallets are rebuilt. -/
theorem rebuild_eq_ok {wallets : SortedMap Wallet AccountId} {pubkeys : SortedMap PublicKey AccountId}
    (hwallets : Reverses Account.wallets done wallets)
    (hpubkeys : Reverses Account.pubkeys done pubkeys)
    (apartWallets : Apart Account.wallets (done ++ accounts))
    (apartPubkeys : Apart Account.pubkeys (done ++ accounts)) :
    ∃ maps, rebuild accounts wallets pubkeys = .ok maps ∧
      Reverses Account.wallets (done ++ accounts) maps.1 ∧
      Reverses Account.pubkeys (done ++ accounts) maps.2 := by
  induction accounts generalizing done wallets pubkeys with
  | nil =>
    rw [List.append_nil]
    exact ⟨(wallets, pubkeys), rfl, hwallets, hpubkeys⟩
  | cons entry accounts ih =>
    obtain ⟨id, account⟩ := entry
    obtain ⟨wallets', hrunWallets, hwallets'⟩ := hwallets.add ("Wallet " ++ ·) id
      fun entry hentry => (List.pairwise_append.mp apartWallets).2.2 entry hentry (id, account)
        (List.mem_cons_self ..)
    obtain ⟨pubkeys', hrunPubkeys, hpubkeys'⟩ := hpubkeys.add
      ("Pubkey " ++ PublicKey.toHex ·) id
      fun entry hentry => (List.pairwise_append.mp apartPubkeys).2.2 entry hentry (id, account)
        (List.mem_cons_self ..)
    rw [List.append_cons] at apartWallets apartPubkeys ⊢
    obtain ⟨maps, hrun, hmaps⟩ := ih hwallets' hpubkeys' apartWallets apartPubkeys
    refine ⟨maps, ?_, hmaps⟩
    rw [rebuild, hrunWallets, Except.ok_bind, hrunPubkeys, Except.ok_bind]
    exact hrun

theorem getOrDefault_of_mem (h : (id, account) ∈ a.accounts.toList) :
    a.getOrDefault id = account := by
  rw [getOrDefault, SortedMap.get?_eq_some.mpr h, Option.getD_some]

/-- Accounts whose reverse maps are inverse maps are what is rebuilt from the accounts. -/
theorem Inverse.rebuild (h : a.Inverse) :
    Accounts.rebuild a.accounts.toList ∅ ∅ = .ok (a.wallets, a.pubkeys) := by
  have hne : a.accounts.toList.Pairwise fun p q => p.1 ≠ q.1 := a.accounts.sorted.imp fun h => h.ne
  have apart {K : Type} [LinearOrder K] {keysOf : Account → Finset K} {map : SortedMap K AccountId}
      (inverse : ∀ {k id}, map.get? k = some id ↔ k ∈ keysOf (a.getOrDefault id)) :
      Apart keysOf a.accounts.toList := by
    refine hne.imp_of_mem fun hp hq hids => Finset.disjoint_left.mpr fun k hkp hkq => hids ?_
    rw [← getOrDefault_of_mem hp] at hkp
    rw [← getOrDefault_of_mem hq] at hkq
    exact Option.some.inj ((inverse.mpr hkp).symm.trans (inverse.mpr hkq))
  have unique {K : Type} [LinearOrder K] {keysOf : Account → Finset K}
      {map map' : SortedMap K AccountId} (hempty : keysOf .empty = ∅)
      (inverse : ∀ {k id}, map.get? k = some id ↔ k ∈ keysOf (a.getOrDefault id))
      (reverses : Reverses keysOf a.accounts.toList map') : map' = map := by
    refine SortedMap.eq_of_get? fun k => Option.ext fun id => ?_
    rw [reverses, inverse]
    constructor
    · rintro ⟨account, hmem, hk⟩
      rwa [getOrDefault_of_mem hmem]
    · intro hk
      cases hget : a.accounts.get? id with
      | none => simp [getOrDefault, hget, hempty] at hk
      | some account =>
        have hmem := SortedMap.get?_eq_some.mp hget
        exact ⟨account, hmem, getOrDefault_of_mem hmem ▸ hk⟩
  obtain ⟨maps, hrun, hwallets, hpubkeys⟩ :=
    rebuild_eq_ok reverses_nil reverses_nil (apart h.wallets) (apart h.pubkeys)
  rw [hrun, ← unique rfl h.wallets hwallets, ← unique rfl h.pubkeys hpubkeys]

end Accounts

/-! ## The framework state -/

section

variable [Sha256] [ByteFormats]

instance : LawfulMerkle ValidatorSet where
  Fits set := Fits set.processor ∧ Fits set.listeners ∧ Fits set.neededListeners ∧
    Fits set.approvers ∧ Fits set.neededApprovers
  reads hfits := .assoc <| .assoc <| .assoc <|
    (LawfulMerkle.reads hfits.1).bind <| (LawfulMerkle.reads hfits.2.1).bind <|
    (LawfulMerkle.reads hfits.2.2.1).bind <| (LawfulMerkle.reads hfits.2.2.2.1).bind <|
    (LawfulMerkle.reads hfits.2.2.2.2).map rfl

instance : LawfulMerkle ExternalChain where
  Fits _ := True
  reads {chain} _ := .versioned zero_lt_usizeLimit <| (Reads.loadBytes (utf8 chain.asRef)).map (by
    rw [fromUtf8_utf8]
    change lift (ExternalChain.parse chain.asRef) = _
    rw [chain.parse_asRef]
    rfl)

instance : LawfulMerkle AssetConfig where
  Fits config := Fits config.decimals ∧ Fits config.assetId
  reads hfits := .versioned zero_lt_usizeLimit <|
    (LawfulMerkle.reads hfits.1).bind <| (LawfulMerkle.reads hfits.2).map rfl

instance : LawfulMerkle BridgeContract where
  Fits _ := True
  reads {bridge} _ := by
    refine .versioned zero_lt_usizeLimit ?_
    cases bridge with
    | neededCosmosBridge codeId =>
      exact (Reads.popByte 0).bind <| (LawfulMerkle.reads (a := codeId) trivial).map rfl
    | neededSolanaBridge programId =>
      exact (Reads.popByte 1).bind <| (LawfulMerkle.reads (a := programId) trivial).map rfl
    | neededEthereumBridge => exact (Reads.popByte 3).map rfl
    | deployed contract =>
      exact (Reads.popByte 2).bind <| (LawfulMerkle.reads (a := contract) trivial).map rfl

instance : LawfulMerkle ChainConfig where
  Fits config := Fits config.assets ∧ Fits config.bridge
  reads hfits := .versioned zero_lt_usizeLimit <|
    (LawfulMerkle.reads hfits.1).bind <| (LawfulMerkle.reads hfits.2).map rfl

instance : LawfulMerkle PendingBridgeAction where
  Fits action := Fits action.payload ∧ Fits action.approvals ∧ Fits action.processor
  reads hfits := .versioned zero_lt_usizeLimit <| .assoc <|
    (LawfulMerkle.reads hfits.1).bind <| (LawfulMerkle.reads hfits.2.1).bind <|
    (LawfulMerkle.reads hfits.2.2).map rfl

instance : LawfulMerkle Account where
  Fits account := Fits account.assets ∧ Fits account.wallets ∧ Fits account.pubkeys ∧
    Fits account.nextNonce
  reads hfits := .versioned zero_lt_usizeLimit <| .assoc <| .assoc <|
    (LawfulMerkle.reads hfits.1).bind <| (LawfulMerkle.reads hfits.2.1).bind <|
    (LawfulMerkle.reads hfits.2.2.1).bind <| (LawfulMerkle.reads hfits.2.2.2).map rfl

/-- The reverse maps are inverse maps, so they are what is rebuilt. -/
instance : LawfulMerkle Accounts where
  Fits accounts := accounts.Inverse ∧ FitsMap accounts.accounts
  reads hfits := .versioned zero_lt_usizeLimit <| (Reads.loadMerkleMap hfits.2).map (by
    rw [hfits.1.rebuild]
    rfl)

variable [Rendered BridgeEvent]

instance : LawfulMerkle PendingBridgeEvent where
  Fits event := ReadsBack event.event ∧ Fits event.attestations
  reads hfits := .versioned zero_lt_usizeLimit <|
    (Reads.loadJson hfits.1).bind <| (LawfulMerkle.reads hfits.2).map rfl

variable [Rendered ValidatorSet] [Rendered MigrateContract] [Rendered Upgrade]

instance : LawfulMerkle ProposalPayload where
  Fits
    | .newSet set => Fits set
    | .migrateContract migrate => Fits migrate
    | .upgrade upgrade => Fits upgrade
  reads {payload} hfits := by
    refine .versioned zero_lt_usizeLimit ?_
    cases payload with
    | newSet set => exact (Reads.popByte 0).bind <| (LawfulMerkle.reads hfits).map rfl
    | migrateContract migrate => exact (Reads.popByte 1).bind <| (LawfulMerkle.reads hfits).map rfl
    | upgrade upgrade => exact (Reads.popByte 2).bind <| (LawfulMerkle.reads hfits).map rfl

instance : LawfulMerkle PendingProposal where
  Fits proposal := Fits proposal.payload ∧ Fits proposal.approvals
  reads hfits := .versioned zero_lt_usizeLimit <|
    (LawfulMerkle.reads hfits.1).bind <| (LawfulMerkle.reads hfits.2).map rfl

instance : LawfulMerkle AdminProposalState where
  Fits proposals := Fits proposals.nextAdminProposalId ∧ Fits proposals.proposals
  reads hfits := .versioned zero_lt_usizeLimit <|
    (LawfulMerkle.reads hfits.1).bind <| (LawfulMerkle.reads hfits.2).map rfl

instance : LawfulMerkle ChainState where
  Fits chain := Fits chain.config ∧ Fits chain.nextActionId ∧ FitsMap chain.pendingActions ∧
    Fits chain.nextEventId ∧ FitsMap chain.pendingEvents ∧ Fits chain.assets
  reads hfits := .versioned zero_lt_usizeLimit <| .assoc <| .assoc <| .assoc <| .assoc <|
    (LawfulMerkle.reads hfits.1).bind <| (LawfulMerkle.reads hfits.2.1).bind <|
    (Reads.loadMerkleMap hfits.2.2.1).bind <| (LawfulMerkle.reads hfits.2.2.2.1).bind <|
    (Reads.loadMerkleMap hfits.2.2.2.2.1).bind <| (LawfulMerkle.reads hfits.2.2.2.2.2).map rfl

omit [Rendered ValidatorSet] [Rendered MigrateContract] [Rendered Upgrade] in
theorem Merkle.Reads.loadChains {chains : SortedMap ExternalChain ChainState}
    (hfits : FitsMap chains) : Reads loadChains (storeChains chains) chains :=
  (Reads.loadUsize (by decide)).bind (Reads.loadMerkleMap hfits)

instance : LawfulMerkle FrameworkState where
  Fits state := Fits state.validatorSet ∧ FitsMap state.chains ∧ Fits state.accounts ∧
    Fits state.adminProposalState ∧ Fits state.version
  reads hfits := .versioned zero_lt_usizeLimit <| .assoc <| .assoc <| .assoc <|
    (LawfulMerkle.reads hfits.1).bind <| (Reads.loadChains hfits.2.1).bind <|
    (LawfulMerkle.reads hfits.2.2.1).bind <| (LawfulMerkle.reads hfits.2.2.2.1).bind <|
    (LawfulMerkle.reads hfits.2.2.2.2).map rfl

end

/-! ## Values are reloaded -/

section

variable [Sha256] {α : Type} [MerkleSerializeRaw α] [MerkleDeserializeRaw α]

/-- The value is loaded from every store that it was saved to, and all bytes are read. -/
def Reloads (a : α) : Prop :=
  ∀ layers : MerkleLayers, layers.Closed → layers.Distinguishes (serialize a) →
    (∀ within, MerkleContents.Within within (serialize a) → within.payload.length < usizeLimit) →
    ∃ layers' contents d, saveMerkleContents layers (serialize a) = .ok layers' ∧
      layers'.load (serialize a).hash = .ok contents ∧
      load (.new contents) = (.ok a, d) ∧ d.pos = contents.payload.length ∧
      deserialize contents = .ok a

theorem LawfulMerkle.reloads [LawfulMerkle α] {a : α} (hfits : Fits a) : Reloads a := by
  intro layers closed distinguishes small
  obtain ⟨layers', hsave, -, hstored⟩ := saveMerkleContents_storedIn closed distinguishes
  have readable := MerkleContents.Readable.of_storedIn hstored small
  obtain ⟨requests, hload⟩ := LawfulMerkle.reads hfits (.new (serialize a))
    ⟨(readable _ (.refl _)).1, Nat.zero_le _, List.prefix_refl _, fun child hchild =>
      ⟨(readable _ (.refl _)).2 child hchild, readable.child hchild⟩⟩
  exact ⟨layers', serialize a, _, hsave, hstored.load_eq, hload, Nat.zero_add _,
    readable.deserialize hfits⟩

variable [ByteFormats] [Rendered BridgeEvent] [Rendered ValidatorSet] [Rendered MigrateContract]
  [Rendered Upgrade]

/-- Merkle maps and the values of the framework are reloaded as they were saved. -/
theorem values_reload :
    (∀ {K V : Type} [ToMerkleKey K] [FromMerkleKey K] [MerkleSerializeRaw V]
      [MerkleDeserializeRaw V] [LawfulMerkle V] (map : MerkleMap K V), Fits map → Reloads map) ∧
    (∀ state : FrameworkState, Fits state → Reloads state) ∧
    (∀ {β : Type} [Rendered β] (block : StorableBlock (SignedTaggedJson β)), Fits block →
      Reloads block) ∧
    (∀ {β γ : Type} [MerkleSerializeRaw β] [MerkleDeserializeRaw β] [LawfulMerkle β]
      [MerkleSerializeRaw γ] [MerkleDeserializeRaw γ] [LawfulMerkle γ] [LinearOrder β],
      (∀ b : β, Fits b → Reloads b) ∧ (∀ o : Option β, Fits o → Reloads o) ∧
      (∀ s : Finset β, Fits s → Reloads s) ∧ (∀ m : SortedMap β γ, Fits m → Reloads m) ∧
      (∀ as : List β, Fits as → Reloads as)) :=
  ⟨fun _ h => LawfulMerkle.reloads h, fun _ h => LawfulMerkle.reloads h, fun _ h => LawfulMerkle.reloads h, fun {_ _} =>
    ⟨fun _ h => LawfulMerkle.reloads h, fun _ h => LawfulMerkle.reloads h, fun _ h => LawfulMerkle.reloads h, fun _ h => LawfulMerkle.reloads h,
      fun _ h => LawfulMerkle.reloads h⟩⟩

end

end Kolme
