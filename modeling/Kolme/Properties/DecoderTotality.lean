import Kolme.Merkle.Totality
import Kolme.Store.Formats

/-!
# Malformed bytes

Lengths that the bytes declare are added to positions and handed to the allocator before they are
compared with what is left, and a tree in a branch may declare that it is empty. Reading is total
exactly on the inputs that do none of this.
-/

namespace Kolme

open Exec Merkle MerkleDeserializer

open Guarded (guard)

variable {K V α : Type}

/-! ## Keys -/

theorem fromBE8_ne_panic (bytes : Bytes) : fromBE8 bytes ≠ .error .panic := by
  by_cases hlen : bytes.length = 8 <;> simp [fromBE8, Except.ensure, hlen]

instance : TotalKey U64 where
  ne_panic bytes := by
    change fromBE8 bytes >>= _ ≠ _
    cases hread : fromBE8 bytes with
    | error e =>
      have hne := fromBE8_ne_panic bytes
      rw [hread] at hne
      simpa using hne
    | ok n => nofun

instance : TotalKey ℕ := ⟨fromBE8_ne_panic⟩

theorem ExternalChain.parse_ne_panic (name : String) : parse name ≠ .error .panic := by
  rw [parse]
  cases all.find? (·.asRef = name) <;> simp [Except.fromOption]

instance : TotalKey ExternalChain where
  ne_panic bytes := by
    change fromUtf8 bytes >>= ExternalChain.parse ≠ _
    cases hread : fromUtf8 bytes with
    | error e =>
      have hne := fromUtf8_ne_panic bytes
      rw [hread] at hne
      simpa using hne
    | ok name => exact ExternalChain.parse_ne_panic name

/-! ## The types of the framework -/

section

variable [Rendered α]

def Merkle.Guard.loadJson : Guard (loadJson : Load α) :=
  Guard.loadBytes.bind fun bytes => (Guard.lift (fromUtf8_ne_panic bytes)).bind fun _ =>
    .fromOption (by simp) _

instance : Guarded (TaggedJson α) :=
  ⟨guard.bind fun _ => (Guard.fromOption (by simp) _).bind fun _ => .pure _⟩

variable [ByteFormats]

instance : Guarded (SignedTaggedJson α) :=
  ⟨.versioned fun _ => guard.bind fun _ => guard.bind fun _ => Guard.loadRecoveryId.bind fun _ =>
    .pure _⟩

def Merkle.Guard.loadSignedBlock : Guard (loadSignedBlock : Load (SignedTaggedJson α)) :=
  Guard.loadUsize.bind fun _ => .ite (Guard.get.bind fun _ => .throw (by simp)) guard

instance : Guarded (StorableBlock (SignedTaggedJson α)) :=
  ⟨.versioned fun _ => guard.bind fun _ => guard.bind fun _ => guard.bind fun _ =>
    Guard.loadSignedBlock.bind fun _ => .ite (Guard.ignoreRemaining.bind fun _ => .pure _)
      (.pure _)⟩

end

section

variable [ByteFormats]

instance : Guarded ValidatorSet :=
  ⟨guard.bind fun _ => guard.bind fun _ => guard.bind fun _ => guard.bind fun _ =>
    guard.bind fun _ => .pure _⟩

instance : Guarded ExternalChain :=
  ⟨.versioned fun _ => Guard.loadBytes.bind fun bytes =>
    (Guard.lift (fromUtf8_ne_panic bytes)).bind fun name =>
      .lift (ExternalChain.parse_ne_panic name)⟩

instance : Guarded AssetConfig :=
  ⟨.versioned fun _ => guard.bind fun _ => guard.bind fun _ => .pure _⟩

instance : Guarded BridgeContract :=
  ⟨.versioned fun _ => Guard.popByte.bind fun _ => .ite (guard.bind fun _ => .pure _)
    (.ite (guard.bind fun _ => .pure _) (.ite (guard.bind fun _ => .pure _)
      (.ite (.pure _) (.throw (Guard.unexpectedMagicByte_ne_panic _)))))⟩

instance : Guarded ChainConfig :=
  ⟨.versioned fun _ => guard.bind fun _ => guard.bind fun _ => .pure _⟩

instance : Guarded PendingBridgeAction :=
  ⟨.versioned fun _ => guard.bind fun _ => guard.bind fun _ => guard.bind fun _ => .pure _⟩

instance : Guarded Account :=
  ⟨.versioned fun _ => guard.bind fun _ => guard.bind fun _ => guard.bind fun _ =>
    guard.bind fun _ => .pure _⟩

variable [Rendered BridgeEvent]

instance : Guarded PendingBridgeEvent :=
  ⟨.versioned fun _ => Guard.loadJson.bind fun _ => guard.bind fun _ => .pure _⟩

variable [Rendered ValidatorSet] [Rendered MigrateContract] [Rendered Upgrade]

instance : Guarded ProposalPayload :=
  ⟨.versioned fun _ => Guard.popByte.bind fun _ => .ite (guard.bind fun _ => .pure _)
    (.ite (guard.bind fun _ => .pure _) (.ite (guard.bind fun _ => .pure _)
      (.throw (Guard.unexpectedMagicByte_ne_panic _))))⟩

instance : Guarded PendingProposal :=
  ⟨.versioned fun _ => guard.bind fun _ => guard.bind fun _ => .pure _⟩

instance : Guarded AdminProposalState :=
  ⟨.versioned fun _ => guard.bind fun _ => guard.bind fun _ => .pure _⟩

variable [Sha256]

def Merkle.Guard.loadMerkleMap [LinearOrder K] [FromMerkleKey K] [TotalKey K]
    [MerkleDeserializeRaw V] [Guarded V] : Guard (loadMerkleMap : Load (SortedMap K V)) :=
  guard.bind fun _ => .pure _

instance : Guarded ChainState :=
  ⟨.versioned fun _ => guard.bind fun _ => guard.bind fun _ => Guard.loadMerkleMap.bind fun _ =>
    guard.bind fun _ => Guard.loadMerkleMap.bind fun _ => guard.bind fun _ => .pure _⟩

omit [ByteFormats] [Rendered BridgeEvent] [Rendered ValidatorSet] [Rendered MigrateContract]
  [Rendered Upgrade] [Sha256] in
theorem Accounts.reverse_ne_panic [LinearOrder K] (describe : K → String) (id : AccountId)
    (keys : List K) (map : SortedMap K AccountId) :
    reverse describe id keys map ≠ .error .panic := by
  induction keys generalizing map with
  | nil => nofun
  | cons key keys ih =>
    rw [reverse]
    split
    · simp
    · exact ih _

omit [ByteFormats] [Rendered BridgeEvent] [Rendered ValidatorSet] [Rendered MigrateContract]
  [Rendered Upgrade] [Sha256] in
theorem Accounts.rebuild_ne_panic (accounts : List (AccountId × Account))
    (wallets : SortedMap Wallet AccountId) (pubkeys : SortedMap PublicKey AccountId) :
    rebuild accounts wallets pubkeys ≠ .error .panic := by
  induction accounts generalizing wallets pubkeys with
  | nil => nofun
  | cons entry accounts ih =>
    obtain ⟨id, account⟩ := entry
    rw [rebuild]
    cases hwallets : reverse ("Wallet " ++ ·) id (account.wallets.sort (· ≤ ·)) wallets with
    | error e =>
      have hne := reverse_ne_panic ("Wallet " ++ ·) id (account.wallets.sort (· ≤ ·)) wallets
      rw [hwallets] at hne
      simpa using hne
    | ok wallets =>
      rw [Except.ok_bind]
      cases hpubkeys : reverse ("Pubkey " ++ PublicKey.toHex ·) id
          (account.pubkeys.sort (· ≤ ·)) pubkeys with
      | error e =>
        have hne := reverse_ne_panic ("Pubkey " ++ PublicKey.toHex ·) id
          (account.pubkeys.sort (· ≤ ·)) pubkeys
        rw [hpubkeys] at hne
        simpa using hne
      | ok pubkeys => exact ih wallets pubkeys

instance : Guarded Accounts :=
  ⟨.versioned fun _ => Guard.loadMerkleMap.bind fun accounts =>
    (Guard.lift (Accounts.rebuild_ne_panic accounts.toList ∅ ∅)).bind fun _ => .pure _⟩

def Merkle.Guard.loadChains : Guard loadChains :=
  Guard.loadUsize.bind fun _ => .ite (Guard.get.bind fun _ => .throw (by simp)) .loadMerkleMap

instance : Guarded FrameworkState :=
  ⟨.versioned fun _ => guard.bind fun _ => Guard.loadChains.bind fun _ => guard.bind fun _ =>
    guard.bind fun _ => guard.bind fun _ => .pure _⟩

end

/-! ## Reading whole payloads -/

section

variable [MerkleDeserializeRaw α] [Guarded α]

/-- The lengths that the contents declare where a value of the type has them: a vector declares no
more elements than there are bytes left, the end of a string of bytes is a machine word, and no tree
in a branch declares that it is empty. -/
def Plausible (α : Type) [MerkleDeserializeRaw α] [Guarded α] (contents : MerkleContents) : Prop :=
  (Guard.loadWhole (guard : Guard (load : Load α))).Holds (.new contents)

theorem total_iff_of_small {contents : MerkleContents}
    (small : ∀ within, MerkleContents.Within within contents →
      within.payload.length < memoryLimit) :
    Total (loadWhole (load : Load α)) (.new contents) ↔ Plausible α contents :=
  (Guard.loadWhole guard).total_iff ⟨Nat.zero_le _, small⟩

theorem loadUsize_new {contents : MerkleContents} {len : ℕ} {d : MerkleDeserializer} :
    loadUsize (.new contents) = (.ok len, d) ↔
      ∃ read, readUsize contents.payload 0 0 = .ok (len, read) ∧ d = ⟨contents, read, []⟩ := by
  rw [loadUsize_eq]
  change (match readUsize contents.payload 0 0 with | _ => _) = _ ↔ _
  cases hread : readUsize contents.payload 0 0 with
  | error e => simp [MerkleDeserializer.new, rest, hread]
  | ok pair =>
    obtain ⟨len', read⟩ := pair
    simp [MerkleDeserializer.new, rest, hread, advance, eq_comm]

omit [MerkleDeserializeRaw α] [Guarded α] in
theorem plausible_string_iff {contents : MerkleContents} :
    Plausible String contents ↔ ∀ len read, readUsize contents.payload 0 0 = .ok (len, read) →
      read + len < usizeLimit := by
  have hholds : Plausible String contents ↔ ∀ len d, loadUsize (.new contents) = (.ok len, d) →
      d.pos + len < usizeLimit := by
    simp [Plausible, Guard.loadWhole, Guard.bind, Guarded.guard, Guard.loadBytes, Guard.loadUsize,
      Guard.quiet, Guard.loadRawBytes, Guard.lift, Guard.pure, Guard.finish, Guard.get, Guard.ensure]
  rw [hholds]
  simp only [loadUsize_new]
  constructor
  · exact fun h len read hread => h len _ ⟨read, hread, rfl⟩
  · rintro h len _ ⟨read, hread, rfl⟩
    exact h len read hread

theorem plausible_vector_iff {contents : MerkleContents}
    (small : contents.payload.length < memoryLimit) :
    Plausible (List α) contents ↔ ∀ len read, readUsize contents.payload 0 0 = .ok (len, read) →
      len ≤ contents.payload.length - read ∧
      (Guard.loadMany (guard : Guard (load : Load α)) len).Holds
        ⟨contents, read, [(len, contents.payload.length - read)]⟩ := by
  have hholds : Plausible (List α) contents ↔
      ∀ len d, loadUsize (.new contents) = (.ok len, d) → len ≤ d.rest.length ∧
        ∀ d', withCapacity len d = (.ok (), d') →
          (Guard.loadMany (guard : Guard (load : Load α)) len).Holds d' := by
    simp [Plausible, Guard.loadWhole, Guard.bind, Guarded.guard, Guard.loadUsize,
      Guard.quiet, Guard.withCapacity, Guard.pure, Guard.finish, Guard.get, Guard.lift,
      Guard.ensure]
    exact ⟨fun h len d hd => ⟨(h len d hd).1, fun d' => (h len d hd).2 () d'⟩,
      fun h len d hd => ⟨(h len d hd).1, fun _ d' => (h len d hd).2 d'⟩⟩
  have hcapacity : ∀ {len read}, len ≤ contents.payload.length - read →
      withCapacity len ⟨contents, read, []⟩ =
        (.ok (), ⟨contents, read, [(len, contents.payload.length - read)]⟩) := by
    intro len read hle
    have hlen : len < memoryLimit := (hle.trans (Nat.sub_le _ _)).trans_lt small
    rw [withCapacity]
    simp only [ensure, Except.ensure_of hlen, rest, List.length_drop]
    rfl
  rw [hholds]
  simp only [loadUsize_new]
  constructor
  · intro h len read hread
    obtain ⟨hle, hrest⟩ := h len _ ⟨read, hread, rfl⟩
    rw [rest, List.length_drop] at hle
    exact ⟨hle, hrest _ (hcapacity hle)⟩
  · rintro h len _ ⟨read, hread, rfl⟩
    obtain ⟨hle, hrest⟩ := h len read hread
    rw [rest, List.length_drop]
    refine ⟨hle, fun d' hrun => ?_⟩
    rw [hcapacity hle] at hrun
    exact (Prod.mk.inj hrun).2 ▸ hrest

variable [Sha256] [ByteFormats] [Rendered BridgeEvent] [Rendered ValidatorSet]
  [Rendered MigrateContract] [Rendered Upgrade]

/-- Exactly the inputs with plausible lengths are read without a panic and without an unjustified
buffer. -/
theorem decoder_total_iff {contents : MerkleContents}
    (small : ∀ within, MerkleContents.Within within contents →
      within.payload.length < memoryLimit) :
    (∀ {K V : Type} [FromMerkleKey K] [TotalKey K] [MerkleDeserializeRaw V] [Guarded V],
      Total (loadWhole (load : Load (MerkleMap K V))) (.new contents) ↔
        Plausible (MerkleMap K V) contents) ∧
    (Total (loadWhole (load : Load FrameworkState)) (.new contents) ↔
      Plausible FrameworkState contents) ∧
    (∀ {β : Type} [MerkleDeserializeRaw β] [Guarded β],
      (Total (loadWhole (load : Load β)) (.new contents) ↔ Plausible β contents) ∧
      -- A vector
      (Total (loadWhole (load : Load (List β))) (.new contents) ↔
        ∀ len read, readUsize contents.payload 0 0 = .ok (len, read) →
          len ≤ contents.payload.length - read ∧
          (Guard.loadMany (guard : Guard (load : Load β)) len).Holds
            ⟨contents, read, [(len, contents.payload.length - read)]⟩)) ∧
    -- A string
    (Total (loadWhole (load : Load String)) (.new contents) ↔
      ∀ len read, readUsize contents.payload 0 0 = .ok (len, read) → read + len < usizeLimit) :=
  ⟨total_iff_of_small small, total_iff_of_small small,
    fun {_} => ⟨total_iff_of_small small,
      (total_iff_of_small small).trans (plausible_vector_iff (small _ (.refl _)))⟩,
    (total_iff_of_small small).trans plausible_string_iff⟩

end

/-- A string of `2 ^ 64 - 1` bytes, and a vector of `2 ^ 56` bytes. -/
def longString : Bytes := [0x81, 0xFF, 0xFF, 0xFF, 0xFF, 0xFF, 0xFF, 0xFF, 0xFF, 0x7F]

def longVector : Bytes := [0x81, 0x80, 0x80, 0x80, 0x80, 0x80, 0x80, 0x80, 0x00]

theorem decoder_total_counterexample :
    ¬Total (loadWhole (load : Load String)) (.new (.mk longString [])) ∧
    ¬Total (loadWhole (load : Load (List UInt8))) (.new (.mk longVector [])) := by
  constructor
  · intro h
    exact absurd h.1 (by decide)
  · intro h
    exact absurd (h.2 [(2 ^ 56, 0)] (by decide)) (by decide)

namespace DecoderSample

scoped instance : Sha256 := ⟨fun _ => 0⟩
scoped instance : ByteFormats := ⟨fun _ => .zero, fun _ => none, fun _ => none⟩
scoped instance : Rendered BridgeEvent := ⟨fun _ => "", fun _ => none⟩
scoped instance : Rendered ValidatorSet := ⟨fun _ => "", fun _ => none⟩
scoped instance : Rendered MigrateContract := ⟨fun _ => "", fun _ => none⟩
scoped instance : Rendered Upgrade := ⟨fun _ => "", fun _ => none⟩

end DecoderSample

open DecoderSample in
/-- A string of two bytes is read. -/
theorem decoder_total_example :
    Total (loadWhole (load : Load String)) (.new (.mk [2, 97, 98] [])) := by
  have small : ∀ within, MerkleContents.Within within (.mk [2, 97, 98] []) →
      within.payload.length < memoryLimit := by
    intro within hwithin
    cases hwithin with
    | refl => decide
    | child hchild => nomatch hchild
  refine (decoder_total_iff small).2.2.2.mpr fun len read hread => ?_
  have hvalue : readUsize [2, 97, 98] 0 0 = .ok (2, 1) := by decide
  obtain ⟨rfl, rfl⟩ := Prod.mk.inj (Except.ok.inj (hread.symm.trans hvalue))
  decide

end Kolme
