import Kolme.Store.KolmeStore
import Kolme.Store.StoredBlocks

/-!
# How the backing stores represent the stored blocks

Each backing store is a service that refines the stored blocks under a condition of its own. The
in-memory store and Fjall take blocks with the same contents for the same, the in-memory store and
Postgres blocks with the same hash; Fjall does not look whether a transaction is stored already;
Postgres has signed heights and holds the greatest archived height.
-/

namespace Kolme.Store

open KolmeBackingStore

variable {β : Type} [MerkleHashed (StorableBlock β)] [Rendered β]

/-- Whether a backing store takes two blocks for the same. -/
def Confuses : Backend → StorableBlock β → StorableBlock β → Prop
  | .inMemory, b, c => (b.height = c.height ∧ b.blockhash = c.blockhash) ∨
    MerkleHashed.contentHash b = MerkleHashed.contentHash c
  | .fjall, b, c => MerkleHashed.contentHash b = MerkleHashed.contentHash c
  | .postgres, b, c => b.blockhash = c.blockhash

/-- A height that the backing store can hold. -/
def HeightFits (backend : Backend) (h : BlockHeight) : Prop := backend = .postgres → h < 2 ^ 63

/-- A block that the backing store tells apart from all others that are stored, and whose
transaction is new if Fjall has no block at its height. -/
structure Adds (backend : Backend) (t : StoredBlocks β) (b : StorableBlock β) : Prop where
  height : HeightFits backend b.height
  rendered : backend = .postgres → ReadsBack b.block
  distinct : ∀ {h c}, t.blocks.get? h = some c → Confuses backend c b → c = b
  new : backend = .fjall → t.blocks.get? b.height = none → t.heightOf b.txhash = none

/-- The calls that a backing store answers as it should. -/
def Fits (backend : Backend) (t : StoredBlocks β) : Call β → Prop
  | .addBlock b => Adds backend t b
  | .archiveBlock h => HeightFits backend h ∧
    (backend = .postgres → ∀ h', t.latestArchived = some h' → h' ≤ h)
  | .loadBlock h | .hasBlock h => HeightFits backend h
  | _ => True

variable {t : StoredBlocks β} {b : StorableBlock β}

/-! ## Contents under their hashes -/

/-- The contents that are saved are those of the stored blocks. -/
structure Saved (merkle : SortedMap Sha256Hash (StorableBlock β)) (t : StoredBlocks β) : Prop where
  of_block : ∀ {h b}, t.blocks.get? h = some b →
    merkle.get? (MerkleHashed.contentHash b) = some b
  block : ∀ {hash b}, merkle.get? hash = some b →
    ∃ h, t.blocks.get? h = some b ∧ MerkleHashed.contentHash b = hash

omit [Rendered β] in
theorem Saved.insert {merkle : SortedMap Sha256Hash (StorableBlock β)} (saved : Saved merkle t)
    (fresh : t.Fresh b) (distinct : ∀ {h c}, t.blocks.get? h = some c →
      MerkleHashed.contentHash c = MerkleHashed.contentHash b → c = b) :
    Saved (InMemory.saveContents merkle (MerkleHashed.contentHash b) b) (t.insert b fresh) := by
  have absent : ∀ {h c}, t.blocks.get? h = some c →
      MerkleHashed.contentHash c ≠ MerkleHashed.contentHash b := by
    intro h c hget he
    obtain rfl := distinct hget he
    have unused := fresh.1
    rw [t.height_eq hget, hget] at unused
    cases unused
  have new : merkle.contains (MerkleHashed.contentHash b) = false := by
    rw [SortedMap.contains_eq_false, Option.eq_none_iff_forall_ne_some]
    intro c hc
    obtain ⟨h, hget, he⟩ := saved.block hc
    exact absent hget he
  rw [InMemory.saveContents, new, if_neg Bool.false_ne_true]
  constructor
  · intro h c hget
    rw [StoredBlocks.get?_insert] at hget
    split at hget
    · obtain rfl := Option.some.inj hget
      rw [SortedMap.get?_insert, if_pos rfl]
    · rw [SortedMap.get?_insert, if_neg (absent hget)]
      exact saved.of_block hget
  · intro hash c hc
    rw [SortedMap.get?_insert] at hc
    split at hc
    · obtain rfl := Option.some.inj hc
      exact ⟨b.height, StoredBlocks.get?_insert.trans (if_pos rfl), Eq.symm ‹_›⟩
    · obtain ⟨h, hget, rfl⟩ := saved.block hc
      exact ⟨h, StoredBlocks.get?_insert_of_some fresh hget, rfl⟩

/-- Saved contents with their hashes by height. -/
structure Contents (merkle : SortedMap Sha256Hash (StorableBlock β))
    (hashes : SortedMap BlockHeight Sha256Hash) (t : StoredBlocks β) : Prop where
  saved : Saved merkle t
  hashes : ∀ h, hashes.get? h = (t.blocks.get? h).map MerkleHashed.contentHash

section Contents

omit [Rendered β]

variable {merkle : SortedMap Sha256Hash (StorableBlock β)}
  {hashes : SortedMap BlockHeight Sha256Hash}

theorem Contents.load (contents : Contents merkle hashes t) (h : BlockHeight) :
    (match hashes.get? h with
      | none => Except.ok none
      | some hash => InMemory.loadContents merkle hash) = Except.ok (t.blocks.get? h) := by
  rw [contents.hashes h]
  cases hget : t.blocks.get? h with
  | none => rfl
  | some b => simp [InMemory.loadContents, contents.saved.of_block hget]

theorem Contents.contains (contents : Contents merkle hashes t) (h : BlockHeight) :
    hashes.contains h = t.blocks.contains h := by
  simp only [SortedMap.contains, contents.hashes, Option.isSome_map]

theorem Contents.insert (contents : Contents merkle hashes t) (fresh : t.Fresh b)
    (distinct : ∀ {h c}, t.blocks.get? h = some c →
      MerkleHashed.contentHash c = MerkleHashed.contentHash b → c = b) :
    Contents (InMemory.saveContents merkle (MerkleHashed.contentHash b) b)
      (hashes.insert b.height (MerkleHashed.contentHash b)) (t.insert b fresh) where
  saved := contents.saved.insert fresh distinct
  hashes := SortedMap.get?_insert_map contents.hashes b.height b

end Contents

/-! ## One operation after another -/

section Operations

omit [MerkleHashed (StorableBlock β)] [Rendered β]

variable {σ : Type} [KolmeBackingStore σ β] {s : σ} {backend : Backend}

/-- The lookups of a state give what is stored. -/
structure Shows (backend : Backend) (s : σ) (t : StoredBlocks β) : Prop where
  latest : loadLatestBlock s = .ok (t.blocks.last?.map Prod.fst)
  block : ∀ {h}, HeightFits backend h → loadBlock s h = .ok (t.blocks.get? h)
  found : ∀ {h}, HeightFits backend h → hasBlock s h = .ok (t.blocks.contains h)
  heightForTx : ∀ x, getHeightForTx s x = .ok (t.heightOf x)
  archived : getLatestArchivedBlockHeight s = .ok t.latestArchived

/-- What adding a block says to the caller. -/
theorem perform_addBlock {s' : σ} {r : Except KolmeStoreError Unit}
    (h : addBlock b s = (r, s')) :
    (Call.addBlock b).perform s = (r.map fun _ => .done, s') := by
  cases r with
  | ok u => exact Exec.bind_of_ok h
  | error e => exact Exec.bind_of_error h

/-- How a store has to treat a block for the states to stay related: at a used height, with a
transaction that is stored elsewhere, and a new one. -/
structure Treats (reply : BlockHeight → Verdict β) (R : σ → StoredBlocks β → Prop) (s : σ)
    (t : StoredBlocks β) (b : StorableBlock β) : Prop where
  again : t.blocks.get? b.height = some b → ∃ r s', addBlock b s = (r, s') ∧
    Verdict.of (r.map fun _ => .done) = reply b.height ∧ R s' t
  used : ∀ {c}, t.blocks.get? b.height = some c → c ≠ b → ∃ adding existing,
    addBlock b s = (.error (.conflictingBlockInDb b.height adding existing), s)
  stored : ∀ {h}, t.blocks.get? b.height = none → t.heightOf b.txhash = some h →
    ∃ e, addBlock b s = (.error e, s) ∧ Verdict.of (.error e) = (.failed : Verdict β)
  fresh : ∀ new : t.Fresh b, ∃ s', addBlock b s = (.ok (), s') ∧ R s' (t.insert b new)

variable [DecidableEq β] {reply : BlockHeight → Verdict β} {R : σ → StoredBlocks β → Prop}

theorem Treats.refines (treats : Treats reply R s t b) (hrel : R s t) :
    Verdict.of ((Call.addBlock b).perform s).1 = t.verdict reply (.addBlock b) ∧
      R ((Call.addBlock b).perform s).2 (t.next (.addBlock b)) := by
  simp only [StoredBlocks.verdict, StoredBlocks.next]
  cases hget : t.blocks.get? b.height with
  | some c =>
    have hnew : ¬t.Fresh b := fun new => by rw [new.1] at hget; cases hget
    rw [dif_neg hnew, if_neg hnew]
    by_cases he : c = b
    · subst he
      obtain ⟨r, s', hadd, hverdict, hrel'⟩ := treats.again hget
      rw [perform_addBlock hadd, if_pos rfl]
      exact ⟨hverdict, hrel'⟩
    · obtain ⟨adding, existing, hadd⟩ := treats.used hget he
      rw [perform_addBlock hadd, if_neg fun h => he (Option.some.inj h)]
      exact ⟨rfl, hrel⟩
  | none =>
    rw [if_neg (Option.some_ne_none b).symm]
    cases hx : t.heightOf b.txhash with
    | some h =>
      have hnew : ¬t.Fresh b := fun new => by rw [new.2] at hx; cases hx
      obtain ⟨e, hadd, hverdict⟩ := treats.stored hget hx
      rw [perform_addBlock hadd, dif_neg hnew, if_neg hnew]
      exact ⟨hverdict, hrel⟩
    | none =>
      obtain ⟨s', hadd, hrel'⟩ := treats.fresh ⟨hget, hx⟩
      rw [perform_addBlock hadd, dif_pos ⟨hget, hx⟩, if_pos ⟨hget, hx⟩]
      exact ⟨rfl, hrel'⟩

/-- A store refines the stored blocks when its lookups show them and adding and archiving keep the
relation. -/
theorem refines_of [MerkleHashed (StorableBlock β)] [Rendered β]
    (shows : ∀ {s t}, R s t → Shows backend s t)
    (treats : ∀ {s t b}, R s t → Adds backend t b → Treats reply R s t b)
    (archive : ∀ {s t h}, R s t → Fits backend t (.archiveBlock h) →
      ∃ s', archiveBlock h s = (.ok (), s') ∧ R s' (t.next (.archiveBlock h))) :
    (service σ).Refines (StoredBlocks.service reply) Verdict.of (Fits backend) R where
  call {s t call} hrel fit := by
    cases call with
    | addBlock b => exact (treats hrel fit).refines hrel
    | archiveBlock h =>
      obtain ⟨s', harchive, hrel'⟩ := archive hrel fit
      have hperform : (Call.archiveBlock h).perform s = (.ok .done, s') :=
        Exec.bind_of_ok harchive
      exact ⟨congrArg (Verdict.of ∘ Prod.fst) hperform,
        (congrArg Prod.snd hperform).symm ▸ hrel'⟩
    | loadLatestBlock =>
      exact ⟨congrArg (Verdict.of ∘ (Answer.height <$> ·)) (shows hrel).latest, hrel⟩
    | loadBlock h =>
      exact ⟨congrArg (Verdict.of ∘ (Answer.block <$> ·)) ((shows hrel).block fit), hrel⟩
    | hasBlock h =>
      exact ⟨congrArg (Verdict.of ∘ (Answer.found <$> ·)) ((shows hrel).found fit), hrel⟩
    | getHeightForTx x =>
      exact ⟨congrArg (Verdict.of ∘ (Answer.height <$> ·)) ((shows hrel).heightForTx x), hrel⟩
    | getLatestArchivedBlockHeight =>
      exact ⟨congrArg (Verdict.of ∘ (Answer.height <$> ·)) (shows hrel).archived, hrel⟩

end Operations

/-! ## The in-memory store -/

/-- The maps of the in-memory store hold the stored blocks. -/
structure InMemoryHolds (s : InMemory.Inner β) (t : StoredBlocks β) : Prop where
  contents : Contents s.merkle s.blocks t
  blockhashes : ∀ h, s.blockhashes.get? h = (t.blocks.get? h).map StorableBlock.blockhash
  txhashes : ∀ x, s.txhashes.get? x = t.heightOf x
  archived : s.latestArchivedBlock = t.latestArchived

namespace InMemoryHolds

variable {s : InMemory.Inner β}

omit [Rendered β] in
theorem shows (holds : InMemoryHolds s t) : Shows .inMemory s t where
  latest := congrArg _ (SortedMap.last?_key_congr holds.contents.hashes)
  block _ := holds.contents.load _
  found _ := congrArg _ (holds.contents.contains _)
  heightForTx x := congrArg _ (holds.txhashes x)
  archived := congrArg _ holds.archived

omit [Rendered β] in
theorem addBlock_used {c : StorableBlock β} (holds : InMemoryHolds s t)
    (hget : t.blocks.get? b.height = some c) :
    addBlock b s = (.error (if c.blockhash = b.blockhash
      then .matchingBlockAlreadyInserted b.height
      else .conflictingBlockInDb b.height b.blockhash c.blockhash), s) := by
  have hhash := holds.blockhashes b.height
  rw [hget, Option.map_some] at hhash
  change InMemory.addBlock b s = _
  simp only [InMemory.addBlock, Exec.get_bind, hhash]
  split <;> simp_all [Exec.throw]

omit [Rendered β] in
theorem addBlock_new (holds : InMemoryHolds s t) (hget : t.blocks.get? b.height = none) :
    addBlock b s = if (t.heightOf b.txhash).isSome then (.error (.txAlreadyInDb b.txhash), s)
      else (.ok (), { s with
        txhashes := s.txhashes.insert b.txhash b.height
        merkle := InMemory.saveContents s.merkle (MerkleHashed.contentHash b) b
        blocks := s.blocks.insert b.height (MerkleHashed.contentHash b)
        blockhashes := s.blockhashes.insert b.height b.blockhash }) := by
  have hhash := holds.blockhashes b.height
  rw [hget, Option.map_none] at hhash
  have hstored : s.txhashes.contains b.txhash = (t.heightOf b.txhash).isSome :=
    congrArg Option.isSome (holds.txhashes b.txhash)
  change InMemory.addBlock b s = _
  simp only [InMemory.addBlock, Exec.get_bind, hhash, hstored]
  by_cases hx : (t.heightOf b.txhash).isSome = true
  · rw [if_pos hx, if_pos hx]
    rfl
  · rw [if_neg hx, if_neg hx]
    rfl

theorem treats (holds : InMemoryHolds s t) (fit : Adds .inMemory t b) :
    Treats .alreadyInserted InMemoryHolds s t b where
  again hget := ⟨_, s, holds.addBlock_used hget, by rw [if_pos rfl]; rfl, holds⟩
  used {c} hget hne := by
    have hhash : c.blockhash ≠ b.blockhash := fun he =>
      hne (fit.distinct hget (.inl ⟨t.height_eq hget, he⟩))
    exact ⟨_, _, (holds.addBlock_used hget).trans (by rw [if_neg hhash])⟩
  stored hget hx := ⟨_, (holds.addBlock_new hget).trans (if_pos (by rw [hx]; rfl)), rfl⟩
  fresh new := by
    refine ⟨_, (holds.addBlock_new new.1).trans (if_neg (by rw [new.2]; exact nofun)), ?_⟩
    refine ⟨holds.contents.insert new fun hget he => fit.distinct hget (.inr he),
      SortedMap.get?_insert_map holds.blockhashes b.height b, fun x => ?_, holds.archived⟩
    rw [StoredBlocks.heightOf_insert]
    exact (SortedMap.get?_insert ..).trans (by rw [holds.txhashes])

omit [Rendered β] in
theorem archive {h : BlockHeight} (holds : InMemoryHolds s t) :
    InMemoryHolds { s with latestArchivedBlock := some h } (t.next (.archiveBlock h)) where
  contents := ⟨⟨holds.contents.saved.of_block, holds.contents.saved.block⟩, holds.contents.hashes⟩
  blockhashes := holds.blockhashes
  txhashes := holds.txhashes
  archived := rfl

end InMemoryHolds

/-! ## Fjall -/

/-- The partition of Fjall holds the stored blocks. -/
structure FjallHolds (s : Fjall.Partition β) (t : StoredBlocks β) : Prop where
  contents : Contents s.merkle s.blocks t
  txs : ∀ x, s.txs.get? x = t.heightOf x
  archived : s.latestArchivedHeight = t.latestArchived

namespace FjallHolds

variable {s : Fjall.Partition β}

omit [Rendered β] in
theorem shows (holds : FjallHolds s t) : Shows .fjall s t where
  latest := congrArg _ (SortedMap.last?_key_congr holds.contents.hashes)
  block _ := holds.contents.load _
  found _ := congrArg _ (holds.contents.contains _)
  heightForTx x := congrArg _ (holds.txs x)
  archived := congrArg _ holds.archived

omit [Rendered β] in
theorem addBlock_used {c : StorableBlock β} (holds : FjallHolds s t)
    (hget : t.blocks.get? b.height = some c) :
    addBlock b s = (.error (if MerkleHashed.contentHash c = MerkleHashed.contentHash b
      then .matchingBlockAlreadyInserted b.height
      else .conflictingBlockInDb b.height (MerkleHashed.contentHash b)
        (MerkleHashed.contentHash c)), s) := by
  have hhash := holds.contents.hashes b.height
  rw [hget, Option.map_some] at hhash
  change Fjall.addBlock b s = _
  simp only [Fjall.addBlock, Exec.get_bind, hhash]
  split <;> simp_all [Exec.throw]

omit [Rendered β] in
theorem addBlock_new (holds : FjallHolds s t) (hget : t.blocks.get? b.height = none) :
    addBlock b s = (.ok (), { s with
      merkle := InMemory.saveContents s.merkle (MerkleHashed.contentHash b) b
      blocks := s.blocks.insert b.height (MerkleHashed.contentHash b)
      txs := s.txs.insert b.txhash b.height }) := by
  have hhash := holds.contents.hashes b.height
  rw [hget, Option.map_none] at hhash
  change Fjall.addBlock b s = _
  simp only [Fjall.addBlock, Exec.get_bind, hhash]
  rfl

theorem treats (holds : FjallHolds s t) (fit : Adds .fjall t b) :
    Treats .alreadyInserted FjallHolds s t b where
  again hget := ⟨_, s, holds.addBlock_used hget, by rw [if_pos rfl]; rfl, holds⟩
  used {c} hget hne := by
    have hhash : MerkleHashed.contentHash c ≠ MerkleHashed.contentHash b := fun he =>
      hne (fit.distinct hget he)
    exact ⟨_, _, (holds.addBlock_used hget).trans (by rw [if_neg hhash])⟩
  stored hget hx := by
    rw [fit.new rfl hget] at hx
    cases hx
  fresh new := by
    refine ⟨_, holds.addBlock_new new.1, holds.contents.insert new fit.distinct, fun x => ?_,
      holds.archived⟩
    rw [StoredBlocks.heightOf_insert]
    exact (SortedMap.get?_insert ..).trans (by rw [holds.txs])

omit [Rendered β] in
theorem archive {h : BlockHeight} (holds : FjallHolds s t) :
    FjallHolds { s with latestArchivedHeight := some h } (t.next (.archiveBlock h)) where
  contents := ⟨⟨holds.contents.saved.of_block, holds.contents.saved.block⟩, holds.contents.hashes⟩
  txs := holds.txs
  archived := rfl

end FjallHolds

/-! ## Postgres -/

/-- The row of a block. -/
def row (b : StorableBlock β) : Postgres.Row where
  blockhash := b.blockhash
  rendered := Rendered.toText b.block
  txhash := b.txhash

/-- The tables of Postgres hold the stored blocks. -/
structure PostgresHolds (s : Postgres.Database β) (t : StoredBlocks β) : Prop where
  blocks : ∀ h : ℕ, s.blocks.get? (h : ℤ) = (t.blocks.get? h).map row
  nonneg : ∀ {z r}, s.blocks.get? z = some r → 0 ≤ z
  rendered : ∀ {h b}, t.blocks.get? h = some b → ReadsBack b.block
  archived : s.archivedBlocks.last?.map Prod.fst = t.latestArchived.map fun h : BlockHeight => (h : ℤ)

namespace PostgresHolds

omit [MerkleHashed (StorableBlock β)]

variable {s : Postgres.Database β} {h : BlockHeight}

omit [Rendered β] in
theorem tryI64_of_fits (hfits : HeightFits .postgres h) : Postgres.tryI64 h = .ok (h : ℤ) :=
  if_pos (hfits rfl)

omit [Rendered β] in
theorem mapM_tryU64 (o : Option BlockHeight) :
    (o.map fun h : BlockHeight => (h : ℤ)).mapM Postgres.tryU64 = .ok o := by
  cases o with
  | none => rfl
  | some h =>
    change some <$> Postgres.tryU64 (h : ℤ) = _
    simp [Postgres.tryU64]

/-- Every row is that of a stored block. -/
theorem block_of_row (holds : PostgresHolds s t) {z : ℤ} {r : Postgres.Row}
    (hget : s.blocks.get? z = some r) :
    ∃ (h : BlockHeight) (b : StorableBlock β), z = (h : ℤ) ∧ t.blocks.get? h = some b ∧
      r = row b := by
  obtain ⟨h, rfl⟩ := Int.eq_ofNat_of_zero_le (holds.nonneg hget)
  rw [holds.blocks h] at hget
  obtain ⟨b, hb, rfl⟩ := Option.map_eq_some_iff.mp hget
  exact ⟨h, b, rfl, hb, rfl⟩

theorem row_of_block (holds : PostgresHolds s t) (hget : t.blocks.get? h = some b) :
    s.blocks.get? (h : ℤ) = some (row b) := by
  rw [holds.blocks, hget, Option.map_some]

theorem selectHeight_txhash (holds : PostgresHolds s t) (x : TxHash) :
    s.selectHeight (·.txhash = x) = (t.heightOf x).map fun h : BlockHeight => (h : ℤ) := by
  unfold Postgres.Database.selectHeight
  cases hfind : s.blocks.find? (·.txhash = x) with
  | none =>
    have hx : t.heightOf x = none := StoredBlocks.heightOf_eq_none.mpr fun h b hget he =>
      absurd (SortedMap.find?_eq_none.mp hfind _ _ (holds.row_of_block hget)) (by simp [row, he])
    rw [hx]
    rfl
  | some e =>
    obtain ⟨hget, hp⟩ := SortedMap.find?_spec hfind
    obtain ⟨h, b, hz, hb, hr⟩ := holds.block_of_row hget
    rw [hr] at hp
    rw [StoredBlocks.heightOf_eq_some.mpr ⟨b, hb, of_decide_eq_true hp⟩]
    exact congrArg some hz

theorem latest (holds : PostgresHolds s t) :
    s.blocks.last?.map Prod.fst = (t.blocks.last?.map Prod.fst).map fun h : BlockHeight => (h : ℤ) := by
  cases hlast : t.blocks.last?.map Prod.fst with
  | none =>
    have hnone := SortedMap.last?_key_eq_none.mp hlast
    refine SortedMap.last?_key_eq_none.mpr fun z => Option.eq_none_iff_forall_ne_some.mpr ?_
    intro r hget
    obtain ⟨h, b, -, hb, -⟩ := holds.block_of_row hget
    rw [hnone h] at hb
    cases hb
  | some k =>
    obtain ⟨⟨b, hget⟩, hle⟩ := SortedMap.last?_key_eq_some.mp hlast
    refine SortedMap.last?_key_eq_some.mpr ⟨⟨_, holds.row_of_block hget⟩, fun z r hz => ?_⟩
    obtain ⟨h, c, rfl, hc, -⟩ := holds.block_of_row hz
    exact Int.ofNat_le.mpr (hle h c hc)

theorem shows (holds : PostgresHolds s t) : Shows .postgres s t where
  latest := (congrArg (Option.mapM Postgres.tryU64) holds.latest).trans (mapM_tryU64 _)
  block {h} hfits := by
    change Postgres.loadBlock s h = _
    rw [Postgres.loadBlock, tryI64_of_fits hfits, Except.ok_bind, holds.blocks h]
    cases hget : t.blocks.get? h with
    | none => rfl
    | some b =>
      obtain rfl := t.height_eq hget
      have hread : Rendered.fromText (Rendered.toText b.block) = some b.block :=
        holds.rendered hget
      simp only [Option.map_some, row, hread]
      rfl
  found {h} hfits := by
    change (do let heightI64 ← Postgres.tryI64 h; return s.blocks.contains heightI64) = _
    rw [tryI64_of_fits hfits, Except.ok_bind, SortedMap.contains, holds.blocks h, Option.isSome_map]
    rfl
  heightForTx x :=
    (congrArg (Option.mapM Postgres.tryU64) (holds.selectHeight_txhash x)).trans (mapM_tryU64 _)
  archived := (congrArg (Option.mapM Postgres.tryU64) holds.archived).trans (mapM_tryU64 _)

theorem violates_of_txhash (holds : PostgresHolds s t) (z : ℤ) :
    s.violates z (row b) = (s.blocks.contains z ||
      (s.selectHeight (·.blockhash = b.blockhash)).isSome || (t.heightOf b.txhash).isSome) := by
  change (_ || (s.selectHeight (·.txhash = b.txhash)).isSome) = _
  rw [holds.selectHeight_txhash, Option.isSome_map]
  rfl

theorem selectHeight_blockhash (holds : PostgresHolds s t)
    (distinct : ∀ {h c}, t.blocks.get? h = some c → c.blockhash = b.blockhash → c = b)
    (hget : t.blocks.get? b.height = none) :
    s.selectHeight (·.blockhash = b.blockhash) = none := by
  rw [Postgres.Database.selectHeight, Option.map_eq_none_iff, SortedMap.find?_eq_none]
  intro z r hr
  obtain ⟨h, c, -, hc, rfl⟩ := holds.block_of_row hr
  refine decide_eq_false fun he => ?_
  obtain rfl := distinct hc he
  rw [t.height_eq hc, hc] at hget
  cases hget

theorem addBlock_used {c : StorableBlock β} (holds : PostgresHolds s t)
    (hfits : HeightFits .postgres b.height) (hget : t.blocks.get? b.height = some c) :
    addBlock b s = (.error (if c.blockhash = b.blockhash
      then .matchingBlockAlreadyInserted b.height
      else .conflictingBlockInDb b.height b.blockhash c.blockhash), s) := by
  have hrow := holds.row_of_block hget
  have hviolates : s.violates (b.height : ℤ) (row b) = true := by
    rw [holds.violates_of_txhash, SortedMap.contains, hrow]
    rfl
  change Postgres.addBlock b s = _
  rw [Postgres.addBlock, tryI64_of_fits hfits]
  change (if s.violates (b.height : ℤ) (row b) then _ else _ : Exec _ _ _) s = _
  rw [if_pos hviolates]
  simp only [hrow]
  by_cases he : c.blockhash = b.blockhash
  · rw [if_pos he, row, if_pos he]
    rfl
  · rw [if_neg he, row, if_neg he]
    rfl

theorem addBlock_new (holds : PostgresHolds s t) (hfits : HeightFits .postgres b.height)
    (distinct : ∀ {h c}, t.blocks.get? h = some c → c.blockhash = b.blockhash → c = b)
    (hget : t.blocks.get? b.height = none) :
    addBlock b s = if (t.heightOf b.txhash).isSome then (.error (.custom .uniqueViolation), s)
      else (.ok (), { s with blocks := s.blocks.insert (b.height : ℤ) (row b) }) := by
  have hrow : s.blocks.get? (b.height : ℤ) = none := by rw [holds.blocks, hget, Option.map_none]
  have hviolates : s.violates (b.height : ℤ) (row b) = (t.heightOf b.txhash).isSome := by
    rw [holds.violates_of_txhash, holds.selectHeight_blockhash distinct hget, SortedMap.contains,
      hrow]
    rfl
  change Postgres.addBlock b s = _
  rw [Postgres.addBlock, tryI64_of_fits hfits]
  change (if s.violates (b.height : ℤ) (row b) then _ else _ : Exec _ _ _) s = _
  rw [hviolates]
  by_cases hx : (t.heightOf b.txhash).isSome = true
  · rw [if_pos hx, if_pos hx]
    simp only [hrow]
    rfl
  · rw [if_neg hx, if_neg hx]
    rfl

theorem insert (holds : PostgresHolds s t) (new : t.Fresh b) (hread : ReadsBack b.block) :
    PostgresHolds { s with blocks := s.blocks.insert (b.height : ℤ) (row b) } (t.insert b new) where
  blocks h := by
    rw [SortedMap.get?_insert, StoredBlocks.get?_insert, holds.blocks]
    simp only [Nat.cast_inj]
    split <;> rfl
  nonneg {z r} hget := by
    rw [SortedMap.get?_insert] at hget
    split at hget
    · omega
    · exact holds.nonneg hget
  rendered {h c} hget := by
    rw [StoredBlocks.get?_insert] at hget
    split at hget
    · exact Option.some.inj hget ▸ hread
    · exact holds.rendered hget
  archived := holds.archived

theorem treats [MerkleHashed (StorableBlock β)] (holds : PostgresHolds s t)
    (fit : Adds .postgres t b) : Treats .alreadyInserted PostgresHolds s t b where
  again hget := ⟨_, s, holds.addBlock_used fit.height hget, by rw [if_pos rfl]; rfl, holds⟩
  used {c} hget hne := by
    have hhash : c.blockhash ≠ b.blockhash := fun he => hne (fit.distinct hget he)
    exact ⟨_, _, (holds.addBlock_used fit.height hget).trans (by rw [if_neg hhash])⟩
  stored hget hx :=
    ⟨_, (holds.addBlock_new fit.height fit.distinct hget).trans (if_pos (by rw [hx]; rfl)), rfl⟩
  fresh new :=
    ⟨_, (holds.addBlock_new fit.height fit.distinct new.1).trans
      (if_neg (by rw [new.2]; exact nofun)), holds.insert new (fit.rendered rfl)⟩

/-- A height that is archived after all others is the greatest one. -/
theorem archive (holds : PostgresHolds s t) (hfits : HeightFits .postgres h)
    (later : ∀ h', t.latestArchived = some h' → h' ≤ h) :
    PostgresHolds
      { s with archivedBlocks := s.archivedBlocks.insert (Postgres.asI64 h) () }
      (t.next (.archiveBlock h)) where
  blocks := holds.blocks
  nonneg := holds.nonneg
  rendered := holds.rendered
  archived := by
    have hcast : Postgres.asI64 h = (h : ℤ) := by
      have hbound : (h : ℤ) < 2 ^ 63 := by exact_mod_cast hfits rfl
      exact Int.bmod_eq_of_le_mul_two (by omega) (by omega)
    rw [hcast]
    refine SortedMap.last?_key_eq_some.mpr ⟨⟨(), SortedMap.get?_insert_self ..⟩, ?_⟩
    intro z u hget
    rw [SortedMap.get?_insert] at hget
    split at hget
    · exact le_of_eq ‹_›
    · cases hlast : t.latestArchived with
      | none =>
        have hnone := SortedMap.last?_key_eq_none.mp (holds.archived.trans (by rw [hlast]; rfl))
        rw [hnone z] at hget
        cases hget
      | some h' =>
        obtain ⟨-, hle⟩ := SortedMap.last?_key_eq_some.mp
          (holds.archived.trans (by rw [hlast]; rfl))
        exact (hle z u hget).trans (Int.ofNat_le.mpr (later h' hlast))

end PostgresHolds

/-! ## The backing store in use -/

/-- The backing store in use holds the stored blocks. -/
inductive Holds : Backend → KolmeStoreInner β → StoredBlocks β → Prop
  | inMemory {s : InMemory.Inner β} {t : StoredBlocks β} (holds : InMemoryHolds s t) :
    Holds .inMemory (.inMemory s) t
  | fjall {s : Fjall.Partition β} {t : StoredBlocks β} (holds : FjallHolds s t) :
    Holds .fjall (.fjall s) t
  | postgres {s : Postgres.Database β} {t : StoredBlocks β} (holds : PostgresHolds s t) :
    Holds .postgres (.postgres s) t

omit [MerkleHashed (StorableBlock β)] [Rendered β] in
/-- A store that passes the operation on treats a block as the store below. -/
theorem Treats.lift {σ τ : Type} [KolmeBackingStore σ β] [KolmeBackingStore τ β] {s : σ}
    {reply : BlockHeight → Verdict β} {R : σ → StoredBlocks β → Prop}
    {R' : τ → StoredBlocks β → Prop} (treats : Treats reply R s t b) {wrap : σ → τ}
    (hadd : ∀ {r s'}, addBlock b s = (r, s') → addBlock b (wrap s) = (r, wrap s'))
    (hrel : ∀ {s t}, R s t → R' (wrap s) t) : Treats reply R' (wrap s) t b where
  again hget := by
    obtain ⟨r, s', h, hreply, h'⟩ := treats.again hget
    exact ⟨r, wrap s', hadd h, hreply, hrel h'⟩
  used hget hne := (treats.used hget hne).imp fun _ h => h.imp fun _ h => hadd h
  stored hget hx := (treats.stored hget hx).imp fun _ h => ⟨hadd h.1, h.2⟩
  fresh new := by
    obtain ⟨s', h, h'⟩ := treats.fresh new
    exact ⟨wrap s', hadd h, hrel h'⟩

namespace Holds

variable {backend : Backend} {s : KolmeStoreInner β}

theorem shows (holds : Holds backend s t) : Shows backend s t := by
  cases holds with
  | inMemory holds =>
    have shows := holds.shows
    exact ⟨shows.latest, shows.block, shows.found, shows.heightForTx, shows.archived⟩
  | fjall holds =>
    have shows := holds.shows
    exact ⟨shows.latest, shows.block, shows.found, shows.heightForTx, shows.archived⟩
  | postgres holds =>
    have shows := holds.shows
    exact ⟨shows.latest, shows.block, shows.found, shows.heightForTx, shows.archived⟩

theorem treats (holds : Holds backend s t) (fit : Adds backend t b) :
    Treats .alreadyInserted (Holds backend) s t b := by
  cases holds with
  | inMemory holds =>
    exact (holds.treats fit).lift (fun h => congrArg (Prod.map id KolmeStoreInner.inMemory) h)
      .inMemory
  | fjall holds =>
    exact (holds.treats fit).lift (fun h => congrArg (Prod.map id KolmeStoreInner.fjall) h) .fjall
  | postgres holds =>
    exact (holds.treats fit).lift (fun h => congrArg (Prod.map id KolmeStoreInner.postgres) h)
      .postgres

theorem archive {h : BlockHeight} (holds : Holds backend s t)
    (fit : Fits backend t (.archiveBlock h)) :
    ∃ s', archiveBlock h s = (.ok (), s') ∧ Holds backend s' (t.next (.archiveBlock h)) := by
  cases holds with
  | inMemory holds => exact ⟨_, rfl, .inMemory holds.archive⟩
  | fjall holds => exact ⟨_, rfl, .fjall holds.archive⟩
  | postgres holds => exact ⟨_, rfl, .postgres (holds.archive fit.1 (fit.2 rfl))⟩

/-- A block is loaded only from a height that can be held. -/
theorem heightFits_of_load {h : BlockHeight} (holds : Holds backend s t)
    (hload : loadBlock s h = .ok (some b)) : HeightFits backend h := by
  rintro rfl
  cases holds with
  | postgres holds =>
    change Postgres.loadBlock _ h = _ at hload
    by_contra hlarge
    rw [Postgres.loadBlock, Postgres.tryI64, if_neg hlarge] at hload
    cases hload

/-- Every backing store refines the stored blocks. -/
theorem refines [DecidableEq β] (backend : Backend) :
    (service (KolmeStoreInner β)).Refines (StoredBlocks.service .alreadyInserted) Verdict.of
      (Fits backend) (Holds backend) :=
  refines_of shows treats archive

theorem new (backend : Backend) : Holds (β := β) backend backend.new .empty := by
  cases backend with
  | inMemory => exact .inMemory ⟨⟨⟨nofun, nofun⟩, fun _ => rfl⟩, fun _ => rfl, fun _ => rfl, rfl⟩
  | fjall => exact .fjall ⟨⟨⟨nofun, nofun⟩, fun _ => rfl⟩, fun _ => rfl, rfl⟩
  | postgres => exact .postgres ⟨fun _ => rfl, nofun, nofun, rfl⟩

end Holds

/-! ## The store of a node -/

/-- What is cached is stored. -/
structure NodeHolds (backend : Backend) (s : KolmeStore β) (t : StoredBlocks β) : Prop where
  inner : Holds backend s.inner t
  cached : ∀ {h b}, s.blockCache.peek h = some b → t.blocks.get? h = some b

namespace NodeHolds

variable {backend : Backend} {s : KolmeStore β}

theorem shows (holds : NodeHolds backend s t) : Shows backend s t where
  latest := holds.inner.shows.latest
  block {h} hfits := by
    change KolmeStore.loadBlock s h = _
    unfold KolmeStore.loadBlock
    split
    · rw [holds.cached ‹_›]
    · exact holds.inner.shows.block hfits
  found {h} hfits := by
    change KolmeStore.hasBlock s h = _
    unfold KolmeStore.hasBlock
    split
    · obtain ⟨b, hpeek⟩ := Option.isSome_iff_exists.mp ‹_›
      rw [SortedMap.contains, holds.cached hpeek]
      rfl
    · exact holds.inner.shows.found hfits
  heightForTx := holds.inner.shows.heightForTx
  archived := holds.inner.shows.archived

/-- What is loaded is stored. -/
theorem of_load {h : BlockHeight} (holds : NodeHolds backend s t)
    (hload : loadBlock s h = .ok (some b)) : t.blocks.get? h = some b := by
  change KolmeStore.loadBlock s h = _ at hload
  unfold KolmeStore.loadBlock at hload
  split at hload
  · rw [holds.cached ‹_›]
    exact Except.ok.inj hload
  · rw [holds.inner.shows.block (holds.inner.heightFits_of_load hload)] at hload
    exact Except.ok.inj hload

/-- A block that is stored may be cached. -/
theorem put (holds : NodeHolds backend s t) {inner : KolmeStoreInner β} {t' : StoredBlocks β}
    (hinner : Holds backend inner t') (hget : t'.blocks.get? b.height = some b)
    (kept : ∀ {h c}, t.blocks.get? h = some c → t'.blocks.get? h = some c) :
    NodeHolds backend { inner, blockCache := s.blockCache.put b.height b } t' where
  inner := hinner
  cached {h c} hpeek := by
    rcases LruCache.peek_put hpeek with ⟨rfl, rfl⟩ | hpeek
    · exact hget
    · exact kept (holds.cached hpeek)

/-- The cache takes the block up when the backing store reports success or that it is there. -/
theorem addBlock_done {r : Except KolmeStoreError Unit} {inner : KolmeStoreInner β}
    (h : addBlock b s.inner = (r, inner))
    (hr : Verdict.of (r.map fun _ => Answer.done) ≠ (.failed : Verdict β)) :
    addBlock b s = (.ok (), { inner, blockCache := s.blockCache.put b.height b }) := by
  change KolmeStore.addBlock b s = _
  rw [KolmeStore.addBlock, h]
  cases r with
  | ok u => rfl
  | error e =>
    cases e with
    | matchingBlockAlreadyInserted h => rfl
    | _ => exact absurd rfl hr

theorem addBlock_failed {e : KolmeStoreError} {inner : KolmeStoreInner β}
    (h : addBlock b s.inner = (.error e, inner))
    (he : Verdict.of (.error e) = (.failed : Verdict β)) :
    addBlock b s = (.error e, { s with inner }) := by
  change KolmeStore.addBlock b s = _
  rw [KolmeStore.addBlock, h]
  cases e with
  | matchingBlockAlreadyInserted h => cases he
  | _ => rfl

theorem treats (holds : NodeHolds backend s t) (fit : Adds backend t b) :
    Treats (fun _ => .answer .done) (NodeHolds backend) s t b where
  again hget := by
    obtain ⟨r, inner, hadd, hreply, hinner⟩ := (holds.inner.treats fit).again hget
    exact ⟨_, _, addBlock_done hadd (hreply ▸ nofun), rfl, holds.put hinner hget id⟩
  used hget hne := by
    obtain ⟨adding, existing, hadd⟩ := (holds.inner.treats fit).used hget hne
    exact ⟨adding, existing, addBlock_failed hadd rfl⟩
  stored hget hx := by
    obtain ⟨e, hadd, hfailed⟩ := (holds.inner.treats fit).stored hget hx
    exact ⟨e, addBlock_failed hadd hfailed, hfailed⟩
  fresh new := by
    obtain ⟨inner, hadd, hinner⟩ := (holds.inner.treats fit).fresh new
    exact ⟨_, addBlock_done hadd nofun, holds.put hinner
      (StoredBlocks.get?_insert.trans (if_pos rfl)) (StoredBlocks.get?_insert_of_some new)⟩

theorem archive {h : BlockHeight} (holds : NodeHolds backend s t)
    (fit : Fits backend t (.archiveBlock h)) :
    ∃ s', archiveBlock h s = (.ok (), s') ∧ NodeHolds backend s' (t.next (.archiveBlock h)) := by
  obtain ⟨inner, harchive, hinner⟩ := holds.inner.archive fit
  refine ⟨{ s with inner }, ?_, hinner, holds.cached⟩
  change ((archiveBlock h s.inner).1, { s with inner := (archiveBlock h s.inner).2 }) = _
  rw [harchive]

/-- The store of a node refines the stored blocks. -/
theorem refines [DecidableEq β] (backend : Backend) :
    (service (KolmeStore β)).Refines (StoredBlocks.service fun _ => .answer .done) Verdict.of
      (Fits backend) (NodeHolds backend) :=
  refines_of shows treats archive

theorem new (backend : Backend) : NodeHolds (β := β) backend (.new backend) .empty where
  inner := .new backend
  cached h := nomatch h

end NodeHolds

end Kolme.Store
