import Kolme.Components.Processor
import Kolme.Core.Handlers
import Kolme.Store.Representation

/-!
# No forks with several processors

Processors that share a store, whatever happens between their steps, store one block at a height,
each on top of the block below, and every transaction once; and they report no transaction as
failed that is in a block. This needs that nobody stores a transaction while another processor is at
work on it, which only the construct lock ensures, and that the blocks that sync adds belong to the
same chain.
-/

namespace Kolme

open Merkle (Sha256)
open KolmeBackingStore (loadBlock getHeightForTx)
open Store

variable {app : App}

/-! ## What a task relies on -/

namespace Task

/-- The transaction that a processor did not find in a block, and may still store or report. -/
def watches [Sha256] : Task app → Option TxHash
  | .propose tx | .read tx _ | .construct tx .. | .add tx .. => some tx.hash
  | .failed _ _ (.store (.conflictingBlockInDb ..)) => none
  | .failed tx .. => some tx.hash
  | _ => none

/-- The height at which a processor is about to store a block. -/
def addsAt : Task app → Option BlockHeight
  | .add _ _ block => some block.signedBlock.height
  | _ => none

/-- The height from which a processor goes on. -/
def base (current : BlockState app) : Task app → Option BlockHeight
  | .adopt _ height => some (height + 1)
  | .lookup _ | .propose _ | .read .. => some current.node.nextHeight
  | .construct _ _ kolme => some kolme.node.nextHeight
  | .add _ _ block => some block.signedBlock.height
  | _ => none

end Task

section

variable [Sha256] [MerkleHashed (StorableBlock (SignedBlock app.Message))]
  [Rendered (SignedBlock app.Message)]

namespace Cluster

/-- The backing store can hold the block and tell it from the others. -/
structure Fit (backend : Backend) (w : Cluster app) (block : SignedBlock app.Message) : Prop where
  height : HeightFits backend block.height
  rendered : backend = .postgres → ReadsBack block
  distinct : ∀ {h c}, loadBlock w.store h = .ok (some c) → Confuses backend c (.of block) →
    c = .of block

/-- Every other processor that works on the block's transaction is about to store a block of the
same height. -/
def Apart (w : Cluster app) (block : SignedBlock app.Message) (i : Option ℕ) : Prop :=
  ∀ {j}, some j ≠ i → (w.task j).watches = some block.tx.hash →
    (w.task j).addsAt = some block.height

/-- A block that belongs to the chain that is stored, with a new transaction, and that leaves no gap
above the height from which a processor goes on. -/
structure Joins (w : Cluster app) (block : SignedBlock app.Message) : Prop where
  below : ∀ {h c}, block.height = h + 1 → loadBlock w.store h = .ok (some c) →
    block.parent = c.blockhash
  above : ∀ {c}, loadBlock w.store (block.height + 1) = .ok (some c) →
    c.block.parent = block.hash
  new : getHeightForTx w.store block.tx.hash = .ok none
  noGap : ∀ {i base}, (w.task i).base (w.current i) = some base → block.height ≤ base ∨
    ∃ h c, block.height = h + 1 ∧ loadBlock w.store h = .ok (some c)
  apart : w.Apart block none

/-- The events that keep the processors and the sync apart. -/
def Fits (backend : Backend) (w : Cluster app) : ClusterEvent app → Prop
  | .proceed i _ _ => ∀ {tx p block}, w.task i = .add tx p block →
    w.Fit backend block.signedBlock ∧
      (backend.locks = false → loadBlock w.store block.signedBlock.height = .ok none →
        w.Apart block.signedBlock (some i))
  | .addBlock block => w.Fit backend block ∧
      (loadBlock w.store block.height = .ok none → w.Joins block)
  | _ => True

/-! ## The invariant -/

variable {t : StoredBlocks (SignedBlock app.Message)}

/-- Above a height, no stored block is over a gap. -/
def Gapless {β : Type} (t : StoredBlocks β) (base : BlockHeight) : Prop :=
  ∀ h, base ≤ h → t.blocks.get? h = none → t.blocks.get? (h + 1) = none

/-- The block is at height zero or on top of a stored block. -/
def Follows (t : StoredBlocks (SignedBlock app.Message)) (height : BlockHeight)
    (parent : BlockHash) : Prop :=
  height = 0 ∨ ∃ h c, height = h + 1 ∧ t.blocks.get? h = some c ∧ parent = c.blockhash

/-- A block to work with: none, or a stored one. -/
def IsTip (t : StoredBlocks (SignedBlock app.Message)) (kolme : BlockState app) : Prop :=
  Follows t kolme.node.nextHeight kolme.blockhash

structure TaskOk (t : StoredBlocks (SignedBlock app.Message)) (current : BlockState app)
    (task : Task app) : Prop where
  gapless : ∀ {base}, task.base current = some base → Gapless t base
  absent : ∀ {x}, task.watches = some x → t.heightOf x = none ∨
    ∃ h c, task.addsAt = some h ∧ t.blocks.get? h = some c
  tip : ∀ {tx p kolme}, task = .construct tx p kolme → IsTip t kolme
  block : ∀ {tx p block}, task = .add tx p block →
    Follows t block.signedBlock.height block.signedBlock.parent ∧
      block.signedBlock.tx.hash = tx.hash
  stored : ∀ {block}, task = .update block →
    t.blocks.get? block.signedBlock.height = some (.of block.signedBlock)

structure Sound (backend : Backend) (w : Cluster app)
    (t : StoredBlocks (SignedBlock app.Message)) : Prop where
  holds : NodeHolds backend w.store t
  fits : ∀ {h b}, t.blocks.get? h = some b → HeightFits backend h
  real : ∀ {h b}, t.blocks.get? h = some b → b = .of b.block
  linked : ∀ {h b c}, t.blocks.get? (h + 1) = some b → t.blocks.get? h = some c →
    b.block.parent = c.blockhash
  current : ∀ i, IsTip t (w.current i)
  task : ∀ i, TaskOk t (w.current i) (w.task i)
  lock : backend.locks = true → ∀ {i}, w.task i ≠ .idle → w.lock = some i

/-! ## A new block -/

section Insert

variable {b : StorableBlock (SignedBlock app.Message)} {new : t.Fresh b}

omit [Sha256] [MerkleHashed (StorableBlock (SignedBlock app.Message))]
  [Rendered (SignedBlock app.Message)]

theorem Gapless.insert {base : BlockHeight} (h : Gapless t base)
    (hgap : b.height ≤ base ∨ ∃ h c, b.height = h + 1 ∧ t.blocks.get? h = some c) :
    Gapless (t.insert b new) base := by
  intro m hm hnone
  rw [StoredBlocks.get?_insert] at hnone ⊢
  split at hnone
  · cases hnone
  rw [if_neg, h m hm hnone]
  intro he
  rcases hgap with hle | ⟨k, c, hk, hget⟩
  · exact Nat.not_succ_le_self m (le_of_eq_of_le he (hle.trans hm))
  · obtain rfl : m = k := Nat.succ.inj (he.trans hk)
    rw [hget] at hnone
    cases hnone

theorem Gapless.mono {base base' : BlockHeight} (h : Gapless t base) (hle : base ≤ base') :
    Gapless t base' :=
  fun m hm => h m (hle.trans hm)

/-- Above the greatest height there is no gap. -/
theorem gapless_of_top {base : BlockHeight} (htop : ∀ {h c}, t.blocks.get? h = some c → h < base) :
    Gapless t base := by
  intro h hle _
  refine Option.eq_none_iff_forall_ne_some.mpr fun c hget => ?_
  exact absurd (htop hget) (Nat.not_lt.mpr (Nat.le_succ_of_le hle))

theorem Follows.insert {height : BlockHeight} {parent : BlockHash} (h : Follows t height parent) :
    Follows (t.insert b new) height parent := by
  rcases h with rfl | ⟨h, c, hh, hget, hparent⟩
  · exact .inl rfl
  · exact .inr ⟨h, c, hh, StoredBlocks.get?_insert_of_some new hget, hparent⟩

variable [Sha256]

theorem TaskOk.insert {current : BlockState app} {task : Task app} (ok : TaskOk t current task)
    (hgap : ∀ {base}, task.base current = some base → b.height ≤ base ∨
      ∃ h c, b.height = h + 1 ∧ t.blocks.get? h = some c)
    (hapart : task.watches = some b.txhash → task.addsAt = some b.height) :
    TaskOk (t.insert b new) current task where
  gapless hbase := (ok.gapless hbase).insert (hgap hbase)
  absent {x} hx := by
    by_cases he : x = b.txhash
    · subst he
      exact .inr ⟨b.height, b, hapart hx, StoredBlocks.get?_insert.trans (if_pos rfl)⟩
    · rw [StoredBlocks.heightOf_insert, if_neg he]
      exact (ok.absent hx).imp_right fun ⟨h, c, hh, hget⟩ =>
        ⟨h, c, hh, StoredBlocks.get?_insert_of_some new hget⟩
  tip h := (ok.tip h).insert
  block h := ⟨(ok.block h).1.insert, (ok.block h).2⟩
  stored h := StoredBlocks.get?_insert_of_some new (ok.stored h)

end Insert

/-! ## A later current block -/

section Later

omit [MerkleHashed (StorableBlock (SignedBlock app.Message))] [Rendered (SignedBlock app.Message)]

variable {current kolme : BlockState app}

omit [Sha256] in
theorem IsTip.later (hcurrent : IsTip t current) (tip : IsTip t kolme) :
    IsTip t (current.later kolme) := by
  unfold BlockState.later
  split
  · exact tip
  · exact hcurrent

/-- A later current block does not disturb a task. -/
theorem TaskOk.later {task : Task app} (ok : TaskOk t current task) :
    TaskOk t (current.later kolme) task where
  gapless {base} hbase := by
    cases task with
    | lookup | propose | read =>
      obtain rfl := Option.some.inj hbase
      exact (ok.gapless rfl).mono (BlockState.le_later current kolme)
    | _ => exact ok.gapless hbase
  absent := ok.absent
  tip := ok.tip
  block := ok.block
  stored := ok.stored

end Later

/-! ## What the store says -/

namespace Sound

variable {backend : Backend} {w : Cluster app} {block : SignedBlock app.Message}
  {h : BlockHeight} {c : StorableBlock (SignedBlock app.Message)}

theorem load (sound : Sound backend w t) (hget : t.blocks.get? h = some c) :
    loadBlock w.store h = .ok (some c) := by
  rw [sound.holds.shows.block (sound.fits hget), hget]

theorem unused (sound : Sound backend w t) (hfits : HeightFits backend h)
    (hget : t.blocks.get? h = none) : loadBlock w.store h = .ok none := by
  rw [sound.holds.shows.block hfits, hget]

theorem adds (sound : Sound backend w t) (fit : w.Fit backend block)
    (new : t.blocks.get? block.height = none → t.heightOf block.tx.hash = none) :
    Adds backend t (.of block) where
  height := fit.height
  rendered := fit.rendered
  distinct hget := fit.distinct (sound.load hget)
  new _ := new

/-- What the store does with a block: it is there, another one is at its height, its transaction is
stored, or it is new. -/
theorem storeBlock_cases (sound : Sound backend w t) (adds : Adds backend t (.of block)) :
    (t.blocks.get? block.height = some (.of block) ∧ ∃ store,
      w.storeBlock block = (.ok (), { w with store }) ∧ NodeHolds backend store t) ∨
    (∃ c adding existing, t.blocks.get? block.height = some c ∧ w.storeBlock block =
      (.error (.conflictingBlockInDb block.height adding existing), w)) ∨
    (∃ h e, t.blocks.get? block.height = none ∧ t.heightOf block.tx.hash = some h ∧
      w.storeBlock block = (.error e, w)) ∨
    ∃ (new : t.Fresh (.of block)) (store : _), w.storeBlock block = (.ok (), { w with store }) ∧
      NodeHolds backend store (t.insert (.of block) new) := by
  have hstore {r : Except KolmeStoreError Unit} {store : KolmeStore (SignedBlock app.Message)}
      (h : KolmeBackingStore.addBlock (.of block) w.store = (r, store)) :
      w.storeBlock block = (r, { w with store }) := by
    unfold Cluster.storeBlock
    change KolmeStore.addBlock (.of block) w.store = (r, store) at h
    rw [h]
  have treats := sound.holds.treats adds
  cases hget : t.blocks.get? block.height with
  | some c =>
    by_cases he : c = .of block
    · subst he
      obtain ⟨r, store, hadd, hreply, hrel⟩ := treats.again hget
      cases r with
      | ok u => exact .inl ⟨rfl, store, hstore hadd, hrel⟩
      | error e => cases e <;> cases hreply
    · obtain ⟨adding, existing, hadd⟩ := treats.used hget he
      exact .inr (.inl ⟨c, adding, existing, rfl, hstore hadd⟩)
  | none =>
    cases hx : t.heightOf block.tx.hash with
    | some h =>
      obtain ⟨e, hadd, -⟩ := treats.stored hget hx
      exact .inr (.inr (.inl ⟨h, e, rfl, rfl, hstore hadd⟩))
    | none =>
      obtain ⟨store, hadd, hrel⟩ := treats.fresh ⟨hget, hx⟩
      exact .inr (.inr (.inr ⟨⟨hget, hx⟩, store, hstore hadd, hrel⟩))

/-! ## Single changes -/

theorem withStore (sound : Sound backend w t) {store : KolmeStore (SignedBlock app.Message)}
    (holds : NodeHolds backend store t) : Sound backend { w with store } t :=
  { sound with holds }

/-- A new block on top of the one below and under the one above. -/
theorem insert (sound : Sound backend w t) {store : KolmeStore (SignedBlock app.Message)}
    (new : t.Fresh (.of block)) (holds : NodeHolds backend store (t.insert (.of block) new))
    (hfits : HeightFits backend block.height)
    (below : ∀ {h c}, block.height = h + 1 → t.blocks.get? h = some c → block.parent = c.blockhash)
    (above : ∀ {c}, t.blocks.get? (block.height + 1) = some c → c.block.parent = block.hash)
    (noGap : ∀ {i base}, (w.task i).base (w.current i) = some base → block.height ≤ base ∨
      ∃ h c, block.height = h + 1 ∧ t.blocks.get? h = some c)
    (apart : ∀ {i}, (w.task i).watches = some block.tx.hash →
      (w.task i).addsAt = some block.height) :
    Sound backend { w with store } (t.insert (.of block) new) where
  holds := holds
  fits {h c} hget := by
    rw [StoredBlocks.get?_insert] at hget
    split at hget
    · rename_i hh
      exact hh ▸ hfits
    · exact sound.fits hget
  real {h c} hget := by
    rw [StoredBlocks.get?_insert] at hget
    split at hget
    · obtain rfl := Option.some.inj hget
      rfl
    · exact sound.real hget
  linked {h b c} hb hc := by
    rw [StoredBlocks.get?_insert] at hb hc
    split at hb <;> split at hc
    · exact absurd (Eq.trans ‹h + 1 = _› (Eq.symm ‹h = _›)) (Nat.succ_ne_self h)
    · obtain rfl := Option.some.inj hb
      exact below (Eq.symm ‹h + 1 = _›) hc
    · obtain rfl := Option.some.inj hc
      have hh : h = block.height := ‹h = _›
      exact above (hh ▸ hb)
    · exact sound.linked hb hc
  current i := (sound.current i).insert
  task i := (sound.task i).insert noGap apart
  lock := sound.lock

theorem setTask (sound : Sound backend w t) {i : ℕ} {task : Task app}
    (ok : TaskOk t (w.current i) task) (hlock : backend.locks = true → w.lock = some i) :
    Sound backend (w.setTask i task) t where
  holds := sound.holds
  fits := sound.fits
  real := sound.real
  linked := sound.linked
  current := sound.current
  task j := by
    change TaskOk t (w.current j) (Function.update w.task i task j)
    rcases eq_or_ne j i with rfl | hne
    · rw [Function.update_self]
      exact ok
    · rw [Function.update_of_ne hne]
      exact sound.task j
  lock hlocks j hj := by
    change Function.update w.task i task j ≠ .idle at hj
    rcases eq_or_ne j i with rfl | hne
    · exact hlock hlocks
    · rw [Function.update_of_ne hne] at hj
      exact sound.lock hlocks hj

theorem finish (sound : Sound backend w t) (i : ℕ) : Sound backend (w.finish i) t where
  holds := sound.holds
  fits := sound.fits
  real := sound.real
  linked := sound.linked
  current := sound.current
  task j := by
    change TaskOk t (w.current j) (Function.update w.task i .idle j)
    rcases eq_or_ne j i with rfl | hne
    · rw [Function.update_self]
      exact ⟨nofun, nofun, nofun, nofun, nofun⟩
    · rw [Function.update_of_ne hne]
      exact sound.task j
  lock hlocks j hj := by
    change Function.update w.task i .idle j ≠ .idle at hj
    rcases eq_or_ne j i with rfl | hne
    · rw [Function.update_self] at hj
      exact absurd rfl hj
    · rw [Function.update_of_ne hne] at hj
      have hlock := sound.lock hlocks hj
      change (if w.lock = some i then none else w.lock) = some j
      rw [hlock, if_neg]
      exact fun he => hne (Option.some.inj he)

theorem setCurrent (sound : Sound backend w t) {i : ℕ} {kolme : BlockState app}
    (tip : IsTip t kolme) : Sound backend (w.setCurrent i kolme) t where
  holds := sound.holds
  fits := sound.fits
  real := sound.real
  linked := sound.linked
  current j := by
    change IsTip t (Function.update w.current i ((w.current i).later kolme) j)
    rcases eq_or_ne j i with rfl | hne
    · rw [Function.update_self]
      exact (sound.current j).later tip
    · rw [Function.update_of_ne hne]
      exact sound.current j
  task j := by
    change TaskOk t (Function.update w.current i ((w.current i).later kolme) j) (w.task j)
    rcases eq_or_ne j i with rfl | hne
    · rw [Function.update_self]
      exact (sound.task j).later
    · rw [Function.update_of_ne hne]
      exact sound.task j
  lock := sound.lock

end Sound

/-! ## The steps of a processor -/

section Steps

/-- The invariant holds, with all blocks that were stored before. -/
def Continues (backend : Backend) (t : StoredBlocks (SignedBlock app.Message))
    (w : Cluster app) : Prop :=
  ∃ t', Sound backend w t' ∧ ∀ {h c}, t.blocks.get? h = some c → t'.blocks.get? h = some c

theorem Sound.continues {backend : Backend} {w : Cluster app} (sound : Sound backend w t) :
    Continues backend t w :=
  ⟨t, sound, id⟩

variable {tools : ProcessorTools app} {processors : ℕ → Processor} {backend : Backend}
  {w : Cluster app} {i : ℕ}

section Construct

omit [MerkleHashed (StorableBlock (SignedBlock app.Message))] [Rendered (SignedBlock app.Message)]

theorem signBlock_ok {kolme : BlockState app} {secret : SecretKey}
    {tx : SignedTransaction app.Message} {p : BlockHeight} {now : Timestamp}
    {results : ExecutionResults app.State} {block : ExecutedBlock app}
    (h : Processor.signBlock tools kolme secret tx p now results = .ok block) :
    block.signedBlock.height = results.height ∧ block.signedBlock.parent = kolme.blockhash ∧
      block.signedBlock.tx = tx := by
  simp only [Processor.signBlock, Except.bind_eq_ok, Except.ensure_eq_ok, Except.exists_unit] at h
  obtain ⟨hheight, -, json, -, signed, hsigned, h⟩ := h
  obtain rfl := Except.ok.inj h
  simp only [TaggedJson.sign, Except.mapError_eq_ok, Except.bind_eq_ok] at hsigned
  obtain ⟨sig, -, hsigned⟩ := hsigned
  obtain rfl := Except.ok.inj hsigned
  exact ⟨hheight.symm, rfl, rfl⟩

/-- A block that is constructed is on top of the block that is worked with. -/
theorem constructBlock_ok {self : Processor} {kolme : BlockState app}
    {stored : Except KolmeStoreError (Option BlockHeight)} {tx : SignedTransaction app.Message}
    {p : BlockHeight} {now : Timestamp} {world : app.World} {block : ExecutedBlock app}
    (h : self.constructBlock tools kolme stored tx p now world = .ok block) :
    block.signedBlock.height = kolme.node.nextHeight ∧
      block.signedBlock.parent = kolme.blockhash ∧ block.signedBlock.tx = tx := by
  simp only [Processor.constructBlock, Except.bind_eq_ok] at h
  obtain ⟨secret, -, found, -, h⟩ := h
  cases found with
  | some _ => cases h
  | none =>
    simp only [Except.bind_eq_ok, Except.mapError_eq_ok] at h
    obtain ⟨results, hresults, h⟩ := h
    obtain ⟨hheight, hparent, htx⟩ := signBlock_ok h
    have hcalls : app.Only fun _ _ => True := fun _ _ _ => AppProgram.only_true _
    obtain ⟨_, _, -, -, -, -, hnext⟩ := Node.executeTransaction_eq_ok hcalls hresults
    exact ⟨hheight.trans hnext, hparent, htx⟩

/-- A notice is about the transaction that was worked on. -/
theorem failedTransaction_ok {self : Processor} {kolme : BlockState app}
    {tx : SignedTransaction app.Message} {p : BlockHeight} {e : Failure}
    {notice : SignedTaggedJson FailedTransaction}
    (h : self.failedTransaction tools kolme tx p e = .ok notice) :
    notice.message.value.txhash = tx.hash := by
  simp only [Processor.failedTransaction, Except.bind_eq_ok, Except.mapError_eq_ok,
    TaggedJson.sign] at h
  obtain ⟨json, -, key, -, sig, -, h⟩ := h
  obtain rfl := Except.ok.inj h
  rfl

end Construct

theorem isTip_of_load (sound : Sound backend w t) {height : BlockHeight} {kolme : BlockState app}
    (h : w.loadState tools height = .ok kolme) :
    IsTip t kolme ∧ kolme.node.nextHeight = height + 1 := by
  simp only [loadState, Except.bind_eq_ok, Except.mapError_eq_ok] at h
  obtain ⟨found, hfound, h⟩ := h
  cases found with
  | none => cases h
  | some b =>
    have hget := sound.holds.of_load hfound
    have hreal := sound.real hget
    simp only [BlockState.load, Except.bind_eq_ok, Except.mapError_eq_ok] at h
    obtain ⟨_, -, _, -, h⟩ := h
    obtain rfl := Except.ok.inj h
    have hheight : b.block.height = height := by
      have := t.height_eq hget
      rw [hreal] at this
      exact this
    refine ⟨.inr ⟨height, b, congrArg (· + 1) hheight, hget, ?_⟩, congrArg (· + 1) hheight⟩
    rw [hreal]
    rfl

theorem proceed_resync (sound : Sound backend w t) {tx : SignedTransaction app.Message}
    {now : Timestamp} {world : app.World} (htask : w.task i = .resync tx) :
    Sound backend (w.proceed tools processors i now world) t := by
  have hlock : backend.locks = true → w.lock = some i := fun h =>
    sound.lock h (by rw [htask]; exact nofun)
  have hlatest := sound.holds.shows.latest
  simp only [proceed, htask, hlatest]
  cases hlast : t.blocks.last?.map Prod.fst with
  | none =>
    have hnone := SortedMap.last?_key_eq_none.mp hlast
    refine sound.setTask ⟨fun _ => gapless_of_top fun {h c} hget => ?_, nofun, nofun, nofun, nofun⟩
      hlock
    rw [hnone h] at hget
    cases hget
  | some height =>
    obtain ⟨-, htop⟩ := SortedMap.last?_key_eq_some.mp hlast
    simp only
    split
    · refine sound.setTask ⟨fun hbase => ?_, nofun, nofun, nofun, nofun⟩ hlock
      obtain rfl := Option.some.inj hbase
      exact gapless_of_top fun hget => Nat.lt_succ_of_le (htop _ _ hget)
    · refine sound.setTask ⟨fun hbase => ?_, nofun, nofun, nofun, nofun⟩ hlock
      obtain rfl := Option.some.inj hbase
      exact gapless_of_top fun hget =>
        Nat.lt_of_le_of_lt (htop _ _ hget) (Nat.not_lt.mp ‹_›)

theorem proceed_adopt (sound : Sound backend w t) {tx : SignedTransaction app.Message}
    {height : BlockHeight} {now : Timestamp} {world : app.World}
    (htask : w.task i = .adopt tx height) :
    Sound backend (w.proceed tools processors i now world) t := by
  simp only [proceed, htask]
  cases hload : w.loadState tools height with
  | error e => exact sound.finish i
  | ok kolme =>
    obtain ⟨htip, hnext⟩ := isTip_of_load sound hload
    refine (sound.setCurrent htip).setTask ⟨fun hbase => ?_, nofun, nofun, nofun, nofun⟩
      fun h => sound.lock h (by rw [htask]; exact nofun)
    · obtain rfl := Option.some.inj hbase
      have hgapless : Gapless t (height + 1) := (sound.task i).gapless (by rw [htask]; rfl)
      refine hgapless.mono ?_
      change height + 1 ≤ (Function.update w.current i ((w.current i).later kolme) i).node.nextHeight
      rw [Function.update_self, ← hnext]
      exact BlockState.new_le_later ..

theorem proceed_lookup (sound : Sound backend w t) {tx : SignedTransaction app.Message}
    {now : Timestamp} {world : app.World} (htask : w.task i = .lookup tx) :
    Sound backend (w.proceed tools processors i now world) t := by
  have ok := htask ▸ sound.task i
  have hlock : backend.locks = true → w.lock = some i := fun h =>
    sound.lock h (by rw [htask]; exact nofun)
  have hheight := sound.holds.shows.heightForTx tx.hash
  simp only [proceed, htask, hheight]
  cases hx : t.heightOf tx.hash with
  | some _ => exact sound.finish i
  | none =>
    refine sound.setTask ⟨ok.gapless, fun h => ?_, nofun, nofun, nofun⟩ hlock
    obtain rfl := Option.some.inj h
    exact .inl hx

omit [MerkleHashed (StorableBlock (SignedBlock app.Message))] [Rendered (SignedBlock app.Message)]
  in
theorem failed_watches {tx : SignedTransaction app.Message} {p : BlockHeight} {e : Failure}
    {x : TxHash} (h : (Task.failed tx p e).watches = some x) : tx.hash = x := by
  cases e with
  | store e =>
    cases e with
    | conflictingBlockInDb => cases h
    | _ => exact Option.some.inj h
  | _ => exact Option.some.inj h

omit [MerkleHashed (StorableBlock (SignedBlock app.Message))] [Rendered (SignedBlock app.Message)]
  in
theorem watches_of_failed {tx : SignedTransaction app.Message} {p : BlockHeight} {e : Failure}
    (he : ∀ h adding existing, e ≠ .store (.conflictingBlockInDb h adding existing)) :
    (Task.failed tx p e).watches = some tx.hash := by
  cases e with
  | store e =>
    cases e with
    | conflictingBlockInDb h adding existing => exact absurd rfl (he h adding existing)
    | _ => rfl
  | _ => rfl

theorem proceed_construct (sound : Sound backend w t) {tx : SignedTransaction app.Message}
    {p : BlockHeight} {kolme : BlockState app} {now : Timestamp} {world : app.World}
    (htask : w.task i = .construct tx p kolme) :
    Sound backend (w.proceed tools processors i now world) t := by
  have ok := htask ▸ sound.task i
  have hlock : backend.locks = true → w.lock = some i := fun h =>
    sound.lock h (by rw [htask]; exact nofun)
  have habsent : t.heightOf tx.hash = none := by
    rcases ok.absent rfl with h | ⟨_, _, h, -⟩
    · exact h
    · cases h
  simp only [proceed, htask]
  cases hblock : (processors i).constructBlock tools kolme
      (getHeightForTx w.store tx.hash) tx p now world with
  | error e =>
    refine sound.setTask ⟨nofun, fun {x} h => ?_, nofun, nofun, nofun⟩ hlock
    obtain rfl := failed_watches h
    exact .inl habsent
  | ok block =>
    obtain ⟨hheight, hparent, htx⟩ := constructBlock_ok hblock
    refine sound.setTask ⟨fun h => ?_, fun h => ?_, nofun, fun h => ?_, nofun⟩ hlock
    · obtain rfl := Option.some.inj h
      rw [hheight]
      exact ok.gapless rfl
    · obtain rfl := Option.some.inj h
      exact .inl habsent
    · cases h
      rw [hheight, hparent, htx]
      exact ⟨ok.tip rfl, rfl⟩

theorem Sound.saveStates (sound : Sound backend w t) (block : ExecutedBlock app) :
    Sound backend (w.saveStates tools block) t :=
  { sound with }

theorem proceed_add (sound : Sound backend w t) {tx : SignedTransaction app.Message}
    {p : BlockHeight} {block : ExecutedBlock app} {now : Timestamp} {world : app.World}
    (fit : w.Fits backend (.proceed i now world)) (htask : w.task i = .add tx p block) :
    Continues backend t (w.proceed tools processors i now world) := by
  have ok := htask ▸ sound.task i
  have hlock : backend.locks = true → w.lock = some i := fun h =>
    sound.lock h (by rw [htask]; exact nofun)
  obtain ⟨fit, apart⟩ := fit htask
  obtain ⟨hfollows, htx⟩ := ok.block rfl
  have habsent : t.blocks.get? block.signedBlock.height = none →
      t.heightOf block.signedBlock.tx.hash = none := by
    intro hnone
    rw [htx]
    rcases ok.absent rfl with h | ⟨_, c, h, hget⟩
    · exact h
    · obtain rfl := Option.some.inj h
      rw [hnone] at hget
      cases hget
  have sound' : Sound backend (w.saveStates tools block) t := sound.saveStates block
  simp only [proceed, htask]
  rcases sound'.storeBlock_cases (sound'.adds ⟨fit.height, fit.rendered, fit.distinct⟩ habsent) with
    ⟨hget, store, hstore, holds⟩ | ⟨c, adding, existing, hget, hstore⟩ | ⟨h, e, hget, hx, hstore⟩ |
      ⟨new, store, hstore, holds⟩
  · rw [hstore]
    refine Sound.continues ((sound'.withStore holds).setTask ⟨nofun, nofun, nofun, nofun, fun h => ?_⟩
      hlock)
    cases h
    exact hget
  · rw [hstore]
    exact Sound.continues (sound'.setTask ⟨nofun, nofun, nofun, nofun, nofun⟩ hlock)
  · rw [habsent hget] at hx
    cases hx
  · rw [hstore]
    have hinsert := sound'.insert new holds fit.height ?_ ?_ ?_ ?_
    · refine ⟨_, hinsert.setTask ⟨nofun, nofun, nofun, nofun, fun h => ?_⟩ hlock,
        StoredBlocks.get?_insert_of_some new⟩
      cases h
      exact StoredBlocks.get?_insert.trans (if_pos rfl)
    · rcases hfollows with hzero | ⟨h, c, hh, hget, hparent⟩
      · intro h c hh _
        rw [hzero] at hh
        cases hh
      · intro h' c' hh' hget'
        obtain rfl : h = h' := Nat.succ.inj (hh.symm.trans hh')
        rw [hget] at hget'
        exact hparent.trans (congrArg StorableBlock.blockhash (Option.some.inj hget'))
    · intro c hget
      rw [ok.gapless rfl _ le_rfl new.1] at hget
      cases hget
    · intro j base _
      rcases hfollows with hzero | ⟨h, c, hh, hget, -⟩
      · exact .inl (hzero ▸ Nat.zero_le base)
      · exact .inr ⟨h, c, hh, hget⟩
    · intro j hj
      rcases eq_or_ne j i with rfl | hne
      · change (w.task j).addsAt = _
        rw [htask]
        rfl
      cases hlocks : backend.locks with
      | true =>
        have hidle : w.task j ≠ .idle := fun he => by
          change (w.task j).watches = _ at hj
          rw [he] at hj
          cases hj
        have hother := sound.lock hlocks hidle
        rw [hlock hlocks] at hother
        exact absurd (Option.some.inj hother).symm hne
      | false =>
        exact apart hlocks (sound.unused fit.height new.1) (fun he => hne (Option.some.inj he)) hj

theorem proceed_update (sound : Sound backend w t) {block : ExecutedBlock app} {now : Timestamp}
    {world : app.World} (htask : w.task i = .update block) :
    Sound backend (w.proceed tools processors i now world) t := by
  have ok := htask ▸ sound.task i
  simp only [proceed, htask]
  exact (sound.setCurrent (.inr ⟨_, _, rfl, ok.stored rfl, rfl⟩)).finish i

/-- A notice is about a transaction that is in no block. -/
theorem proceed_failed (sound : Sound backend w t) {tx : SignedTransaction app.Message}
    {p : BlockHeight} {e : Failure} {now : Timestamp} {world : app.World}
    (htask : w.task i = .failed tx p e) :
    Sound backend (w.proceed tools processors i now world) t ∧
      ((w.proceed tools processors i now world).notices = w.notices ∨
        ∃ notice, (w.proceed tools processors i now world).notices = w.notices ++ [notice] ∧
          getHeightForTx w.store notice.message.value.txhash = .ok none) := by
  have ok := htask ▸ sound.task i
  unfold proceed
  split <;> rename_i he <;> rw [htask] at he
  all_goals try cases he
  · exact ⟨sound.finish i, .inl rfl⟩
  · rename_i hconflict
    split
    · exact ⟨sound.finish i, .inl rfl⟩
    · rename_i notice hnotice
      have habsent : t.heightOf tx.hash = none := by
        rcases ok.absent (watches_of_failed fun h a e => hconflict h a e) with h | ⟨_, _, h, -⟩
        · exact h
        · cases h
      have published : Sound backend { w with notices := w.notices ++ [notice] } t :=
        ⟨sound.holds, sound.fits, sound.real, sound.linked, sound.current, sound.task, sound.lock⟩
      refine ⟨published.finish i, .inr ⟨notice, rfl, ?_⟩⟩
      rw [failedTransaction_ok hnotice, sound.holds.shows.heightForTx, habsent]

/-- A step of a processor. -/
theorem sound_proceed (sound : Sound backend w t) {now : Timestamp} {world : app.World}
    (fit : w.Fits backend (.proceed i now world)) :
    Continues backend t (w.proceed tools processors i now world) := by
  cases htask : w.task i with
  | idle =>
    simp only [proceed, htask]
    exact sound.continues
  | resync tx => exact Sound.continues (proceed_resync sound htask)
  | adopt tx height => exact Sound.continues (proceed_adopt sound htask)
  | lookup tx => exact Sound.continues (proceed_lookup sound htask)
  | propose tx =>
    have ok := htask ▸ sound.task i
    have hlock : backend.locks = true → w.lock = some i := fun h =>
    sound.lock h (by rw [htask]; exact nofun)
    simp only [proceed, htask]
    exact Sound.continues (sound.setTask ⟨ok.gapless, ok.absent, nofun, nofun, nofun⟩ hlock)
  | read tx p =>
    have ok := htask ▸ sound.task i
    have hlock : backend.locks = true → w.lock = some i := fun h =>
    sound.lock h (by rw [htask]; exact nofun)
    simp only [proceed, htask]
    refine Sound.continues (sound.setTask ⟨ok.gapless, ok.absent, fun h => ?_, nofun, nofun⟩ hlock)
    cases h
    exact sound.current i
  | construct tx p kolme => exact Sound.continues (proceed_construct sound htask)
  | add tx p block => exact proceed_add sound fit htask
  | update block => exact Sound.continues (proceed_update sound htask)
  | failed tx p e => exact (proceed_failed sound htask).1.continues

/-- A block that sync adds. -/
theorem sound_addBlock (sound : Sound backend w t) {block : SignedBlock app.Message}
    (fit : w.Fits backend (.addBlock block)) : Continues backend t (w.storeBlock block).2 := by
  obtain ⟨fit, hjoins⟩ := fit
  have joins (hnone : t.blocks.get? block.height = none) : w.Joins block :=
    hjoins (sound.unused fit.height hnone)
  have hnew (hnone : t.blocks.get? block.height = none) : t.heightOf block.tx.hash = none := by
    have hx := (joins hnone).new
    rw [sound.holds.shows.heightForTx] at hx
    exact Except.ok.inj hx
  rcases sound.storeBlock_cases (sound.adds fit hnew) with
    ⟨hget, store, hstore, holds⟩ | ⟨c, adding, existing, hget, hstore⟩ | ⟨h, e, hget, hx, hstore⟩ |
      ⟨new, store, hstore, holds⟩ <;> rw [hstore]
  · exact Sound.continues (sound.withStore holds)
  · exact sound.continues
  · exact sound.continues
  · have joins := joins new.1
    refine ⟨_, sound.insert new holds fit.height (fun hh hget => joins.below hh (sound.load hget))
      (fun hget => joins.above (sound.load hget)) (fun hbase => ?_)
      (fun hwatch => joins.apart nofun hwatch), StoredBlocks.get?_insert_of_some new⟩
    exact (joins.noGap hbase).imp_right fun ⟨h, c, hh, hload⟩ =>
      ⟨h, c, hh, sound.holds.of_load hload⟩

/-- Every event that fits keeps the invariant. -/
theorem sound_step (sound : Sound backend w t) {event : ClusterEvent app}
    (fit : w.Fits backend event) :
    Continues backend t (w.step tools backend processors event) := by
  cases event with
  | begin i tx =>
    simp only [step]
    split
    · split
      · split
        · rename_i hnone
          have locked : Sound backend { w with lock := some i } t :=
            ⟨sound.holds, sound.fits, sound.real, sound.linked, sound.current, sound.task,
              fun hlocks _ hbusy => absurd (sound.lock hlocks hbusy) (by rw [hnone]; exact nofun)⟩
          exact Sound.continues (locked.setTask ⟨nofun, nofun, nofun, nofun, nofun⟩ fun _ => rfl)
        · exact sound.continues
      · exact Sound.continues (sound.setTask ⟨nofun, nofun, nofun, nofun, nofun⟩ fun h => absurd h ‹_›)
    · exact sound.continues
  | proceed i now world => exact sound_proceed sound fit
  | addLayer hash layer =>
    exact ⟨t, ⟨sound.holds, sound.fits, sound.real, sound.linked, sound.current, sound.task,
      sound.lock⟩, id⟩
  | addBlock block => exact sound_addBlock sound fit
  | adopt i height =>
    simp only [step]
    split
    · exact sound.continues
    · exact Sound.continues (sound.setCurrent (isTip_of_load sound ‹_›).1)

theorem sound_start {genesis : Node app} (h : Node.genesis app = .ok genesis) (backend : Backend) :
    Sound backend (start backend genesis) .empty where
  holds := .new backend
  fits hget := nomatch hget
  real hget := nomatch hget
  linked hget := nomatch hget
  current _ := .inl (Node.genesis_eq_ok h).2.1
  task _ := ⟨nofun, nofun, nofun, nofun, nofun⟩
  lock _ _ hlock := absurd rfl hlock

/-- Only a processor that gives up publishes a notice, about a transaction that is in no block. -/
theorem notices_step (sound : Sound backend w t) (event : ClusterEvent app) :
    (w.step tools backend processors event).notices = w.notices ∨
      ∃ notice, (w.step tools backend processors event).notices = w.notices ++ [notice] ∧
        getHeightForTx w.store notice.message.value.txhash = .ok none := by
  cases event with
  | begin i tx =>
    simp only [step]
    split
    · split
      · split
        · exact .inl rfl
        · exact .inl rfl
      · exact .inl rfl
    · exact .inl rfl
  | proceed i now world =>
    cases htask : w.task i with
    | failed tx p e => exact (proceed_failed sound htask).2
    | resync tx =>
      simp only [step, proceed, htask]
      split
      · exact .inl rfl
      · exact .inl rfl
      · split
        · exact .inl rfl
        · exact .inl rfl
    | adopt | lookup =>
      simp only [step, proceed, htask]
      split
      all_goals exact .inl rfl
    | construct =>
      simp only [step, proceed, htask]
      split
      all_goals exact .inl rfl
    | add tx p block =>
      simp only [step, proceed, htask]
      split
      all_goals
        rename_i hstore
        exact .inl (congrArg (fun r => r.2.notices) hstore).symm
    | idle => exact .inl (by simp only [step, proceed, htask])
    | propose | read | update =>
      simp only [step, proceed, htask]
      exact .inl rfl
  | addLayer hash layer => exact .inl rfl
  | addBlock block => exact .inl rfl
  | adopt i height =>
    simp only [step]
    split
    · exact .inl rfl
    · exact .inl rfl

end Steps

/-! ## Runs -/

/-- One chain without forks. -/
structure ForkFree (w : Cluster app) : Prop where
  own : ∀ {h b}, loadBlock w.store h = .ok (some b) → b = .of b.block ∧ b.height = h
  linked : ∀ {h b c}, loadBlock w.store (h + 1) = .ok (some b) → loadBlock w.store h = .ok (some c) →
    b.block.parent = c.block.hash
  once : ∀ {h h' b c}, loadBlock w.store h = .ok (some b) → loadBlock w.store h' = .ok (some c) →
    b.txhash = c.txhash → h = h'

/-- What an event may do: no stored block is replaced, and a notice is about a transaction that is
in no block. -/
structure Careful (w w' : Cluster app) : Prop where
  kept : ∀ {h b}, loadBlock w.store h = .ok (some b) → loadBlock w'.store h = .ok (some b)
  notice : w'.notices = w.notices ∨ ∃ notice, w'.notices = w.notices ++ [notice] ∧
    getHeightForTx w.store notice.message.value.txhash = .ok none

theorem Sound.forkFree {backend : Backend} {w : Cluster app} (sound : Sound backend w t) :
    ForkFree w where
  own hload := by
    have hget := sound.holds.of_load hload
    exact ⟨sound.real hget, t.height_eq hget⟩
  linked hb hc := by
    have hget := sound.holds.of_load hc
    rw [sound.linked (sound.holds.of_load hb) hget, sound.real hget]
    rfl
  once hb hc := t.unique (sound.holds.of_load hb) (sound.holds.of_load hc)

/-- Processors that share a store do not fork the chain, as long as nobody else stores a
transaction that one of them is at work on and sync adds blocks of the same chain. -/
theorem fork_freedom (tools : ProcessorTools app) (backend : Backend) (processors : ℕ → Processor)
    {genesis : Node app} (hgenesis : Node.genesis app = .ok genesis)
    (events : List (ClusterEvent app))
    (fit : (machine tools backend processors).Along (Fits backend) (start backend genesis) events) :
    ForkFree ((machine tools backend processors).run (start backend genesis) events) ∧
    ∀ event, ((machine tools backend processors).run (start backend genesis) events).Fits backend
        event →
      Careful ((machine tools backend processors).run (start backend genesis) events)
        ((machine tools backend processors).run (start backend genesis) (events ++ [event])) := by
  have hinv : ∃ t, Sound backend
      ((machine tools backend processors).run (start backend genesis) events) t := by
    refine (machine tools backend processors).run_invariant_along
      (I := fun w => ∃ t, Sound backend w t) (P := Fits backend) ?_
      ⟨.empty, sound_start hgenesis backend⟩ fit
    rintro w event w' ⟨t, sound⟩ hfit hstep
    obtain rfl := Except.ok.inj hstep
    obtain ⟨t', sound', -⟩ : Continues backend t (w.step tools backend processors event) :=
      sound_step sound hfit
    exact ⟨t', sound'⟩
  obtain ⟨t, sound⟩ := hinv
  refine ⟨sound.forkFree, fun event hfit => ?_⟩
  have hrun : (machine tools backend processors).run (start backend genesis) (events ++ [event]) =
      ((machine tools backend processors).run (start backend genesis) events).step tools backend
        processors event := List.foldl_append
  rw [hrun]
  obtain ⟨t', sound', hkept⟩ : Continues backend t
      (((machine tools backend processors).run (start backend genesis) events).step tools backend
        processors event) := sound_step sound hfit
  exact ⟨fun hload => sound'.load (hkept (sound.holds.of_load hload)), notices_step sound event⟩

end Cluster

end

/-! ## Samples -/

namespace ForksSample

open Sample NodeSample

def txHash : Sha256Hash :=
  0xfb6bac61b94aa76fb77827d65a047e3bceb24d58eb60c5868924efb0a69cc702

/-- The hash of the genesis transaction; the texts of blocks and the states play no part. -/
scoped instance : Sha256 where
  hash bytes := if bytes = genesisTx.text.text.toByteArray.data.toList then txHash else 0

def tools : ProcessorTools chain where
  env := counterEnv [genesisTx.text]
  codec
  blockToJson _ := .ok "block"
  failedToJson _ := .ok "failed"
  describe _ := .other "Transaction is already present in database"

/-- Processors with the same key -/
def processors (_ : ℕ) : Processor where
  secrets key := if key = processor then some ⟨processor, fun _ => .ok ⟨0, 0⟩⟩ else none
  codeVersion := "v1"

def tx : SignedTransaction chain.Message := genesisTx.text.tagged genesisTx.tx

/-- A processor goes on for some steps. -/
def steps (i n : ℕ) : List (ClusterEvent chain) := List.replicate n (.proceed i 0 ())

/-- The first processor does not find the transaction. Before it goes on, the second adds it. -/
def events : List (ClusterEvent chain) :=
  .begin 0 tx :: steps 0 2 ++ .begin 1 tx :: steps 1 7 ++ steps 0 4

def final : Cluster chain :=
  (Cluster.machine tools .fjall processors).run (.start .fjall (start validators)) events

/-- The state after some steps of the first processor, over a store in memory. -/
def after (n : ℕ) : Cluster chain :=
  (Cluster.machine tools .inMemory processors).run (.start .inMemory (start validators))
    (.begin 0 tx :: steps 0 n)

def isAdd : Task chain → Bool
  | .add .. => true
  | _ => false

theorem proceed_store {w : Cluster chain} {i : ℕ} (h : isAdd (w.task i) = false) :
    (w.proceed tools processors i 0 ()).store = w.store := by
  cases htask : w.task i <;> simp only [Cluster.proceed, htask]
  case add => simp only [htask, isAdd, Bool.true_eq_false] at h
  all_goals repeat' split
  all_goals first
  | rfl
  | contradiction

theorem fit_of_new {w : Cluster chain} (h : w.store = .new .inMemory) (i : ℕ) :
    w.Fits .inMemory (.proceed i 0 ()) := by
  refine fun _ => ⟨⟨nofun, nofun, fun hload => ?_⟩, nofun⟩
  rw [h] at hload
  cases hload

/-- Steps that store nothing in a new store, and one more, fit. -/
theorem along_steps {n i : ℕ} {w : Cluster chain} (hstore : w.store = .new .inMemory)
    (h : ∀ k < n, isAdd (((Cluster.machine tools .inMemory processors).run w (steps i k)).task i) =
      false) :
    (Cluster.machine tools .inMemory processors).Along (Cluster.Fits .inMemory) w
      (steps i (n + 1)) := by
  induction n generalizing w with
  | zero => exact ⟨fit_of_new hstore i, trivial⟩
  | succ n ih =>
    refine ⟨fit_of_new hstore i, ih ?_ fun k hk => h (k + 1) (by omega)⟩
    exact (proceed_store (h 0 (by omega))).trans hstore

end ForksSample

open ForksSample NodeSample Sample in
/-- Without a lock, one processor reports the transaction as failed that the other one stored. -/
theorem Cluster.fork_freedom_counterexample :
    Node.genesis chain = .ok (Sample.start validators) ∧
      final.notices.map (·.message.value.txhash) = [txHash] ∧
      getHeightForTx final.store txHash = .ok (some 0) := by
  refine ⟨genesis_start validators_wellFormed, ?_⟩
  decide +kernel

open ForksSample NodeSample Sample in
/-- A processor that adds a transaction to a new store -/
theorem Cluster.fork_freedom_example :
    ForkFree (after 6) ∧ getHeightForTx (after 6).store txHash = .ok (some 0) := by
  refine ⟨(fork_freedom tools .inMemory processors (genesis_start validators_wellFormed)
    (.begin 0 tx :: steps 0 6) ⟨trivial, along_steps rfl ?_⟩).1, ?_⟩ <;> decide +kernel

end Kolme
