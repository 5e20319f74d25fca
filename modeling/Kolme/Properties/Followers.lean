import Kolme.Components.KolmeInner
import Kolme.Components.Processor
import Kolme.Properties.Reexecution
import Kolme.Store.Representation

/-!
# Nodes that follow a chain

A processor builds one block after another, each on the state that the last one led to. Another node
that has followed the chain so far and executes the next block accepts it, and comes to the same
state; so it accepts all blocks, whatever the outside world says to its apps, and can serve the
blocks and their states to others.
-/

namespace Kolme

open Exec
open Merkle (MerkleContents Sha256)

variable {app : App}

/-- The keys of a processor sign under their own names. -/
structure Processor.Signs (env : Externals) (node : Processor) : Prop where
  publicKey : ∀ {key secret}, node.secrets key = some secret → secret.publicKey = key
  validate : ∀ {key secret msg sig}, node.secrets key = some secret →
    secret.signRecoverable msg = .ok sig → sig.validate env msg = .ok secret.publicKey

/-- A node with the libraries and the code of the processors. -/
def ProcessorTools.node (tools : ProcessorTools app) (codeVersion : String) : KolmeTools app where
  env := tools.env
  codec := tools.codec
  codeVersion

/-! ## Blocks for a store -/

namespace Store

/-- Blocks that a store can take in this order: it tells each from the others and from those that
are stored, and their transactions are different ones. -/
structure Storable {β : Type} [MerkleHashed (StorableBlock β)] [Rendered β] (backend : Backend)
    (t : StoredBlocks β) (blocks : List (StorableBlock β)) : Prop where
  rendered : backend = .postgres → ∀ b ∈ blocks, ReadsBack b.block
  stored : ∀ b ∈ blocks, ∀ {h c}, t.blocks.get? h = some c →
    ¬Confuses backend c b ∧ c.txhash ≠ b.txhash
  distinct : blocks.Pairwise fun c b => ¬Confuses backend c b ∧ c.txhash ≠ b.txhash

namespace Storable

variable {β : Type} [MerkleHashed (StorableBlock β)] [Rendered β] {backend : Backend}
  {t : StoredBlocks β} {b : StorableBlock β} {blocks : List (StorableBlock β)}

theorem heightOf (storable : Storable backend t (b :: blocks)) : t.heightOf b.txhash = none :=
  StoredBlocks.heightOf_eq_none.mpr fun _ _ hget =>
    (storable.stored b (List.mem_cons_self ..) hget).2

theorem adds (storable : Storable backend t (b :: blocks)) (hfits : HeightFits backend b.height) :
    Adds backend t b where
  height := hfits
  rendered hbackend := storable.rendered hbackend b (List.mem_cons_self ..)
  distinct hget hconfuses :=
    absurd hconfuses (storable.stored b (List.mem_cons_self ..) hget).1
  new _ _ := storable.heightOf

theorem rest (storable : Storable backend t (b :: blocks)) (fresh : t.Fresh b)
    (archived : Option BlockHeight) :
    Storable backend { t.insert b fresh with latestArchived := archived } blocks where
  rendered hbackend c hc := storable.rendered hbackend c (List.mem_cons_of_mem _ hc)
  stored c hc h d hget := by
    rw [StoredBlocks.get?_insert] at hget
    split at hget
    · obtain rfl := Option.some.inj hget
      exact (List.pairwise_cons.mp storable.distinct).1 c hc
    · exact storable.stored c (List.mem_cons_of_mem _ hc) hget
  distinct := (List.pairwise_cons.mp storable.distinct).2

end Storable

end Store

section

variable [Sha256]

/-- The blocks that processors build, from one state to another. -/
inductive Built (tools : ProcessorTools app) (processors : ℕ → Processor) :
    BlockState app → List (ExecutedBlock app) → BlockState app → Prop
  | nil (kolme : BlockState app) : Built tools processors kolme [] kolme
  | cons {kolme last : BlockState app} {block : ExecutedBlock app}
    {blocks : List (ExecutedBlock app)} (i : ℕ)
    {stored : Except KolmeStoreError (Option BlockHeight)} {tx : SignedTransaction app.Message}
    {proposedHeight : BlockHeight} {now : Timestamp} {world : app.World}
    (constructed : (processors i).constructBlock tools kolme stored tx proposedHeight now world =
      .ok block)
    (rest : Built tools processors (.ofExecuted block) blocks last) :
    Built tools processors kolme (block :: blocks) last

/-! ## One block -/

variable {tools : ProcessorTools app} {self : Processor} {kolme : BlockState app}
  {stored : Except KolmeStoreError (Option BlockHeight)} {tx : SignedTransaction app.Message}
  {proposedHeight : BlockHeight} {now : Timestamp} {world again : app.World}
  {block : ExecutedBlock app} {validation : DataLoadValidation}

/-- What a processor builds: its results, put on top of the current block and signed. -/
theorem constructBlock_eq_ok
    (h : self.constructBlock tools kolme stored tx proposedHeight now world = .ok block) :
    ∃ secret results json sig,
      self.secrets kolme.processor = some secret ∧
      kolme.node.executeTransaction tools.env
        ⟨tx, now, .noPriorData, self.codeVersion, world⟩ = .ok results ∧
      results.height = proposedHeight ∧ tx.checkMaxHeight proposedHeight = .ok () ∧
      secret.signRecoverable (json : String).toByteArray = .ok sig ∧
      block = {
        signedBlock := ⟨⟨json, {
          tx
          timestamp := now
          processor := secret.publicKey
          height := proposedHeight
          parent := kolme.blockhash
          frameworkState := (tools.codec.frameworkState results.frameworkState).hash
          appState := (tools.codec.appState results.appState).hash
          logs := (tools.codec.logs results.logs).hash
          loads := results.loads }⟩, sig.sig, sig.recid⟩
        frameworkState := results.frameworkState
        appState := results.appState
        logs := results.logs } := by
  simp only [Processor.constructBlock, Except.bind_eq_ok] at h
  obtain ⟨secret, hsecret, found, -, h⟩ := h
  cases found with
  | some _ => cases h
  | none =>
    simp only [Processor.signBlock, TaggedJson.sign, Except.bind_eq_ok, Except.mapError_eq_ok,
      Except.ensure_eq_ok, Except.exists_unit] at h
    obtain ⟨results, hresults, hheight, hmax, json, -, signed, ⟨sig, hsig, hsigned⟩, h⟩ := h
    obtain rfl := Except.ok.inj hsigned
    obtain rfl := Except.ok.inj h
    refine ⟨secret, results, json, sig, ?_, hresults, hheight, hmax, hsig, rfl⟩
    unfold Processor.getCorrectSecret at hsecret
    split at hsecret
    · rename_i hfound
      exact Except.ok.inj hsecret ▸ hfound
    · cases hsecret

theorem executeBlock_of_constructBlock (signs : self.Signs tools.env)
    (same : app.Repeats validation world again)
    (h : self.constructBlock tools kolme stored tx proposedHeight now world = .ok block) :
    KolmeInner.executeBlock (tools.node self.codeVersion) kolme block.signedBlock validation again =
      .ok block := by
  obtain ⟨secret, results, json, sig, hsecret, hresults, hheight, hmax, hsig, rfl⟩ :=
    constructBlock_eq_ok h
  have hcalls : app.Only fun _ _ => True := fun _ _ _ => AppProgram.only_true _
  obtain ⟨_, _, -, -, -, -, hnext⟩ := Node.executeTransaction_eq_ok hcalls hresults
  have hagain := Node.executeTransaction_again rfl same hresults
  have hsigned : sig.validate tools.env json.toByteArray = .ok secret.publicKey :=
    signs.validate hsecret hsig
  simp only [KolmeInner.executeBlock, Except.bind_eq_ok, Except.ensure_eq_ok, Except.exists_unit,
    Except.mapError_eq_ok]
  refine ⟨hnext.symm.trans hheight, rfl, (signs.publicKey hsecret).symm, hmax, ?_, results, hagain,
    hheight, rfl, rfl⟩
  exact Except.bind_eq_ok.mpr ⟨secret.publicKey, hsigned, Except.ensure_of rfl _⟩

theorem height_of_constructBlock
    (h : self.constructBlock tools kolme stored tx proposedHeight now world = .ok block) :
    block.signedBlock.height = kolme.node.nextHeight := by
  obtain ⟨secret, results, json, sig, -, hresults, hheight, -, -, rfl⟩ := constructBlock_eq_ok h
  have hcalls : app.Only fun _ _ => True := fun _ _ _ => AppProgram.only_true _
  obtain ⟨_, _, -, -, -, -, hnext⟩ := Node.executeTransaction_eq_ok hcalls hresults
  exact hheight.symm.trans hnext

/-- The block names the hashes of its states. -/
theorem hashes_of_constructBlock
    (h : self.constructBlock tools kolme stored tx proposedHeight now world = .ok block) :
    (tools.codec.frameworkState block.frameworkState).hash =
        block.signedBlock.message.value.frameworkState ∧
      (tools.codec.appState block.appState).hash = block.signedBlock.message.value.appState ∧
      (tools.codec.logs block.logs).hash = block.signedBlock.message.value.logs := by
  obtain ⟨secret, results, json, sig, -, -, -, -, -, rfl⟩ := constructBlock_eq_ok h
  exact ⟨rfl, rfl, rfl⟩

end

section

variable [Sha256] [MerkleHashed (StorableBlock (SignedBlock app.Message))]
  [Rendered (SignedBlock app.Message)]

open Store

/-! ## Archiving -/

/-- A store up to a height, below which everything that was archived is. -/
structure KolmeStore.UpTo (backend : Backend) (store : KolmeStore (SignedBlock app.Message))
    (next : ℕ) (t : StoredBlocks (SignedBlock app.Message)) : Prop where
  holds : NodeHolds backend store t
  below : ∀ {h : ℕ} {b}, t.blocks.get? h = some b → h < next
  archived : ∀ {h : ℕ}, t.latestArchived = some h → h < next
  fits : HeightFits backend next

namespace KolmeInner

variable {backend : Backend} {self : KolmeInner app} {t : StoredBlocks (SignedBlock app.Message)}

omit [Sha256] in
theorem hasBlock_run {next h : ℕ} (upTo : self.store.UpTo backend next t) (hle : h ≤ next) :
    hasBlock h self = (.ok (t.blocks.contains h), self) := by
  have hfits : HeightFits backend h := fun hbackend => lt_of_le_of_lt hle (upTo.fits hbackend)
  have hfound : KolmeBackingStore.hasBlock self.store h = .ok (t.blocks.contains h) :=
    upTo.holds.shows.found hfits
  rw [hasBlock, get_bind, hfound]
  rfl

omit [Sha256] in
theorem archiveBlock_run {next h : ℕ} (upTo : self.store.UpTo backend next t) (hlt : h < next)
    (later : ∀ {h' : ℕ}, t.latestArchived = some h' → h' ≤ h) :
    ∃ store, archiveBlock h self = (.ok (), { self with store }) ∧
      store.UpTo backend next { t with latestArchived := some h } := by
  have hfits : HeightFits backend h := fun hbackend => hlt.trans (upTo.fits hbackend)
  obtain ⟨store, harchive, hholds⟩ :=
    upTo.holds.archive (h := h) ⟨hfits, fun _ _ hlatest => later hlatest⟩
  refine ⟨store, ?_, hholds, upTo.below, fun hlatest => ?_, upTo.fits⟩
  · rw [archiveBlock, harchive]
    rfl
  · exact Option.some.inj hlatest ▸ hlt

omit [Sha256] in
/-- The search ends above the last block, and has archived what it passed. -/
theorem archiveFrom_run (self : KolmeInner app) {stop next fuel : ℕ}
    (upTo : self.store.UpTo backend stop t)
    (hle : next ≤ stop) (hfuel : stop < next + fuel)
    (hnext : ∀ {h : ℕ}, t.latestArchived = some h → h < next) :
    ∃ found store archived, archiveFrom fuel next self = (.ok found, { self with store }) ∧
      t.blocks.contains found = false ∧
      store.UpTo backend stop { t with latestArchived := archived } := by
  induction fuel generalizing next self t with
  | zero => omega
  | succ fuel ih =>
    rw [archiveFrom, bind_of_ok (hasBlock_run upTo hle)]
    cases hfound : t.blocks.contains next with
    | false =>
      exact ⟨next, self.store, t.latestArchived, rfl, hfound, upTo⟩
    | true =>
      obtain ⟨b, hget⟩ := SortedMap.contains_iff.mp hfound
      have hlt : next < stop := upTo.below hget
      obtain ⟨store, harchive, upTo'⟩ :=
        archiveBlock_run upTo hlt fun hlatest => le_of_lt (hnext hlatest)
      obtain ⟨found, store', archived, hrun, hfree, upTo''⟩ :=
        ih { self with store } upTo' hlt (by omega) fun hlatest =>
          Option.some.inj hlatest ▸ Nat.lt_succ_self _
      refine ⟨found, store', archived, ?_, hfree, upTo''⟩
      exact (bind_of_ok harchive).trans hrun

omit [Sha256] in
theorem getNextToArchive_run (self : KolmeInner app) {n : ℕ}
    {b : StorableBlock (SignedBlock app.Message)}
    (upTo : self.store.UpTo backend (n + 1) t) (hget : t.blocks.get? n = some b) :
    ∃ found store archived, getNextToArchive self = (.ok found, { self with store }) ∧
      t.blocks.contains found = false ∧
      store.UpTo backend (n + 1) { t with latestArchived := archived } := by
  have harchived : KolmeBackingStore.getLatestArchivedBlockHeight self.store =
      .ok t.latestArchived := upTo.holds.shows.archived
  have hlast : t.blocks.last?.map Prod.fst = some n :=
    SortedMap.last?_key_eq_some.mpr ⟨⟨b, hget⟩, fun h c hc => Nat.lt_succ_iff.mp (upTo.below hc)⟩
  have hlatest : KolmeBackingStore.loadLatestBlock self.store = .ok (some n) :=
    upTo.holds.shows.latest.trans (congrArg _ hlast)
  have hrun : getNextToArchive self =
      archiveFrom (n + 2) (t.latestArchived.elim 0 (· + 1)) self := by
    rw [getNextToArchive, get_bind]
    refine (lift_bind (Except.mapError_eq_ok.mpr harchived)).trans ?_
    exact lift_bind (Except.mapError_eq_ok.mpr hlatest)
  rw [hrun]
  cases hfirst : t.latestArchived with
  | none =>
    exact archiveFrom_run self upTo (Nat.zero_le _) (by omega) fun h => nomatch hfirst.symm.trans h
  | some first =>
    have hle : first + 1 ≤ n + 1 := upTo.archived hfirst
    refine archiveFrom_run self upTo hle (Nat.lt_of_lt_of_le (Nat.lt_succ_self _)
      (Nat.le_add_left _ _)) fun h => ?_
    rw [hfirst] at h
    exact Option.some.inj h ▸ Nat.lt_succ_self _

/-! ## One block after another -/

/-- A node that has followed a chain up to a state: its store is that of the blocks so far. -/
structure InStep (backend : Backend) (node : KolmeInner app) (kolme : BlockState app)
    (t : StoredBlocks (SignedBlock app.Message)) : Prop where
  current : node.currentBlock = kolme
  upTo : node.store.UpTo backend kolme.node.nextHeight t

theorem updateCurrent_run (self : KolmeInner app) {n : ℕ}
    {b : StorableBlock (SignedBlock app.Message)}
    {block : ExecutedBlock app} (upTo : self.store.UpTo backend (n + 1) t)
    (hget : t.blocks.get? n = some b) (hheight : block.signedBlock.height = n)
    (hcurrent : self.currentBlock.node.nextHeight = n) :
    ∃ store archived, updateCurrent block self =
        (.ok (), { self with store, currentBlock := .ofExecuted block }) ∧
      store.UpTo backend (n + 1) { t with latestArchived := archived } := by
  obtain ⟨found, store, archived, hrun, hfree, upTo'⟩ :=
    getNextToArchive_run { self with currentBlock := .ofExecuted block } upTo hget
  have hother : found ≠ block.signedBlock.height := by
    rintro rfl
    rw [hheight, SortedMap.contains, hget] at hfree
    cases hfree
  refine ⟨store, archived, ?_, upTo'⟩
  rw [updateCurrent, get_bind, if_neg (by rw [hheight, hcurrent]; exact Nat.lt_irrefl n)]
  refine (bind_of_ok (a := ()) (modify_eq_ok.mpr rfl)).trans ((bind_of_ok hrun).trans ?_)
  exact congrFun (if_neg hother) _

omit [MerkleHashed (StorableBlock (SignedBlock app.Message))]
  [Rendered (SignedBlock app.Message)] in
/-- A state is saved under the hash that the block names. -/
theorem save_run {contents : MerkleContents} {hash : Sha256Hash} {text : String} {α : Type}
    {rest : Exec Failure (KolmeInner app) α} (hhash : contents.hash = hash) :
    (do
      let saved ← save contents
      Exec.ensure (saved = hash) (.other text)
      rest) self = rest { self with layers := self.layers.save contents } := by
  have hsave : save contents self =
      (.ok contents.hash, { self with layers := self.layers.save contents }) := rfl
  exact (bind_of_ok hsave).trans (ensure_bind hhash)

theorem storeBlock_run (self : KolmeInner app) {block : SignedBlock app.Message} {n : ℕ}
    (upTo : self.store.UpTo backend n t) (hheight : block.height = n)
    (adds : Adds backend t (.of block)) (hnew : t.heightOf block.tx.hash = none)
    (hfits : HeightFits backend (n + 1)) :
    ∃ store fresh, storeBlock block self = (.ok (), { self with store }) ∧
      store.UpTo backend (n + 1) (t.insert (.of block) fresh) := by
  have hfree : t.blocks.get? block.height = none := by
    refine Option.eq_none_iff_forall_ne_some.mpr fun b hget => ?_
    exact absurd (upTo.below hget) (by rw [hheight]; exact Nat.lt_irrefl n)
  have fresh : t.Fresh (.of block) := ⟨hfree, hnew⟩
  obtain ⟨store, hadd, holds⟩ := (upTo.holds.treats adds).fresh fresh
  refine ⟨store, fresh, ?_, holds, fun {h b} hget => ?_, fun hlatest => ?_, hfits⟩
  · change ((KolmeBackingStore.addBlock (StorableBlock.of block) self.store).1.mapError _,
      { self with store := (KolmeBackingStore.addBlock (StorableBlock.of block) self.store).2 }) = _
    rw [hadd]
    rfl
  · rw [StoredBlocks.get?_insert] at hget
    split at hget
    · rename_i hh
      have hn : h = n := hh.trans hheight
      omega
    · exact (upTo.below hget).trans (Nat.lt_succ_self n)
  · exact (upTo.archived hlatest).trans (Nat.lt_succ_self n)

/-- The layers with the states after a block. -/
def saved (codec : StateCodec app) (layers : MerkleLayers) (block : ExecutedBlock app) :
    MerkleLayers :=
  ((layers.save (codec.frameworkState block.frameworkState)).save
    (codec.appState block.appState)).save (codec.logs block.logs)

/-- The next block is stored with its states, and is the current one then. -/
theorem addExecutedBlock_run (tools : KolmeTools app) {block : ExecutedBlock app}
    {kolme : BlockState app} (inStep : self.InStep backend kolme t)
    (hheight : block.signedBlock.height = kolme.node.nextHeight)
    (hframework : (tools.codec.frameworkState block.frameworkState).hash =
      block.signedBlock.message.value.frameworkState)
    (happ : (tools.codec.appState block.appState).hash = block.signedBlock.message.value.appState)
    (hlogs : (tools.codec.logs block.logs).hash = block.signedBlock.message.value.logs)
    (adds : Adds backend t (.of block.signedBlock))
    (hnew : t.heightOf block.signedBlock.tx.hash = none)
    (hfits : HeightFits backend (BlockState.ofExecuted block).node.nextHeight) :
    ∃ node archived fresh, addExecutedBlock tools block self = (.ok (), node) ∧
      node.InStep backend (.ofExecuted block)
        { t.insert (.of block.signedBlock) fresh with latestArchived := archived } ∧
      node.layers = saved tools.codec self.layers block := by
  have hnext : (BlockState.ofExecuted block).node.nextHeight = kolme.node.nextHeight + 1 :=
    congrArg (· + 1) hheight
  rw [hnext] at hfits
  obtain ⟨store, fresh, hstore, upTo⟩ :=
    storeBlock_run { self with layers := saved tools.codec self.layers block } inStep.upTo
      hheight adds hnew hfits
  have hcurrent : self.currentBlock.node.nextHeight = kolme.node.nextHeight := by
    rw [inStep.current]
  obtain ⟨store', archived, hupdate, upTo'⟩ :=
    updateCurrent_run { self with store, layers := saved tools.codec self.layers block } upTo
      (StoredBlocks.get?_insert.trans (if_pos hheight.symm)) hheight hcurrent
  refine ⟨⟨store', saved tools.codec self.layers block, .ofExecuted block⟩, archived, fresh, ?_,
    ⟨rfl, ?_⟩, rfl⟩
  · rw [addExecutedBlock, save_run hframework, save_run happ, save_run hlogs]
    exact (bind_of_ok hstore).trans hupdate
  · rw [hnext]
    exact upTo'

end KolmeInner

/-! ## Layers stay -/

namespace MerkleLayers

omit [MerkleHashed (StorableBlock (SignedBlock app.Message))]
  [Rendered (SignedBlock app.Message)]

variable {layers : MerkleLayers}

mutual
theorem grows_save (layers : MerkleLayers) (contents : MerkleContents) :
    layers.Grows (layers.save contents) :=
  match contents with
  | .mk payload children => by
    rw [save]
    split
    · exact id
    · exact fun h => grows_insert _ _ (grows_saveAll layers children h)
termination_by structural contents

theorem grows_saveAll (layers : MerkleLayers) (children : List MerkleContents) :
    layers.Grows (layers.saveAll children) :=
  match children with
  | [] => id
  | child :: children => fun h =>
    grows_saveAll (layers.save child) children (grows_save layers child h)
termination_by structural children
end

theorem contains_save (layers : MerkleLayers) (contents : MerkleContents) :
    (layers.save contents).contains contents.hash = true := by
  cases contents with
  | mk payload children =>
    rw [save]
    split
    · assumption
    · exact contains_insert.mpr (.inl rfl)

end MerkleLayers

/-! ## A chain of blocks -/

/-- A block that is stored with its states. -/
structure KolmeInner.Serves (node : KolmeInner app) (block : SignedBlock app.Message) : Prop where
  stored : KolmeStore.loadBlock node.store block.height = .ok (some (.of block))
  frameworkState : node.hasMerkleHash block.message.value.frameworkState = true
  appState : node.hasMerkleHash block.message.value.appState = true
  logs : node.hasMerkleHash block.message.value.logs = true

section

variable {tools : ProcessorTools app} {processors : ℕ → Processor} {codeVersion : String}
  {validation : DataLoadValidation} {backend : Backend} {kolme last : BlockState app}
  {blocks : List (ExecutedBlock app)} {self node : KolmeInner app}
  {t : StoredBlocks (SignedBlock app.Message)}

omit [MerkleHashed (StorableBlock (SignedBlock app.Message))]
  [Rendered (SignedBlock app.Message)] in
theorem Built.nextHeight_le (built : Built tools processors kolme blocks last) :
    kolme.node.nextHeight ≤ last.node.nextHeight := by
  induction built with
  | nil kolme => exact le_rfl
  | cons i constructed rest ih =>
    refine le_trans ?_ ih
    exact (height_of_constructBlock constructed).symm ▸ Nat.le_succ _

omit [MerkleHashed (StorableBlock (SignedBlock app.Message))]
  [Rendered (SignedBlock app.Message)] in
theorem KolmeInner.grows_saved (codec : StateCodec app) (layers : MerkleLayers)
    (block : ExecutedBlock app) : layers.Grows (saved codec layers block) := fun h =>
  MerkleLayers.grows_save _ _ (MerkleLayers.grows_save _ _ (MerkleLayers.grows_save _ _ h))

omit [MerkleHashed (StorableBlock (SignedBlock app.Message))]
  [Rendered (SignedBlock app.Message)] in
theorem KolmeInner.contains_saved (codec : StateCodec app) (layers : MerkleLayers)
    (block : ExecutedBlock app) :
    (saved codec layers block).contains (codec.frameworkState block.frameworkState).hash = true ∧
      (saved codec layers block).contains (codec.appState block.appState).hash = true ∧
      (saved codec layers block).contains (codec.logs block.logs).hash = true :=
  ⟨MerkleLayers.grows_save _ _ (MerkleLayers.grows_save _ _ (MerkleLayers.contains_save _ _)),
    MerkleLayers.grows_save _ _ (MerkleLayers.contains_save _ _), MerkleLayers.contains_save _ _⟩

/-- The blocks and states of a node after the blocks of a chain. -/
structure KolmeInner.Extends (node : KolmeInner app) (t' : StoredBlocks (SignedBlock app.Message))
    (layers : MerkleLayers) (t : StoredBlocks (SignedBlock app.Message))
    (blocks : List (ExecutedBlock app)) : Prop where
  kept : ∀ {h b}, t.blocks.get? h = some b → t'.blocks.get? h = some b
  grows : layers.Grows node.layers
  stored : ∀ block ∈ blocks,
    t'.blocks.get? block.signedBlock.height = some (.of block.signedBlock)
  states : ∀ block ∈ blocks,
    node.hasMerkleHash block.signedBlock.message.value.frameworkState = true ∧
      node.hasMerkleHash block.signedBlock.message.value.appState = true ∧
      node.hasMerkleHash block.signedBlock.message.value.logs = true

theorem addBlocks_run (signs : ∀ i, (processors i).Signs tools.env)
    (version : ∀ i, (processors i).codeVersion = codeVersion)
    (same : ∀ world again, app.Repeats validation world again)
    (built : Built tools processors kolme blocks last) (inStep : self.InStep backend kolme t)
    (storable : Storable backend t (blocks.map fun block => .of block.signedBlock))
    (fits : HeightFits backend last.node.nextHeight) (world : ExecutedBlock app → app.World) :
    ∃ node t', Exec.forEach (fun block => KolmeInner.addBlockWith (tools.node codeVersion)
        block.signedBlock validation (world block)) blocks self = (.ok (), node) ∧
      node.InStep backend last t' ∧ node.Extends t' self.layers t blocks := by
  induction built generalizing self t with
  | nil kolme => exact ⟨self, t, rfl, inStep, id, id, List.forall_mem_nil _, List.forall_mem_nil _⟩
  | @cons kolme last block blocks i stored tx proposedHeight now producerWorld constructed rest ih =>
    have hexecute := executeBlock_of_constructBlock (signs i)
      (same producerWorld (world block)) constructed
    rw [version i, ← inStep.current] at hexecute
    obtain ⟨hframework, happ, hlogs⟩ := hashes_of_constructBlock constructed
    have hheight := height_of_constructBlock constructed
    have hfits : HeightFits backend (BlockState.ofExecuted block).node.nextHeight :=
      fun hbackend => lt_of_le_of_lt rest.nextHeight_le (fits hbackend)
    have hfits' : HeightFits backend (StorableBlock.of block.signedBlock).height :=
      fun hbackend => (Nat.lt_succ_self _).trans (hfits hbackend)
    obtain ⟨mid, archived, fresh, hadd, inStep', hlayers⟩ :=
      KolmeInner.addExecutedBlock_run (tools.node codeVersion) inStep hheight hframework
        happ hlogs (storable.adds hfits') storable.heightOf hfits
    obtain ⟨node, t', hrun, inStep'', extended⟩ := ih inStep' (storable.rest fresh archived) fits
    have hblock : KolmeInner.addBlockWith (tools.node codeVersion) block.signedBlock validation
        (world block) self = (.ok (), mid) := by
      rw [KolmeInner.addBlockWith, get_bind, lift_bind hexecute]
      exact hadd
    have hstates := KolmeInner.contains_saved tools.codec self.layers block
    rw [hframework, happ, hlogs] at hstates
    refine ⟨node, t', forEach_cons_eq_ok.mpr ⟨mid, hblock, hrun⟩, inStep'', ?_, ?_, ?_, ?_⟩
    · exact fun hget => extended.kept (StoredBlocks.get?_insert_of_some fresh hget)
    · exact fun h => extended.grows (hlayers ▸ KolmeInner.grows_saved _ _ block h)
    · rw [List.forall_mem_cons]
      have hget : (t.insert (.of block.signedBlock) fresh).blocks.get? block.signedBlock.height =
          some (.of block.signedBlock) := StoredBlocks.get?_insert.trans (if_pos rfl)
      exact ⟨extended.kept hget, extended.stored⟩
    · rw [List.forall_mem_cons]
      refine ⟨?_, extended.states⟩
      have hmid : ∀ {hash}, (KolmeInner.saved tools.codec self.layers block).contains hash = true →
          node.hasMerkleHash hash = true := fun h => extended.grows (hlayers ▸ h)
      exact ⟨hmid hstates.1, hmid hstates.2.1, hmid hstates.2.2⟩

/-- A node that is in step with a chain accepts its next blocks, is in step afterwards, and serves
them. -/
theorem blocks_accepted (signs : ∀ i, (processors i).Signs tools.env)
    (version : ∀ i, (processors i).codeVersion = codeVersion)
    (same : ∀ world again, app.Repeats validation world again)
    (built : Built tools processors kolme blocks last) (inStep : self.InStep backend kolme t)
    (storable : Storable backend t (blocks.map fun block => .of block.signedBlock))
    (fits : HeightFits backend last.node.nextHeight) (world : ExecutedBlock app → app.World) :
    ∃ node t', Exec.forEach (fun block => KolmeInner.addBlockWith (tools.node codeVersion)
        block.signedBlock validation (world block)) blocks self = (.ok (), node) ∧
      node.InStep backend last t' ∧ ∀ block ∈ blocks, node.Serves block.signedBlock := by
  obtain ⟨node, t', hrun, inStep', extended⟩ :=
    addBlocks_run signs version same built inStep storable fits world
  refine ⟨node, t', hrun, inStep', fun block hmem => ?_⟩
  have hget := extended.stored block hmem
  have hfits : HeightFits backend block.signedBlock.height :=
    fun hbackend => (inStep'.upTo.below hget).trans (inStep'.upTo.fits hbackend)
  obtain ⟨hframework, happ, hlogs⟩ := extended.states block hmem
  exact ⟨(inStep'.upTo.holds.shows.block hfits).trans (congrArg _ hget), hframework, happ, hlogs⟩

end

end

/-! ## A sample -/

namespace FollowSample

open Sample

/-- The only request there is. -/
def switchRequest (world : Bool) : DataRequest where
  request := "null"
  load := .ok (if world then "true" else "false")
  parseRequest text := if text = "null" then some true else none
  parseResponse text := if text = "true" ∨ text = "false" then some text else none
  validate _ := .ok ()

/-- An app that asks for the position of a switch and keeps it. -/
def switch : App where
  State := Bool
  Message := Unit
  World := Bool
  genesisInfo := info validators
  newState := .ok false
  execute world _ _ := .call (.loadData (switchRequest world)) fun reply _ =>
    match reply with
    | .ok (.data res) => .done (res = "true")
    | .ok _ => .fail .panic
    | .error e => .fail e

theorem switch_repeats (world again : Bool) : switch.Repeats .validateDataLoads world again := by
  intro view msg
  refine .load ⟨rfl, rfl, fun {res} h => ?_, fun _ _ => rfl⟩ (fun _ _ => trivial)
    fun res fs => .done _
  obtain rfl := Except.ok.inj h
  cases world <;> rfl

/-- The hash of the empty text -/
def emptyHash : Sha256Hash :=
  0xe3b0c44298fc1c149afbf4c8996fb92427ae41e4649b934ca495991b7852b855

/-- The states and the texts of blocks play no part. -/
scoped instance : Sha256 where
  hash bytes := if bytes = [] then emptyHash else 0

scoped instance : MerkleHashed (StorableBlock (SignedBlock switch.Message)) where
  contentHash b := b.blockhash

scoped instance : Rendered (SignedBlock switch.Message) where
  toText _ := ""
  fromText _ := none

/-- A block of the time zero -/
def blockJson (b : Block Unit) : String :=
  Json.object [("tx", Json.signed b.tx), ("timestamp", Json.string "1970-01-01T00:00:00Z"),
    ("processor", Json.publicKey b.processor), ("height", toString b.height),
    ("parent", Json.hash b.parent), ("framework_state", Json.hash b.frameworkState),
    ("app_state", Json.hash b.appState), ("logs", Json.hash b.logs),
    ("loads", Json.array (b.loads.map fun load => Json.object
      [("request", Json.string load.request), ("response", Json.string load.response)]))]

def aliceTx : SignedTx where
  tx := ⟨alice, 0, [.app ()], none⟩
  s := 0x3f938bbfc1d583366916514657f1015e7b8be157e25a28f084e4e1fff924a71c
  recoveryId := 1

/-- The block with Alice's transaction, when the switch is on. -/
def block : Block Unit where
  tx := aliceTx.text.tagged aliceTx.tx
  timestamp := 0
  processor := processor
  height := 1
  parent := 1
  frameworkState := emptyHash
  appState := emptyHash
  logs := emptyHash
  loads := [⟨"null", "true"⟩]

def blockText : SignedText where
  text := blockJson block
  signature := signature 0x438b785ddcb9c7ecbe2afc7ce8d83dd9e70bcff3642d6c3563542cae0ff723c5
  recoveryId := 1
  key := processor

def table : List SignedText := [aliceTx.text, blockText]

/-- The key of a text, as far as it signs that text. -/
def secret (t : SignedText) : SecretKey where
  publicKey := t.key
  signRecoverable msg :=
    if t.text.toByteArray = msg then .ok t.signatureWithRecovery else .error .invalidSignature

theorem secret_eq_ok {t : SignedText} {msg : ByteArray} {sig : SignatureWithRecovery} :
    (secret t).signRecoverable msg = .ok sig ↔
      t.text.toByteArray = msg ∧ t.signatureWithRecovery = sig := by
  dsimp only [secret]
  split <;> simp [*]

def node (_ : ℕ) : Processor where
  secrets key := if key = processor then some (secret blockText) else none
  codeVersion := "v1"

theorem recovers {t : SignedText} (hmem : t ∈ table) :
    t.signatureWithRecovery.validate (counterEnv table) t.text.toByteArray = .ok t.key := by
  have hdistinct : (table.map SignedText.signature).Nodup := by decide
  exact Except.fromOption_eq_ok.mpr (SignedText.recover_text hdistinct hmem)

theorem node_secrets {i : ℕ} {key : PublicKey} {s : SecretKey}
    (h : (node i).secrets key = some s) : processor = key ∧ secret blockText = s := by
  dsimp only [node] at h
  split at h
  · exact ⟨Eq.symm ‹_›, Option.some.inj h⟩
  · cases h

theorem node_signs (i : ℕ) : (node i).Signs (counterEnv table) where
  publicKey {key s} h := by
    obtain ⟨hkey, rfl⟩ := node_secrets h
    exact hkey
  validate {key s msg sig} h hsig := by
    obtain ⟨-, rfl⟩ := node_secrets h
    obtain ⟨rfl, rfl⟩ := secret_eq_ok.mp hsig
    exact recovers (List.mem_cons_of_mem _ (List.mem_singleton_self _))

def tools : ProcessorTools switch where
  env := counterEnv table
  codec := ⟨fun _ => .mk [] [], fun _ => .mk [] [], fun _ => .mk [] [], fun _ => .error .panic,
    fun _ => .error .panic⟩
  blockToJson b := .ok (blockJson b)
  failedToJson _ := .error .panic
  describe _ := .other "failed"

/-- The state after the first block. -/
def first : BlockState switch := ⟨1, ⟨FrameworkState.new (info validators), false, 1, []⟩⟩

def follower : KolmeInner switch := ⟨.new .inMemory, .empty, first⟩

def call : Call switch := ⟨aliceTx.text.tagged aliceTx.tx, 0, .noPriorData, "v1", true⟩

/-- The processor finds the switch on. -/
theorem exists_results : ∃ results,
    first.node.executeTransaction (counterEnv table) call = .ok results ∧
      (decide (results.loads = [⟨"null", "true"⟩]) && decide (results.height = 1)) = true := by
  have hsigned : Node.Signed (counterEnv table) call := recovers (List.mem_cons_self ..)
  have hstart : first.node.start (counterEnv table) call =
      first.node.startSigned (counterEnv table) call := by
    simp only [Node.start, Node.startSigned, Node.validateTx_of_signed _ hsigned]
  rw [Node.executeTransaction, hstart, ← Except.okWith_iff]
  decide +kernel

theorem exists_constructed : ∃ b : ExecutedBlock switch,
    (node 0).constructBlock tools first (.ok none) (aliceTx.text.tagged aliceTx.tx) 1 0 true =
      .ok b := by
  obtain ⟨results, hresults, hp⟩ := exists_results
  rw [Bool.and_eq_true, decide_eq_true_eq, decide_eq_true_eq] at hp
  obtain ⟨hloads, hheight⟩ := hp
  have hsecret : (node 0).getCorrectSecret first = .ok (secret blockText) := by rfl
  have hsign : (TaggedJson.mk blockText.text block).sign (secret blockText) =
      .ok ⟨⟨blockText.text, block⟩, blockText.signature, blockText.recoveryId⟩ :=
    Except.bind_eq_ok.mpr ⟨_, secret_eq_ok.mpr ⟨rfl, rfl⟩, rfl⟩
  refine ⟨⟨⟨⟨blockText.text, block⟩, blockText.signature, blockText.recoveryId⟩,
    results.frameworkState, results.appState, results.logs⟩, ?_⟩
  refine Except.bind_eq_ok.mpr ⟨secret blockText, hsecret, ?_⟩
  refine Except.bind_eq_ok.mpr ⟨none, rfl, ?_⟩
  refine Except.bind_eq_ok.mpr ⟨results, Except.mapError_eq_ok.mpr hresults, ?_⟩
  rw [Processor.signBlock, Except.ensure_of hheight, hloads]
  refine Except.bind_eq_ok.mpr ⟨(), rfl, Except.bind_eq_ok.mpr ⟨(), rfl, ?_⟩⟩
  refine Except.bind_eq_ok.mpr ⟨blockText.text, rfl, ?_⟩
  exact Except.bind_eq_ok.mpr ⟨_, Except.mapError_eq_ok.mpr hsign, rfl⟩

end FollowSample

open FollowSample in
/-- A follower that finds the switch off takes it for on, as the processor found it. -/
theorem blocks_accepted_example : ∃ b follower' t',
    (node 0).constructBlock tools first (.ok none) (aliceTx.text.tagged aliceTx.tx) 1 0 true =
      .ok b ∧
    Exec.forEach (fun block : ExecutedBlock switch => KolmeInner.addBlockWith (tools.node "v1")
      block.signedBlock .validateDataLoads false) [b] follower = (.ok (), follower') ∧
    follower'.InStep .inMemory (.ofExecuted b) t' ∧ ∀ b' ∈ [b], follower'.Serves b'.signedBlock := by
  obtain ⟨b, hb⟩ := exists_constructed
  have inStep : follower.InStep .inMemory first .empty :=
    ⟨rfl, .new .inMemory, nofun, nofun, nofun⟩
  have storable : Store.Storable .inMemory .empty [StorableBlock.of b.signedBlock] :=
    ⟨nofun, fun _ _ {_ _} hget => (nomatch hget), List.pairwise_singleton _ _⟩
  obtain ⟨follower', t', hrun⟩ := blocks_accepted node_signs (fun _ => rfl) switch_repeats
    (.cons 0 hb (.nil _)) inStep storable nofun fun _ => false
  exact ⟨b, follower', t', hb, hrun⟩

end Kolme
