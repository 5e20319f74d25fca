import Kolme.Store.Keyspace

/-!
# The keys of the Fjall store

The one partition answers as a map for each kind of key would, but for the latest block: a layer
whose hash starts with the bytes of `block:` is in the range that is searched for it, and hides the
blocks unless the number in the next eight bytes is below the height of one.
-/

namespace Kolme.Fjall

open Merkle (MerkleContents MerkleLayerContents MerkleSerialError Sha256 LayerStore)

/-- What is stored, with a map for each kind of key. -/
structure Stored where
  layers : MerkleLayers
  blocks : SortedMap BlockHeight Sha256Hash
  txs : SortedMap TxHash BlockHeight
  latestArchivedHeight : Option BlockHeight

section

variable {β : Type} [Sha256] (codec : BlockCodec β)

instance : LayerStore Stored where
  saveByHash t layer := .ok { t with layers := t.layers.insert layer.hash layer }
  loadByHash t hash := .ok (t.layers.get? hash)
  containsHash t hash := t.layers.contains hash

namespace Stored

omit [Sha256] in
def empty : Stored := ⟨∅, ∅, ∅, none⟩

def save (contents : MerkleContents) : Exec Error Stored Unit := do
  let t ← Exec.get
  let saved ← Exec.lift ((Merkle.saveMerkleContents t contents).mapError .merkle)
  Exec.modify fun _ => saved

def addContents (block : StorableBlock β) (contents : MerkleContents) :
    Option Sha256Hash → Exec Error Stored Unit
  | some existing =>
    if existing ≠ contents.hash then
      Exec.throw (.store (.conflictingBlockInDb block.height contents.hash existing))
    else
      Exec.throw (.store (.matchingBlockAlreadyInserted block.height))
  | none => do
    save contents
    Exec.modify fun t => { t with
      blocks := t.blocks.insert block.height contents.hash
      txs := t.txs.insert block.txhash block.height }

def addBlock (block : StorableBlock β) : Exec Error Stored Unit := do
  let contents ← Exec.lift ((codec.serialize block).mapError .merkle)
  let t ← Exec.get
  addContents block contents (t.blocks.get? block.height)

def addMerkleLayer (layer : MerkleLayerContents) : Exec Error Stored Unit :=
  Exec.modify fun t => { t with layers := t.layers.insert layer.hash layer }

omit [Sha256] in
def archiveBlock (height : BlockHeight) : Exec Error Stored Unit :=
  Exec.modify fun t => { t with latestArchivedHeight := some height }

def loadBlock (levels : ℕ) (t : Stored) (height : BlockHeight) :
    Except Error (Option (StorableBlock β)) :=
  match t.blocks.get? height with
  | none => .ok none
  | some hash => do
    let contents ← (Merkle.loadContents t levels hash).mapError .merkle
    let block ← (codec.deserialize contents).mapError .merkle
    return some block

end Stored

/-- What is written to a store. Heights are 64-bit numbers. -/
inductive Call (β : Type)
  | addBlock (block : StorableBlock β) (fits : block.height < 2 ^ 64)
  | addMerkleLayer (layer : MerkleLayerContents)
  | save (contents : MerkleContents)
  | archiveBlock (height : BlockHeight) (fits : height < 2 ^ 64)

def Call.write : Call β → Exec Error Handle Unit
  | addBlock block _ => Handle.addBlock codec block
  | addMerkleLayer layer => Handle.addMerkleLayer layer
  | save contents => Handle.save contents
  | archiveBlock height _ => Handle.archiveBlock height

def Call.record : Call β → Exec Error Stored Unit
  | addBlock block _ => Stored.addBlock codec block
  | addMerkleLayer layer => Stored.addMerkleLayer layer
  | save contents => Stored.save contents
  | archiveBlock height _ => Stored.archiveBlock height

/-- The partition after some calls, whether they succeed or fail. -/
def written (calls : List (Call β)) : Handle :=
  calls.foldl (fun handle call => (call.write codec handle).2) ∅

/-- What is stored after some calls. -/
def stored (calls : List (Call β)) : Stored :=
  calls.foldl (fun t call => (call.record codec t).2) .empty

/-! ## The entries of the partition -/

/-- The entries, by their kinds. -/
inductive Entry
  | block (height : Fin (2 ^ 64))
  | tx (txhash : TxHash)
  | payload (hash : Sha256Hash)
  | children (hash : Sha256Hash)
  | latestArchivedHeight
deriving DecidableEq

def Entry.key : Entry → ByteKey
  | block height => blockKey height.val
  | tx txhash => txKey txhash
  | payload hash => (Keys.fromHash hash).payload
  | children hash => (Keys.fromHash hash).children
  | latestArchivedHeight => latestArchivedHeightKey

def Stored.value (t : Stored) : Entry → Option Bytes
  | .block height => (t.blocks.get? height.val).map asArray
  | .tx txhash => (t.txs.get? txhash).map (Bytes.toBE 8)
  | .payload hash => (t.layers.get? hash).map (·.payload)
  | .children hash => (t.layers.get? hash).map fun layer => renderChildren layer.children
  | .latestArchivedHeight => t.latestArchivedHeight.map (Bytes.toBE 8)

section

variable {handle : Handle} {t : Stored} {e : Entry}

omit [Sha256]

@[simp] theorem length_asArray (hash : Sha256Hash) : (asArray hash).length = 32 :=
  Bytes.length_toBE 32 hash.val

theorem ofBE_asArray (hash : Sha256Hash) : Bytes.ofBE (asArray hash) = hash.val :=
  Bytes.ofBE_toBE (hash.isLt.trans_eq (by norm_num))

theorem asArray_injective : Function.Injective asArray := fun a b h =>
  Fin.ext (by rw [← ofBE_asArray, h, ofBE_asArray])

theorem ofBE_height {height : ℕ} (h : height < 2 ^ 64) : Bytes.ofBE (Bytes.toBE 8 height) = height :=
  Bytes.ofBE_toBE (h.trans_eq (by norm_num))

theorem fromHash_asArray (hash : Sha256Hash) : fromHash (asArray hash) = .ok hash := by
  rw [fromHash, dif_pos (length_asArray hash)]
  exact congrArg Except.ok (Fin.ext (ofBE_asArray hash))

/-- The length of a key tells the kinds apart, but for the two keys of a layer. -/
def Entry.keyLength : Entry → ℕ
  | block _ => 14
  | tx _ => 35
  | payload _ | children _ => 33
  | latestArchivedHeight => 6

theorem Entry.length_key (e : Entry) : e.key.bytes.length = e.keyLength := by
  cases e with
  | block height => simp [key, blockKey, blockPrefix, keyLength]
  | tx txhash => simp [key, txKey, txPrefix, keyLength]
  | payload hash => simp [key, Keys.fromHash, keyLength]
  | children hash => simp [key, Keys.fromHash, keyLength]
  | latestArchivedHeight => rfl

theorem Entry.key_injective : Function.Injective Entry.key := by
  intro e e' h
  have hbytes := congrArg ByteKey.bytes h
  have hlength := congrArg List.length hbytes
  rw [length_key, length_key] at hlength
  cases e <;> cases e' <;> cases hlength
  case block.block height height' =>
    have hheight := List.append_cancel_left hbytes
    have hval : height.val = height'.val := by
      rw [← ofBE_height height.isLt, hheight, ofBE_height height'.isLt]
    rw [Fin.ext hval]
  case tx.tx txhash txhash' => rw [asArray_injective (List.append_cancel_left hbytes)]
  case payload.payload hash hash' => rw [asArray_injective (List.append_cancel_right hbytes)]
  case payload.children hash hash' => exact absurd (List.append_inj' hbytes rfl).2 (by decide)
  case children.payload hash hash' => exact absurd (List.append_inj' hbytes rfl).2 (by decide)
  case children.children hash hash' => rw [asArray_injective (List.append_cancel_right hbytes)]
  case latestArchivedHeight.latestArchivedHeight => rfl

/-- A partition has just these values of entries. -/
structure Shows (handle : Handle) (value : Entry → Option Bytes) : Prop where
  value : ∀ e, handle.get? e.key = value e
  only : ∀ {k v}, handle.get? k = some v → ∃ e, Entry.key e = k

theorem Shows.insert {value : Entry → Option Bytes} (shows : Shows handle value) (e : Entry)
    (v : Bytes) : Shows (handle.insert e.key v) (Function.update value e (some v)) where
  value e' := by
    rw [SortedMap.get?_insert, Function.update_apply]
    by_cases h : e' = e
    · rw [if_pos h, if_pos (congrArg Entry.key h)]
    · rw [if_neg h, if_neg fun hkey => h (Entry.key_injective hkey), shows.value]
  only {k v'} hget := by
    rw [SortedMap.get?_insert] at hget
    split at hget
    · exact ⟨e, Eq.symm ‹k = e.key›⟩
    · exact shows.only hget

/-- A partition holds what is stored, with heights that fit their keys. -/
structure Holds (handle : Handle) (t : Stored) : Prop where
  shows : Shows handle t.value
  block_lt : ∀ {height hash}, t.blocks.get? height = some hash → height < 2 ^ 64
  tx_lt : ∀ {txhash height}, t.txs.get? txhash = some height → height < 2 ^ 64
  archived_lt : ∀ {height}, t.latestArchivedHeight = some height → height < 2 ^ 64

/-! ## Reading the entries -/

theorem hashesFrom_render (children : List Sha256Hash) :
    hashesFrom children.length (renderChildren children) = children := by
  induction children with
  | nil => rfl
  | cons child children ih =>
    have htake : (renderChildren (child :: children)).take 32 = asArray child :=
      List.take_left' (length_asArray child)
    have hdrop : (renderChildren (child :: children)).drop 32 = renderChildren children :=
      List.drop_left' (length_asArray child)
    rw [List.length_cons, hashesFrom, htake, hdrop, ih, ofBE_asArray, Fin.ofNat_val_eq_self]

theorem length_renderChildren (children : List Sha256Hash) :
    (renderChildren children).length = children.length * 32 := by
  induction children with
  | nil => rfl
  | cons child children ih =>
    rw [renderChildren, List.flatMap_cons, List.length_append, length_asArray, ← renderChildren,
      ih, List.length_cons]
    ring

theorem parseChildren_render (children : List Sha256Hash) :
    parseChildren (renderChildren children) = .ok children := by
  rw [parseChildren, length_renderChildren, Nat.mul_mod_left, Nat.mul_div_cancel _ (by decide),
    hashesFrom_render]
  rfl

theorem Holds.empty : Holds ∅ .empty := by
  refine ⟨⟨fun e => ?_, nofun⟩, nofun, nofun, nofun⟩
  cases e <;> rfl

variable (holds : Holds handle t)

include holds

theorem Holds.block {height : BlockHeight} (fits : height < 2 ^ 64) :
    handle.get? (blockKey height) = (t.blocks.get? height).map asArray :=
  holds.shows.value (.block ⟨height, fits⟩)

theorem Holds.getHeightForTx (txhash : TxHash) :
    handle.getHeightForTx txhash = .ok (t.txs.get? txhash) := by
  have hvalue := holds.shows.value (.tx txhash)
  rw [Handle.getHeightForTx, show handle.get? (txKey txhash) = _ from hvalue, Stored.value]
  cases hget : t.txs.get? txhash with
  | none => rfl
  | some height =>
    simp only [Option.map_some, Bytes.length_toBE, ofBE_height (holds.tx_lt hget)]
    rfl

theorem Holds.getLatestArchivedBlockHeight :
    handle.getLatestArchivedBlockHeight = .ok t.latestArchivedHeight := by
  have hvalue := holds.shows.value .latestArchivedHeight
  rw [Handle.getLatestArchivedBlockHeight,
    show handle.get? latestArchivedHeightKey = _ from hvalue, Stored.value]
  cases hget : t.latestArchivedHeight with
  | none => rfl
  | some height =>
    simp only [Option.map_some, Bytes.length_toBE,
      List.take_of_length_le (Bytes.length_toBE 8 height).le,
      ofBE_height (holds.archived_lt hget)]
    rfl

theorem Holds.loadByHash [Sha256] (hash : Sha256Hash) :
    LayerStore.loadByHash handle hash = LayerStore.loadByHash t hash := by
  have hpayload := holds.shows.value (.payload hash)
  have hchildren := holds.shows.value (.children hash)
  simp only [LayerStore.loadByHash]
  rw [show handle.get? (Keys.fromHash hash).payload = _ from hpayload,
    show handle.get? (Keys.fromHash hash).children = _ from hchildren, Stored.value, Stored.value]
  cases hget : t.layers.get? hash with
  | none => rfl
  | some layer =>
    simp only [Option.map_some, parseChildren_render]
    rfl

theorem Holds.containsHash [Sha256] (hash : Sha256Hash) :
    LayerStore.containsHash handle hash = LayerStore.containsHash t hash := by
  have hpayload := holds.shows.value (.payload hash)
  have hchildren := holds.shows.value (.children hash)
  simp only [LayerStore.containsHash, SortedMap.contains]
  rw [show handle.get? (Keys.fromHash hash).payload = _ from hpayload,
    show handle.get? (Keys.fromHash hash).children = _ from hchildren, Stored.value, Stored.value]
  cases t.layers.get? hash <;> rfl

omit holds

/-! ## Writing the entries -/

theorem Stored.value_insertLayer (t : Stored) (hash : Sha256Hash) (layer : MerkleLayerContents) :
    { t with layers := t.layers.insert hash layer : Stored }.value =
      Function.update (Function.update t.value (.payload hash) (some layer.payload))
        (.children hash) (some (renderChildren layer.children)) := by
  funext e
  cases e with
  | payload hash' =>
    by_cases h : hash' = hash <;> simp [Stored.value, SortedMap.get?_insert, h]
  | children hash' =>
    by_cases h : hash' = hash <;> simp [Stored.value, SortedMap.get?_insert, h]
  | _ => rfl

theorem Stored.value_insertBlock (t : Stored) (height : BlockHeight) (fits : height < 2 ^ 64)
    (hash : Sha256Hash) (txhash : TxHash) :
    { t with blocks := t.blocks.insert height hash, txs := t.txs.insert txhash height :
        Stored }.value =
      Function.update (Function.update t.value (.block ⟨height, fits⟩) (some (asArray hash)))
        (.tx txhash) (some (Bytes.toBE 8 height)) := by
  funext e
  cases e with
  | block height' =>
    by_cases h : height'.val = height <;>
      simp [Stored.value, Function.update_apply, SortedMap.get?_insert, Fin.ext_iff, h]
  | tx txhash' =>
    by_cases h : txhash' = txhash <;>
      simp [Stored.value, SortedMap.get?_insert, h]
  | _ => rfl

theorem Stored.value_archive (t : Stored) (height : BlockHeight) :
    { t with latestArchivedHeight := some height : Stored }.value =
      Function.update t.value .latestArchivedHeight (some (Bytes.toBE 8 height)) := by
  funext e
  cases e <;> rfl

theorem Holds.saveByHash [Sha256] {t' : Stored} {layer : MerkleLayerContents}
    (holds : Holds handle t) (h : LayerStore.saveByHash t layer = .ok t') :
    ∃ handle', LayerStore.saveByHash handle layer = .ok handle' ∧ Holds handle' t' := by
  obtain rfl := Except.ok.inj h
  refine ⟨_, rfl, ?_, holds.block_lt, holds.tx_lt, holds.archived_lt⟩
  rw [Stored.value_insertLayer]
  exact (holds.shows.insert (.payload layer.hash) layer.payload).insert (.children layer.hash)
    (renderChildren layer.children)

theorem holds_simulates [Sha256] : Merkle.Simulates Holds where
  contains hash holds := holds.containsHash hash
  load hash holds := holds.loadByHash hash
  save := Holds.saveByHash

end

/-! ## Calls -/

section

variable {handle : Handle} {t : Stored}

theorem Stored.steps_ok (saving : Merkle.Saving Stored) (n : ℕ) : ∃ last, saving.steps n = .ok last := by
  induction n generalizing saving with
  | zero => exact ⟨saving, rfl⟩
  | succ n ih =>
    have hstep : ∃ next, saving.step = .ok next := by
      obtain ⟨t, work, saved⟩ := saving
      match work with
      | [] => exact ⟨_, rfl⟩
      | ⟨contents, true⟩ :: work => exact ⟨_, rfl⟩
      | ⟨contents, false⟩ :: work =>
        simp only [Merkle.Saving.step]
        split
        · exact ⟨_, rfl⟩
        · exact ⟨_, rfl⟩
    obtain ⟨next, hstep⟩ := hstep
    obtain ⟨last, hlast⟩ := ih next
    exact ⟨last, by rw [Merkle.Saving.steps, hstep]; exact hlast⟩

theorem Stored.saveMerkleContents_ok (t : Stored) (contents : MerkleContents) :
    ∃ t', Merkle.saveMerkleContents t contents = .ok t' := by
  rw [Merkle.saveMerkleContents]
  split
  · exact ⟨t, rfl⟩
  · obtain ⟨last, hlast⟩ := steps_ok (.start t contents) contents.turns
    exact ⟨last.store, by rw [hlast]; rfl⟩

theorem Stored.save_keeps {saving last : Merkle.Saving Stored} {n : ℕ}
    (h : saving.steps n = .ok last) : last.store.blocks = saving.store.blocks ∧
      last.store.txs = saving.store.txs := by
  refine Merkle.Saving.steps_induction (P := fun s => s.store.blocks = saving.store.blocks ∧
    s.store.txs = saving.store.txs) (fun {self next} hself hstep => ?_) ⟨rfl, rfl⟩ h
  obtain ⟨t, work, saved⟩ := self
  match work with
  | [] => exact Except.ok.inj hstep ▸ hself
  | ⟨contents, true⟩ :: work => exact Except.ok.inj hstep ▸ hself
  | ⟨contents, false⟩ :: work =>
    simp only [Merkle.Saving.step] at hstep
    split at hstep
    · exact Except.ok.inj hstep ▸ hself
    · exact Except.ok.inj hstep ▸ hself

/-- The partition answers a call as the separate maps do, and still holds what is stored. -/
structure Agrees (handle : Handle) (t : Stored) (write : Exec Error Handle Unit)
    (record : Exec Error Stored Unit) : Prop where
  answer : (write handle).1 = (record t).1
  holds : Holds (write handle).2 (record t).2

theorem Holds.save (holds : Holds handle t) (contents : MerkleContents) :
    ∃ handle' t', Handle.save contents handle = (.ok (), handle') ∧
      Stored.save contents t = (.ok (), t') ∧ Holds handle' t' ∧ t'.blocks = t.blocks := by
  obtain ⟨t', hsave⟩ := t.saveMerkleContents_ok contents
  obtain ⟨handle', hsave', holds'⟩ := holds_simulates.saveMerkleContents holds hsave
  refine ⟨handle', t', ?_, ?_, holds', ?_⟩
  · rw [Handle.save, Exec.get_bind, hsave']
    rfl
  · rw [Stored.save, Exec.get_bind, hsave]
    rfl
  · rw [Merkle.saveMerkleContents] at hsave
    split at hsave
    · rw [Except.ok.inj hsave]
    · obtain ⟨last, hsteps, hlast⟩ := Except.bind_eq_ok.mp hsave
      rw [← Except.ok.inj hlast]
      exact (Stored.save_keeps hsteps).1

omit [Sha256] in
theorem Holds.insertBlock (holds : Holds handle t) {height : BlockHeight} (fits : height < 2 ^ 64)
    (hash : Sha256Hash) (txhash : TxHash) :
    Holds ((handle.insert (blockKey height) (asArray hash)).insert (txKey txhash)
        (Bytes.toBE 8 height))
      { t with blocks := t.blocks.insert height hash, txs := t.txs.insert txhash height } where
  shows := by
    rw [Stored.value_insertBlock t height fits]
    exact (holds.shows.insert (.block ⟨height, fits⟩) (asArray hash)).insert (.tx txhash)
      (Bytes.toBE 8 height)
  block_lt {height' hash'} hget := by
    rw [SortedMap.get?_insert] at hget
    split at hget
    · exact ‹height' = height› ▸ fits
    · exact holds.block_lt hget
  tx_lt {txhash' height'} hget := by
    rw [SortedMap.get?_insert] at hget
    split at hget
    · exact Option.some.inj hget ▸ fits
    · exact holds.tx_lt hget
  archived_lt := holds.archived_lt

theorem Holds.addBlock (holds : Holds handle t) (block : StorableBlock β)
    (fits : block.height < 2 ^ 64) :
    Agrees handle t (Handle.addBlock codec block) (Stored.addBlock codec block) := by
  have hblock := holds.block fits
  cases hcontents : codec.serialize block with
  | error e =>
    have hwrite : Handle.addBlock codec block handle = (.error (.merkle e), handle) := by
      rw [Handle.addBlock, hcontents]
      rfl
    have hrecord : Stored.addBlock codec block t = (.error (.merkle e), t) := by
      rw [Stored.addBlock, hcontents]
      rfl
    exact ⟨by rw [hwrite, hrecord], by rwa [hwrite, hrecord]⟩
  | ok contents =>
    have hwrite : Handle.addBlock codec block handle =
        Handle.addContents block contents (handle.get? (blockKey block.height)) handle := by
      rw [Handle.addBlock, hcontents]
      rfl
    have hrecord : Stored.addBlock codec block t =
        Stored.addContents block contents (t.blocks.get? block.height) t := by
      rw [Stored.addBlock, hcontents]
      rfl
    rw [hblock] at hwrite
    have agrees : Agrees handle t
        (Handle.addContents block contents ((t.blocks.get? block.height).map asArray))
        (Stored.addContents block contents (t.blocks.get? block.height)) := by
      cases t.blocks.get? block.height with
      | some existing =>
        rw [Option.map_some, Handle.addContents, Stored.addContents, fromHash_asArray]
        by_cases h : existing = contents.hash
        · rw [if_neg (not_not.mpr h), if_neg (not_not.mpr (congrArg asArray h))]
          exact ⟨rfl, holds⟩
        · rw [if_pos h, if_pos fun he => h (asArray_injective he)]
          exact ⟨rfl, holds⟩
      | none =>
        obtain ⟨handle', t', hsave, hsave', holds', -⟩ := holds.save contents
        have hinsert := holds'.insertBlock fits contents.hash block.txhash
        rw [Option.map_none, Handle.addContents, Stored.addContents]
        constructor
        · rw [Exec.bind_of_ok hsave, Exec.bind_of_ok hsave']
          rfl
        · rw [Exec.bind_of_ok hsave, Exec.bind_of_ok hsave']
          exact hinsert
    exact ⟨by rw [hwrite, hrecord]; exact agrees.answer, by rw [hwrite, hrecord]; exact agrees.holds⟩

theorem Call.agrees (holds : Holds handle t) (call : Call β) :
    Agrees handle t (call.write codec) (call.record codec) := by
  cases call with
  | addBlock block fits => exact holds.addBlock codec block fits
  | addMerkleLayer layer =>
    have hlayer : LayerStore.saveByHash t layer =
        .ok { t with layers := t.layers.insert layer.hash layer } := rfl
    obtain ⟨handle', hsave, holds'⟩ := holds.saveByHash hlayer
    obtain rfl := Except.ok.inj hsave
    exact ⟨rfl, holds'⟩
  | save contents =>
    obtain ⟨handle', t', hsave, hsave', holds', -⟩ := holds.save contents
    refine ⟨?_, ?_⟩
    · rw [write, record, hsave, hsave']
    · rw [write, record, hsave, hsave']
      exact holds'
  | archiveBlock height fits =>
    refine ⟨rfl, ?_, holds.block_lt, holds.tx_lt, fun h => Option.some.inj h ▸ fits⟩
    rw [show (record codec (archiveBlock height fits) t).2.value = _ from t.value_archive height]
    exact holds.shows.insert .latestArchivedHeight (Bytes.toBE 8 height)

/-- The partition holds what is stored after any calls. -/
theorem holds_written (calls : List (Call β)) :
    Holds (written codec calls) (stored codec calls) := by
  suffices h : ∀ handle t, Holds handle t →
      Holds (calls.foldl (fun handle call => (call.write codec handle).2) handle)
        (calls.foldl (fun t call => (call.record codec t).2) t) from h ∅ .empty .empty
  induction calls with
  | nil => exact fun _ _ holds => holds
  | cons call calls ih => exact fun handle t holds => ih _ _ (call.agrees codec holds).holds

/-! ## The latest block -/

omit [Sha256]

theorem blockKey_lt {height height' : ℕ} (h : height < 2 ^ 64) (h' : height' < 2 ^ 64) :
    blockKey height < blockKey height' ↔ height < height' := by
  rw [← ofBE_height h, ← ofBE_height h']
  refine (ByteKey.append_lt_append _ _ _).trans ?_
  rw [ofBE_height h, ofBE_height h']
  have hlength : (Bytes.toBE 8 height).length = (Bytes.toBE 8 height').length := by
    rw [Bytes.length_toBE, Bytes.length_toBE]
  have hlt := ByteKey.append_lt [] hlength
  rwa [List.append_nil, ofBE_height h, ofBE_height h'] at hlt

/-- A key with more than eight bytes after `block:` is before the keys of the heights above the
number in these eight bytes. -/
theorem lt_blockKey {rest : Bytes} {height : ℕ} (hlength : 8 ≤ rest.length) (h : height < 2 ^ 64) :
    (⟨blockPrefix ++ rest⟩ : ByteKey) < blockKey height ↔ Bytes.ofBE (rest.take 8) < height := by
  refine (ByteKey.append_lt_append _ _ _).trans ?_
  have htake : (rest.take 8).length = (Bytes.toBE 8 height).length := by
    rw [List.length_take_of_le hlength, Bytes.length_toBE]
  have hlt := ByteKey.append_lt (rest.drop 8) htake
  rwa [List.take_append_drop, ofBE_height h] at hlt

/-- The stored layers whose hashes start with `block:`, by the rest of the hash. -/
def Stored.LayerAt (t : Stored) (rest : Bytes) : Prop :=
  ∃ hash, t.layers.contains hash = true ∧ asArray hash = blockPrefix ++ rest

/-- Where the hash of a stored layer starts with `block:`, the number in its next eight bytes is
below the height of a stored block. -/
def Stored.Separated (t : Stored) : Prop :=
  ∀ rest, t.LayerAt rest → ∃ height, t.blocks.contains height = true ∧
    Bytes.ofBE (rest.take 8) < height

theorem Stored.LayerAt.length {rest : Bytes} (h : t.LayerAt rest) : rest.length = 26 := by
  obtain ⟨hash, -, harray⟩ := h
  have hlength := congrArg List.length harray
  rw [length_asArray, List.length_append] at hlength
  exact (Nat.add_left_cancel hlength).symm

/-- The entries in the range of the blocks. -/
theorem Entry.inRange {e : Entry} {v : Bytes} (hstarts : blockPrefix <+: e.key.bytes)
    (hvalue : t.value e = some v) :
    (∃ height, e = .block height ∧ t.blocks.contains height.val = true) ∨
      ∃ rest last, t.LayerAt rest ∧ e.key = ⟨blockPrefix ++ (rest ++ [last])⟩ := by
  have hlayer : ∀ {hash : Sha256Hash} {last : UInt8}, blockPrefix <+: asArray hash ++ [last] →
      t.layers.contains hash = true → ∃ rest, t.LayerAt rest ∧
        asArray hash ++ [last] = blockPrefix ++ (rest ++ [last]) := by
    intro hash last hstart hcontains
    obtain ⟨rest, hrest⟩ := List.prefix_of_prefix_length_le hstart (List.prefix_append _ _)
      (by rw [length_asArray]; decide)
    exact ⟨rest, ⟨hash, hcontains, hrest.symm⟩, by rw [← hrest, List.append_assoc]⟩
  cases e with
  | block height =>
    obtain ⟨hash, hget, -⟩ := Option.map_eq_some_iff.mp hvalue
    exact .inl ⟨height, rfl, SortedMap.contains_iff.mpr ⟨hash, hget⟩⟩
  | tx txhash => exact absurd hstarts (by simp [key, txKey, txPrefix, blockPrefix])
  | payload hash =>
    obtain ⟨layer, hget, -⟩ := Option.map_eq_some_iff.mp hvalue
    obtain ⟨rest, hat, hkey⟩ := hlayer hstarts (SortedMap.contains_iff.mpr ⟨layer, hget⟩)
    exact .inr ⟨rest, 112, hat, ByteKey.ext hkey⟩
  | children hash =>
    obtain ⟨layer, hget, -⟩ := Option.map_eq_some_iff.mp hvalue
    obtain ⟨rest, hat, hkey⟩ := hlayer hstarts (SortedMap.contains_iff.mpr ⟨layer, hget⟩)
    exact .inr ⟨rest, 99, hat, ByteKey.ext hkey⟩
  | latestArchivedHeight => exact absurd hstarts (by decide)

/-- What the range of the blocks holds. -/
theorem get?_startingWith {k : ByteKey} {v : Bytes} :
    (handle.startingWith blockPrefix).get? k = some v ↔
      blockPrefix <+: k.bytes ∧ handle.get? k = some v := by
  rw [Handle.startingWith, SortedMap.get?_filter, ← List.isPrefixOf_iff_prefix]
  by_cases h : blockPrefix.isPrefixOf k.bytes = true <;> simp [h]

theorem Holds.inRange (holds : Holds handle t) {k : ByteKey} {v : Bytes}
    (h : (handle.startingWith blockPrefix).get? k = some v) :
    (∃ height, height < 2 ^ 64 ∧ k = blockKey height ∧ t.blocks.contains height = true) ∨
      ∃ rest last, t.LayerAt rest ∧ k = ⟨blockPrefix ++ (rest ++ [last])⟩ := by
  obtain ⟨hstarts, hget⟩ := get?_startingWith.mp h
  obtain ⟨e, rfl⟩ := holds.shows.only hget
  rw [holds.shows.value] at hget
  rcases Entry.inRange hstarts hget with ⟨height, rfl, hcontains⟩ | hlayer
  · exact .inl ⟨height.val, height.isLt, rfl, hcontains⟩
  · exact .inr hlayer

/-- The last key of the range is that of the latest block. -/
theorem Holds.last (holds : Holds handle t) (separated : t.Separated) :
    (handle.startingWith blockPrefix).last?.map Prod.fst =
      (t.blocks.last?.map Prod.fst).map blockKey := by
  cases hlast : t.blocks.last? with
  | none =>
    have absent := SortedMap.last?_eq_none.mp hlast
    have hempty : ∀ height, t.blocks.contains height ≠ true := fun height hcontains => by
      obtain ⟨hash, hget⟩ := SortedMap.contains_iff.mp hcontains
      exact nomatch (absent height).symm.trans hget
    refine SortedMap.last?_key_eq_none.mpr fun k => Option.eq_none_iff_forall_ne_some.mpr ?_
    intro v hget
    rcases holds.inRange hget with ⟨height, -, -, hcontains⟩ | ⟨rest, last, hat, -⟩
    · exact hempty height hcontains
    · obtain ⟨height, hcontains, -⟩ := separated rest hat
      exact hempty height hcontains
  | some entry =>
    obtain ⟨height, hash⟩ := entry
    obtain ⟨hget, hle⟩ := SortedMap.last?_spec hlast
    have fits := holds.block_lt hget
    refine SortedMap.last?_key_eq_some.mpr ⟨⟨asArray hash, ?_⟩, fun k v hk => ?_⟩
    · refine get?_startingWith.mpr ⟨List.prefix_append _ _, ?_⟩
      rw [holds.block fits, hget, Option.map_some]
    · rcases holds.inRange hk with ⟨height', fits', rfl, hcontains⟩ | ⟨rest, last, hat, rfl⟩
      · obtain ⟨hash', hget'⟩ := SortedMap.contains_iff.mp hcontains
        exact not_lt.mp fun hlt => not_lt.mpr (hle _ _ hget') ((blockKey_lt fits fits').mp hlt)
      · obtain ⟨height', hcontains, hlt⟩ := separated rest hat
        obtain ⟨hash', hget'⟩ := SortedMap.contains_iff.mp hcontains
        have hrest := hat.length
        refine ((lt_blockKey (by simp [hrest]) fits).mpr ?_).le
        rw [List.take_append_of_le_length (by omega)]
        exact hlt.trans_le (hle _ _ hget')

theorem Holds.latest (holds : Holds handle t) (separated : t.Separated) :
    handle.loadLatestBlock = .ok (t.blocks.last?.map Prod.fst) := by
  have hkey := holds.last separated
  rw [Handle.loadLatestBlock]
  cases hlast : t.blocks.last? with
  | none =>
    rw [hlast, Option.map_none, Option.map_none, Option.map_eq_none_iff] at hkey
    rw [hkey]
    rfl
  | some entry =>
    obtain ⟨height, hash⟩ := entry
    have fits := holds.block_lt (SortedMap.last?_spec hlast).1
    rw [hlast] at hkey
    obtain ⟨⟨k, v⟩, hk, rfl⟩ := Option.map_eq_some_iff.mp hkey
    rw [hk]
    have hdrop : (blockKey height).bytes.drop blockPrefix.length = Bytes.toBE 8 height :=
      List.drop_left' rfl
    have hstart : blockPrefix.isPrefixOf (blockKey height).bytes = true :=
      List.isPrefixOf_iff_prefix.mpr (List.prefix_append _ _)
    simp only [hdrop, hstart, Bytes.length_toBE, ofBE_height fits]
    rfl

theorem Holds.separated (holds : Holds handle t) {latest : Option BlockHeight}
    (h : handle.loadLatestBlock = .ok latest) : t.Separated := by
  intro rest hat
  obtain ⟨hash, hcontains, harray⟩ := hat
  obtain ⟨layer, hget⟩ := SortedMap.contains_iff.mp hcontains
  have hpayload := holds.shows.value (.payload hash)
  rw [Stored.value, hget, Option.map_some] at hpayload
  have hkey : (Entry.payload hash).key = ⟨blockPrefix ++ (rest ++ [112])⟩ := by
    rw [Entry.key, Keys.fromHash, harray, List.append_assoc]
  rw [hkey] at hpayload
  have hrange := get?_startingWith.mpr ⟨List.prefix_append _ _, hpayload⟩
  have hrest := Stored.LayerAt.length ⟨hash, hcontains, harray⟩
  cases hlast : (handle.startingWith blockPrefix).last? with
  | none => exact nomatch (SortedMap.last?_eq_none.mp hlast _).symm.trans hrange
  | some entry =>
    obtain ⟨k, v⟩ := entry
    obtain ⟨hk, hle⟩ := SortedMap.last?_spec hlast
    rw [Handle.loadLatestBlock, hlast] at h
    obtain ⟨-, -, h⟩ := Except.bind_eq_ok.mp h
    obtain ⟨u, hensure, -⟩ := Except.bind_eq_ok.mp h
    have hlength := Except.ensure_eq_ok.mp hensure
    rcases holds.inRange hk with ⟨height, fits, rfl, hheight⟩ | ⟨rest', last, hat', rfl⟩
    · -- The key of the layer is longer than that of the block, so it is strictly before it.
      have hne : (⟨blockPrefix ++ (rest ++ [112])⟩ : ByteKey) ≠ blockKey height := fun he => by
        have hlengths := congrArg (fun key : ByteKey => key.bytes.length) he
        simp [blockKey, hrest] at hlengths
      have hlt := (lt_blockKey (by simp [hrest]) fits).mp (lt_of_le_of_ne (hle _ _ hrange) hne)
      rw [List.take_append_of_le_length (by omega)] at hlt
      exact ⟨height, hheight, hlt⟩
    · rw [List.drop_left' rfl, List.length_append, hat'.length] at hlength
      exact absurd hlength (by simp)

end

/-! ## The answers -/

/-- A partition answers as the maps of what is stored. -/
structure Answers (handle : Handle) (t : Stored) : Prop where
  latest : handle.loadLatestBlock = .ok (t.blocks.last?.map Prod.fst)
  block : ∀ levels {height}, height < 2 ^ 64 →
    handle.loadBlock codec levels height = t.loadBlock codec levels height
  hasBlock : ∀ {height}, height < 2 ^ 64 → handle.hasBlock height = t.blocks.contains height
  heightForTx : ∀ txhash, handle.getHeightForTx txhash = .ok (t.txs.get? txhash)
  layer : ∀ hash, LayerStore.loadByHash handle hash = .ok (t.layers.get? hash)
  hasMerkleHash : ∀ hash, LayerStore.containsHash handle hash = t.layers.contains hash
  latestArchived : handle.getLatestArchivedBlockHeight = .ok t.latestArchivedHeight

theorem Holds.answers {handle : Handle} {t : Stored} (holds : Holds handle t)
    (separated : t.Separated) : Answers codec handle t where
  latest := holds.latest separated
  block levels height fits := by
    rw [Handle.loadBlock, Stored.loadBlock, holds.block fits]
    cases t.blocks.get? height with
    | none => rfl
    | some hash =>
      simp only [Option.map_some, fromHash_asArray, Except.ok_bind,
        holds_simulates.loadContents holds]
  hasBlock {height} fits := by
    rw [Handle.hasBlock, SortedMap.contains, holds.block fits, Option.isSome_map]
    rfl
  heightForTx := holds.getHeightForTx
  layer := holds.loadByHash
  hasMerkleHash := holds.containsHash
  latestArchived := holds.getLatestArchivedBlockHeight

/-- After any calls the partition answers as a map for each kind of key, exactly when no layer
hides the latest block. -/
theorem answers_iff (calls : List (Call β)) :
    Answers codec (written codec calls) (stored codec calls) ↔ (stored codec calls).Separated :=
  ⟨fun answers => (holds_written codec calls).separated answers.latest,
    fun separated => (holds_written codec calls).answers codec separated⟩

end

namespace KeysSample

/-- A hash function that gives back the first bytes of the payload. -/
scoped instance : Sha256 where
  hash payload := Fin.ofNat _ (Bytes.ofBE ((payload ++ List.replicate 32 0).take 32))

def heights : BlockCodec Unit where
  serialize block := .ok (.mk (Bytes.toBE 8 block.height) [])
  deserialize contents := .ok ⟨Bytes.ofBE contents.payload, 0, 0, ()⟩

/-- A block, and then a layer whose hash starts with `block:`. -/
def calls : List (Call Unit) :=
  [.addBlock ⟨0, 0, 0, ()⟩ (by decide), .addMerkleLayer ⟨blockPrefix ++ List.replicate 26 255, []⟩]

end KeysSample

open KeysSample in
/-- The block is there, but it is not found as the latest one. -/
theorem answers_counterexample :
    (stored heights calls).blocks.last?.map Prod.fst = some 0 ∧
      ¬ Answers heights (written heights calls) (stored heights calls) := by
  refine ⟨rfl, fun answers => ?_⟩
  have separated := (holds_written heights calls).separated answers.latest
  obtain ⟨height, hcontains, hlt⟩ := separated (List.replicate 26 255)
    ⟨Fin.ofNat _ (Bytes.ofBE (blockPrefix ++ List.replicate 26 255)), rfl, rfl⟩
  obtain rfl : height = 0 := by
    by_contra h
    have habsent : (stored heights calls).blocks.get? height = none :=
      SortedMap.get?_insert_of_ne h
    exact Bool.false_ne_true ((SortedMap.contains_eq_false.mpr habsent).symm.trans hcontains)
  exact Nat.not_lt_zero _ hlt

end Kolme.Fjall
