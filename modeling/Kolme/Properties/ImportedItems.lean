import Kolme.Properties.ExportedItems
import Kolme.Properties.StateFormats
import Kolme.Properties.WriteOrder

/-!
# What is imported

The items of a file are read as they were written, and added one after another. A node that imports
an exported range ends with the layers of the range, and with the blocks that it accepts.
-/

namespace Kolme

open Exec Merkle

section

variable {app : App} [Sha256] [MerkleHashed (StorableBlock (SignedBlock app.Message))]
  [Rendered (SignedBlock app.Message)] {tools : KolmeTools app}

/-! ## Items are read as they were written -/

/-- Add an item to a node. -/
def ExportItem.ingest (tools : KolmeTools app) : ExportItem app → Exec Failure (KolmeInner app) Unit
  | .layer l => KolmeInner.addMerkleLayer l
  | .block b => Import.addBlock tools b

theorem ExportItem.ingest_layer {l : MerkleLayerContents} :
    (ExportItem.layer l : ExportItem app).ingest tools = KolmeInner.addMerkleLayer l := rfl

theorem ExportItem.ingest_block {b : SignedBlock app.Message} :
    (ExportItem.block b).ingest tools = Import.addBlock tools b := rfl

namespace Import

variable {bytes rest : Bytes} {kolme : KolmeInner app} {hashes : Finset Sha256Hash}

omit [Sha256] [MerkleHashed (StorableBlock (SignedBlock app.Message))]
  [Rendered (SignedBlock app.Message)] in
theorem readExact_append : readExact bytes.length ⟨bytes ++ rest, kolme, hashes⟩ =
    (.ok bytes, ⟨rest, kolme, hashes⟩) := by
  rw [readExact, get_bind, ensure_bind (by simp)]
  change (_, _) = _
  simp

omit [Sha256] [MerkleHashed (StorableBlock (SignedBlock app.Message))]
  [Rendered (SignedBlock app.Message)] in
theorem readU32_append {n : ℕ} (hn : n < 2 ^ 32) :
    readU32 ⟨Bytes.toBE 4 n ++ rest, kolme, hashes⟩ = (.ok n, ⟨rest, kolme, hashes⟩) := by
  have hread : readExact 4 ⟨Bytes.toBE 4 n ++ rest, kolme, hashes⟩ = _ :=
    Bytes.length_toBE 4 n ▸ readExact_append
  rw [readU32, bind_of_ok hread, Bytes.ofBE_toBE (by simpa using hn)]
  rfl

omit [Sha256] [MerkleHashed (StorableBlock (SignedBlock app.Message))]
  [Rendered (SignedBlock app.Message)] in
theorem readChild_append {child : Sha256Hash} (read : child ∈ hashes)
    (stored : kolme.layers.contains child = true) :
    readChild ⟨Bytes.toBE 32 child.val ++ rest, kolme, hashes⟩ =
      (.ok child, ⟨rest, kolme, hashes⟩) := by
  have hread : readExact 32 ⟨Bytes.toBE 32 child.val ++ rest, kolme, hashes⟩ = _ :=
    Bytes.length_toBE 32 child.val ▸ readExact_append
  have hchild : Fin.ofNat _ (Bytes.ofBE (Bytes.toBE 32 child.val)) = child := by
    rw [Bytes.ofBE_toBE (child.isLt.trans_le (by decide))]
    exact Fin.ofNat_val_eq_self child
  rw [readChild, bind_of_ok hread, get_bind, ensure_bind (by rw [hchild]; exact read),
    ensure_bind (by rw [hchild]; exact stored), hchild]
  rfl

omit [Sha256] [MerkleHashed (StorableBlock (SignedBlock app.Message))]
  [Rendered (SignedBlock app.Message)] in
theorem readChildren_append {children : List Sha256Hash}
    (read : ∀ child ∈ children, child ∈ hashes)
    (stored : ∀ child ∈ children, kolme.layers.contains child = true) :
    readChildren children.length
        ⟨(children.flatMap fun child => Bytes.toBE 32 child.val) ++ rest, kolme, hashes⟩ =
      (.ok children, ⟨rest, kolme, hashes⟩) := by
  induction children with
  | nil => rfl
  | cons child children ih =>
    rw [List.forall_mem_cons] at read stored
    rw [List.length_cons, readChildren, List.flatMap_cons, List.append_assoc,
      bind_of_ok (readChild_append read.1 stored.1), bind_of_ok (ih read.2 stored.2)]
    rfl

/-- Reading a layer, whatever is done with it. -/
def importLayerWith (add : MerkleLayerContents → Exec Failure (KolmeInner app) Unit) :
    Exec Failure (Import app) Unit := do
  let payloadLen ← readU32
  let payload ← readExact payloadLen
  let childrenLen ← readU32
  let children ← readChildren childrenLen
  let layer : MerkleLayerContents := ⟨payload, children⟩
  onKolme (add layer)
  modify fun s => { s with hashes := insert layer.hash s.hashes }

omit [MerkleHashed (StorableBlock (SignedBlock app.Message))]
  [Rendered (SignedBlock app.Message)] in
/-- A layer is read as it was written. -/
theorem importLayerWith_append {add : MerkleLayerContents → Exec Failure (KolmeInner app) Unit}
    {layer : MerkleLayerContents} (rest : Bytes) (short : layer.Short)
    (read : ∀ child ∈ layer.children, child ∈ hashes)
    (stored : ∀ child ∈ layer.children, kolme.layers.contains child = true) :
    importLayerWith add ⟨Bytes.toBE 4 layer.payload.length ++ (layer.payload ++
        (Bytes.toBE 4 layer.children.length ++
          ((layer.children.flatMap fun child => Bytes.toBE 32 child.val) ++ rest))), kolme, hashes⟩ =
      (do
        onKolme (add layer)
        modify fun s => { s with hashes := insert layer.hash s.hashes }) ⟨rest, kolme, hashes⟩ := by
  rw [importLayerWith, bind_of_ok (readU32_append short.payload), bind_of_ok readExact_append,
    bind_of_ok (readU32_append short.children), bind_of_ok (readChildren_append read stored)]

omit [MerkleHashed (StorableBlock (SignedBlock app.Message))]
  [Rendered (SignedBlock app.Message)] in
theorem importLayer_eq : @importLayer app _ = importLayerWith KolmeInner.addMerkleLayer := rfl

/-- A block is read as it was written. -/
theorem importBlock_append {block : SignedBlock app.Message} (fits : (ExportItem.block block).Fits) :
    importBlock tools ⟨Bytes.toBE 4 (utf8 (Rendered.toText block)).length ++
        (utf8 (Rendered.toText block) ++ rest), kolme, hashes⟩ =
      onKolme (addBlock tools block) ⟨rest, kolme, hashes⟩ := by
  have htext : ((fromUtf8 (utf8 (Rendered.toText block))).mapError Failure.merkle) =
      .ok (Rendered.toText block) := by
    rw [fromUtf8_utf8]
    rfl
  rw [importBlock, bind_of_ok (readU32_append fits.1), bind_of_ok readExact_append,
    lift_bind htext, fromOption_bind fits.2]

omit [Sha256] [MerkleHashed (StorableBlock (SignedBlock app.Message))]
  [Rendered (SignedBlock app.Message)] in
theorem onKolme_bind {x : Exec Failure (KolmeInner app) Unit}
    {f : Unit → Exec Failure (Import app) Unit} :
    (onKolme x >>= f) ⟨rest, kolme, hashes⟩ =
      match x kolme with
      | (.ok (), kolme) => f () ⟨rest, kolme, hashes⟩
      | (.error e, kolme) => (.error e, ⟨rest, kolme, hashes⟩) := by
  cases hrun : x kolme with
  | mk r kolme' =>
    have hzoom : onKolme x ⟨rest, kolme, hashes⟩ = (r, ⟨rest, kolme', hashes⟩) := by
      rw [onKolme, zoom, hrun]
    cases r with
    | ok _ => rw [bind_of_ok hzoom]
    | error e => rw [bind_of_error hzoom]

/-- What a program on the rest of a file does to the node. -/
def NodeRun (x : Exec Failure (Import app) Unit) (s : Import app) :
    Except Failure Unit × KolmeInner app := ((x s).1, (x s).2.kolme)

omit [Sha256] [MerkleHashed (StorableBlock (SignedBlock app.Message))]
  [Rendered (SignedBlock app.Message)] in
theorem nodeRun_onKolme_bind {x : Exec Failure (KolmeInner app) Unit}
    {f : Unit → Exec Failure (Import app) Unit} {g : Unit → Exec Failure (KolmeInner app) Unit}
    (h : ∀ kolme', x kolme = (.ok (), kolme') → NodeRun (f ()) ⟨rest, kolme', hashes⟩ = g () kolme') :
    NodeRun (onKolme x >>= f) ⟨rest, kolme, hashes⟩ = (x >>= g) kolme := by
  rw [NodeRun, onKolme_bind]
  cases hrun : x kolme with
  | mk r kolme' =>
    cases r with
    | ok _ =>
      rw [bind_of_ok hrun]
      exact h kolme' hrun
    | error e => rw [bind_of_error hrun]

omit [Sha256] [MerkleHashed (StorableBlock (SignedBlock app.Message))]
  [Rendered (SignedBlock app.Message)] in
theorem nodeRun_congr {x y : Exec Failure (Import app) Unit} {s t : Import app} (h : x s = y t) :
    NodeRun x s = NodeRun y t := by
  rw [NodeRun, h]
  rfl

omit [MerkleHashed (StorableBlock (SignedBlock app.Message))]
  [Rendered (SignedBlock app.Message)] in
/-- What is done with a layer is done to the node. -/
theorem nodeRun_importLayerWith {add : MerkleLayerContents → Exec Failure (KolmeInner app) Unit}
    {l : MerkleLayerContents} {f : Unit → Exec Failure (Import app) Unit}
    {g : Unit → Exec Failure (KolmeInner app) Unit} (short : l.Short)
    (read : ∀ child ∈ l.children, child ∈ hashes)
    (stored : ∀ child ∈ l.children, kolme.layers.contains child = true)
    (h : ∀ kolme', add l kolme = (.ok (), kolme') →
      NodeRun (f ()) ⟨rest, kolme', insert l.hash hashes⟩ = g () kolme') :
    NodeRun (importLayerWith add >>= f) ⟨Bytes.toBE 4 l.payload.length ++ (l.payload ++
        (Bytes.toBE 4 l.children.length ++
          ((l.children.flatMap fun child => Bytes.toBE 32 child.val) ++ rest))), kolme, hashes⟩ =
      (add l >>= g) kolme := by
  have hread : importLayerWith add ⟨_, kolme, hashes⟩ = _ :=
    importLayerWith_append rest short read stored
  rw [nodeRun_congr ((bind_of_eq hread).trans bind_bind)]
  exact nodeRun_onKolme_bind h

theorem importItems_layer {src : Bytes} {fuel : ℕ} :
    importItems tools (fuel + 1) ⟨0 :: src, kolme, hashes⟩ =
      (importLayer >>= fun _ => importItems tools fuel) ⟨src, kolme, hashes⟩ := rfl

theorem importItems_block {src : Bytes} {fuel : ℕ} :
    importItems tools (fuel + 1) ⟨1 :: src, kolme, hashes⟩ =
      (importBlock tools >>= fun _ => importItems tools fuel) ⟨src, kolme, hashes⟩ := rfl

omit [MerkleHashed (StorableBlock (SignedBlock app.Message))]
  [Rendered (SignedBlock app.Message)] in
/-- A layer that was added is stored, and so is all that was stored. -/
theorem stored_of_addMerkleLayer {layer : MerkleLayerContents} {kolme' : KolmeInner app}
    (h : KolmeInner.addMerkleLayer layer kolme = (.ok (), kolme')) :
    kolme'.layers.contains layer.hash = true ∧ kolme.layers.Grows kolme'.layers := by
  obtain ⟨-, layers, hsave, rfl⟩ := KolmeInner.addMerkleLayer_eq_ok h
  rcases MerkleLayers.saveByHash_eq_ok hsave with ⟨rfl, hcontains⟩ | rfl
  · exact ⟨hcontains, id⟩
  · exact ⟨MerkleLayers.contains_insert.mpr (.inl rfl), MerkleLayers.grows_insert _ _⟩

theorem grows_of_addBlock {block : SignedBlock app.Message} {kolme' : KolmeInner app}
    (h : addBlock tools block kolme = (.ok (), kolme')) : kolme'.layers = kolme.layers := by
  have keeps : Keeps (fun self : KolmeInner app => self.layers = kolme.layers)
      (addBlock tools block) := by
    refine (KolmeInner.keeps_hasBlock (P := (· = kolme.layers)) block.height).bind fun present => ?_
    exact keeps_ite (fun _ => keeps_pure ()) fun _ =>
      KolmeInner.keeps_addBlockWithState (P := (· = kolme.layers)) tools block
  have hlayers := keeps kolme rfl
  rw [h] at hlayers
  exact hlayers

/-- The items of a file are added one after another, and then the node looks at what is stored. -/
theorem importItems_encode {items : List (ExportItem app)} {fuel : ℕ} (hfuel : items.length < fuel)
    (layered : ExportItem.Layered hashes items) (fits : ∀ item ∈ items, item.Fits)
    (stored : ∀ hash ∈ hashes, kolme.layers.contains hash = true) :
    NodeRun (importItems tools fuel) ⟨items.flatMap ExportItem.encode, kolme, hashes⟩ =
      (forEach (ExportItem.ingest tools) items >>= fun _ => KolmeInner.resync tools) kolme := by
  induction items generalizing fuel kolme hashes with
  | nil =>
    obtain ⟨fuel, rfl⟩ := Nat.exists_eq_succ_of_ne_zero (Nat.ne_of_gt hfuel)
    rfl
  | cons item items ih =>
    obtain ⟨fuel, rfl⟩ := Nat.exists_eq_succ_of_ne_zero (Nat.ne_of_gt (Nat.zero_lt_of_lt hfuel))
    rw [List.forall_mem_cons] at fits
    rw [forEach, bind_bind, List.flatMap_cons]
    cases item with
    | layer l =>
      obtain ⟨new, before, layered⟩ := layered
      have hsrc : (ExportItem.layer l : ExportItem app).encode ++ items.flatMap ExportItem.encode =
          0 :: (Bytes.toBE 4 l.payload.length ++ (l.payload ++
            (Bytes.toBE 4 l.children.length ++
              ((l.children.flatMap fun child => Bytes.toBE 32 child.val) ++
                items.flatMap ExportItem.encode)))) := by
        simp only [ExportItem.encode, MerkleLayerContents.encode, List.append_assoc,
          List.cons_append, List.nil_append]
      have hchildren : ∀ child ∈ l.children, kolme.layers.contains child = true :=
        fun child hchild => stored child (before child hchild)
      rw [hsrc, nodeRun_congr importItems_layer, importLayer_eq, ExportItem.ingest_layer]
      refine nodeRun_importLayerWith fits.1 before hchildren fun kolme' hrun => ?_
      obtain ⟨hstored, grows⟩ := stored_of_addMerkleLayer hrun
      refine ih (Nat.lt_of_succ_lt_succ hfuel) layered fits.2 fun hash hhash => ?_
      rcases Finset.mem_insert.mp hhash with rfl | hhash
      · exact hstored
      · exact grows (stored hash hhash)
    | block b =>
      obtain ⟨-, layered⟩ := layered
      have hsrc : (ExportItem.block b : ExportItem app).encode ++ items.flatMap ExportItem.encode =
          1 :: (Bytes.toBE 4 (utf8 (Rendered.toText b)).length ++ (utf8 (Rendered.toText b) ++
            items.flatMap ExportItem.encode)) := by
        simp only [ExportItem.encode, List.append_assoc, List.cons_append, List.nil_append]
      rw [hsrc, nodeRun_congr importItems_block,
        nodeRun_congr (bind_of_eq (importBlock_append fits.1)), ExportItem.ingest_block]
      refine nodeRun_onKolme_bind fun kolme' hadd => ?_
      refine ih (Nat.lt_of_succ_lt_succ hfuel) layered fits.2 fun hash hhash => ?_
      rw [grows_of_addBlock hadd]
      exact stored hash hhash

theorem importBlocksFrom_encode {items : List (ExportItem app)} {self : KolmeInner app}
    (layered : ExportItem.Layered ∅ items) (fits : ∀ item ∈ items, item.Fits) :
    KolmeInner.importBlocksFrom tools (items.flatMap ExportItem.encode) self =
      (forEach (ExportItem.ingest tools) items >>= fun _ => KolmeInner.resync tools) self := by
  have hlength : items.length ≤ (items.flatMap ExportItem.encode).length := by
    rw [List.length_flatMap, ← List.length_map fun item : ExportItem app => item.encode.length]
    refine List.length_le_sum_of_one_le _ fun n hn => ?_
    obtain ⟨item, -, rfl⟩ := List.mem_map.mp hn
    cases item <;> exact Nat.succ_pos _
  exact importItems_encode (Nat.lt_succ_of_le hlength) layered fits nofun

/-! ## Blocks are accepted by the processor's signature -/

/-- What a node checks of a block whose states are stored. -/
def accept (tools : KolmeTools app) (block : SignedBlock app.Message) :
    Exec Failure (KolmeInner app) Unit := do
  let present ← KolmeInner.hasBlock block.height
  if present then return ()
  else do
    let self ← Exec.get
    Exec.ensure (self.currentBlock.processor = block.message.value.processor)
      (.other "Received block signed by another processor than the real processor")
    Exec.lift ((block.validateSignature tools.env).mapError .execution)
    KolmeInner.storeBlock block

variable {self self' t : KolmeInner app} {block : SignedBlock app.Message} {layers : MerkleLayers}
  {items : List (ExportItem app)}

omit [Sha256] in
theorem hasBlock_eq_ok {height : BlockHeight} {present : Bool} :
    KolmeInner.hasBlock height self = (.ok present, t) ↔
      KolmeStore.hasBlock self.store height = .ok present ∧ self = t := by
  rw [KolmeInner.hasBlock, get_bind, lift_eq_ok, Except.mapError_eq_ok]
  rfl

theorem storeBlock_eq_ok : KolmeInner.storeBlock block self = (.ok (), t) ↔
    ∃ store, KolmeStore.addBlock (.of block) self.store = (.ok (), store) ∧
      { self with store } = t := by
  rw [KolmeInner.storeBlock]
  rcases KolmeStore.addBlock (.of block) self.store with ⟨_ | ⟨⟩, store⟩
  · simp [Except.mapError]
  · simp [Except.mapError]

/-- What it takes that a block is accepted. -/
structure Accepts (tools : KolmeTools app) (node : KolmeInner app) (block : SignedBlock app.Message)
    (store : KolmeStore (SignedBlock app.Message)) : Prop where
  absent : KolmeStore.hasBlock node.store block.height = .ok false
  processor : node.currentBlock.processor = block.message.value.processor
  signature : block.validateSignature tools.env = .ok ()
  stored : KolmeStore.addBlock (.of block) node.store = (.ok (), store)

theorem accept_eq_ok : accept tools block self = (.ok (), t) ↔
    KolmeStore.hasBlock self.store block.height = .ok true ∧ self = t ∨
      ∃ store, Accepts tools self block store ∧ { self with store } = t := by
  rw [accept, bind_eq_ok]
  constructor
  · rintro ⟨present, _, hhas, h⟩
    obtain ⟨hpresent, rfl⟩ := hasBlock_eq_ok.mp hhas
    cases present with
    | true => exact .inl ⟨hpresent, (pure_eq_ok.mp h).2⟩
    | false =>
      rw [if_neg Bool.false_ne_true, get_bind] at h
      obtain ⟨_, _, hensure, h⟩ := bind_eq_ok.mp h
      obtain ⟨hprocessor, rfl⟩ := ensure_eq_ok.mp hensure
      obtain ⟨_, _, hlift, h⟩ := bind_eq_ok.mp h
      obtain ⟨hsignature, rfl⟩ := lift_eq_ok.mp hlift
      obtain ⟨store, hstore, rfl⟩ := storeBlock_eq_ok.mp h
      exact .inr ⟨store, ⟨hpresent, hprocessor, Except.mapError_eq_ok.mp hsignature, hstore⟩, rfl⟩
  · rintro (⟨hpresent, rfl⟩ | ⟨store, accepts, rfl⟩)
    · exact ⟨true, self, hasBlock_eq_ok.mpr ⟨hpresent, rfl⟩, rfl⟩
    · refine ⟨false, self, hasBlock_eq_ok.mpr ⟨accepts.absent, rfl⟩, ?_⟩
      rw [if_neg Bool.false_ne_true, get_bind, ensure_bind accepts.processor,
        lift_bind (Except.mapError_eq_ok.mpr accepts.signature)]
      exact storeBlock_eq_ok.mpr ⟨store, accepts.stored, rfl⟩

/-- A block whose states are stored is added if it is accepted. -/
theorem addBlock_eq_ok (stored : ∀ root ∈ block.roots, self.layers.contains root = true) :
    addBlock tools block self = (.ok (), t) ↔ accept tools block self = (.ok (), t) := by
  have hroots : self.hasMerkleHash block.message.value.frameworkState = true ∧
      self.hasMerkleHash block.message.value.appState = true ∧
      self.hasMerkleHash block.message.value.logs = true :=
    ⟨stored _ (by simp [SignedBlock.roots]), stored _ (by simp [SignedBlock.roots]),
      stored _ (by simp [SignedBlock.roots])⟩
  rw [accept_eq_ok, addBlock, bind_eq_ok]
  constructor
  · rintro ⟨present, _, hhas, h⟩
    obtain ⟨hpresent, rfl⟩ := hasBlock_eq_ok.mp hhas
    cases present with
    | true => exact .inl ⟨hpresent, (pure_eq_ok.mp h).2⟩
    | false =>
      rw [if_neg Bool.false_ne_true, KolmeInner.addBlockWithState,
        bind_of_ok (hasBlock_eq_ok.mpr ⟨hpresent, rfl⟩), ensure_bind rfl, get_bind] at h
      obtain ⟨_, _, hensure, h⟩ := bind_eq_ok.mp h
      obtain ⟨hprocessor, rfl⟩ := ensure_eq_ok.mp hensure
      obtain ⟨_, _, hlift, h⟩ := bind_eq_ok.mp h
      obtain ⟨hsignature, rfl⟩ := lift_eq_ok.mp hlift
      rw [ensure_bind hroots.1, ensure_bind hroots.2.1, ensure_bind hroots.2.2] at h
      obtain ⟨store, hstore, rfl⟩ := storeBlock_eq_ok.mp h
      exact .inr ⟨store, ⟨hpresent, hprocessor, Except.mapError_eq_ok.mp hsignature, hstore⟩, rfl⟩
  · rintro (⟨hpresent, rfl⟩ | ⟨store, accepts, rfl⟩)
    · exact ⟨true, self, hasBlock_eq_ok.mpr ⟨hpresent, rfl⟩, rfl⟩
    · refine ⟨false, self, hasBlock_eq_ok.mpr ⟨accepts.absent, rfl⟩, ?_⟩
      rw [if_neg Bool.false_ne_true, KolmeInner.addBlockWithState,
        bind_of_ok (hasBlock_eq_ok.mpr ⟨accepts.absent, rfl⟩), ensure_bind rfl, get_bind,
        ensure_bind accepts.processor, lift_bind (Except.mapError_eq_ok.mpr accepts.signature),
        ensure_bind hroots.1, ensure_bind hroots.2.1, ensure_bind hroots.2.2]
      exact storeBlock_eq_ok.mpr ⟨store, accepts.stored, rfl⟩

/-- Layers do not matter for the blocks that are accepted. -/
theorem forEach_accept_layers {blocks : List (SignedBlock app.Message)} :
    forEach (accept tools) blocks { self with layers } = (.ok (), t) ↔
      ∃ t', forEach (accept tools) blocks self = (.ok (), t') ∧ { t' with layers } = t := by
  induction blocks generalizing self with
  | nil =>
    rw [forEach_nil, pure_eq_ok]
    constructor
    · rintro ⟨-, rfl⟩
      exact ⟨self, rfl, rfl⟩
    · rintro ⟨t', h, rfl⟩
      obtain ⟨-, rfl⟩ := pure_eq_ok.mp h
      exact ⟨rfl, rfl⟩
  | cons block blocks ih =>
    have step : ∀ s, accept tools block { self with layers } = (.ok (), s) ↔
        ∃ s', accept tools block self = (.ok (), s') ∧ { s' with layers } = s := by
      intro s
      simp only [accept_eq_ok]
      constructor
      · rintro (⟨hpresent, rfl⟩ | ⟨store, accepts, rfl⟩)
        · exact ⟨self, .inl ⟨hpresent, rfl⟩, rfl⟩
        · exact ⟨{ self with store }, .inr ⟨store, ⟨accepts.1, accepts.2, accepts.3, accepts.4⟩, rfl⟩,
            rfl⟩
      · rintro ⟨s', ⟨hpresent, rfl⟩ | ⟨store, accepts, rfl⟩, rfl⟩
        · exact .inl ⟨hpresent, rfl⟩
        · exact .inr ⟨store, ⟨accepts.1, accepts.2, accepts.3, accepts.4⟩, rfl⟩
    simp only [forEach_cons_eq_ok]
    constructor
    · rintro ⟨s, hblock, hblocks⟩
      obtain ⟨s', hblock', rfl⟩ := (step s).mp hblock
      obtain ⟨t', hblocks', rfl⟩ := ih.mp hblocks
      exact ⟨t', ⟨s', hblock', hblocks'⟩, rfl⟩
    · rintro ⟨t', ⟨s', hblock', hblocks'⟩, rfl⟩
      exact ⟨{ s' with layers }, (step _).mpr ⟨s', hblock', rfl⟩, ih.mpr ⟨t', hblocks', rfl⟩⟩

end Import

/-! ## Layers that are imported -/

namespace MerkleLayers

variable {layers layers' : MerkleLayers} {layer : MerkleLayerContents} {hash : Sha256Hash}
  {added : List MerkleLayerContents}

/-- A layer has the hash of no other layer that is stored. -/
def Admits (layers : MerkleLayers) (layer : MerkleLayerContents) : Prop :=
  ∀ other, layers.get? layer.hash = some other → other = layer

def merge (layers : MerkleLayers) (added : List MerkleLayerContents) : MerkleLayers :=
  added.foldl (fun layers layer => layers.insert layer.hash layer) layers

theorem saveByHash_run (backend : Backend) (admits : layers.Admits layer) :
    layers.saveByHash backend layer = .ok (layers.insert layer.hash layer) := by
  rw [saveByHash]
  cases hget : layers.get? layer.hash with
  | none => rfl
  | some other =>
    obtain rfl := admits other hget
    have hsame : layers.insert other.hash other = layers := by
      refine SortedMap.eq_of_get? fun hash => ?_
      rw [SortedMap.get?_insert]
      split
      · rw [‹hash = other.hash›, hget]
      · rfl
    rw [hsame]
    cases backend with
    | inMemory => exact if_pos rfl
    | fjall => rfl
    | postgres => rfl

theorem Admits.insert {other : MerkleLayerContents} (admits : layers.Admits layer)
    (hother : other.hash = layer.hash → other = layer) :
    Admits (layers.insert other.hash other) layer := by
  intro l hget
  rw [SortedMap.get?_insert] at hget
  split at hget
  · exact Option.some.inj hget ▸ hother (Eq.symm ‹_›)
  · exact admits l hget

/-- What is stored after layers were added. -/
theorem get?_merge (admits : ∀ layer ∈ added, layers.Admits layer)
    (distinct : ∀ l ∈ added, ∀ l' ∈ added, l.hash = l'.hash → l = l') :
    (layers.merge added).get? hash = some layer ↔
      layers.get? hash = some layer ∨ layer ∈ added ∧ layer.hash = hash := by
  induction added generalizing layers with
  | nil => simp [merge]
  | cons first added ih =>
    rw [List.forall_mem_cons] at admits
    have hrest : ∀ l ∈ added, Admits (layers.insert first.hash first) l := fun l hl =>
      (admits.2 l hl).insert
        (distinct first (List.mem_cons_self ..) l (List.mem_cons_of_mem _ hl))
    have hmerge : layers.merge (first :: added) = merge (layers.insert first.hash first) added := rfl
    rw [hmerge, ih hrest fun l hl l' hl' =>
      distinct l (List.mem_cons_of_mem _ hl) l' (List.mem_cons_of_mem _ hl'), SortedMap.get?_insert]
    constructor
    · rintro (h | ⟨hmem, hhash⟩)
      · split at h
        · obtain rfl := Option.some.inj h
          exact .inr ⟨List.mem_cons_self .., Eq.symm ‹_›⟩
        · exact .inl h
      · exact .inr ⟨List.mem_cons_of_mem _ hmem, hhash⟩
    · rintro (h | ⟨hmem, rfl⟩)
      · refine .inl ?_
        split
        · subst_vars
          rw [admits.1 layer h]
        · exact h
      · rcases List.mem_cons.mp hmem with rfl | hmem
        · exact .inl (if_pos rfl)
        · exact .inr ⟨hmem, rfl⟩

end MerkleLayers

omit [Sha256] in
/-- A value that is stored in one store is stored in another that has its layers. -/
theorem Merkle.Tree.mono {layers layers' : MerkleLayers} {hash : Sha256Hash} {contents : MerkleContents}
    (tree : Tree (fun _ _ => none) layers hash contents)
    (h : ∀ below layer, Reaches layers hash below → layers.get? below = some layer →
      layers'.get? below = some layer) : Tree (fun _ _ => none) layers' hash contents := by
  induction tree with
  | cached hcache => cases hcache
  | layer hget hlength _ ih =>
    refine .layer (h _ _ .refl hget) hlength fun i child contents hchild hcontents => ?_
    refine ih i child contents hchild hcontents fun below layer hreaches => h below layer ?_
    exact hreaches.head ⟨_, hget, List.mem_of_getElem? hchild⟩

omit [Sha256] in
/-- A value is loaded from a store as from another that has its layers. -/
theorem MerkleLayers.load_eq_of_get? {layers layers' : MerkleLayers} {hash : Sha256Hash}
    (hacyclic : Acyclic layers) (complete : Merkle.Complete layers hash)
    (h : ∀ below layer, Reaches layers hash below → layers.get? below = some layer →
      layers'.get? below = some layer) : layers'.load hash = layers.load hash := by
  obtain ⟨contents, -, tree⟩ : ∃ contents,
      Loader.loadMerkleContents (fun _ _ => none) layers hash = .ok contents ∧ _ :=
    Loader.exists_tree hacyclic complete
  have hlevels : contents.levels ≤ layers'.keys.toFinset.card := by
    refine tree.levels_le_card hacyclic fun below hreaches => ?_
    obtain ⟨layer, hget⟩ := SortedMap.contains_iff.mp (complete below hreaches)
    exact List.mem_toFinset.mpr (SortedMap.mem_keys.mpr ⟨layer, h below layer hreaches hget⟩)
  have hcard : layers'.keys.toFinset.card ≤ layers'.toList.length := by
    rw [← List.length_map Prod.fst]
    exact List.toFinset_card_le _
  rw [complete.load hacyclic tree]
  exact (tree.mono h).load (hlevels.trans (hcard.trans (Nat.le_succ _)))

/-! ## Import of what was exported -/

namespace Import

variable {self self' t : KolmeInner app} {items : List (ExportItem app)}
  {written : Finset Sha256Hash}

omit [MerkleHashed (StorableBlock (SignedBlock app.Message))]
  [Rendered (SignedBlock app.Message)] in
theorem addMerkleLayer_run {layer : MerkleLayerContents}
    (children : ∀ child ∈ layer.children, self.hasMerkleHash child = true)
    (admits : self.layers.Admits layer) :
    KolmeInner.addMerkleLayer layer self =
      (.ok (), { self with layers := self.layers.insert layer.hash layer }) := by
  have hsave := MerkleLayers.saveByHash_run self.store.inner.backend admits
  rw [KolmeInner.addMerkleLayer, get_bind]
  refine bind_eq_ok.mpr ⟨(), self, ensure_eq_ok.mpr ⟨children, rfl⟩, ?_⟩
  exact bind_eq_ok.mpr ⟨_, self, lift_eq_ok.mpr ⟨hsave, rfl⟩, modify_eq_ok.mpr rfl⟩

omit [MerkleHashed (StorableBlock (SignedBlock app.Message))]
  [Rendered (SignedBlock app.Message)] in
theorem hash_not_mem_of_layered (layered : ExportItem.Layered written items)
    {layer : MerkleLayerContents} (hmem : layer ∈ ExportItem.layersOf items) :
    layer.hash ∉ written := by
  induction items generalizing written with
  | nil => cases hmem
  | cons item items ih =>
    cases item with
    | layer l =>
      rcases List.mem_cons.mp (show layer ∈ l :: ExportItem.layersOf items from hmem) with rfl | hmem
      · exact layered.1
      · exact fun hwritten => ih layered.2.2 hmem (Finset.mem_insert_of_mem hwritten)
    | block b => exact ih layered.2 hmem

/-- Items are added if their blocks are accepted. All layers are stored then. -/
theorem forEach_ingest_eq_ok (layered : ExportItem.Layered written items)
    (stored : ∀ hash ∈ written, self.layers.contains hash = true)
    (admits : ∀ layer ∈ ExportItem.layersOf items, self.layers.Admits layer) :
    forEach (ExportItem.ingest tools) items self = (.ok (), self') ↔
      ∃ t, forEach (accept tools) (ExportItem.blocksOf items) self = (.ok (), t) ∧
        { t with layers := self.layers.merge (ExportItem.layersOf items) } = self' := by
  induction items generalizing self written with
  | nil =>
    constructor
    · intro h
      obtain ⟨-, rfl⟩ := pure_eq_ok.mp h
      exact ⟨self, rfl, rfl⟩
    · rintro ⟨t, h, rfl⟩
      obtain ⟨-, rfl⟩ := pure_eq_ok.mp h
      rfl
  | cons item items ih =>
    rw [forEach_cons_eq_ok]
    cases item with
    | layer l =>
      obtain ⟨new, before, layered⟩ := layered
      obtain ⟨hadmits, admits⟩ : self.layers.Admits l ∧ _ := List.forall_mem_cons.mp admits
      have hrun := addMerkleLayer_run (fun child hchild => stored child (before child hchild)) hadmits
      have hstored : ∀ hash ∈ insert l.hash written,
          (self.layers.insert l.hash l).contains hash = true := by
        intro hash hhash
        rcases Finset.mem_insert.mp hhash with rfl | hhash
        · exact MerkleLayers.contains_insert.mpr (.inl rfl)
        · exact MerkleLayers.grows_insert _ _ (stored hash hhash)
      have hadmitted : ∀ layer ∈ ExportItem.layersOf items,
          MerkleLayers.Admits (self.layers.insert l.hash l) layer := fun layer hlayer =>
        (admits layer hlayer).insert fun heq => absurd (heq ▸ Finset.mem_insert_self _ _)
          (hash_not_mem_of_layered layered hlayer)
      have hrest := @ih { self with layers := self.layers.insert l.hash l } _ layered hstored hadmitted
      rw [ExportItem.ingest_layer]
      constructor
      · rintro ⟨s, hs, hitems⟩
        obtain ⟨-, rfl⟩ := Prod.mk.inj (hrun.symm.trans hs)
        obtain ⟨t, hblocks, rfl⟩ := hrest.mp hitems
        obtain ⟨t', haccepted, rfl⟩ := forEach_accept_layers.mp hblocks
        exact ⟨t', haccepted, rfl⟩
      · rintro ⟨t, hblocks, rfl⟩
        exact ⟨_, hrun, hrest.mpr ⟨_, forEach_accept_layers.mpr ⟨t, hblocks, rfl⟩, rfl⟩⟩
    | block b =>
      obtain ⟨roots, layered⟩ := layered
      have hlayers : ∀ {s}, accept tools b self = (.ok (), s) → s.layers = self.layers := by
        intro s hs
        rcases accept_eq_ok.mp hs with ⟨-, rfl⟩ | ⟨store, -, rfl⟩
        · rfl
        · rfl
      rw [ExportItem.ingest_block]
      simp only [addBlock_eq_ok fun root hroot => stored root (roots root hroot)]
      have hblocks : ExportItem.blocksOf (.block b :: items) = b :: ExportItem.blocksOf items := rfl
      simp only [hblocks, forEach_cons_eq_ok]
      constructor
      · rintro ⟨s, hb, hitems⟩
        have hs := hlayers hb
        obtain ⟨t, hrest, rfl⟩ := (ih layered (hs ▸ stored) (hs ▸ admits)).mp hitems
        exact ⟨t, ⟨s, hb, hrest⟩, by rw [hs]; rfl⟩
      · rintro ⟨t, ⟨s, hb, hrest⟩, rfl⟩
        have hs := hlayers hb
        refine ⟨s, hb, (ih layered (hs ▸ stored) (hs ▸ admits)).mpr ⟨t, hrest, ?_⟩⟩
        rw [hs]
        rfl

end Import

/-- The importing node has no other layer under the hash of an exported one. -/
def KolmeInner.Agrees (target source : KolmeInner app) : Prop :=
  ∀ hash layer layer', source.layers.get? hash = some layer →
    target.layers.get? hash = some layer' → layer' = layer

/-- A range that was exported can be imported exactly where each of its blocks is there already or is
accepted in turn. The node has then its own layers and the layers below the blocks, and everything
that the exporting node loads for the blocks is loaded as it is there. -/
theorem KolmeInner.exported_is_imported {self : KolmeInner app} {range : HeightRange}
    (able : self.Exportable range) :
    ∃ stream blocks, self.exportBlocksTo range = .ok stream ∧
      List.Forall₂ self.Exports range.heights blocks ∧
      ∀ target : KolmeInner app, target.Agrees self → ∃ layers : MerkleLayers,
        (∀ hash layer, layers.get? hash = some layer ↔ target.layers.get? hash = some layer ∨
          self.layers.get? hash = some layer ∧
            ∃ block ∈ blocks, ∃ root ∈ block.roots, Reaches self.layers root hash) ∧
        (∀ block ∈ blocks, ∀ root ∈ block.roots, layers.load root = self.layers.load root) ∧
        ∀ target', importBlocksFrom tools stream target = (.ok (), target') ↔
          ∃ t, forEach (Import.accept tools) blocks target = (.ok (), t) ∧
            resync tools { t with layers } = (.ok (), target') := by
  obtain ⟨items, order, hexport, written, hall⟩ := exportBlocksTo_written able
  refine ⟨_, ExportItem.blocksOf items, hexport, hall, fun target agrees => ?_⟩
  have admits : ∀ layer ∈ ExportItem.layersOf items, target.layers.Admits layer :=
    fun layer hlayer other => agrees layer.hash layer other (written.stored layer hlayer)
  have distinct : ∀ l ∈ ExportItem.layersOf items, ∀ l' ∈ ExportItem.layersOf items,
      l.hash = l'.hash → l = l' := fun l hl l' hl' hhash =>
    Option.some.inj ((written.stored l hl).symm.trans (hhash ▸ written.stored l' hl'))
  have hget : ∀ hash layer, (target.layers.merge (ExportItem.layersOf items)).get? hash =
      some layer ↔ target.layers.get? hash = some layer ∨ self.layers.get? hash = some layer ∧
        ∃ block ∈ ExportItem.blocksOf items, ∃ root ∈ block.roots,
          Reaches self.layers root hash := by
    intro hash layer
    rw [MerkleLayers.get?_merge admits distinct, written.mem_layersOf]
    constructor
    · rintro (h | ⟨h, rfl⟩)
      · exact .inl h
      · exact .inr h
    · rintro (h | h)
      · exact .inl h
      · obtain rfl := able.hash h.1
        exact .inr ⟨h, rfl⟩
  refine ⟨_, hget, fun block hblock root hroot => ?_, fun target' => ?_⟩
  · obtain ⟨height, exports⟩ : ∃ height, self.Exports height block := by
      obtain ⟨i, hi⟩ := List.mem_iff_getElem?.mp hblock
      have hlt := (List.getElem?_eq_some_iff.mp hi).1
      have hlt' : i < range.heights.length := hall.length_eq ▸ hlt
      have hexports := hall.get hlt' hlt
      rw [List.get_eq_getElem, List.get_eq_getElem, (List.getElem?_eq_some_iff.mp hi).2] at hexports
      exact ⟨_, hexports⟩
    refine MerkleLayers.load_eq_of_get? able.acyclic (exports.complete root hroot)
      fun below layer hreaches hlayer => ?_
    exact (hget below layer).mpr (.inr ⟨hlayer, block, hblock, root, hroot, hreaches⟩)
  · rw [Import.importBlocksFrom_encode written.layered written.fits, bind_eq_ok]
    constructor
    · rintro ⟨⟨⟩, t, hitems, hresync⟩
      obtain ⟨t', hblocks, rfl⟩ :=
        (Import.forEach_ingest_eq_ok written.layered nofun admits).mp hitems
      exact ⟨t', hblocks, hresync⟩
    · rintro ⟨t, hblocks, hresync⟩
      exact ⟨(), _, (Import.forEach_ingest_eq_ok written.layered nofun admits).mpr
        ⟨t, hblocks, rfl⟩, hresync⟩

end

namespace ExportSample

open Sample
open NodeSample (chain codec)
open SlotsSample (forged)

scoped instance : Sha256 := ⟨fun payload => Fin.ofNat _ payload.length⟩

scoped instance : MerkleHashed (StorableBlock (SignedBlock chain.Message)) where
  contentHash b := b.blockhash

/-- There is one block to read. -/
scoped instance : Rendered (SignedBlock chain.Message) where
  toText _ := "block"
  fromText _ := some forged

/-- The layers of the states of the block, with a layer that is in all of them. -/
def layers : MerkleLayers :=
  ((SortedMap.insert ∅ 1 ⟨[0], []⟩).insert 2 ⟨[0, 0], [1]⟩).insert 3 ⟨[0, 0, 0], [2, 1]⟩

def source : KolmeInner chain where
  store := ⟨.inMemory .default, (LruCache.empty 60 (by decide)).put 5 ⟨5, 0, 0, forged⟩⟩
  layers := layers
  currentBlock := ⟨0, start validators⟩

def target : KolmeInner chain where
  store := .new .inMemory
  layers := ∅
  currentBlock := ⟨0, start validators⟩

def range : HeightRange := ⟨.included 5, .excluded 6⟩

def tools : KolmeTools chain := ⟨counterEnv [genesisTx.text], codec, "v1"⟩

theorem layers_spec {hash : Sha256Hash} {layer : MerkleLayerContents}
    (hget : layers.get? hash = some layer) : layer.hash = hash ∧ layer.Short ∧
      ∀ child ∈ layer.children, child < hash ∧ layers.contains child = true := by
  simp only [layers, SortedMap.get?_insert] at hget
  split at hget
  · subst_vars
    obtain rfl := Option.some.inj hget
    refine ⟨rfl, ⟨by decide, by decide⟩, List.forall_mem_cons.mpr ⟨⟨by decide, rfl⟩, ?_⟩⟩
    exact List.forall_mem_singleton.mpr ⟨by decide, rfl⟩
  · split at hget
    · subst_vars
      obtain rfl := Option.some.inj hget
      exact ⟨rfl, ⟨by decide, by decide⟩, List.forall_mem_singleton.mpr ⟨by decide, rfl⟩⟩
    · split at hget
      · subst_vars
        obtain rfl := Option.some.inj hget
        exact ⟨rfl, ⟨by decide, by decide⟩, nofun⟩
      · cases hget

theorem complete_layers {hash : Sha256Hash} (hstored : layers.contains hash = true) :
    Merkle.Complete layers hash := by
  intro below hreaches
  induction hreaches with
  | refl => exact hstored
  | tail _ hchild _ =>
    obtain ⟨layer, hget, hmem⟩ := hchild
    exact ((layers_spec hget).2.2 _ hmem).2

theorem exports_forged : source.Exports 5 forged where
  loads := ⟨_, rfl, rfl⟩
  fits := ⟨by decide, rfl⟩
  complete root hroot := complete_layers (by
    simp only [SignedBlock.roots, List.mem_cons, List.not_mem_nil, or_false] at hroot
    rcases hroot with rfl | rfl | rfl <;> rfl)
  short _ _ _ _ _ hget := (layers_spec hget).2.1

theorem exportable : source.Exportable range where
  bounded := by decide
  hash hget := (layers_spec hget).1
  acyclic := acyclic_of_lt fun ⟨_, hget, hmem⟩ => ((layers_spec hget).2.2 _ hmem).1
  present height hrange := by
    obtain rfl : height = 5 := Nat.le_antisymm (Nat.le_of_lt_succ hrange.2) hrange.1
    exact ⟨forged, exports_forged⟩

end ExportSample

open ExportSample in
theorem KolmeInner.exportBlocksTo_layered_example :
    ∃ items : List (ExportItem NodeSample.chain),
      source.exportBlocksTo range = .ok (items.flatMap ExportItem.encode) ∧
      ExportItem.Layered ∅ items := by
  obtain ⟨items, hexport, layered, -⟩ := exportBlocksTo_layered exportable
  exact ⟨items, hexport, layered⟩

open ExportSample in
theorem KolmeInner.exported_is_imported_example :
    ∃ (stream : Bytes) (blocks : List (SignedBlock NodeSample.chain.Message))
      (layers : MerkleLayers), source.exportBlocksTo range = .ok stream ∧
      ∀ target', importBlocksFrom tools stream target = (.ok (), target') ↔
        ∃ t, forEach (Import.accept tools) blocks target = (.ok (), t) ∧
          resync tools { t with layers } = (.ok (), target') := by
  obtain ⟨stream, blocks, hexport, -, himport⟩ := exported_is_imported exportable
  obtain ⟨layers, -, -, hiff⟩ := himport target nofun
  exact ⟨stream, blocks, layers, hexport, hiff⟩

end Kolme
