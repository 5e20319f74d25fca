import Kolme.Components.ImportExport
import Kolme.Lib.Postorder
import Kolme.Properties.ContentsLoading

/-!
# What is exported

A bounded range of blocks is exported as a sequence of items: each layer below a state of the blocks
once, after its children, and each block after the layers of its states.
-/

namespace Kolme

open Exec Merkle

variable {app : App}

/-! ## Items -/

/-- An item of an exported file. -/
inductive ExportItem (app : App)
  | layer (layer : MerkleLayerContents)
  | block (block : SignedBlock app.Message)

/-- The hashes of the states after a block. -/
def SignedBlock.roots {M : Type} (block : SignedBlock M) : List Sha256Hash :=
  [block.message.value.frameworkState, block.message.value.appState, block.message.value.logs]

def Merkle.MerkleLayerContents.encode (layer : MerkleLayerContents) : Bytes :=
  [0] ++ Bytes.toBE 4 layer.payload.length ++ layer.payload ++
    Bytes.toBE 4 layer.children.length ++
    layer.children.flatMap fun child => Bytes.toBE 32 child.val

/-- The lengths of a layer are written in four bytes. -/
structure Merkle.MerkleLayerContents.Short (layer : MerkleLayerContents) : Prop where
  payload : layer.payload.length < 2 ^ 32
  children : layer.children.length < 2 ^ 32

namespace ExportItem

def layersOf (items : List (ExportItem app)) : List MerkleLayerContents :=
  items.filterMap fun
    | .layer l => some l
    | .block _ => none

def blocksOf (items : List (ExportItem app)) : List (SignedBlock app.Message) :=
  items.filterMap fun
    | .layer _ => none
    | .block b => some b

section

variable [Rendered (SignedBlock app.Message)]

def encode : ExportItem app → Bytes
  | .layer l => l.encode
  | .block b =>
    let serialized := utf8 (Rendered.toText b)
    [1] ++ Bytes.toBE 4 serialized.length ++ serialized

/-- The item can be written, and a block is read as it was written. -/
def Fits : ExportItem app → Prop
  | .layer l => l.Short
  | .block b => (utf8 (Rendered.toText b)).length < 2 ^ 32 ∧ ReadsBack b

end

variable [Sha256]

def hashesOf (items : List (ExportItem app)) : List Sha256Hash :=
  (layersOf items).map MerkleLayerContents.hash

/-- Each layer comes once and after its children, and each block after the layers of its states,
where some layers are written before. -/
def Layered : Finset Sha256Hash → List (ExportItem app) → Prop
  | _, [] => True
  | written, .layer l :: items =>
    l.hash ∉ written ∧ (∀ child ∈ l.children, child ∈ written) ∧
      Layered (insert l.hash written) items
  | written, .block b :: items => (∀ root ∈ b.roots, root ∈ written) ∧ Layered written items

variable {items items' : List (ExportItem app)} {written : Finset Sha256Hash}

omit [Sha256] in
theorem layersOf_append : layersOf (items ++ items') = layersOf items ++ layersOf items' :=
  List.filterMap_append

omit [Sha256] in
theorem blocksOf_append : blocksOf (items ++ items') = blocksOf items ++ blocksOf items' :=
  List.filterMap_append

theorem hashesOf_append : hashesOf (items ++ items') = hashesOf items ++ hashesOf items' := by
  rw [hashesOf, layersOf_append, List.map_append]
  rfl

theorem Layered.append (h : Layered written items)
    (h' : Layered (written ∪ (hashesOf items).toFinset) items') :
    Layered written (items ++ items') := by
  induction items generalizing written with
  | nil =>
    rw [show hashesOf ([] : List (ExportItem app)) = [] from rfl, List.toFinset_nil,
      Finset.union_empty] at h'
    exact h'
  | cons item items ih =>
    cases item with
    | layer l =>
      obtain ⟨new, before, h⟩ := h
      refine ⟨new, before, ih h ?_⟩
      have hinsert : insert l.hash written ∪ (hashesOf items).toFinset =
          written ∪ (hashesOf (.layer l :: items)).toFinset := by
        ext hash
        simp [hashesOf, layersOf, or_left_comm]
      rwa [hinsert]
    | block b => exact ⟨h.1, ih h.2 h'⟩

end ExportItem

/-! ## Writing layers -/

namespace Export

variable {dest : Bytes} {written : Finset Sha256Hash} {layer : MerkleLayerContents}
  {layers : MerkleLayers} {hash : Sha256Hash}

theorem writeU32_run {n : ℕ} {e : String} (hn : n < 2 ^ 32) :
    writeU32 n e ⟨dest, written⟩ = (.ok (), ⟨dest ++ Bytes.toBE 4 n, written⟩) := by
  rw [writeU32, ensure_bind hn]
  rfl

theorem writeChildren_run {children : List Sha256Hash} (before : ∀ child ∈ children, child ∈ written) :
    forEach writeChild children ⟨dest, written⟩ =
      (.ok (), ⟨dest ++ children.flatMap fun child => Bytes.toBE 32 child.val, written⟩) := by
  induction children generalizing dest with
  | nil => simp
  | cons child children ih =>
    rw [List.forall_mem_cons] at before
    have hchild : writeChild child ⟨dest, written⟩ =
        (.ok (), ⟨dest ++ Bytes.toBE 32 child.val, written⟩) := by
      rw [writeChild, get_bind, ensure_bind before.1]
      rfl
    rw [forEach, bind_of_ok hchild, ih before.2, List.flatMap_cons, List.append_assoc]

theorem writeLayer_run (short : layer.Short) (before : ∀ child ∈ layer.children, child ∈ written) :
    writeLayer hash layer ⟨dest, written⟩ =
      (.ok (), ⟨dest ++ layer.encode, insert hash written⟩) := by
  rw [writeLayer, bind_of_ok (show writeAll [0] ⟨dest, written⟩ = _ from rfl),
    bind_of_ok (writeU32_run short.payload),
    bind_of_ok (show writeAll layer.payload ⟨_, written⟩ = _ from rfl),
    bind_of_ok (writeU32_run short.children), bind_of_ok (writeChildren_run before)]
  simp only [MerkleLayerContents.encode, ← List.append_assoc]
  rfl

end Export

namespace MerkleLayers

/-- The children of the layer under a hash. -/
def childrenOf (layers : MerkleLayers) (hash : Sha256Hash) : Option (List Sha256Hash) :=
  (layers.get? hash).map MerkleLayerContents.children

/-- The layers under hashes, as items. -/
def itemsOf (app : App) (layers : MerkleLayers) (hashes : List Sha256Hash) :
    List (ExportItem app) :=
  hashes.filterMap fun hash => (layers.get? hash).map .layer

variable {layers : MerkleLayers} {hash hash' : Sha256Hash} {order order' new : List Sha256Hash}

theorem child_childrenOf :
    Postorder.Child layers.childrenOf hash hash' ↔ Merkle.Child layers hash hash' := by
  simp only [Postorder.Child, Merkle.Child, childrenOf, Option.map_eq_some_iff]
  constructor
  · rintro ⟨_, ⟨layer, hget, rfl⟩, hmem⟩
    exact ⟨layer, hget, hmem⟩
  · rintro ⟨layer, hget, hmem⟩
    exact ⟨_, ⟨layer, hget, rfl⟩, hmem⟩

theorem child_childrenOf_eq : Postorder.Child layers.childrenOf = Merkle.Child layers :=
  funext fun _ => funext fun _ => propext child_childrenOf

theorem reaches_childrenOf :
    Postorder.Reaches layers.childrenOf hash hash' ↔ Merkle.Reaches layers hash hash' := by
  rw [Postorder.Reaches, child_childrenOf_eq, Merkle.Reaches]

theorem complete_childrenOf (complete : Merkle.Complete layers hash) :
    Postorder.Complete layers.childrenOf hash := by
  intro below hreaches
  rw [childrenOf, Option.isSome_map]
  exact complete below (reaches_childrenOf.mp hreaches)

/-- The fuel of an export is enough for the layers of a store. -/
theorem budget_lt_exportRounds :
    Postorder.budget layers.childrenOf layers.keys.toFinset order + 3 < layers.exportRounds := by
  have hle : Postorder.budget layers.childrenOf layers.keys.toFinset order ≤
      Postorder.budget layers.childrenOf layers.keys.toFinset [] := Postorder.budget_anti nofun
  have hsum : Postorder.budget layers.childrenOf layers.keys.toFinset [] =
      (layers.toList.map fun entry => entry.2.children.length + 1).sum := by
    have hfilter : (layers.keys.toFinset.filter fun hash => hash ∉ ([] : List Sha256Hash)) =
        layers.keys.toFinset := Finset.filter_true_of_mem fun _ _ => List.not_mem_nil
    rw [Postorder.budget, hfilter, SortedMap.keys, List.sum_toFinset _ layers.nodup_keys,
      List.map_map]
    refine congrArg List.sum (List.map_congr_left fun entry hmem => ?_)
    have hget : layers.get? entry.1 = some entry.2 := SortedMap.get?_eq_some.mpr hmem
    simp only [Function.comp, childrenOf, hget, Option.map_some, Option.getD_some]
  rw [exportRounds]
  omega

/-- The same work, with the layers at hand. -/
inductive SameWork (layers : MerkleLayers) : Postorder.Work Sha256Hash → ExportWork → Prop
  | process (hash : Sha256Hash) : SameWork layers (.process hash) (.process hash)
  | write {hash : Sha256Hash} {layer : MerkleLayerContents} (hget : layers.get? hash = some layer) :
    SameWork layers (.write hash) (.write hash layer)

/-- Layers are written in post-order. -/
theorem writeLayers_of_run {fuel : ℕ} {work : List (Postorder.Work Sha256Hash)}
    {work' : List ExportWork} (same : List.Forall₂ (SameWork layers) work work')
    (hrun : Postorder.run layers.childrenOf fuel work order = some order')
    (short : ∀ hash ∈ order', ∀ layer, layers.get? hash = some layer → layer.Short) :
    ∃ new, order' = order ++ new ∧ ∀ dest,
      Export.writeLayers layers fuel work' ⟨dest, order.toFinset⟩ =
        (.ok (), ⟨dest ++ new.flatMap fun hash =>
          (layers.get? hash).elim [] MerkleLayerContents.encode, order'.toFinset⟩) := by
  induction fuel generalizing work work' order with
  | zero => cases hrun
  | succ fuel ih =>
    cases same with
    | nil =>
      obtain rfl := Option.some.inj hrun
      exact ⟨[], (List.append_nil _).symm, fun dest => by simp [Export.writeLayers]⟩
    | cons hwork same =>
      cases hwork with
      | process hash =>
        rw [Postorder.run] at hrun
        simp only [Export.writeLayers, get_bind, List.mem_toFinset]
        split at hrun
        · rename_i hmem
          simp only [if_pos hmem]
          exact ih same hrun
        · rename_i hmem
          obtain ⟨cs, hcs, hrun⟩ := Option.bind_eq_some_iff.mp hrun
          obtain ⟨layer, hget, rfl⟩ := Option.map_eq_some_iff.mp hcs
          have hstack : List.Forall₂ (SameWork layers)
              ((layer.children.filter (· ∉ order)).map .process).reverse
              ((layer.children.filter (· ∉ order)).map .process).reverse := by
            rw [← List.map_reverse, ← List.map_reverse, List.forall₂_map_left_iff,
              List.forall₂_map_right_iff, List.forall₂_same]
            exact fun hash _ => .process hash
          obtain ⟨new, hnew, hwrite⟩ := ih (List.rel_append hstack (.cons (.write hget) same)) hrun
          refine ⟨new, hnew, fun dest => ?_⟩
          rw [if_neg hmem, fromOption_bind hget]
          exact hwrite dest
      | @write hash layer hget =>
        rw [Postorder.run] at hrun
        simp only [Export.writeLayers, get_bind, List.mem_toFinset]
        split at hrun
        · rename_i hmem
          simp only [if_pos hmem]
          exact ih same hrun
        · rename_i hmem
          obtain ⟨cs, hcs, hrun⟩ := Option.bind_eq_some_iff.mp hrun
          obtain ⟨layer', hget', rfl⟩ := Option.map_eq_some_iff.mp hcs
          obtain rfl : layer = layer' := Option.some.inj (hget.symm.trans hget')
          split at hrun
          · rename_i before
            obtain ⟨new, rfl, hwrite⟩ := ih same hrun
            refine ⟨hash :: new, by simp, fun dest => ?_⟩
            have hshort : layer.Short := short hash (by simp) layer hget
            have hlayer : Export.writeLayer hash layer ⟨dest, order.toFinset⟩ =
                (.ok (), ⟨dest ++ layer.encode, (order ++ [hash]).toFinset⟩) := by
              rw [Export.writeLayer_run hshort fun child hchild =>
                List.mem_toFinset.mpr (before child hchild)]
              simp
            rw [if_neg hmem, bind_of_ok hlayer, hwrite, List.flatMap_cons, hget]
            simp
          · cases hrun

section

variable [Sha256]

/-- Layers that are written in order come once and after their children. -/
theorem layered_itemsOf
    (hash : ∀ {h : Sha256Hash} {layer}, layers.get? h = some layer → layer.hash = h)
    (ordered : Postorder.Ordered layers.childrenOf (order ++ new)) :
    ExportItem.Layered order.toFinset (itemsOf app layers new) ∧
      ExportItem.hashesOf (itemsOf app layers new) = new ∧
      ∀ layer ∈ ExportItem.layersOf (itemsOf app layers new),
        layers.get? layer.hash = some layer := by
  induction new generalizing order with
  | nil => exact ⟨trivial, rfl, nofun⟩
  | cons h new ih =>
    have hsome := ordered.isSome (List.mem_append_right _ (List.mem_cons_self ..))
    rw [childrenOf, Option.isSome_map] at hsome
    obtain ⟨layer, hget⟩ := Option.isSome_iff_exists.mp hsome
    obtain rfl := hash hget
    obtain ⟨layered, hashes, stored⟩ := @ih (order ++ [layer.hash]) (by simpa using ordered)
    have hitems : itemsOf app layers (layer.hash :: new) = .layer layer :: itemsOf app layers new := by
      simp [itemsOf, hget]
    rw [hitems]
    refine ⟨⟨?_, fun child hchild => ?_, ?_⟩, ?_, ?_⟩
    · rw [List.mem_toFinset]
      exact ordered.fresh rfl
    · rw [List.mem_toFinset]
      exact ordered.before rfl (child_childrenOf.mpr ⟨layer, hget, hchild⟩)
    · rw [List.toFinset_append] at layered
      simpa [Finset.union_comm] using layered
    · exact congrArg (layer.hash :: ·) hashes
    · exact List.forall_mem_cons.mpr ⟨hget, stored⟩

end

theorem blocksOf_itemsOf : ExportItem.blocksOf (itemsOf app layers new) = [] := by
  rw [ExportItem.blocksOf, List.filterMap_eq_nil_iff]
  intro item hmem
  obtain ⟨hash, -, hitem⟩ := List.mem_filterMap.mp hmem
  obtain ⟨layer, -, rfl⟩ := Option.map_eq_some_iff.mp hitem
  rfl

theorem encode_itemsOf [Rendered (SignedBlock app.Message)] :
    (itemsOf app layers new).flatMap ExportItem.encode =
      new.flatMap fun hash => (layers.get? hash).elim [] MerkleLayerContents.encode := by
  induction new with
  | nil => rfl
  | cons hash new ih =>
    rw [List.flatMap_cons, ← ih, itemsOf, List.filterMap_cons]
    cases layers.get? hash <;> rfl

end MerkleLayers

/-! ## Ranges -/

namespace HeightRange

variable {range : HeightRange} {height : BlockHeight}

/-- The number of heights in a range with an end. -/
def count (range : HeightRange) : ℕ :=
  match range.endBound with
  | .included last => last + 1 - range.first
  | .excluded last => last - range.first
  | .unbounded => 0

def heights (range : HeightRange) : List BlockHeight := List.range' range.first range.count

theorem contains_iff (bounded : range.endBound ≠ .unbounded) :
    range.contains height ↔ range.first ≤ height ∧ height < range.first + range.count := by
  have included : ∀ first last height : ℕ, first ≤ height ∧ height ≤ last ↔
      first ≤ height ∧ height < first + (last + 1 - first) := by omega
  have excluded : ∀ first last height : ℕ, first ≤ height ∧ height < last ↔
      first ≤ height ∧ height < first + (last - first) := by omega
  have hfirst : range.contains height ↔ range.first ≤ height ∧
      match range.endBound with
      | .included last => height ≤ last
      | .excluded last => height < last
      | .unbounded => True := by
    rw [contains, first]
    refine and_congr_left fun _ => ?_
    cases range.startBound with
    | included start => exact Iff.rfl
    | excluded start => exact Nat.succ_le_iff.symm
    | unbounded => exact ⟨fun _ => Nat.zero_le _, fun _ => trivial⟩
  rw [hfirst, count]
  cases hend : range.endBound with
  | included last => exact included _ _ _
  | excluded last => exact excluded _ _ _
  | unbounded => exact absurd hend bounded

theorem count_lt_rounds (latest : Option BlockHeight) : range.count < range.rounds latest := by
  rw [count, rounds]
  cases range.endBound with
  | included last => exact Nat.lt_add_of_pos_right (by decide)
  | excluded last => exact Nat.lt_add_of_pos_right (by decide)
  | unbounded => exact Nat.succ_pos _

end HeightRange

/-! ## Export -/

namespace KolmeInner

section

variable [MerkleHashed (StorableBlock (SignedBlock app.Message))]
  [Rendered (SignedBlock app.Message)]

/-- A block is found, and everything below its states is there. -/
structure Exports (node : KolmeInner app) (height : BlockHeight) (block : SignedBlock app.Message) :
    Prop where
  loads : ∃ storable, KolmeStore.loadBlock node.store height = .ok (some storable) ∧
    storable.block = block
  fits : (ExportItem.block block).Fits
  complete : ∀ root ∈ block.roots, Complete node.layers root
  short : ∀ root ∈ block.roots, ∀ below layer, Reaches node.layers root below →
    node.layers.get? below = some layer → layer.Short

variable [Sha256]

/-- All blocks of a range with an end can be exported, and no layer is below itnode. -/
structure Exportable (node : KolmeInner app) (range : HeightRange) : Prop where
  bounded : range.endBound ≠ .unbounded
  hash : ∀ {h layer}, node.layers.get? h = some layer → layer.hash = h
  acyclic : Acyclic node.layers
  present : ∀ height, range.contains height → ∃ block, node.Exports height block

/-- What the items hold that were written, with the order of their layers. -/
structure Written (node : KolmeInner app) (items : List (ExportItem app))
    (order : List Sha256Hash) : Prop where
  ordered : Postorder.Ordered node.layers.childrenOf order
  layered : ExportItem.Layered ∅ items
  hashes : ExportItem.hashesOf items = order
  stored : ∀ layer ∈ ExportItem.layersOf items, node.layers.get? layer.hash = some layer
  mem : ∀ hash, hash ∈ order ↔
    ∃ block ∈ ExportItem.blocksOf items, ∃ root ∈ block.roots, Reaches node.layers root hash
  fits : ∀ item ∈ items, item.Fits

variable {self : KolmeInner app} {range : HeightRange} {items : List (ExportItem app)}
  {order : List Sha256Hash} {height : BlockHeight} {block : SignedBlock app.Message}

omit [MerkleHashed (StorableBlock (SignedBlock app.Message))] in
theorem written_nil : self.Written [] [] where
  ordered := .nil
  layered := trivial
  hashes := rfl
  stored := nofun
  mem hash := by simp [ExportItem.blocksOf]
  fits := nofun

omit [MerkleHashed (StorableBlock (SignedBlock app.Message))] in
theorem Written.short (written : self.Written items order) {hash : Sha256Hash}
    {layer : MerkleLayerContents} (hmem : hash ∈ order) (hget : self.layers.get? hash = some layer) :
    layer.Short := by
  rw [← written.hashes] at hmem
  obtain ⟨layer', hlayer', rfl⟩ := List.mem_map.mp hmem
  obtain rfl : layer = layer' :=
    Option.some.inj (hget.symm.trans (written.stored layer' hlayer'))
  obtain ⟨item, hitem, hlayer⟩ := List.mem_filterMap.mp hlayer'
  cases item with
  | layer l =>
    obtain rfl := Option.some.inj hlayer
    exact written.fits _ hitem
  | block b => cases hlayer

/-- A block and its layers are added to what was written. -/
theorem exportBlock_run (able : self.Exportable range) (written : self.Written items order)
    (exports : self.Exports height block) :
    ∃ items' order', self.exportBlock height ⟨items.flatMap ExportItem.encode, order.toFinset⟩ =
        (.ok (), ⟨(items ++ items').flatMap ExportItem.encode, order'.toFinset⟩) ∧
      self.Written (items ++ items') order' ∧ ExportItem.blocksOf items' = [block] := by
  obtain ⟨storable, hload, rfl⟩ := exports.loads
  let roots := [storable.block.message.value.logs, storable.block.message.value.appState,
    storable.block.message.value.frameworkState]
  have hroots : ∀ root, root ∈ roots ↔ root ∈ storable.block.roots := by
    intro root
    simp only [roots, SignedBlock.roots, List.mem_cons, List.not_mem_nil, or_false]
    tauto
  have wf : WellFounded fun child hash => Postorder.Child self.layers.childrenOf hash child := by
    rw [MerkleLayers.child_childrenOf_eq]
    exact able.acyclic.wellFounded
  obtain ⟨order', hrun, visits⟩ :
      ∃ order', Postorder.run self.layers.childrenOf self.layers.exportRounds
        (roots.map .process) order = some order' ∧ _ := by
    refine Postorder.run_visits wf (fun root hroot => ?_) (fun root hroot below hreaches => ?_)
      written.ordered (MerkleLayers.budget_lt_exportRounds)
    · exact MerkleLayers.complete_childrenOf (exports.complete root ((hroots root).mp hroot))
    · have hcontains := exports.complete root ((hroots root).mp hroot) below
        (MerkleLayers.reaches_childrenOf.mp hreaches)
      exact List.mem_toFinset.mpr (SortedMap.mem_keys.mpr (SortedMap.contains_iff.mp hcontains))
  have hshort : ∀ hash ∈ order', ∀ layer, self.layers.get? hash = some layer → layer.Short := by
    intro hash hmem layer hget
    rcases (visits.mem hash).mp hmem with hmem | ⟨root, hroot, hreaches⟩
    · exact written.short hmem hget
    · exact exports.short root ((hroots root).mp hroot) hash layer
        (MerkleLayers.reaches_childrenOf.mp hreaches) hget
  obtain ⟨new, rfl, hwrite⟩ := MerkleLayers.writeLayers_of_run
    (.cons (.process _) (.cons (.process _) (.cons (.process _) .nil))) hrun hshort
  obtain ⟨layered, hashes, stored⟩ : ExportItem.Layered order.toFinset
      (MerkleLayers.itemsOf app self.layers new) ∧ _ :=
    MerkleLayers.layered_itemsOf able.hash visits.ordered
  let items' := MerkleLayers.itemsOf app self.layers new ++ [.block storable.block]
  have hblocks : ExportItem.blocksOf items' = [storable.block] := by
    rw [ExportItem.blocksOf_append, MerkleLayers.blocksOf_itemsOf]
    rfl
  have hhashes : ExportItem.hashesOf items' = new := by
    rw [ExportItem.hashesOf_append, hashes]
    exact List.append_nil new
  have hlayers : ExportItem.layersOf items' =
      ExportItem.layersOf (MerkleLayers.itemsOf app self.layers new) := by
    rw [ExportItem.layersOf_append]
    exact List.append_nil _
  refine ⟨items', order ++ new, ?_, ?_, hblocks⟩
  · rw [exportBlock, lift_bind (by rw [hload]; rfl), fromOption_bind rfl,
      bind_of_ok (hwrite _), Export.writeBlock, bind_of_ok (show Export.writeAll [1] ⟨_, _⟩ = _ from rfl),
      bind_of_ok (Export.writeU32_run exports.fits.1), List.flatMap_append, List.flatMap_append,
      MerkleLayers.encode_itemsOf]
    simp only [ExportItem.encode, List.flatMap_singleton, ← List.append_assoc]
    rfl
  · refine ⟨visits.ordered, ?_, ?_, ?_, fun hash => ?_, ?_⟩
    · refine written.layered.append (.append ?_ ⟨fun root hroot => ?_, trivial⟩)
      · rw [written.hashes, Finset.empty_union]
        exact layered
      · rw [written.hashes, hashes, Finset.empty_union, ← List.toFinset_append, List.mem_toFinset,
          visits.mem]
        exact .inr ⟨root, (hroots root).mpr hroot, .refl⟩
    · rw [ExportItem.hashesOf_append, written.hashes, hhashes]
    · rw [ExportItem.layersOf_append, hlayers]
      exact List.forall_mem_append.mpr ⟨written.stored, stored⟩
    · rw [visits.mem, written.mem, ExportItem.blocksOf_append, hblocks]
      simp only [List.mem_append, List.mem_singleton, or_and_right, exists_or, exists_eq_left,
        hroots, MerkleLayers.reaches_childrenOf]
    · refine List.forall_mem_append.mpr ⟨written.fits, List.forall_mem_append.mpr
        ⟨fun item hitem => ?_, by simpa using exports.fits⟩⟩
      obtain ⟨hash, hmem, hitem⟩ := List.mem_filterMap.mp hitem
      obtain ⟨layer, hget, rfl⟩ := Option.map_eq_some_iff.mp hitem
      exact hshort hash (List.mem_append_right _ hmem) layer hget

/-- Blocks are exported from one height on. -/
theorem exportFrom_run (able : self.Exportable range) {count fuel : ℕ} {curr : BlockHeight}
    (hfuel : count < fuel) (hrange : ∀ i : ℕ, range.contains (curr + i) ↔ i < count)
    (written : self.Written items order) :
    ∃ items' order', self.exportFrom range fuel curr ⟨items.flatMap ExportItem.encode,
          order.toFinset⟩ =
        (.ok (), ⟨(items ++ items').flatMap ExportItem.encode, order'.toFinset⟩) ∧
      self.Written (items ++ items') order' ∧
      List.Forall₂ self.Exports (List.range' curr count) (ExportItem.blocksOf items') := by
  induction count generalizing fuel curr items order with
  | zero =>
    obtain ⟨fuel, rfl⟩ := Nat.exists_eq_succ_of_ne_zero (Nat.ne_of_gt hfuel)
    have hend : ¬range.contains curr := fun h => Nat.not_lt_zero 0 ((hrange 0).mp h)
    refine ⟨[], order, ?_, (List.append_nil items).symm ▸ written, .nil⟩
    rw [exportFrom, if_neg hend, List.append_nil]
    rfl
  | succ count ih =>
    obtain ⟨fuel, rfl⟩ := Nat.exists_eq_succ_of_ne_zero (Nat.ne_of_gt (Nat.zero_lt_of_lt hfuel))
    have hcurr : range.contains curr := (hrange 0).mpr (Nat.succ_pos count)
    obtain ⟨block, exports⟩ := able.present curr hcurr
    obtain ⟨items₁, order₁, hblock, written₁, hblocks⟩ := exportBlock_run able written exports
    have hrange₁ : ∀ i : ℕ, range.contains (curr + 1 + i) ↔ i < count := by
      intro i
      rw [show curr + 1 + i = curr + (i + 1) from Nat.succ_add_eq_add_succ curr i, hrange,
        Nat.succ_lt_succ_iff]
    obtain ⟨items₂, order₂, hrest, written₂, hall⟩ :=
      ih (Nat.lt_of_succ_lt_succ hfuel) hrange₁ written₁
    refine ⟨items₁ ++ items₂, order₂, ?_, (List.append_assoc items _ _) ▸ written₂, ?_⟩
    · rw [exportFrom, if_pos hcurr, bind_of_ok hblock, hrest, List.append_assoc]
    · rw [List.range'_succ, ExportItem.blocksOf_append, hblocks]
      exact .cons exports hall

theorem exportBlocksTo_written (able : self.Exportable range) :
    ∃ items order, self.exportBlocksTo range = .ok (items.flatMap ExportItem.encode) ∧
      self.Written items order ∧
      List.Forall₂ self.Exports range.heights (ExportItem.blocksOf items) := by
  have hrange : ∀ i : ℕ, range.contains (range.first + i) ↔ i < range.count := by
    intro i
    rw [HeightRange.contains_iff able.bounded]
    exact ⟨fun h => Nat.lt_of_add_lt_add_left h.2,
      fun h => ⟨Nat.le_add_right _ _, Nat.add_lt_add_left h _⟩⟩
  obtain ⟨items, order, hrun, written, hall⟩ :=
    exportFrom_run able (HeightRange.count_lt_rounds _) hrange written_nil
  refine ⟨items, order, ?_, written, hall⟩
  have hfinish : (self.exportFrom range _ range.first).finish ⟨[], ∅⟩ = _ :=
    finish_eq_ok.mpr hrun
  rw [exportBlocksTo, hfinish]
  rfl

omit [MerkleHashed (StorableBlock (SignedBlock app.Message))] in
theorem Written.mem_layersOf (written : self.Written items order) {layer : MerkleLayerContents} :
    layer ∈ ExportItem.layersOf items ↔ self.layers.get? layer.hash = some layer ∧
      ∃ block ∈ ExportItem.blocksOf items, ∃ root ∈ block.roots,
        Reaches self.layers root layer.hash := by
  rw [← written.mem, ← written.hashes]
  constructor
  · exact fun hmem => ⟨written.stored layer hmem, List.mem_map_of_mem hmem⟩
  · rintro ⟨hget, hmem⟩
    obtain ⟨layer', hlayer', hhash⟩ := List.mem_map.mp hmem
    have hget' := written.stored layer' hlayer'
    rw [hhash, hget] at hget'
    exact Option.some.inj hget' ▸ hlayer'

/-- A bounded range of blocks is exported as items: the blocks in the order of their heights, and the
layers below their states, each once, after its children, and before the blocks that need it. -/
theorem exportBlocksTo_layered (able : self.Exportable range) :
    ∃ items, self.exportBlocksTo range = .ok (items.flatMap ExportItem.encode) ∧
      ExportItem.Layered ∅ items ∧
      List.Forall₂ self.Exports range.heights (ExportItem.blocksOf items) ∧
      ∀ layer, layer ∈ ExportItem.layersOf items ↔ self.layers.get? layer.hash = some layer ∧
        ∃ block ∈ ExportItem.blocksOf items, ∃ root ∈ block.roots,
          Reaches self.layers root layer.hash := by
  obtain ⟨items, order, hexport, written, hall⟩ := exportBlocksTo_written able
  exact ⟨items, hexport, written.layered, hall, fun _ => written.mem_layersOf⟩

end

end KolmeInner

end Kolme
