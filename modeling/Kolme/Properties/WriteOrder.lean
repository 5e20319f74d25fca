import Kolme.Components.LayerWriters
import Kolme.Merkle.Closure
import Kolme.Properties.ContentsLoading
import Kolme.Properties.SyncSlots

/-!
# The order of writes

Whatever tasks write to a store, and in whatever order they take their turns, a layer is written
when its children are stored. Hashes never leave the store. So after every write all that is below a
stored hash is stored, and it can be loaded if the layers have no cycle.
-/

namespace Kolme

open Exec Merkle

section

variable {app : App} [Sha256] {P : MerkleLayerContents → Prop}

/-! ## Stores with layers of a kind -/

namespace MerkleLayers

variable {layers layers' : MerkleLayers} {layer : MerkleLayerContents} {hash : Sha256Hash}

/-- Every layer is under its hash, has the property, and its children are stored. -/
structure Sound (P : MerkleLayerContents → Prop) (layers : MerkleLayers) : Prop where
  hash : ∀ {h layer}, layers.get? h = some layer → layer.hash = h
  holds : ∀ {h layer}, layers.get? h = some layer → P layer
  closed : ∀ {h layer}, layers.get? h = some layer → ∀ child ∈ layer.children,
    layers.contains child = true

theorem sound_empty : Sound P ∅ := ⟨nofun, nofun, nofun⟩

/-- A layer is written after its children, also over another layer. -/
theorem Sound.insert (sound : Sound P layers) (hlayer : P layer)
    (hchildren : ∀ child ∈ layer.children, layers.contains child = true) :
    Sound P (layers.insert layer.hash layer) where
  hash {h l} hget := by
    rw [SortedMap.get?_insert] at hget
    split at hget
    · rw [← Option.some.inj hget, ‹h = layer.hash›]
    · exact sound.hash hget
  holds {h l} hget := by
    rw [SortedMap.get?_insert] at hget
    split at hget
    · exact Option.some.inj hget ▸ hlayer
    · exact sound.holds hget
  closed {h l} hget child hchild := by
    rw [SortedMap.get?_insert] at hget
    split at hget
    · exact grows_insert _ _ (hchildren child (Option.some.inj hget ▸ hchild))
    · exact grows_insert _ _ (sound.closed hget child hchild)

theorem saveByHash_eq_ok {backend : Backend} (h : layers.saveByHash backend layer = .ok layers') :
    layers' = layers ∧ layers.contains layer.hash = true ∨
      layers' = layers.insert layer.hash layer := by
  rw [saveByHash] at h
  split at h
  · exact .inr (Except.ok.inj h).symm
  · rename_i value hget
    have hcontains := SortedMap.contains_iff.mpr ⟨value, hget⟩
    split at h
    · split at h
      · exact .inl ⟨(Except.ok.inj h).symm, hcontains⟩
      · cases h
    · exact .inr (Except.ok.inj h).symm
    · exact .inl ⟨(Except.ok.inj h).symm, hcontains⟩

/-- What a write does: more hashes are stored, and the store is as sound as before. -/
structure Writes (P : MerkleLayerContents → Prop) (layers layers' : MerkleLayers) : Prop where
  grows : layers.Grows layers'
  sound : Sound P layers → Sound P layers'

theorem Writes.refl (layers : MerkleLayers) : Writes P layers layers := ⟨id, id⟩

theorem writes_of_saveByHash {backend : Backend}
    (h : layers.saveByHash backend layer = .ok layers') (hlayer : P layer)
    (hchildren : ∀ child ∈ layer.children, layers.contains child = true) :
    Writes P layers layers' := by
  rcases saveByHash_eq_ok h with ⟨rfl, -⟩ | rfl
  · exact .refl layers'
  · exact ⟨grows_insert _ _, fun sound => sound.insert hlayer hchildren⟩

/-- All that is below a stored hash is stored. -/
theorem Sound.complete (sound : Sound P layers) (hstored : layers.contains hash = true) :
    Merkle.Complete layers hash := by
  intro below hreaches
  induction hreaches with
  | refl => exact hstored
  | tail _ hchild _ =>
    obtain ⟨layer, hget, hmem⟩ := hchild
    exact sound.closed hget _ hmem

end MerkleLayers

/-! ## Turns -/

/-- The hashes of a store. -/
def StoredLayers.hashes (self : StoredLayers) : Set Sha256Hash := {h | self.layers.contains h = true}

theorem StoredLayers.saveByHash_eq_ok {self self' : StoredLayers} {layer : MerkleLayerContents}
    (h : LayerStore.saveByHash self layer = .ok self') :
    ∃ layers, self.layers.saveByHash self.backend layer = .ok layers ∧
      self' = { self with layers } := by
  change (((self.layers.saveByHash self.backend layer).mapError fun _ => MerkleSerialError.panic) >>=
    fun layers => pure ({ self with layers } : StoredLayers)) = _ at h
  obtain ⟨layers, hsave, h⟩ := Except.bind_eq_ok.mp h
  exact ⟨layers, Except.mapError_eq_ok.mp hsave, (Except.ok.inj h).symm⟩

/-- The loop while it saves a value: nothing is written before its children. -/
structure Merkle.Saving.Underway (root : MerkleContents) (loop : Saving StoredLayers) : Prop where
  saved : ∀ h ∈ loop.saved, loop.store.layers.contains h = true
  within : ∀ work ∈ loop.work, MerkleContents.Within work.contents root
  ready : Worklist.Ready (fun work : Work => work.contents.hash) Work.needs root.hash
    loop.store.hashes loop.work

namespace Merkle.Saving

variable {root contents : MerkleContents} {self next : Saving StoredLayers} {store : StoredLayers}

theorem underway_start (store : StoredLayers) (root : MerkleContents) :
    (start store root).Underway root where
  saved h hmem := absurd hmem (Finset.notMem_empty h)
  within _ hwork := List.mem_singleton.mp hwork ▸ .refl root
  ready := ⟨nofun, .inl rfl⟩

/-- Other tasks may write in between. -/
theorem Underway.mono (h : self.Underway root) (hgrows : self.store.layers.Grows store.layers) :
    Underway root { self with store } where
  saved k hk := hgrows (h.saved k hk)
  within := h.within
  ready := h.ready.mono fun _ hk => hgrows hk

theorem Underway.step (h : self.Underway root) (hstep : self.step = .ok next)
    (hroot : ∀ within, MerkleContents.Within within root → P within.layer) :
    next.Underway root ∧ MerkleLayers.Writes P self.store.layers next.store.layers := by
  obtain ⟨store, work, saved⟩ := self
  match work with
  | [] => exact Except.ok.inj hstep ▸ ⟨h, .refl _⟩
  | ⟨contents, true⟩ :: work =>
    obtain rfl := Except.ok.inj hstep
    have hmissing : ∀ w ∈ (contents.children.filter fun child =>
        !store.layers.contains child.hash).reverse.map (Work.mk · true),
        ∃ child ∈ contents.children, w = ⟨child, true⟩ := by
      intro w hw
      obtain ⟨child, hchild, rfl⟩ := List.mem_map.mp hw
      exact ⟨child, (List.mem_filter.mp (List.mem_reverse.mp hchild)).1, rfl⟩
    refine ⟨⟨h.saved, fun w hw => ?_, ?_⟩, .refl _⟩
    · rcases List.mem_append.mp hw with hw | hw
      · obtain ⟨child, hchild, rfl⟩ := hmissing w hw
        exact (MerkleContents.Within.child hchild (.refl child)).trans
          (h.within ⟨contents, true⟩ (List.mem_cons_self ..))
      · rcases List.mem_cons.mp hw with rfl | hw
        · exact h.within ⟨contents, true⟩ (List.mem_cons_self ..)
        · exact h.within w (List.mem_cons_of_mem _ hw)
    · refine h.ready.expand rfl (fun w hw => ?_) fun k hk => ?_
      · obtain ⟨child, -, rfl⟩ := hmissing w hw
        rfl
      · obtain ⟨child, hchild, rfl⟩ := List.mem_map.mp hk
        cases hstored : store.layers.contains child.hash with
        | true => exact .inl hstored
        | false =>
          refine .inr (List.mem_map.mpr ⟨⟨child, true⟩, List.mem_map.mpr ⟨child, ?_, rfl⟩, rfl⟩)
          rw [List.mem_reverse, List.mem_filter]
          exact ⟨hchild, congrArg not hstored⟩
  | ⟨contents, false⟩ :: work =>
    simp only [Saving.step] at hstep
    split at hstep
    · obtain rfl := Except.ok.inj hstep
      exact ⟨⟨h.saved, fun w hw => h.within w (List.mem_cons_of_mem _ hw),
        h.ready.skip (h.saved _ ‹_›)⟩, .refl _⟩
    · obtain ⟨store', hsave, hstep⟩ := Except.bind_eq_ok.mp hstep
      obtain ⟨layers, hsaved, rfl⟩ := StoredLayers.saveByHash_eq_ok hsave
      obtain rfl := Except.ok.inj hstep
      have hlayer : P contents.layer := hroot contents (h.within _ (List.mem_cons_self ..))
      have hwrites := MerkleLayers.writes_of_saveByHash hsaved hlayer h.ready.1
      have hstored : layers.contains contents.hash = true := by
        rcases MerkleLayers.saveByHash_eq_ok hsaved with ⟨rfl, hcontains⟩ | rfl
        · exact hcontains
        · exact MerkleLayers.contains_insert.mpr (.inl rfl)
      refine ⟨⟨fun k hk => ?_, fun w hw => h.within w (List.mem_cons_of_mem _ hw), ?_⟩, hwrites⟩
      · rcases Finset.mem_insert.mp hk with rfl | hk
        · exact hstored
        · exact hwrites.grows (h.saved k hk)
      · refine h.ready.2.mono fun k hk => ?_
        rcases hk with rfl | hk
        · exact hstored
        · exact hwrites.grows hk

end Merkle.Saving

/-- The layer that an item of work is about. -/
def IngestWork.layer? : IngestWork → Option MerkleLayerContents
  | .process _ => none
  | .write layer => some layer
  | .add layer => some layer

namespace KolmeInner

variable {self self' : KolmeInner app} {layer : MerkleLayerContents} {other : MerkleLayers}
  {work work' : List IngestWork}

theorem addMerkleLayer_eq_ok (h : addMerkleLayer layer self = (.ok (), self')) :
    (∀ child ∈ layer.children, self.layers.contains child = true) ∧
      ∃ layers, self.layers.saveByHash self.store.inner.backend layer = .ok layers ∧
        { self with layers } = self' := by
  rw [addMerkleLayer, get_bind] at h
  obtain ⟨_, _, hensure, h⟩ := bind_eq_ok.mp h
  obtain ⟨children, rfl⟩ := ensure_eq_ok.mp hensure
  obtain ⟨layers, _, hlift, h⟩ := bind_eq_ok.mp h
  obtain ⟨hsave, rfl⟩ := lift_eq_ok.mp hlift
  exact ⟨children, layers, hsave, modify_eq_ok.mp h⟩

theorem writes_of_addMerkleLayer (h : addMerkleLayer layer self = (.ok (), self'))
    (hlayer : P layer) : MerkleLayers.Writes P self.layers self'.layers := by
  obtain ⟨children, layers, hsave, rfl⟩ := addMerkleLayer_eq_ok h
  exact MerkleLayers.writes_of_saveByHash hsave hlayer children

/-- A turn of the copying loop writes a layer of the work. The layers to write come from the other
store. -/
theorem ingestTurn_eq_ok (h : self.ingestTurn other work = .ok (self', work'))
    (hother : ∀ k l, other.get? k = some l → P l)
    (hwork : ∀ item ∈ work, ∀ l ∈ item.layer?, P l) :
    MerkleLayers.Writes P self.layers self'.layers ∧ ∀ item ∈ work', ∀ l ∈ item.layer?, P l := by
  rcases work with _ | ⟨hash | layer | layer, work⟩
  case nil =>
    obtain ⟨rfl, rfl⟩ := Prod.mk.inj (Except.ok.inj h)
    exact ⟨.refl _, hwork⟩
  case cons.process =>
    rw [List.forall_mem_cons] at hwork
    rw [ingestTurn] at h
    split at h
    · obtain ⟨rfl, rfl⟩ := Prod.mk.inj (Except.ok.inj h)
      exact ⟨.refl _, hwork.2⟩
    · obtain ⟨layer, hlayer, h⟩ := Except.bind_eq_ok.mp h
      obtain ⟨rfl, rfl⟩ := Prod.mk.inj (Except.ok.inj h)
      refine ⟨.refl _, fun item hmem l hl => ?_⟩
      rcases List.mem_append.mp hmem with hmem | hmem
      · obtain ⟨child, -, rfl⟩ := List.mem_map.mp hmem
        cases hl
      · rcases List.mem_cons.mp hmem with rfl | hmem
        · obtain rfl := Option.mem_some.mp hl
          exact hother hash layer (Except.fromOption_eq_ok.mp hlayer)
        · exact hwork.2 item hmem l hl
  case cons.write =>
    rw [List.forall_mem_cons] at hwork
    rw [ingestTurn] at h
    split at h
    · obtain ⟨rfl, rfl⟩ := Prod.mk.inj (Except.ok.inj h)
      exact ⟨.refl _, hwork.2⟩
    · obtain ⟨rfl, rfl⟩ := Prod.mk.inj (Except.ok.inj h)
      exact ⟨.refl _, List.forall_mem_cons.mpr ⟨hwork.1, hwork.2⟩⟩
  case cons.add =>
    rw [List.forall_mem_cons] at hwork
    rw [ingestTurn] at h
    obtain ⟨_, hadd, h⟩ := Except.bind_eq_ok.mp h
    obtain ⟨rfl, rfl⟩ := Prod.mk.inj (Except.ok.inj h)
    exact ⟨writes_of_addMerkleLayer (finish_eq_ok.mp hadd) (hwork.1 layer rfl), hwork.2⟩

end KolmeInner

namespace Download

variable {self self' : Download app} {frames frames' : List Frame} {order : VisitOrder}
  {hash : Sha256Hash} {layer : MerkleLayerContents}

/-- The layers that wait, and the one to write, have the property. -/
structure Brought (P : MerkleLayerContents → Prop) (download : Download app)
    (frames : List Frame) : Prop where
  pending : ∀ {k l}, download.pending.pendingLayers.get? k = some l → P l
  frames : ∀ {k l}, .add k l ∈ frames → P l

omit [Sha256] in
theorem Brought.completed (h : Brought P self frames) (order : VisitOrder) (hash : Sha256Hash) :
    Brought P (self.completed hash) (self.parentFrames order hash ++ frames) where
  pending {k l} hget := by
    change (self.pending.pendingLayers.erase hash).get? k = some l at hget
    rw [SortedMap.get?_erase] at hget
    split at hget
    · cases hget
    · exact h.pending hget
  frames {k l} hmem := by
    rcases List.mem_append.mp hmem with hmem | hmem
    · rw [parentFrames] at hmem
      split at hmem
      · cases hmem
      · simp at hmem
    · exact h.frames hmem

/-- A turn of the completion writes a layer that waited. -/
theorem releaseTurn_eq_ok (h : self.releaseTurn order frames = .ok (self', frames'))
    (hbrought : Brought P self frames) :
    MerkleLayers.Writes P self.kolme.layers self'.kolme.layers ∧ Brought P self' frames' := by
  rcases frames with _ | ⟨hash | ⟨hash, layer⟩ | hash, frames⟩
  case nil =>
    obtain ⟨rfl, rfl⟩ := Prod.mk.inj (Except.ok.inj h)
    exact ⟨.refl _, hbrought⟩
  case cons.done =>
    simp only [releaseTurn, Except.ok.injEq, Prod.mk.injEq] at h
    obtain ⟨rfl, rfl⟩ := h
    refine ⟨.refl _, ⟨hbrought.pending, fun hmem => ?_⟩⟩
    exact hbrought.frames (List.mem_cons_of_mem _ hmem)
  case cons.process =>
    have hrest : Brought P self frames :=
      ⟨hbrought.pending, fun hmem => hbrought.frames (List.mem_cons_of_mem _ hmem)⟩
    rw [releaseTurn] at h
    split at h
    · obtain ⟨rfl, rfl⟩ := Prod.mk.inj (Except.ok.inj h)
      exact ⟨.refl _, hrest.completed order hash⟩
    · split at h
      · obtain ⟨rfl, rfl⟩ := Prod.mk.inj (Except.ok.inj h)
        exact ⟨.refl _, hrest⟩
      · rename_i layer hpending
        split at h
        · obtain ⟨rfl, rfl⟩ := Prod.mk.inj (Except.ok.inj h)
          refine ⟨.refl _, hrest.pending, fun {k l} hmem => ?_⟩
          rcases List.mem_cons.mp hmem with heq | hmem
          · cases heq
            exact hrest.pending hpending
          · exact hrest.frames hmem
        · obtain ⟨rfl, rfl⟩ := Prod.mk.inj (Except.ok.inj h)
          exact ⟨.refl _, hrest⟩
  case cons.add =>
    have hrest : Brought P self frames :=
      ⟨hbrought.pending, fun hmem => hbrought.frames (List.mem_cons_of_mem _ hmem)⟩
    rw [releaseTurn] at h
    obtain ⟨_, hadd, h⟩ := Except.bind_eq_ok.mp h
    obtain ⟨rfl, rfl⟩ := Prod.mk.inj (Except.ok.inj h)
    obtain ⟨kolme, hkolme, rfl⟩ := zoom_eq_ok.mp (finish_eq_ok.mp hadd)
    have hlayer : P layer := hbrought.frames (List.mem_cons_self ..)
    refine ⟨KolmeInner.writes_of_addMerkleLayer hkolme hlayer, ?_⟩
    have hwritten : Brought P { self with kolme } frames := ⟨hrest.pending, hrest.frames⟩
    exact hwritten.completed order hash

omit [Sha256] in
/-- Waiting for children leaves the pending layers alone. -/
theorem pendingLayers_await (pending : PendingBlock app) (hash : Sha256Hash)
    (missing : List Sha256Hash) :
    (missing.foldl (fun self child => self.await hash child) pending).pendingLayers =
      pending.pendingLayers := by
  induction missing generalizing pending with
  | nil => rfl
  | cons child missing ih => exact ih (pending.await hash child)

omit [Sha256] in
/-- Receiving a layer writes nothing, and only this layer is pending then. -/
theorem Brought.receiveLayer (h : Brought P self []) (hash : Sha256Hash) (hlayer : P layer) :
    (self.receiveLayer hash layer).1.kolme = self.kolme ∧
      Brought P (self.receiveLayer hash layer).1 (self.receiveLayer hash layer).2 := by
  unfold Download.receiveLayer
  split
  · exact ⟨rfl, h⟩
  · split
    · exact ⟨rfl, h.pending, nofun⟩
    · refine ⟨rfl, fun {k l} hget => ?_, fun {k l} hmem => ?_⟩
      · change ((_ : SortedMap _ _).insert hash layer).get? k = some l at hget
        rw [pendingLayers_await, SortedMap.get?_insert] at hget
        split at hget
        · exact Option.some.inj hget ▸ hlayer
        · exact h.pending hget
      · dsimp only at hmem
        split at hmem
        · simp at hmem
        · cases hmem

end Download

/-! ## Runs -/

/-- What a task that saves or copies may write has the property, and it writes children first. -/
def Writer.Kept (P : MerkleLayerContents → Prop) (store : StoredLayers) : Writer → Prop
  | .saving work saved =>
    ∃ root, (∀ within, MerkleContents.Within within root → P within.layer) ∧
      Saving.Underway root ⟨store, work, saved⟩
  | .ingesting other work =>
    (∀ k l, other.get? k = some l → P l) ∧ ∀ item ∈ work, ∀ l ∈ item.layer?, P l

theorem Writer.Kept.mono {writer : Writer} {store store' : StoredLayers}
    (kept : writer.Kept P store) (hgrows : store.layers.Grows store'.layers) :
    writer.Kept P store' := by
  cases writer with
  | saving work saved =>
    obtain ⟨root, hroot, underway⟩ := kept
    exact ⟨root, hroot, underway.mono hgrows⟩
  | ingesting other work => exact kept

theorem KolmeInner.writerTurn_eq_ok {self self' : KolmeInner app} {writer writer' : Writer}
    (h : self.writerTurn writer = .ok (self', writer'))
    (kept : writer.Kept P self.storedLayers) :
    MerkleLayers.Writes P self.layers self'.layers ∧ writer'.Kept P self'.storedLayers := by
  cases writer with
  | saving work saved =>
    obtain ⟨root, hroot, underway⟩ := kept
    obtain ⟨loop, hstep, h⟩ := Except.bind_eq_ok.mp h
    obtain ⟨rfl, rfl⟩ := Prod.mk.inj (Except.ok.inj h)
    obtain ⟨underway', hwrites⟩ := underway.step (Except.mapError_eq_ok.mp hstep) hroot
    exact ⟨hwrites, root, hroot, underway'.mono id⟩
  | ingesting other work =>
    obtain ⟨⟨kolme, work'⟩, hturn, h⟩ := Except.bind_eq_ok.mp h
    obtain ⟨rfl, rfl⟩ := Prod.mk.inj (Except.ok.inj h)
    obtain ⟨hwrites, hwork⟩ := ingestTurn_eq_ok hturn kept.1 kept.2
    exact ⟨hwrites, kept.1, hwork⟩

namespace Writers

variable {w w' : Writers app} {order : VisitOrder}

def layers (w : Writers app) : MerkleLayers := w.download.kolme.layers

/-- The store is sound, and all that is on its way to the store has the property. -/
structure Kept (P : MerkleLayerContents → Prop) (w : Writers app) : Prop where
  sound : MerkleLayers.Sound P w.layers
  brought : Download.Brought P w.download w.frames
  writers : ∀ writer ∈ w.writers, writer.Kept P w.download.kolme.storedLayers

/-- A new node, at which nothing goes on. -/
structure Starts (w : Writers app) : Prop where
  layers : w.layers = ∅
  pending : w.download.pending.pendingLayers = .empty
  frames : w.frames = []
  writers : w.writers = []

theorem Starts.kept (starts : w.Starts) : w.Kept P where
  sound := starts.layers ▸ MerkleLayers.sound_empty
  brought := ⟨by rw [starts.pending]; exact fun h => (by cases h),
    by rw [starts.frames]; exact fun h => (by cases h)⟩
  writers := by rw [starts.writers]; exact List.forall_mem_nil _

/-- What a call brings has the property: the layers of the value to save, of the store to copy from,
and the one from a peer. -/
def Brings (P : MerkleLayerContents → Prop) : WriterCall app → Prop
  | .save contents => ∀ within, MerkleContents.Within within contents → P within.layer
  | .ingest other _ => ∀ k l, other.get? k = some l → P l
  | .receive _ layer => P layer
  | _ => True

theorem Kept.step {call : WriterCall app} (h : w.Kept P) (brings : Brings P call)
    (hstep : w.step order call = .ok w') : w'.Kept P := by
  cases call with
  | save contents =>
    obtain rfl := Except.ok.inj hstep
    split
    · exact h
    · refine ⟨h.sound, h.brought, fun writer hmem => ?_⟩
      rcases List.mem_append.mp hmem with hmem | hmem
      · exact h.writers writer hmem
      · obtain rfl := List.mem_singleton.mp hmem
        exact ⟨contents, brings, Saving.underway_start _ contents⟩
  | ingest other hash =>
    obtain rfl := Except.ok.inj hstep
    refine ⟨h.sound, h.brought, fun writer hmem => ?_⟩
    rcases List.mem_append.mp hmem with hmem | hmem
    · exact h.writers writer hmem
    · obtain rfl := List.mem_singleton.mp hmem
      refine ⟨brings, fun item hitem l hl => ?_⟩
      obtain rfl := List.mem_singleton.mp hitem
      cases hl
  | turn task =>
    obtain ⟨writer, hwriter, hstep⟩ := Except.bind_eq_ok.mp hstep
    obtain ⟨⟨kolme, writer'⟩, hturn, hstep⟩ := Except.bind_eq_ok.mp hstep
    obtain rfl := Except.ok.inj hstep
    have hmem := List.mem_of_getElem? (Except.fromOption_eq_ok.mp hwriter)
    obtain ⟨hwrites, kept⟩ := KolmeInner.writerTurn_eq_ok hturn (h.writers writer hmem)
    refine ⟨hwrites.sound h.sound, ⟨h.brought.pending, h.brought.frames⟩, fun other hother => ?_⟩
    rcases List.mem_or_eq_of_mem_set hother with hother | rfl
    · exact (h.writers other hother).mono hwrites.grows
    · exact kept
  | giveUp task =>
    obtain rfl := Except.ok.inj hstep
    exact ⟨h.sound, h.brought, fun writer hmem => h.writers writer (List.mem_of_mem_eraseIdx hmem)⟩
  | download block =>
    obtain ⟨_, -, hstep⟩ := Except.bind_eq_ok.mp hstep
    obtain rfl := Except.ok.inj hstep
    exact ⟨h.sound, ⟨fun h => (by cases h), h.brought.frames⟩, h.writers⟩
  | receive hash layer =>
    obtain ⟨_, hwaiting, hstep⟩ := Except.bind_eq_ok.mp hstep
    have hframes : w.frames = [] := by
      have hwaiting := Except.ensure_eq_ok.mp hwaiting
      cases hlist : w.frames with
      | nil => rfl
      | cons frame frames => simp [hlist] at hwaiting
    split at hstep
    · obtain rfl := Except.ok.inj hstep
      have hbrought := h.brought
      rw [hframes] at hbrought
      obtain ⟨hkolme, hbrought⟩ := hbrought.receiveLayer hash brings
      refine ⟨?_, hbrought, ?_⟩
      · change MerkleLayers.Sound P (w.download.receiveLayer hash layer).1.kolme.layers
        rw [hkolme]
        exact h.sound
      · change ∀ writer ∈ w.writers,
          writer.Kept P (w.download.receiveLayer hash layer).1.kolme.storedLayers
        rw [hkolme]
        exact h.writers
    · obtain rfl := Except.ok.inj hstep
      exact h
  | scan limit now =>
    obtain ⟨_, -, hstep⟩ := Except.bind_eq_ok.mp hstep
    obtain rfl := Except.ok.inj hstep
    exact ⟨h.sound, ⟨h.brought.pending, h.brought.frames⟩, h.writers⟩
  | downloadTurn =>
    obtain ⟨⟨download, frames⟩, hturn, hstep⟩ := Except.bind_eq_ok.mp hstep
    obtain rfl := Except.ok.inj hstep
    obtain ⟨hwrites, hbrought⟩ := Download.releaseTurn_eq_ok hturn h.brought
    exact ⟨hwrites.sound h.sound, hbrought,
      fun writer hmem => (h.writers writer hmem).mono hwrites.grows⟩
  | giveUpDownload =>
    obtain rfl := Except.ok.inj hstep
    exact ⟨h.sound, ⟨h.brought.pending, fun h => (by cases h)⟩, h.writers⟩
  | stop =>
    obtain rfl := Except.ok.inj hstep
    exact ⟨h.sound, ⟨fun h => (by cases h), fun h => (by cases h)⟩, List.forall_mem_nil _⟩

theorem Starts.run (starts : w.Starts) {calls : List (WriterCall app)}
    (brings : ∀ call ∈ calls, Brings P call) : ((machine order).run w calls).Kept P :=
  (machine order).run_invariant_along (fun _ _ _ h brings hstep => h.step brings hstep)
    starts.kept ((machine order).along_of_forall (fun call hmem _ => brings call hmem) w)

/-! ## What is stored can be loaded -/

/-- Whatever tasks write to the store of a new node, in whatever order they take turns and wherever
they stop: all that is below a stored hash is stored, and without a cycle the hash can be loaded. -/
theorem stored_is_loadable (starts : w.Starts) (calls : List (WriterCall app)) {hash : Sha256Hash}
    (hstored : ((machine order).run w calls).layers.contains hash = true) :
    Merkle.Complete ((machine order).run w calls).layers hash ∧
      (Acyclic ((machine order).run w calls).layers →
        ∃ contents, Loader.loadMerkleContents (fun _ _ => none) ((machine order).run w calls).layers
            hash = .ok contents ∧
          Tree (fun _ _ => none) ((machine order).run w calls).layers hash contents) := by
  have kept : ((machine order).run w calls).Kept fun _ => True := starts.run fun call _ => by
    cases call <;> simp [Brings]
  have complete := kept.sound.complete hstored
  exact ⟨complete, fun hacyclic => Loader.exists_tree hacyclic complete⟩

end Writers

/-! ## Layers with the children that their payloads refer to -/

namespace MerkleLayers

variable {refs : Bytes → List Sha256Hash} {layers : MerkleLayers} {hash : Sha256Hash}
  {contents within : MerkleContents}

theorem Sound.whole (sound : Sound (fun layer => layer.children = refs layer.payload) layers) :
    Whole refs layers :=
  ⟨sound.hash, sound.holds, sound.closed⟩

omit [Sha256] in
theorem tree_of_within (tree : Tree (fun _ _ => none) layers hash contents)
    (hwithin : MerkleContents.Within within contents) :
    ∃ below, Tree (fun _ _ => none) layers below within := by
  induction hwithin generalizing hash with
  | refl => exact ⟨hash, tree⟩
  | child hchild _ ih =>
    cases tree with
    | cached hcache => cases hcache
    | layer hget hlength hchildren =>
      obtain ⟨i, hi⟩ := List.mem_iff_getElem?.mp hchild
      have hlt := hlength ▸ (List.getElem?_eq_some_iff.mp hi).1
      exact ih (hchildren i _ _ (List.getElem?_eq_getElem hlt) hi)

/-- What a whole store has under a hash is under the hash and refers to its children. -/
theorem Whole.tree (whole : Whole refs layers)
    (tree : Tree (fun _ _ => none) layers hash contents) :
    contents.hash = hash ∧ contents.children.map MerkleContents.hash = refs contents.payload := by
  induction tree with
  | cached hcache => cases hcache
  | layer hget hlength hchildren ih =>
    rename_i hash layer children
    refine ⟨whole.hash hget, ?_⟩
    change children.map MerkleContents.hash = refs layer.payload
    rw [← whole.children hget]
    refine List.ext_getElem? fun i => ?_
    rw [List.getElem?_map]
    by_cases hi : i < children.length
    · have hi' := hlength ▸ hi
      rw [List.getElem?_eq_getElem hi, List.getElem?_eq_getElem hi', Option.map_some,
        (ih i _ _ (List.getElem?_eq_getElem hi') (List.getElem?_eq_getElem hi)).1]
    · have hi' := hlength ▸ hi
      rw [List.getElem?_eq_none (not_lt.mp hi), List.getElem?_eq_none (not_lt.mp hi')]
      rfl

end MerkleLayers

/-- If all layers that are brought list the children that their payloads refer to, then so do all
stored layers, and a stored hash is loaded as contents that are authentic. -/
theorem Writers.loaded_is_authentic {refs : Bytes → List Sha256Hash} {w : Writers app}
    {order : VisitOrder} (starts : w.Starts) {calls : List (WriterCall app)}
    (brings : ∀ call ∈ calls, Brings (fun layer => layer.children = refs layer.payload) call)
    {hash : Sha256Hash} (hstored : ((machine order).run w calls).layers.contains hash = true)
    (hacyclic : Acyclic ((machine order).run w calls).layers) :
    MerkleLayers.Whole refs ((machine order).run w calls).layers ∧
      ∃ contents, Loader.loadMerkleContents (fun _ _ => none) ((machine order).run w calls).layers
          hash = .ok contents ∧ contents.hash = hash ∧ contents.Authentic refs := by
  have sound := (starts.run brings : ((machine order).run w calls).Kept _).sound
  obtain ⟨contents, hload, tree⟩ :
      ∃ contents, Loader.loadMerkleContents (fun _ _ => none) ((machine order).run w calls).layers
        hash = .ok contents ∧ _ :=
    Loader.exists_tree hacyclic (sound.complete hstored)
  refine ⟨sound.whole, contents, hload, (sound.whole.tree tree).1, fun within hwithin => ?_⟩
  obtain ⟨below, tree'⟩ := MerkleLayers.tree_of_within tree hwithin
  exact (sound.whole.tree tree').2

/-! ## Turns of a call -/

namespace Download

variable {order : VisitOrder} {self self' : Download app} {hash : Sha256Hash}
  {frames : List Frame} {fuel : ℕ}

/-- Some turns of the task that downloads. -/
def Turns (order : VisitOrder) : Download app × List Frame → Download app × List Frame → Prop :=
  Relation.ReflTransGen fun s s' => s.1.releaseTurn order s.2 = .ok s'

theorem turns_forEach {process : Sha256Hash → Exec Failure (Download app) Unit}
    (hprocess : ∀ {hash self self' frames}, process hash self = (.ok (), self') →
      Turns order (self, .process hash :: frames) (self', frames))
    {hashes : List Sha256Hash} (h : forEach process hashes self = (.ok (), self')) :
    Turns order (self, hashes.map .process ++ frames) (self', frames) := by
  induction hashes generalizing self with
  | nil =>
    obtain rfl : self = self' := (Prod.mk.inj h).2
    exact .refl
  | cons hash hashes ih =>
    obtain ⟨_, hfirst, hrest⟩ := forEach_cons_eq_ok.mp h
    exact (hprocess hfirst).trans (ih hrest)

theorem turns_release {process : Sha256Hash → Exec Failure (Download app) Unit}
    (hprocess : ∀ {hash self self' frames}, process hash self = (.ok (), self') →
      Turns order (self, .process hash :: frames) (self', frames))
    (h : release order process hash (self.completed hash) = (.ok (), self')) :
    Turns order (self.completed hash, self.parentFrames order hash ++ frames) (self', frames) := by
  rw [release, get_bind] at h
  have hparents : (self.completed hash).pending.reverseLayers.get? hash =
      self.pending.reverseLayers.get? hash := rfl
  rw [hparents] at h
  rw [parentFrames]
  cases hget : self.pending.reverseLayers.get? hash with
  | none =>
    rw [hget] at h
    obtain ⟨-, rfl⟩ := pure_eq_ok.mp h
    exact .refl
  | some parents =>
    rw [hget] at h
    obtain ⟨_, _, hforEach, hmodify⟩ := bind_eq_ok.mp h
    obtain rfl := modify_eq_ok.mp hmodify
    rw [List.append_assoc]
    exact (turns_forEach hprocess hforEach).tail rfl

/-- The same calls, with any way to write a layer. -/
def processWith (write : MerkleLayerContents → Exec Failure (KolmeInner app) Unit)
    (order : VisitOrder) : (fuel : ℕ) → Sha256Hash → Exec Failure (Download app) Unit
  | 0, _ => Exec.throw (.other "out of fuel")
  | fuel + 1, hash => do
    let self ← Exec.get
    if self.kolme.hasMerkleHash hash then do
      complete hash
      release order (processWith write order fuel) hash
    else
      match self.pending.pendingLayers.get? hash with
      | none => return ()
      | some layer =>
        if layer.children.all self.kolme.hasMerkleHash then do
          onKolme (write layer)
          complete hash
          release order (processWith write order fuel) hash
        else return ()

theorem processAvailableHash_eq :
    @processAvailableHash app _ = processWith KolmeInner.addMerkleLayer := by
  delta processAvailableHash processWith
  rfl

/-- A call that succeeds is a sequence of turns. -/
theorem turns_processAvailableHash
    (h : processAvailableHash order fuel hash self = (.ok (), self')) :
    Turns order (self, .process hash :: frames) (self', frames) := by
  rw [processAvailableHash_eq] at h
  induction fuel generalizing hash self self' frames with
  | zero => cases h
  | succ fuel ih =>
    rw [processWith, get_bind] at h
    by_cases hstored : self.kolme.hasMerkleHash hash = true
    · rw [if_pos hstored] at h
      have hturn : self.releaseTurn order (.process hash :: frames) =
          .ok (self.completed hash, self.parentFrames order hash ++ frames) := if_pos hstored
      obtain ⟨_, _, hcomplete, hrelease⟩ := bind_eq_ok.mp h
      obtain rfl := modify_eq_ok.mp hcomplete
      exact .head hturn (turns_release ih hrelease)
    · rw [if_neg hstored] at h
      cases hpending : self.pending.pendingLayers.get? hash with
      | none =>
        rw [hpending] at h
        obtain ⟨-, rfl⟩ := pure_eq_ok.mp h
        have hturn : self.releaseTurn order (.process hash :: frames) = .ok (self, frames) := by
          rw [releaseTurn, if_neg hstored, hpending]
        exact .single hturn
      | some layer =>
        rw [hpending] at h
        by_cases hchildren : layer.children.all self.kolme.hasMerkleHash = true
        · simp only [if_pos hchildren] at h
          obtain ⟨_, written, hadd, h⟩ := bind_eq_ok.mp h
          obtain ⟨_, _, hcomplete, hrelease⟩ := bind_eq_ok.mp h
          obtain rfl := modify_eq_ok.mp hcomplete
          have hcheck : self.releaseTurn order (.process hash :: frames) =
              .ok (self, .add hash layer :: frames) := by
            rw [releaseTurn, if_neg hstored]
            simp only [hpending, if_pos hchildren]
          have hwrite : self.releaseTurn order (.add hash layer :: frames) =
              .ok (written.completed hash, written.parentFrames order hash ++ frames) := by
            rw [releaseTurn, finish_eq_ok.mpr hadd]
            rfl
          exact .head hcheck (.head hwrite (turns_release ih hrelease))
        · simp only [if_neg hchildren] at h
          obtain ⟨-, rfl⟩ := pure_eq_ok.mp h
          have hturn : self.releaseTurn order (.process hash :: frames) = .ok (self, frames) := by
            rw [releaseTurn, if_neg hstored]
            simp only [hpending, if_neg hchildren]
          exact .single hturn

/-- Taking a layer from a peer is receiving it, and turns until no call is left. -/
theorem turns_addMerkleLayer {layer : MerkleLayerContents}
    (h : addMerkleLayer order hash layer self = (.ok (), self')) :
    Turns order (self.receiveLayer hash layer) (self', []) := by
  rw [addMerkleLayer, get_bind] at h
  unfold receiveLayer
  split at h
  · rename_i hskip
    obtain ⟨-, rfl⟩ := pure_eq_ok.mp h
    rw [if_pos hskip]
    exact .refl
  · rename_i hskip
    rw [if_neg hskip]
    split at h
    · rename_i hstored
      obtain rfl := modify_eq_ok.mp h
      rw [if_pos hstored]
      exact .refl
    · rename_i hstored
      rw [if_neg hstored]
      obtain ⟨_, _, hreceive, h⟩ := bind_eq_ok.mp h
      obtain rfl := modify_eq_ok.mp hreceive
      dsimp only at h ⊢
      split at h
      · rename_i hmissing
        rw [if_pos hmissing]
        exact turns_processAvailableHash h
      · rename_i hmissing
        obtain ⟨-, rfl⟩ := pure_eq_ok.mp h
        rw [if_neg hmissing]
        exact .refl

end Download

end

/-! ## Samples -/

namespace WritersSample

scoped instance : Sha256 := ⟨fun payload => Fin.ofNat _ payload.length⟩

/-- A new node -/
def node : Writers NodeSample.chain where
  download := ⟨SlotsSample.node.kolme, ⟨SlotsSample.forged, .empty, .empty, .empty⟩⟩
  frames := []
  writers := []

/-- A payload of two bytes refers to one of one byte. -/
def refs (payload : Bytes) : List Sha256Hash := if payload = [1, 2] then [1] else []

/-- A value is saved while its child is saved as well. -/
def calls : List (WriterCall NodeSample.chain) :=
  [.save (.mk [1, 2] [.mk [1] []]), .save (.mk [1] []), .turn 0, .turn 1, .turn 0, .turn 1, .turn 0,
    .turn 0]

theorem starts_node : node.Starts := ⟨rfl, rfl, rfl, rfl⟩

theorem brings_calls : ∀ call ∈ calls,
    Writers.Brings (fun layer => layer.children = refs layer.payload) call := by
  have hchild : ∀ within, MerkleContents.Within within (.mk [1] []) →
      within.layer.children = refs within.layer.payload := by
    intro within hwithin
    cases hwithin with
    | refl => decide
    | child hchild _ => cases hchild
  have hroot : ∀ within, MerkleContents.Within within (.mk [1, 2] [.mk [1] []]) →
      within.layer.children = refs within.layer.payload := by
    intro within hwithin
    cases hwithin with
    | refl => decide
    | child hmem hwithin => exact hchild within (List.mem_singleton.mp hmem ▸ hwithin)
  intro call hmem
  simp only [calls, List.mem_cons, List.not_mem_nil, or_false] at hmem
  rcases hmem with rfl | rfl | rfl | rfl | rfl | rfl | rfl | rfl
  · exact hroot
  · exact hchild
  all_goals trivial

theorem acyclic_of_whole {layers : MerkleLayers} (whole : MerkleLayers.Whole refs layers) :
    Acyclic layers := by
  refine acyclic_of_lt fun {hash child} ⟨layer, hget, hmem⟩ => ?_
  rw [whole.children hget, refs] at hmem
  split at hmem
  · rename_i hpayload
    rw [← whole.hash hget, List.mem_singleton.mp hmem, MerkleLayerContents.hash, hpayload]
    decide
  · cases hmem

theorem stored_calls :
    ((Writers.machine SlotsSample.gossip.order).run node calls).layers.contains 2 = true := by
  rfl

end WritersSample

open WritersSample in
theorem Writers.stored_is_loadable_example :
    Merkle.Complete ((machine SlotsSample.gossip.order).run node calls).layers 2 :=
  (stored_is_loadable starts_node calls stored_calls).1

open WritersSample in
theorem Writers.loaded_is_authentic_example :
    ∃ contents, Loader.loadMerkleContents (fun _ _ => none)
        ((machine SlotsSample.gossip.order).run node calls).layers 2 = .ok contents ∧
      contents.hash = 2 ∧ contents.Authentic refs := by
  have kept : ((machine SlotsSample.gossip.order).run node calls).Kept _ :=
    starts_node.run brings_calls
  have hacyclic := acyclic_of_whole kept.sound.whole
  exact (loaded_is_authentic starts_node brings_calls stored_calls hacyclic).2

end Kolme
