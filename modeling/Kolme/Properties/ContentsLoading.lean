import Kolme.Merkle.Load
import Mathlib.Data.Fintype.Order
import Mathlib.Logic.Relation
import Mathlib.Order.WellFounded

/-!
# Contents are loaded as a whole

From a store without cycles the contents below a hash are loaded, or hashes are named that are
missing below it. The loops end, and no check of theirs fails: a layer that waits is woken by a child
that is not complete, so if nothing is left to load or to process, then nothing waits.
-/

namespace Kolme.Merkle

/-! ## Graphs of layers -/

/-- The layer under a hash refers to a child. -/
def Child (store : MerkleLayers) (hash child : Sha256Hash) : Prop :=
  ∃ layer, store.get? hash = some layer ∧ child ∈ layer.children

def Reaches (store : MerkleLayers) : Sha256Hash → Sha256Hash → Prop :=
  Relation.ReflTransGen (Child store)

/-- No layer is below itself. -/
def Acyclic (store : MerkleLayers) : Prop := ∀ hash, ¬Relation.TransGen (Child store) hash hash

theorem Acyclic.wellFounded {store : MerkleLayers} (h : Acyclic store) :
    WellFounded fun child hash => Child store hash child := by
  have hirrefl : Std.Irrefl fun child hash => Relation.TransGen (Child store) hash child := ⟨h⟩
  have htrans : IsTrans Sha256Hash fun child hash => Relation.TransGen (Child store) hash child :=
    ⟨fun _ _ _ hab hbc => hbc.trans hab⟩
  have hwf : WellFounded fun child hash => Relation.TransGen (Child store) hash child :=
    Finite.wellFounded_of_trans_of_irrefl _
  exact Subrelation.wf (fun h => Relation.TransGen.single h) hwf

theorem acyclic_of_lt {store : MerkleLayers}
    (h : ∀ {hash child}, Child store hash child → child < hash) : Acyclic store := by
  intro hash hcycle
  have hlt : ∀ {a b}, Relation.TransGen (Child store) a b → b < a := by
    intro a b hpath
    induction hpath with
    | single hchild => exact h hchild
    | tail _ hchild ih => exact (h hchild).trans ih
  exact lt_irrefl _ (hlt hcycle)

/-- The contents below a hash, from the layers of the store and from whole contents in the cache. -/
inductive Tree (cache : ContentsCache) (store : MerkleLayers) :
    Sha256Hash → MerkleContents → Prop
  | cached {time : ℕ} {hash : Sha256Hash} {contents : MerkleContents}
    (hcache : cache time hash = some contents) : Tree cache store hash contents
  | layer {hash : Sha256Hash} {layer : MerkleLayerContents} {children : List MerkleContents}
    (hget : store.get? hash = some layer) (hlength : children.length = layer.children.length)
    (hchildren : ∀ (i : ℕ) (child : Sha256Hash) (contents : MerkleContents),
      layer.children[i]? = some child →
      children[i]? = some contents → Tree cache store child contents) :
    Tree cache store hash (.mk layer.payload children)

namespace Loader

variable {cache : ContentsCache} {store : MerkleLayers} {origHash : Sha256Hash} {s s' : Loader}
  {hash child : Sha256Hash} {children : List Sha256Hash}

/-! ## Looking at children -/

/-- The hash waits for the child. -/
def Waits (s : Loader) (hash child : Sha256Hash) : Prop :=
  ∃ reverses, s.reverses.get? child = some reverses ∧ hash ∈ reverses

/-- What looking at the children of a hash leads to. -/
structure Gathers (cache : ContentsCache) (hash : Sha256Hash) (children : List Sha256Hash)
    (s s' : Loader) (found : List MerkleContents) : Prop where
  length_le : found.length ≤ children.length
  needed : ∀ h ∈ s'.needed, h ∈ s.needed ∨
    h ∈ children ∧ s.layers.contains h = false ∧ s'.reverses.contains h = true
  needed_subset : s.needed ⊆ s'.needed
  keys : ∀ {h}, s.reverses.contains h = true → s'.reverses.contains h = true
  grows : ∀ {w h}, s.Waits w h → s'.Waits w h
  waiters : ∀ {w h}, s'.Waits w h → w = hash ∨ s.Waits w h
  waits : found.length ≠ children.length → ∃ child ∈ children,
    s.allContents.contains child = false ∧
      (s.layers.contains child = true ∨ child ∈ s'.needed) ∧ s'.Waits hash child
  found : found.length = children.length →
    ∀ (i : ℕ) (child : Sha256Hash) (contents : MerkleContents),
      children[i]? = some child → found[i]? = some contents →
        (∃ time, cache time child = some contents) ∨ s.allContents.get? child = some contents

theorem waits_await {w h : Sha256Hash} :
    (s.await hash child).Waits w h ↔ w = hash ∧ h = child ∨ s.Waits w h := by
  unfold Waits await
  simp only [SortedMap.get?_insert]
  split
  · rename_i heq
    subst heq
    constructor
    · rintro ⟨reverses, hreverses, hmem⟩
      obtain rfl := Option.some.inj hreverses
      rcases Finset.mem_insert.mp hmem with rfl | hmem
      · exact .inl ⟨rfl, rfl⟩
      · cases hget : s.reverses.get? h with
        | none => simp [hget] at hmem
        | some reverses => exact .inr ⟨reverses, rfl, by simpa [hget] using hmem⟩
    · rintro (⟨rfl, -⟩ | ⟨reverses, hreverses, hmem⟩)
      · exact ⟨_, rfl, Finset.mem_insert_self _ _⟩
      · exact ⟨_, rfl, Finset.mem_insert_of_mem (by simpa [hreverses] using hmem)⟩
  · rename_i hne
    exact ⟨.inr, fun h => h.resolve_left fun h => hne h.2⟩

theorem contains_await {h : Sha256Hash} :
    (s.await hash child).reverses.contains h = true ↔
      h = child ∨ s.reverses.contains h = true := by
  rw [await, SortedMap.contains, SortedMap.contains, SortedMap.get?_insert]
  split
  · exact iff_of_true rfl (.inl ‹_›)
  · exact ⟨.inr, fun h => h.resolve_left ‹_›⟩

theorem mem_needed_await {h : Sha256Hash} :
    h ∈ (s.await hash child).needed ↔
      h ∈ s.needed ∨ h = child ∧ s.layers.contains child = false := by
  unfold await
  simp only
  split
  · rename_i hlayer
    simp [hlayer]
  · rename_i hlayer
    simp [Bool.eq_false_of_not_eq_true hlayer]

theorem gathers_gatherChildren :
    Gathers cache hash children s (gatherChildren cache hash children s).2
      (gatherChildren cache hash children s).1 := by
  induction children generalizing s with
  | nil =>
    exact ⟨le_rfl, fun h hmem => .inl hmem, fun _ h => h, id, id, .inr, fun h => absurd rfl h,
      fun _ _ _ _ h => by simp at h⟩
  | cons child children ih =>
    rw [gatherChildren]
    simp only
    split
    · rename_i contents hknown
      obtain ⟨hle, hneeded, hsubset, hkeys, hgrows, hwaiters, hwaits, hfound⟩ :=
        ih (s := { s with lookups := s.lookups + 1 })
      refine ⟨Nat.succ_le_succ hle, fun h hmem => ?_, hsubset, hkeys, hgrows, hwaiters,
        fun hlength => ?_, fun hlength i child' contents' hchild hcontents => ?_⟩
      · exact (hneeded h hmem).imp_right fun h => ⟨List.mem_cons_of_mem _ h.1, h.2⟩
      · obtain ⟨child', hmem, hrest⟩ := hwaits fun h => hlength (congrArg Nat.succ h)
        exact ⟨child', List.mem_cons_of_mem _ hmem, hrest⟩
      · cases i with
        | zero =>
          obtain rfl := Option.some.inj hchild
          obtain rfl := Option.some.inj hcontents
          rcases Option.or_eq_some_iff.mp hknown with hcache | ⟨-, hget⟩
          · exact .inl ⟨_, hcache⟩
          · exact .inr hget
        | succ i => exact hfound (Nat.succ_inj.mp hlength) i _ _ hchild hcontents
    · rename_i hknown
      obtain ⟨hle, hneeded, hsubset, hkeys, hgrows, hwaiters, hwaits, hfound⟩ :=
        ih (s := ({ s with lookups := s.lookups + 1 } : Loader).await hash child)
      have hnone := (Option.or_eq_none_iff.mp hknown).2
      refine ⟨Nat.le_succ_of_le hle, fun h hmem => ?_, fun h hmem => ?_, fun hcontains => ?_,
        fun hw => ?_, fun hw => ?_, fun _ => ?_, fun hlength => ?_⟩
      · rcases hneeded h hmem with hmem | ⟨hmem, hrest⟩
        · rcases mem_needed_await.mp hmem with hmem | ⟨rfl, hlayer⟩
          · exact .inl hmem
          · exact .inr ⟨List.mem_cons_self, hlayer, hkeys (contains_await.mpr (.inl rfl))⟩
        · exact .inr ⟨List.mem_cons_of_mem _ hmem, hrest⟩
      · exact hsubset (mem_needed_await.mpr (.inl hmem))
      · exact hkeys (contains_await.mpr (.inr hcontains))
      · exact hgrows (waits_await.mpr (.inr hw))
      · rcases hwaiters hw with heq | hw
        · exact .inl heq
        · exact (waits_await.mp hw).imp_left And.left
      · refine ⟨child, List.mem_cons_self, SortedMap.contains_eq_false.mpr hnone, ?_,
          hgrows (waits_await.mpr (.inl ⟨rfl, rfl⟩))⟩
        cases hlayer : s.layers.contains child with
        | true => exact .inl rfl
        | false => exact .inr (hsubset (mem_needed_await.mpr (.inr ⟨rfl, hlayer⟩)))
      · rw [hlength] at hle
        exact absurd hle (Nat.not_succ_le_self _)

/-! ## What holds between two turns -/

/-- What holds when some layers are yet to be processed: what is loaded was asked for, and a layer
that waits is woken by a child that is not complete. -/
structure Inv (cache : ContentsCache) (store : MerkleLayers) (origHash : Sha256Hash)
    (active : Finset Sha256Hash) (s : Loader) : Prop where
  stored : ∀ {h layer}, s.layers.get? h = some layer → store.get? h = some layer
  reached : ∀ {h}, s.layers.contains h = true ∨ h ∈ s.needed → Reaches store origHash h
  needed : ∀ h ∈ s.needed, s.layers.contains h = false
  tree : ∀ {h contents}, s.allContents.get? h = some contents →
    s.layers.contains h = true ∧ Tree cache store h contents
  process : ∀ h ∈ active, s.layers.contains h = true ∧ s.allContents.contains h = false
  root : s.allContents.contains origHash = false ∧
    (s.layers.contains origHash = true ∨ origHash ∈ s.needed)
  known : ∀ {h}, s.layers.contains h = true ∨ h ∈ s.needed → s.allContents.contains h = false →
    h = origHash ∨ s.reverses.contains h = true
  waiters : ∀ {w h}, s.Waits w h → s.layers.contains w = true
  waits : ∀ {h}, s.layers.contains h = true → s.allContents.contains h = false → h ∉ active →
    ∃ child, Child store h child ∧ s.allContents.contains child = false ∧
      (s.layers.contains child = true ∨ child ∈ s.needed) ∧ s.Waits h child

section

variable {active : Finset Sha256Hash} {layer : MerkleLayerContents} {contents : MerkleContents}

/-- The other state differs in nothing that the invariant is about. -/
theorem Inv.toProcess (inv : Inv cache store origHash active s) (toProcess : Finset Sha256Hash) :
    Inv cache store origHash active { s with toProcess } :=
  ⟨inv.stored, inv.reached, inv.needed, inv.tree, inv.process, inv.root, inv.known, inv.waiters,
    inv.waits⟩

theorem Inv.gatherChildren (inv : Inv cache store origHash active s)
    (hlayer : s.layers.get? hash = some layer) :
    Inv cache store origHash active (gatherChildren cache hash layer.children s).2 := by
  have gathers : Gathers cache hash layer.children s _ _ := gathers_gatherChildren
  obtain ⟨hlayers, hcontents, -⟩ :
      (Loader.gatherChildren cache hash layer.children s).2.layers = s.layers ∧ _ ∧ _ :=
    gatherChildren_spec
  generalize (Loader.gatherChildren cache hash layer.children s).2 = s₂ at *
  have hstored : s.layers.contains hash = true := SortedMap.contains_iff.mpr ⟨_, hlayer⟩
  have hchild : ∀ child ∈ layer.children, Child store hash child := fun child hmem =>
    ⟨layer, inv.stored hlayer, hmem⟩
  have hknown : ∀ {h}, s.layers.contains h = true ∨ h ∈ s.needed →
      s.layers.contains h = true ∨ h ∈ s₂.needed := fun h =>
    h.imp_right fun h => gathers.needed_subset h
  refine ⟨?_, ?_, ?_, ?_, ?_, ?_, ?_, ?_, ?_⟩
  · rw [hlayers]
    exact inv.stored
  · rintro h (hcontains | hmem)
    · exact inv.reached (.inl (hlayers ▸ hcontains))
    · rcases gathers.needed h hmem with hmem | ⟨hmem, -⟩
      · exact inv.reached (.inr hmem)
      · exact (inv.reached (.inl hstored)).tail (hchild h hmem)
  · intro h hmem
    rw [hlayers]
    rcases gathers.needed h hmem with hmem | ⟨-, hnew, -⟩
    · exact inv.needed h hmem
    · exact hnew
  · rw [hlayers, hcontents]
    exact inv.tree
  · rw [hlayers, hcontents]
    exact inv.process
  · rw [hlayers, hcontents]
    exact ⟨inv.root.1, hknown inv.root.2⟩
  · rw [hlayers, hcontents]
    rintro h (hcontains | hmem) hnew
    · exact (inv.known (.inl hcontains) hnew).imp_right gathers.keys
    · rcases gathers.needed h hmem with hmem | ⟨-, -, hkey⟩
      · exact (inv.known (.inr hmem) hnew).imp_right gathers.keys
      · exact .inr hkey
  · intro w h hw
    rw [hlayers]
    rcases gathers.waiters hw with rfl | hw
    · exact hstored
    · exact inv.waiters hw
  · rw [hlayers, hcontents]
    intro h hcontains hnew hactive
    obtain ⟨child, hchild, hchildNew, hchildKnown, hw⟩ := inv.waits hcontains hnew hactive
    exact ⟨child, hchild, hchildNew, hknown hchildKnown, gathers.grows hw⟩

/-- A layer that waits is not processed until it is woken. -/
theorem Inv.wait (inv : Inv cache store origHash active s)
    (hwaits : ∃ child, Child store hash child ∧ s.allContents.contains child = false ∧
      (s.layers.contains child = true ∨ child ∈ s.needed) ∧ s.Waits hash child) :
    Inv cache store origHash (active.erase hash) s :=
  { inv with
    process := fun h hmem => inv.process h (Finset.mem_of_mem_erase hmem)
    waits := fun {h} hcontains hnew hactive => by
      by_cases heq : h = hash
      · exact heq ▸ hwaits
      · exact inv.waits hcontains hnew fun hmem => hactive (Finset.mem_erase.mpr ⟨heq, hmem⟩) }

theorem contains_complete {reverses : Finset Sha256Hash} {h : Sha256Hash} :
    (s.complete hash contents reverses).allContents.contains h = false ↔
      h ≠ hash ∧ s.allContents.contains h = false := by
  rw [complete, SortedMap.contains_eq_false, SortedMap.contains_eq_false, SortedMap.get?_insert]
  split
  · simp [*]
  · simp [*]

theorem waits_complete {reverses : Finset Sha256Hash} {w h : Sha256Hash} :
    (s.complete hash contents reverses).Waits w h ↔ h ≠ hash ∧ s.Waits w h := by
  unfold Waits complete
  simp only [SortedMap.get?_erase]
  split
  · simp [*]
  · simp [*]

theorem Inv.complete (inv : Inv cache store origHash active s) (hactive : hash ∈ active)
    (horig : hash ≠ origHash) (htree : Tree cache store hash contents)
    {reverses : Finset Sha256Hash} (hreverses : s.reverses.get? hash = some reverses) :
    Inv cache store origHash
      (active.erase hash ∪ reverses.filter fun reverse =>
        ¬(s.allContents.insert hash contents).contains reverse)
      (s.complete hash contents reverses) where
  stored := inv.stored
  reached := inv.reached
  needed := inv.needed
  tree {h contents'} hget := by
    rw [Loader.complete, SortedMap.get?_insert] at hget
    split at hget
    · rename_i heq
      obtain rfl := Option.some.inj hget
      exact ⟨heq ▸ (inv.process hash hactive).1, heq ▸ htree⟩
    · exact inv.tree hget
  process h hmem := by
    rcases Finset.mem_union.mp hmem with hmem | hmem
    · obtain ⟨hne, hmem⟩ := Finset.mem_erase.mp hmem
      exact ⟨(inv.process h hmem).1, contains_complete.mpr ⟨hne, (inv.process h hmem).2⟩⟩
    · obtain ⟨hmem, hnew⟩ := Finset.mem_filter.mp hmem
      exact ⟨inv.waiters ⟨reverses, hreverses, hmem⟩, eq_false_of_ne_true hnew⟩
  root := ⟨contains_complete.mpr ⟨horig.symm, inv.root.1⟩, inv.root.2⟩
  known {h} hknown hnew := by
    obtain ⟨hne, hnew⟩ := contains_complete.mp hnew
    refine (inv.known hknown hnew).imp_right fun hkey => ?_
    rw [Loader.complete, SortedMap.contains, SortedMap.get?_erase, if_neg hne]
    exact hkey
  waiters hw := inv.waiters (waits_complete.mp hw).2
  waits {h} hcontains hnew hactive' := by
    have hnew' := hnew
    obtain ⟨hne, hnew⟩ := contains_complete.mp hnew
    obtain ⟨hactive', hreverse⟩ := not_or.mp (Finset.mem_union.not.mp hactive')
    obtain ⟨child, hchild, hchildNew, hchildKnown, hw⟩ :=
      inv.waits hcontains hnew fun hmem => hactive' (Finset.mem_erase.mpr ⟨hne, hmem⟩)
    have hchildNe : child ≠ hash := by
      rintro rfl
      obtain ⟨reverses', hreverses', hmem⟩ := hw
      obtain rfl := Option.some.inj (hreverses.symm.trans hreverses')
      refine hreverse (Finset.mem_filter.mpr ⟨hmem, ?_⟩)
      exact ne_true_of_eq_false hnew'
    exact ⟨child, hchild, contains_complete.mpr ⟨hchildNe, hchildNew⟩, hchildKnown,
      waits_complete.mpr ⟨hchildNe, hw⟩⟩

end

/-! ## The loops -/

/-- What a turn may lead to: the contents that were asked for, or another state. -/
def Kept (cache : ContentsCache) (store : MerkleLayers) (origHash : Sha256Hash) :
    Except MerkleSerialError (MerkleContents ⊕ Loader) → Prop
  | .error _ => False
  | .ok (.inl contents) => Tree cache store origHash contents
  | .ok (.inr s) => Inv cache store origHash s.toProcess s

theorem Inv.processHash (inv : Inv cache store origHash s.toProcess s) (hmem : hash ∈ s.toProcess) :
    Kept cache store origHash
      (processHash cache origHash hash { s with toProcess := s.toProcess.erase hash }) := by
  obtain ⟨hcontains, hnew⟩ := inv.process hash hmem
  obtain ⟨layer, hlayer⟩ := SortedMap.contains_iff.mp hcontains
  replace inv := inv.toProcess (s.toProcess.erase hash)
  have gathered := inv.gatherChildren hlayer
  have gathers : Gathers cache hash layer.children
      { s with toProcess := s.toProcess.erase hash } _ _ := gathers_gatherChildren
  obtain ⟨hlayers, hcontents, hprocess⟩ : (Loader.gatherChildren cache hash layer.children
      { s with toProcess := s.toProcess.erase hash }).2.layers = s.layers ∧ _ ∧ _ :=
    gatherChildren_spec
  simp only [Loader.processHash, hnew, hlayer, Bool.false_eq_true, if_false]
  generalize Loader.gatherChildren cache hash layer.children
    { s with toProcess := s.toProcess.erase hash } = result at *
  obtain ⟨children, s₂⟩ := result
  simp only at hlayers hcontents hprocess gathered gathers ⊢
  split
  · rename_i hlength
    change Inv cache store origHash s₂.toProcess s₂
    rw [hprocess]
    obtain ⟨child, hchild, hchildNew, hchildKnown, hw⟩ := gathers.waits hlength
    refine gathered.wait ⟨child, ⟨layer, inv.stored hlayer, hchild⟩, ?_, ?_, hw⟩
    · rw [hcontents]
      exact hchildNew
    · rw [hlayers]
      exact hchildKnown
  · rename_i hlength
    have hlength := not_not.mp hlength
    have htree : Tree cache store hash (.mk layer.payload children) := by
      refine .layer (inv.stored hlayer) hlength fun i child contents hchild hget => ?_
      rcases gathers.found hlength i child contents hchild hget with ⟨time, hcache⟩ | hget
      · exact .cached hcache
      · exact (inv.tree hget).2
    split
    · rename_i horig
      exact horig ▸ htree
    · rename_i horig
      have hnew₂ : s₂.allContents.contains hash = false := hcontents ▸ hnew
      obtain ⟨reverses, hreverses⟩ := SortedMap.contains_iff.mp
        ((gathered.known (.inl (hlayers ▸ hcontains)) hnew₂).resolve_left horig)
      rw [hreverses]
      have completed := gathered.complete hmem horig htree hreverses
      rw [← hprocess] at completed
      exact completed

theorem processLoop_toProcess (h : processLoop cache origHash s = .ok (.inr s')) :
    s'.toProcess = ∅ := by
  refine @processLoop_induction cache origHash (fun _ => True)
    (fun result => ∀ s', result = .ok (.inr s') → s'.toProcess = ∅)
    (fun _ _ _ _ _ _ _ _ h => nomatch h) (fun _ _ _ _ _ _ _ _ h => nomatch h)
    (fun _ _ _ _ _ _ _ => trivial) (fun s _ hempty s' h => ?_) s trivial s' h
  obtain rfl := Sum.inr.inj (Except.ok.inj h)
  exact hempty

theorem Inv.processLoop (inv : Inv cache store origHash s.toProcess s) :
    Kept cache store origHash (processLoop cache origHash s) := by
  have turn : ∀ s hash s₁, Inv cache store origHash s.toProcess s →
      s.popFirst = some (hash, s₁) →
      Kept cache store origHash (Loader.processHash cache origHash hash s₁) := by
    intro s hash s₁ inv hpop
    obtain ⟨hmem, rfl⟩ := popFirst_eq_some hpop
    exact inv.processHash hmem
  refine processLoop_induction (fun s hash s₁ e inv hpop h => ?_)
    (fun s hash s₁ contents inv hpop h => ?_) (fun s hash s₁ s' inv hpop h => ?_)
    (fun s inv _ => inv) inv
  all_goals
    have kept := turn s hash s₁ inv hpop
    rw [h] at kept
    exact kept

theorem Inv.contents_of_needed {active : Finset Sha256Hash}
    (inv : Inv cache store origHash active s) (hmem : hash ∈ s.needed) :
    s.allContents.contains hash = false := by
  rw [SortedMap.contains_eq_false]
  cases hget : s.allContents.get? hash with
  | none => rfl
  | some contents =>
    have hlayer := (inv.tree hget).1
    rw [inv.needed hash hmem] at hlayer
    cases hlayer

/-- What is yet to be loaded comes from the store, or some of it is missing. -/
theorem Inv.loadNeeded (inv : Inv cache store origHash ∅ s) (hprocess : s.toProcess = ∅) :
    (∃ hashes : Finset Sha256Hash, loadNeeded store s = .error (.hashesNotFound hashes) ∧
      hashes.Nonempty ∧
      ∀ h ∈ hashes, Reaches store origHash h ∧ store.contains h = false) ∨
    ∃ s', loadNeeded store s = .ok s' ∧ Inv cache store origHash s'.toProcess s' := by
  have hnew : (s.needed.any fun hash => s.layers.contains hash || s.allContents.contains hash) =
      false := by
    rw [List.any_eq_false]
    intro h hmem
    simp [inv.needed h hmem, inv.contents_of_needed hmem]
  rw [Loader.loadNeeded, if_neg (ne_true_of_eq_false hnew)]
  simp only
  split
  · rename_i hmissing
    refine .inl ⟨_, rfl, hmissing, fun h hmem => ?_⟩
    obtain ⟨hmem, hlayers⟩ := List.mem_filter.mp (List.mem_toFinset.mp hmem)
    refine ⟨inv.reached (.inr hmem), ?_⟩
    by_contra hstored
    rw [contains_loadByHashes.mpr (.inl ⟨hmem, Bool.eq_true_of_not_eq_false hstored⟩)] at hlayers
    cases hlayers
  · rename_i hmissing
    have hloaded : ∀ h ∈ s.needed, (loadByHashes store s.needed s.layers).contains h = true := by
      intro h hmem
      by_contra hcontains
      refine hmissing ⟨h, List.mem_toFinset.mpr (List.mem_filter.mpr ⟨hmem, ?_⟩)⟩
      simp [Bool.eq_false_of_not_eq_true hcontains]
    rw [List.filter_eq_self.mpr hloaded, hprocess, Finset.empty_union]
    have hlayers : ∀ {h}, (loadByHashes store s.needed s.layers).contains h = true ↔
        h ∈ s.needed ∨ s.layers.contains h = true := by
      intro h
      refine ⟨fun hcontains => ?_, ?_⟩
      · exact (contains_loadByHashes.mp hcontains).imp_left And.left
      · rintro (hmem | hcontains)
        · exact hloaded h hmem
        · exact contains_loadByHashes.mpr (.inr hcontains)
    have hknown : ∀ {h}, s.layers.contains h = true ∨ h ∈ s.needed →
        (loadByHashes store s.needed s.layers).contains h = true :=
      fun h => hlayers.mpr h.symm
    refine .inr ⟨_, rfl, ?_, ?_, fun _ hmem => (by cases hmem), ?_, ?_, ?_, ?_, ?_, ?_⟩
    · intro h layer hget
      rw [get?_loadByHashes] at hget
      split at hget
      · exact hget
      · exact inv.stored hget
    · rintro h (hcontains | hmem)
      · exact inv.reached (hlayers.mp hcontains).symm
      · exact absurd hmem List.not_mem_nil
    · intro h contents hget
      exact ⟨hknown (.inl (inv.tree hget).1), (inv.tree hget).2⟩
    · intro h hmem
      have hmem := List.mem_toFinset.mp hmem
      exact ⟨hknown (.inr hmem), inv.contents_of_needed hmem⟩
    · exact ⟨inv.root.1, .inl (hknown inv.root.2)⟩
    · rintro h (hcontains | hmem) hnew
      · exact inv.known (hlayers.mp hcontains).symm hnew
      · exact absurd hmem List.not_mem_nil
    · intro w h hw
      exact hknown (.inl (inv.waiters hw))
    · intro h hcontains hnew hactive
      have hstored := (hlayers.mp hcontains).resolve_left fun hmem =>
        hactive (List.mem_toFinset.mpr hmem)
      obtain ⟨child, hchild, hchildNew, hchildKnown, hw⟩ :=
        inv.waits hstored hnew (Finset.notMem_empty _)
      exact ⟨child, hchild, hchildNew, .inl (hknown hchildKnown), hw⟩

/-- Nothing waits for ever: below a layer that waits there is another, and there are no cycles. -/
theorem Inv.needed_ne_nil (hacyclic : Acyclic store) (inv : Inv cache store origHash ∅ s) :
    s.needed ≠ [] := by
  intro hneeded
  have hcomplete : ∀ h, s.layers.contains h = true → s.allContents.contains h = false → False := by
    intro h
    induction h using hacyclic.wellFounded.induction with
    | _ h ih =>
      intro hcontains hnew
      obtain ⟨child, hchild, hchildNew, hchildKnown, -⟩ :=
        inv.waits hcontains hnew (Finset.notMem_empty _)
      rw [hneeded] at hchildKnown
      exact ih child hchild (hchildKnown.resolve_right List.not_mem_nil) hchildNew
  have hroot := inv.root.2
  rw [hneeded] at hroot
  exact hcomplete origHash (hroot.resolve_right List.not_mem_nil) inv.root.1

theorem loadLoop_eq (hneeded : s.needed ≠ []) :
    loadLoop cache store origHash s =
      match loadNeeded store s with
      | .error e => .error e
      | .ok s₁ =>
        match processLoop cache origHash s₁ with
        | .error e => .error e
        | .ok (.inl contents) => .ok contents
        | .ok (.inr s₂) => loadLoop cache store origHash s₂ := by
  rw [loadLoop, dif_neg hneeded]
  split
  · simp only [*]
  · rename_i s₁ hload
    rw [hload]
    simp only
    split <;> simp only [*]

/-- What loading may lead to: the contents, or hashes that are missing below the original one. -/
def Loaded (cache : ContentsCache) (store : MerkleLayers) (origHash : Sha256Hash) :
    Except MerkleSerialError MerkleContents → Prop
  | .error e => ∃ hashes : Finset Sha256Hash, e = .hashesNotFound hashes ∧ hashes.Nonempty ∧
    ∀ hash ∈ hashes, Reaches store origHash hash ∧ store.contains hash = false
  | .ok contents => Tree cache store origHash contents

theorem Inv.loadLoop (hacyclic : Acyclic store) (inv : Inv cache store origHash ∅ s)
    (hprocess : s.toProcess = ∅) :
    Loaded cache store origHash (loadLoop cache store origHash s) := by
  have loaded : ∀ {s s₁}, Inv cache store origHash ∅ s → s.toProcess = ∅ →
      Loader.loadNeeded store s = .ok s₁ →
      Kept cache store origHash (Loader.processLoop cache origHash s₁) := by
    intro s s₁ inv hprocess hload
    rcases inv.loadNeeded hprocess with ⟨hashes, hload', -⟩ | ⟨s₁', hload', inv'⟩
    · cases hload.symm.trans hload'
    · obtain rfl := Except.ok.inj (hload.symm.trans hload')
      exact inv'.processLoop
  induction s using loadLoop.induct cache store origHash with
  | case1 s hneeded => exact absurd hneeded (inv.needed_ne_nil hacyclic)
  | case2 s hneeded e hload =>
    rw [loadLoop_eq hneeded, hload]
    rcases inv.loadNeeded hprocess with ⟨hashes, hload', hmissing⟩ | ⟨s', hload', -⟩
    · exact ⟨hashes, Except.error.inj (hload.symm.trans hload'), hmissing⟩
    · cases hload.symm.trans hload'
  | case3 s hneeded s₁ hload e hrest =>
    have kept := loaded inv hprocess hload
    rw [hrest] at kept
    exact kept.elim
  | case4 s hneeded s₁ hload contents hrest =>
    have kept := loaded inv hprocess hload
    rw [hrest] at kept
    rw [loadLoop_eq hneeded, hload]
    simp only [hrest]
    exact kept
  | case5 s hneeded s₁ hload s₂ hrest ih =>
    have kept := loaded inv hprocess hload
    rw [hrest] at kept
    change Inv cache store origHash s₂.toProcess s₂ at kept
    have hempty := processLoop_toProcess hrest
    rw [hempty] at kept
    rw [loadLoop_eq hneeded, hload]
    simp only [hrest]
    exact ih kept hempty

theorem loaded_loadMerkleContents (hacyclic : Acyclic store) :
    Loaded cache store origHash (loadMerkleContents cache store origHash) := by
  rw [loadMerkleContents]
  split
  · rename_i contents hcache
    exact .cached hcache
  · refine Inv.loadLoop hacyclic ?_ rfl
    refine ⟨nofun, ?_, fun _ _ => rfl, nofun, nofun, ⟨rfl, .inr (List.mem_singleton_self _)⟩, ?_,
      ?_, nofun⟩
    · rintro h (hcontains | hmem)
      · cases hcontains
      · exact List.mem_singleton.mp hmem ▸ Relation.ReflTransGen.refl
    · rintro h (hcontains | hmem) -
      · cases hcontains
      · exact .inl (List.mem_singleton.mp hmem)
    · rintro w h ⟨reverses, hreverses, -⟩
      cases hreverses

end Loader

/-! ## Caches -/

section

variable [Sha256] {cache : ContentsCache} {store : MerkleLayers} {hash : Sha256Hash}
  {contents : MerkleContents}

/-- Contents in the cache are under their hash, and have the layers of the store as far as these are
stored. -/
structure Agrees (cache : ContentsCache) (store : MerkleLayers) : Prop where
  hash : ∀ {time hash contents}, cache time hash = some contents → contents.hash = hash
  layers : ∀ {time hash contents}, cache time hash = some contents →
    ∀ {within layer}, MerkleContents.Within within contents →
      store.get? within.hash = some layer → layer = within.layer

/-- Everything below a hash is stored. -/
def Complete (store : MerkleLayers) (hash : Sha256Hash) : Prop :=
  ∀ below, Reaches store hash below → store.contains below = true

omit [Sha256] in
theorem Complete.child {layer : MerkleLayerContents} {child : Sha256Hash}
    (complete : Complete store hash) (hget : store.get? hash = some layer)
    (hchild : child ∈ layer.children) : Complete store child :=
  fun below hreaches => complete below (hreaches.head ⟨layer, hget, hchild⟩)

/-- Contents with the layers of the store are what the store has. -/
theorem Complete.tree (complete : Complete store contents.hash)
    (hlayers : ∀ within layer, MerkleContents.Within within contents →
      store.get? within.hash = some layer → layer = within.layer) :
    Tree (fun _ _ => none) store contents.hash contents := by
  induction hlevels : contents.levels using Nat.strong_induction_on generalizing contents with
  | _ levels ih =>
    subst hlevels
    obtain ⟨layer, hget⟩ := SortedMap.contains_iff.mp (complete _ .refl)
    obtain rfl := hlayers contents layer (.refl contents) hget
    obtain ⟨payload, children⟩ := contents
    refine .layer hget (List.length_map _).symm fun i child below hchild hbelow => ?_
    have hmem : below ∈ children := List.mem_of_getElem? hbelow
    obtain rfl : below.hash = child := by
      rw [MerkleContents.layer, MerkleContents.children, List.getElem?_map, hbelow] at hchild
      exact Option.some.inj hchild
    refine ih _ (MerkleContents.levels_lt_of_mem hmem) ?_ ?_ rfl
    · exact complete.child hget (List.mem_map_of_mem hmem)
    · exact fun within layer hwithin => hlayers within layer (.child hmem hwithin)

/-- Where everything is stored, the cache makes no difference. -/
theorem Tree.stored (tree : Tree cache store hash contents) (agrees : Agrees cache store)
    (complete : Complete store hash) : Tree (fun _ _ => none) store hash contents := by
  induction tree with
  | cached hcache =>
    obtain rfl := agrees.hash hcache
    exact complete.tree fun _ _ => agrees.layers hcache
  | layer hget hlength _ ih =>
    refine .layer hget hlength fun i child contents hchild hcontents => ?_
    exact ih i child contents hchild hcontents
      (complete.child hget (List.mem_of_getElem? hchild))

/-! ## Loading recursively -/

omit [Sha256] in
theorem Tree.levels_le_card (hacyclic : Acyclic store)
    (tree : Tree (fun _ _ => none) store hash contents) {hashes : Finset Sha256Hash}
    (hhashes : ∀ below, Reaches store hash below → below ∈ hashes) :
    contents.levels ≤ hashes.card := by
  induction tree generalizing hashes with
  | cached hcache => cases hcache
  | layer hget hlength _ ih =>
    rename_i hash layer children _
    have hchildren : ∀ below ∈ children, below.levels ≤ (hashes.erase hash).card := by
      intro below hmem
      obtain ⟨i, hbelow⟩ := List.mem_iff_getElem?.mp hmem
      have hi : i < layer.children.length := hlength ▸ (List.getElem?_eq_some_iff.mp hbelow).1
      have hchild := List.getElem?_eq_getElem hi
      have hstep : Child store hash layer.children[i] := ⟨layer, hget, List.getElem_mem hi⟩
      refine ih i _ below hchild hbelow fun other hreaches => Finset.mem_erase.mpr ⟨?_, ?_⟩
      · rintro rfl
        exact hacyclic _ (.head' hstep hreaches)
      · exact hhashes other (hreaches.head hstep)
    have hle : (MerkleContents.mk layer.payload children).levels ≤ (hashes.erase hash).card + 1 :=
      MerkleContents.levels_le_succ hchildren
    rwa [Finset.card_erase_add_one (hhashes hash .refl)] at hle

omit [Sha256] in
theorem Tree.load (tree : Tree (fun _ _ => none) store hash contents) {levels : ℕ}
    (hlevels : contents.levels ≤ levels) :
    Merkle.loadMerkleContents store.get? levels hash = .ok contents := by
  induction tree generalizing levels with
  | cached hcache => cases hcache
  | layer hget hlength _ ih =>
    rename_i hash layer children _
    cases levels with
    | zero => exact absurd hlevels (Nat.not_le.mpr (MerkleContents.levels_pos _))
    | succ levels =>
      have hchildren : layer.children.mapM (Merkle.loadMerkleContents store.get? levels) =
          .ok children := by
        refine Except.mapM_eq_ok_of_getElem? hlength fun i child below hchild hbelow => ?_
        have hlt : below.levels < (MerkleContents.mk layer.payload children).levels :=
          MerkleContents.levels_lt_of_mem (List.mem_of_getElem? hbelow)
        exact ih i child below hchild hbelow (Nat.lt_succ_iff.mp (hlt.trans_le hlevels))
      rw [Merkle.loadMerkleContents, hget]
      simp only [hchildren, Except.ok_bind]
      rfl

omit [Sha256] in
theorem Complete.load (complete : Complete store hash) (hacyclic : Acyclic store)
    (tree : Tree (fun _ _ => none) store hash contents) : store.load hash = .ok contents := by
  have hcard : store.keys.toFinset.card ≤ store.toList.length := by
    rw [← List.length_map Prod.fst]
    exact List.toFinset_card_le _
  refine tree.load ((tree.levels_le_card hacyclic fun below hreaches => ?_).trans
    (hcard.trans (Nat.le_succ _)))
  exact List.mem_toFinset.mpr (SortedMap.mem_keys.mpr
    (SortedMap.contains_iff.mp (complete below hreaches)))

namespace Loader

variable {origHash : Sha256Hash}

omit [Sha256] in
theorem exists_tree (hacyclic : Acyclic store) (complete : Complete store origHash) :
    ∃ contents, loadMerkleContents cache store origHash = .ok contents ∧
      Tree cache store origHash contents := by
  have loaded : Loaded cache store origHash (loadMerkleContents cache store origHash) :=
    loaded_loadMerkleContents hacyclic
  cases h : loadMerkleContents cache store origHash with
  | ok contents =>
    rw [h] at loaded
    exact ⟨contents, rfl, loaded⟩
  | error e =>
    rw [h] at loaded
    obtain ⟨hashes, -, ⟨hash, hmem⟩, hmissing⟩ := loaded
    have hstored := complete hash (hmissing hash hmem).1
    rw [(hmissing hash hmem).2] at hstored
    cases hstored

/-- Contents that are stored as a whole are loaded as they would be recursively. -/
theorem loadMerkleContents_eq_load (hacyclic : Acyclic store) (agrees : Agrees cache store)
    (complete : Complete store origHash) :
    loadMerkleContents cache store origHash = store.load origHash := by
  obtain ⟨contents, hload, tree⟩ :
      ∃ contents, loadMerkleContents cache store origHash = .ok contents ∧ _ :=
    exists_tree hacyclic complete
  rw [hload, complete.load hacyclic (tree.stored agrees complete)]

/-- From a store without cycles, loading does not panic. It gives the whole contents when everything
below the hash is stored, and otherwise names hashes below it that are not stored, unless the cache
has what is missing. -/
theorem loads_or_names_missing (hacyclic : Acyclic store) :
    (∀ e, loadMerkleContents cache store origHash = .error e →
      ∃ hashes : Finset Sha256Hash, e = .hashesNotFound hashes ∧ hashes.Nonempty ∧
        ∀ hash ∈ hashes, Reaches store origHash hash ∧ store.contains hash = false) ∧
    (∀ contents, loadMerkleContents cache store origHash = .ok contents →
      Tree cache store origHash contents) ∧
    (Complete store origHash →
      ∃ contents, loadMerkleContents cache store origHash = .ok contents ∧
        (Agrees cache store → Tree (fun _ _ => none) store origHash contents)) := by
  have loaded : Loaded cache store origHash (loadMerkleContents cache store origHash) :=
    loaded_loadMerkleContents hacyclic
  refine ⟨fun e h => ?_, fun contents h => ?_, fun complete => ?_⟩
  · rw [h] at loaded
    exact loaded
  · rw [h] at loaded
    exact loaded
  · obtain ⟨contents, hload, tree⟩ :
        ∃ contents, loadMerkleContents cache store origHash = .ok contents ∧ _ :=
      exists_tree hacyclic complete
    exact ⟨contents, hload, fun agrees => tree.stored agrees complete⟩

end Loader

end

namespace LoadingSample

scoped instance : Sha256 := ⟨fun _ => 0⟩

/-- A layer with a child and a grandchild that is also its child. -/
def diamond : MerkleLayers :=
  ((SortedMap.insert ∅ 0 ⟨[], []⟩).insert 1 ⟨[1], [0]⟩).insert 2 ⟨[2], [1, 0]⟩

theorem child_diamond {hash child : Sha256Hash} (h : Child diamond hash child) :
    child < hash ∧ diamond.contains child = true := by
  obtain ⟨layer, hget, hmem⟩ := h
  simp only [diamond, SortedMap.get?_insert] at hget
  split at hget
  · subst_vars
    obtain rfl := Option.some.inj hget
    rcases List.mem_pair.mp hmem with rfl | rfl
    · decide
    · decide
  · split at hget
    · subst_vars
      obtain rfl := Option.some.inj hget
      obtain rfl := List.mem_singleton.mp hmem
      decide
    · split at hget
      · obtain rfl := Option.some.inj hget
        cases hmem
      · cases hget

theorem acyclic_diamond : Acyclic diamond := acyclic_of_lt fun h => (child_diamond h).1

theorem complete_diamond : Complete diamond 2 := by
  intro below h
  cases h with
  | refl => decide
  | tail _ h => exact (child_diamond h).2

end LoadingSample

open LoadingSample in
theorem Loader.loads_or_names_missing_diamond :
    ∃ contents, loadMerkleContents (fun _ _ => none) diamond 2 = .ok contents ∧
      Tree (fun _ _ => none) diamond 2 contents := by
  obtain ⟨contents, hload, htree⟩ :=
    (Loader.loads_or_names_missing acyclic_diamond).2.2 complete_diamond
  exact ⟨contents, hload, htree ⟨nofun, nofun⟩⟩

open LoadingSample in
theorem Loader.loadMerkleContents_eq_load_diamond :
    loadMerkleContents (fun _ _ => none) diamond 2 = MerkleLayers.load diamond 2 :=
  Loader.loadMerkleContents_eq_load acyclic_diamond ⟨nofun, nofun⟩ complete_diamond

open LoadingSample in
/-- The empty map is always in the cache, so it is loaded from a store without any layers. -/
theorem Loader.names_missing_fails :
    ¬∀ (cache : ContentsCache) (store : MerkleLayers) (origHash : Sha256Hash),
      Agrees cache store → Acyclic store → ¬Complete store origHash →
      ∃ hashes, loadMerkleContents cache store origHash = .error (.hashesNotFound hashes) := by
  intro h
  have hcache : ∀ {time hash contents}, newContentsCache time hash = some contents →
      contents.hash = hash := by
    intro time hash contents hget
    rw [newContentsCache] at hget
    split at hget
    · rename_i heq
      rw [heq, Option.some.inj hget]
    · cases hget
  have hagrees : Agrees newContentsCache ∅ := ⟨hcache, fun _ _ _ _ hget => nomatch hget⟩
  have hacyclic : Acyclic ∅ := by
    intro hash hcycle
    obtain ⟨_, ⟨_, hget, _⟩, _⟩ := Relation.TransGen.head'_iff.mp hcycle
    cases hget
  have hincomplete : ¬Complete ∅ 0 := fun complete => nomatch complete 0 .refl
  obtain ⟨hashes, herror⟩ := h newContentsCache ∅ 0 hagrees hacyclic hincomplete
  cases herror

end Kolme.Merkle
