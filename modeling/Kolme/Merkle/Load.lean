import Kolme.Merkle.Layers
import Kolme.Merkle.NodeFormat
import Mathlib.Data.Finset.Max

/-!
# Loading contents level by level

The contents under a hash are loaded in rounds. A round asks the store for all layers that are known
to be needed and then works through the layers it has: a layer whose children are complete gives
contents, and wakes the layers that wait for them, and the others wait for their children. Parts
that are held in the cache are not looked up. The cache is shared with the rest of the program, so
it can answer differently each time. A panic is the error `panic`.
-/

namespace Kolme.Merkle

/-- What the cache answers, by the number of lookups before. -/
abbrev ContentsCache := ℕ → Sha256Hash → Option MerkleContents

/-- A contents cache containing just the empty `MerkleMap`. -/
def newContentsCache [Sha256] : ContentsCache := fun _ hash =>
  let contents := (MerkleSerializer.store (MerkleMap.new : MerkleMap UInt8 UInt8)).finish
  if hash = contents.hash then some contents else none

/-- Load up the layers by hash, as far as they are available. -/
def loadByHashes (store : MerkleLayers) (hashes : List Sha256Hash) (dest : MerkleLayers) :
    MerkleLayers :=
  hashes.foldl (fun dest hash =>
    match store.get? hash with
    | some layer => dest.insert hash layer
    | none => dest) dest

structure Loader where
  layers : MerkleLayers
  allContents : SortedMap Sha256Hash MerkleContents
  reverses : SortedMap Sha256Hash (Finset Sha256Hash)
  needed : List Sha256Hash
  toProcess : Finset Sha256Hash
  /-- The number of lookups in the cache. -/
  lookups : ℕ

namespace Loader

variable (cache : ContentsCache) (store : MerkleLayers) (origHash : Sha256Hash)

/-- A hash waits for a child that is not complete, and the child is needed if it has no layer. -/
def await (s : Loader) (hash child : Sha256Hash) : Loader :=
  { s with
    needed := if s.layers.contains child then s.needed else s.needed ++ [child]
    reverses := s.reverses.insert child (insert hash ((s.reverses.get? child).getD ∅)) }

/-- The loop over the children of a layer. -/
def gatherChildren (hash : Sha256Hash) :
    List Sha256Hash → Loader → List MerkleContents × Loader
  | [], s => ([], s)
  | child :: children, s =>
    -- Check the cache first
    let known := (cache s.lookups child).or (s.allContents.get? child)
    let s := { s with lookups := s.lookups + 1 }
    match known with
    | some contents =>
      let (rest, s) := gatherChildren hash children s
      (contents :: rest, s)
    | none => gatherChildren hash children (s.await hash child)

/-- The contents are complete, and the layers that wait for them have their turn. -/
def complete (s : Loader) (hash : Sha256Hash) (contents : MerkleContents)
    (reverses : Finset Sha256Hash) : Loader :=
  let allContents := s.allContents.insert hash contents
  { s with
    allContents
    reverses := s.reverses.erase hash
    toProcess := s.toProcess ∪ reverses.filter fun reverse => ¬allContents.contains reverse }

/-- One turn of the loop over the layers to process: the contents of the original hash, or another
state. -/
def processHash (hash : Sha256Hash) (s : Loader) :
    Except MerkleSerialError (MerkleContents ⊕ Loader) :=
  if s.allContents.contains hash then .error .panic
  else
    match s.layers.get? hash with
    | none => .error .panic
    | some layer =>
      let (children, s) := gatherChildren cache hash layer.children s
      -- Now we wait, if not all children are there.
      if children.length ≠ layer.children.length then .ok (.inr s)
      else
        let contents := MerkleContents.mk layer.payload children
        if hash = origHash then .ok (.inl contents)
        else
          match s.reverses.get? hash with
          | none => .error .panic
          | some reverses => .ok (.inr (s.complete hash contents reverses))

variable {cache store origHash}

/-! ## Turns -/

section

variable {s s' : Loader} {hash child : Sha256Hash} {children : List Sha256Hash}
  {contents : MerkleContents}

/-- What looking at the children leaves as it is. -/
theorem gatherChildren_spec :
    (gatherChildren cache hash children s).2.layers = s.layers ∧
      (gatherChildren cache hash children s).2.allContents = s.allContents ∧
      (gatherChildren cache hash children s).2.toProcess = s.toProcess := by
  induction children generalizing s with
  | nil => exact ⟨rfl, rfl, rfl⟩
  | cons child children ih =>
    rw [gatherChildren]
    simp only
    split
    · exact ih
    · exact ih

/-- What one turn can do. -/
theorem processHash_eq_ok {result : MerkleContents ⊕ Loader}
    (h : processHash cache origHash hash s = .ok result) :
    s.allContents.contains hash = false ∧ ∃ layer, s.layers.get? hash = some layer ∧
      ((gatherChildren cache hash layer.children s).1.length ≠ layer.children.length ∧
        result = .inr (gatherChildren cache hash layer.children s).2 ∨
      (gatherChildren cache hash layer.children s).1.length = layer.children.length ∧
        (hash = origHash ∧
          result = .inl (.mk layer.payload (gatherChildren cache hash layer.children s).1) ∨
        hash ≠ origHash ∧ ∃ reverses,
          (gatherChildren cache hash layer.children s).2.reverses.get? hash = some reverses ∧
          result = .inr ((gatherChildren cache hash layer.children s).2.complete hash
            (.mk layer.payload (gatherChildren cache hash layer.children s).1) reverses))) := by
  rw [processHash] at h
  split at h
  · cases h
  · rename_i hnew
    split at h
    · cases h
    · rename_i layer hlayer
      refine ⟨eq_false_of_ne_true hnew, layer, hlayer, ?_⟩
      simp only at h
      split at h
      · rename_i hlength
        exact .inl ⟨hlength, (Except.ok.inj h).symm⟩
      · rename_i hlength
        refine .inr ⟨not_not.mp hlength, ?_⟩
        split at h
        · rename_i horig
          exact .inl ⟨horig, (Except.ok.inj h).symm⟩
        · rename_i horig
          split at h
          · cases h
          · rename_i reverses hreverses
            exact .inr ⟨horig, reverses, hreverses, (Except.ok.inj h).symm⟩

/-- The layers whose contents are not complete. -/
def pending (s : Loader) : Finset Sha256Hash :=
  s.layers.keys.toFinset \ s.allContents.keys.toFinset

theorem mem_pending : hash ∈ s.pending ↔
    s.layers.contains hash = true ∧ s.allContents.contains hash = false := by
  rw [pending, Finset.mem_sdiff, List.mem_toFinset, List.mem_toFinset, SortedMap.mem_keys,
    SortedMap.mem_keys, ← SortedMap.contains_iff, ← SortedMap.contains_iff, Bool.not_eq_true]

/-- A turn completes a layer, or leaves the layers to process as they are. -/
theorem processHash_decreases (h : processHash cache origHash hash s = .ok (.inr s')) :
    s'.layers = s.layers ∧
      (s'.pending ⊂ s.pending ∨ s'.pending = s.pending ∧ s'.toProcess = s.toProcess) := by
  obtain ⟨hnew, layer, hlayer, hcases⟩ := processHash_eq_ok h
  obtain ⟨hlayers, hcontents, hprocess⟩ :
      (gatherChildren cache hash layer.children s).2.layers = s.layers ∧ _ ∧ _ :=
    gatherChildren_spec
  rcases hcases with ⟨-, heq⟩ | ⟨-, ⟨-, heq⟩ | ⟨-, reverses, -, heq⟩⟩
  · obtain rfl := Sum.inr.inj heq
    exact ⟨hlayers, .inr ⟨by rw [pending, hlayers, hcontents]; rfl, hprocess⟩⟩
  · cases heq
  · obtain rfl := Sum.inr.inj heq
    refine ⟨hlayers, .inl ?_⟩
    have hmem : hash ∈ s.pending := mem_pending.mpr ⟨SortedMap.contains_iff.mpr ⟨_, hlayer⟩, hnew⟩
    refine (Finset.ssubset_iff_of_subset fun hash' hmem' => ?_).mpr ⟨hash, hmem, fun hmem' => ?_⟩
    · obtain ⟨hlayer', hnew'⟩ := mem_pending.mp hmem'
      refine mem_pending.mpr ⟨hlayers ▸ hlayer', ?_⟩
      rw [complete, SortedMap.contains_eq_false, hcontents, SortedMap.get?_insert] at hnew'
      split at hnew'
      · cases hnew'
      · exact SortedMap.contains_eq_false.mpr hnew'
    · have hnew' := (mem_pending.mp hmem').2
      rw [complete, SortedMap.contains_eq_false, SortedMap.get?_insert_self] at hnew'
      cases hnew'

end

/-! ## Rounds -/

/-- The smallest hash to process, and the others. -/
def popFirst (s : Loader) : Option (Sha256Hash × Loader) :=
  if h : s.toProcess.Nonempty then
    let hash := s.toProcess.min' h
    some (hash, { s with toProcess := s.toProcess.erase hash })
  else none

theorem popFirst_eq_none {s : Loader} (h : s.popFirst = none) : s.toProcess = ∅ := by
  rw [popFirst] at h
  split at h
  · cases h
  · exact Finset.not_nonempty_iff_eq_empty.mp ‹_›

theorem popFirst_eq_some {s s₁ : Loader} {hash : Sha256Hash} (h : s.popFirst = some (hash, s₁)) :
    hash ∈ s.toProcess ∧ s₁ = { s with toProcess := s.toProcess.erase hash } := by
  rw [popFirst] at h
  split at h
  · obtain ⟨rfl, rfl⟩ := Prod.mk.inj (Option.some.inj h)
    exact ⟨Finset.min'_mem _ _, rfl⟩
  · cases h

variable (cache origHash) in
/-- The loop over the layers to process, in the order of their hashes. -/
def processLoop (s : Loader) : Except MerkleSerialError (MerkleContents ⊕ Loader) :=
  match _hpop : s.popFirst with
  | none => .ok (.inr s)
  | some (hash, s₁) =>
    match _hturn : processHash cache origHash hash s₁ with
    | .error e => .error e
    | .ok (.inl contents) => .ok (.inl contents)
    | .ok (.inr s') => processLoop s'
termination_by (s.pending.card, s.toProcess.card)
decreasing_by
  obtain ⟨hmem, rfl⟩ := popFirst_eq_some _hpop
  obtain ⟨-, hlt | ⟨hpending, hprocess⟩⟩ := processHash_decreases _hturn
  · exact Prod.Lex.left _ _ (Finset.card_lt_card hlt)
  · rw [hpending, hprocess]
    exact Prod.Lex.right _ (Finset.card_erase_lt_of_mem hmem)

theorem processLoop_of_none {s : Loader} (hpop : s.popFirst = none) :
    processLoop cache origHash s = .ok (.inr s) := by
  rw [processLoop]
  split
  · rfl
  · rename_i hpop'
    cases hpop.symm.trans hpop'

theorem processLoop_of_some {s s₁ : Loader} {hash : Sha256Hash}
    (hpop : s.popFirst = some (hash, s₁)) :
    processLoop cache origHash s =
      match processHash cache origHash hash s₁ with
      | .error e => .error e
      | .ok (.inl contents) => .ok (.inl contents)
      | .ok (.inr s') => processLoop cache origHash s' := by
  rw [processLoop]
  split
  · rename_i hpop'
    cases hpop.symm.trans hpop'
  · rename_i hash' s₁' hpop'
    obtain ⟨rfl, rfl⟩ := Prod.mk.inj (Option.some.inj (hpop.symm.trans hpop'))
    split <;> simp only [*]

/-- What holds before the loop and is kept by every turn holds at its end. -/
theorem processLoop_induction {I : Loader → Prop}
    {Q : Except MerkleSerialError (MerkleContents ⊕ Loader) → Prop}
    (error : ∀ s hash s₁ e, I s → s.popFirst = some (hash, s₁) →
      processHash cache origHash hash s₁ = .error e → Q (.error e))
    (found : ∀ s hash s₁ contents, I s → s.popFirst = some (hash, s₁) →
      processHash cache origHash hash s₁ = .ok (.inl contents) → Q (.ok (.inl contents)))
    (turn : ∀ s hash s₁ s', I s → s.popFirst = some (hash, s₁) →
      processHash cache origHash hash s₁ = .ok (.inr s') → I s')
    (done : ∀ s, I s → s.toProcess = ∅ → Q (.ok (.inr s))) {s : Loader} (h : I s) :
    Q (processLoop cache origHash s) := by
  induction s using processLoop.induct cache origHash with
  | case1 s hpop =>
    rw [processLoop_of_none hpop]
    exact done s h (popFirst_eq_none hpop)
  | case2 s hash s₁ hpop e hturn =>
    rw [processLoop_of_some hpop, hturn]
    exact error s hash s₁ e h hpop hturn
  | case3 s hash s₁ hpop contents hturn =>
    rw [processLoop_of_some hpop, hturn]
    exact found s hash s₁ contents h hpop hturn
  | case4 s hash s₁ hpop s' hturn ih =>
    rw [processLoop_of_some hpop, hturn]
    exact ih (turn s hash s₁ s' h hpop hturn)

/-- The loop does not touch the layers. -/
theorem processLoop_layers {s s' : Loader} (h : processLoop cache origHash s = .ok (.inr s')) :
    s'.layers = s.layers := by
  refine @processLoop_induction cache origHash (fun s₁ => s₁.layers = s.layers)
    (fun result => ∀ s', result = .ok (.inr s') → s'.layers = s.layers)
    (fun _ _ _ _ _ _ _ _ h => nomatch h) (fun _ _ _ _ _ _ _ _ h => nomatch h)
    (fun s hash s₁ s' hs hpop hturn => ?_) (fun s hs _ s' h => ?_) s rfl s' h
  · obtain ⟨-, rfl⟩ := popFirst_eq_some hpop
    exact (processHash_decreases hturn).1.trans hs
  · obtain rfl := Sum.inr.inj (Except.ok.inj h)
    exact hs

theorem get?_loadByHashes {store dest : MerkleLayers} {hashes : List Sha256Hash}
    {hash : Sha256Hash} : (loadByHashes store hashes dest).get? hash =
      if hash ∈ hashes ∧ store.contains hash = true then store.get? hash else dest.get? hash := by
  induction hashes generalizing dest with
  | nil => simp [loadByHashes]
  | cons hash' hashes ih =>
    rw [loadByHashes, List.foldl_cons]
    change (loadByHashes store hashes _).get? hash = _
    rw [ih]
    by_cases hmem : hash ∈ hashes ∧ store.contains hash = true
    · rw [if_pos hmem, if_pos ⟨List.mem_cons_of_mem _ hmem.1, hmem.2⟩]
    · rw [if_neg hmem]
      by_cases heq : hash = hash'
      · subst heq
        cases hget : store.get? hash with
        | none => simp [SortedMap.contains, hget]
        | some layer => simp [SortedMap.contains, hget]
      · have hcons : (hash ∈ hash' :: hashes ∧ store.contains hash = true) ↔
            hash ∈ hashes ∧ store.contains hash = true := by simp [heq]
        rw [if_neg (hcons.not.mpr hmem)]
        cases store.get? hash' with
        | none => rfl
        | some layer => exact SortedMap.get?_insert_of_ne heq

/-- A round: the layers that are needed, or the hashes of those that are missing. -/
def loadNeeded (store : MerkleLayers) (s : Loader) : Except MerkleSerialError Loader :=
  if s.needed.any fun hash => s.layers.contains hash || s.allContents.contains hash then
    .error .panic
  else
    let layers := loadByHashes store s.needed s.layers
    let missing := (s.needed.filter fun hash => !layers.contains hash).toFinset
    if missing.Nonempty then .error (.hashesNotFound missing)
    else .ok { s with
      layers
      needed := []
      toProcess := s.toProcess ∪ (s.needed.filter fun hash => layers.contains hash).toFinset }

theorem contains_loadByHashes {store dest : MerkleLayers} {hashes : List Sha256Hash}
    {hash : Sha256Hash} : (loadByHashes store hashes dest).contains hash = true ↔
      hash ∈ hashes ∧ store.contains hash = true ∨ dest.contains hash = true := by
  rw [SortedMap.contains, get?_loadByHashes]
  split
  · rename_i h
    exact iff_of_true h.2 (.inl h)
  · rename_i h
    exact ⟨.inr, fun h' => h'.resolve_left h⟩

theorem loadNeeded_eq_ok {s s' : Loader} (h : loadNeeded store s = .ok s') :
    (∀ hash ∈ s.needed, s.layers.contains hash = false ∧ store.contains hash = true) ∧
      s' = { s with
        layers := loadByHashes store s.needed s.layers
        needed := []
        toProcess := s.toProcess ∪ s.needed.toFinset } := by
  rw [loadNeeded] at h
  split at h
  · cases h
  · rename_i hnew
    simp only at h
    split at h
    · cases h
    · rename_i hmissing
      have hnew' : ∀ hash ∈ s.needed, s.layers.contains hash = false := fun hash hmem => by
        by_contra hcontains
        have hcontains := Bool.eq_true_of_not_eq_false hcontains
        exact hnew (List.any_eq_true.mpr ⟨hash, hmem, by simp [hcontains]⟩)
      have hloaded : ∀ hash ∈ s.needed,
          (loadByHashes store s.needed s.layers).contains hash = true := fun hash hmem => by
        by_contra hcontains
        refine hmissing ⟨hash, List.mem_toFinset.mpr (List.mem_filter.mpr ⟨hmem, ?_⟩)⟩
        simp [Bool.eq_false_of_not_eq_true hcontains]
      refine ⟨fun hash hmem => ⟨hnew' hash hmem, ?_⟩, ?_⟩
      · refine ((contains_loadByHashes.mp (hloaded hash hmem)).resolve_right fun h => ?_).2
        rw [hnew' hash hmem] at h
        cases h
      · rw [← Except.ok.inj h, List.filter_eq_self.mpr hloaded]

/-- Rounds of the loop. -/
def loadLoop (cache : ContentsCache) (store : MerkleLayers) (origHash : Sha256Hash) (s : Loader) :
    Except MerkleSerialError MerkleContents :=
  if _hneeded : s.needed = [] then .error .panic
  else
    match _hload : loadNeeded store s with
    | .error e => .error e
    | .ok s₁ =>
      match _hprocess : processLoop cache origHash s₁ with
      | .error e => .error e
      | .ok (.inl contents) => .ok contents
      | .ok (.inr s₂) => loadLoop cache store origHash s₂
termination_by (store.keys.toFinset \ s.layers.keys.toFinset).card
decreasing_by
  obtain ⟨hneeded, rfl⟩ := loadNeeded_eq_ok _hload
  rw [processLoop_layers _hprocess]
  obtain ⟨hash, hmem⟩ := List.exists_mem_of_ne_nil _ _hneeded
  refine Finset.card_lt_card ((Finset.ssubset_iff_of_subset (Finset.sdiff_subset_sdiff subset_rfl
    fun hash' hmem' => ?_)).mpr ⟨hash, ?_, fun hmem' => ?_⟩)
  · rw [List.mem_toFinset, SortedMap.mem_keys, ← SortedMap.contains_iff] at hmem' ⊢
    exact contains_loadByHashes.mpr (.inr hmem')
  · rw [Finset.mem_sdiff, List.mem_toFinset, List.mem_toFinset, SortedMap.mem_keys,
      SortedMap.mem_keys, ← SortedMap.contains_iff, ← SortedMap.contains_iff, Bool.not_eq_true]
    exact ⟨(hneeded hash hmem).2, (hneeded hash hmem).1⟩
  · rw [Finset.mem_sdiff, List.mem_toFinset, List.mem_toFinset, SortedMap.mem_keys,
      SortedMap.mem_keys, ← SortedMap.contains_iff, ← SortedMap.contains_iff] at hmem'
    exact hmem'.2 (contains_loadByHashes.mpr (.inl ⟨hmem, hmem'.1⟩))

/-- Load up the contents under a hash from the store. -/
def loadMerkleContents (cache : ContentsCache) (store : MerkleLayers) (origHash : Sha256Hash) :
    Except MerkleSerialError MerkleContents :=
  -- Check if it's available in the cache.
  match cache 0 origHash with
  | some contents => .ok contents
  | none => loadLoop cache store origHash
      { layers := ∅, allContents := ∅, reverses := ∅, needed := [origHash], toProcess := ∅,
        lookups := 1 }

end Loader

end Kolme.Merkle
