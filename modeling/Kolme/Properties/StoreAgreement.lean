import Kolme.Store.Representation

/-!
# The stores agree

Every backing store answers a list of calls as the stored blocks do, as long as the calls fit it,
and so does the store of a node. Then each transaction is in at most one block, what a lookup by
hash has returned it returns for ever, the same block again is always answered alike, and a block
at a used height or with a stored transaction is refused without a trace.

Fjall fits only new transactions: it overwrites the height of one that is stored already.
-/

namespace Kolme.Store

open KolmeBackingStore

variable {β : Type} [MerkleHashed (StorableBlock β)] [Rendered β] [DecidableEq β]

/-- Two states with the same lookups, at all heights that the backing store can hold. -/
structure SameLookups {σ : Type} [KolmeBackingStore σ β] (backend : Backend) (s s' : σ) :
    Prop where
  latest : loadLatestBlock s' = loadLatestBlock s
  block : ∀ {h}, HeightFits backend h → loadBlock s' h = loadBlock s h
  found : ∀ {h}, HeightFits backend h → hasBlock s' h = hasBlock s h
  heightForTx : ∀ x, getHeightForTx s' x = getHeightForTx s x
  archived : getLatestArchivedBlockHeight s' = getLatestArchivedBlockHeight s

/-- A block that must be refused: another one is at its height, or its transaction is stored. -/
def Clashes {σ : Type} [KolmeBackingStore σ β] (s : σ) (b : StorableBlock β) : Prop :=
  (∃ c, loadBlock s b.height = .ok (some c) ∧ c ≠ b) ∨
    loadBlock s b.height = .ok none ∧ ∃ h, getHeightForTx s b.txhash = .ok (some h)

/-- A store that has answered some calls as the stored blocks would is as it should be. -/
structure Conforms (σ : Type) [KolmeBackingStore σ β] (reply : BlockHeight → Verdict β)
    (backend : Backend) (start : σ) (calls : List (Call β)) : Prop where
  answers : ((service σ).answers start calls).map Verdict.of =
    (StoredBlocks.service reply).answers .empty calls
  indexed : ∀ {x h}, HeightFits backend h →
    (getHeightForTx ((service σ).run start calls) x = .ok (some h) ↔
      ∃ b, loadBlock ((service σ).run start calls) h = .ok (some b) ∧ b.txhash = x)
  forever : ∀ {more}, (StoredBlocks.service reply).Along (Fits backend) .empty (calls ++ more) →
    (∀ {x h}, getHeightForTx ((service σ).run start calls) x = .ok (some h) →
      getHeightForTx ((service σ).run start (calls ++ more)) x = .ok (some h)) ∧
    ∀ {h b}, HeightFits backend h → loadBlock ((service σ).run start calls) h = .ok (some b) →
      loadBlock ((service σ).run start (calls ++ more)) h = .ok (some b)
  again : ∀ {b}, Adds backend ((StoredBlocks.service reply).run .empty calls) b →
    loadBlock ((service σ).run start calls) b.height = .ok (some b) →
    Verdict.of ((Call.addBlock b).perform ((service σ).run start calls)).1 = reply b.height ∧
      SameLookups backend ((service σ).run start calls)
        (addBlock b ((service σ).run start calls)).2
  refused : ∀ {b}, Adds backend ((StoredBlocks.service reply).run .empty calls) b →
    Clashes ((service σ).run start calls) b →
    (∃ e, (addBlock b ((service σ).run start calls)).1 = .error e) ∧
      SameLookups backend ((service σ).run start calls)
        (addBlock b ((service σ).run start calls)).2

section

variable {σ : Type} [KolmeBackingStore σ β] {reply : BlockHeight → Verdict β} {backend : Backend}
  {R : σ → StoredBlocks β → Prop} {s s' : σ} {t : StoredBlocks β} {b : StorableBlock β}

omit [MerkleHashed (StorableBlock β)] [Rendered β] [DecidableEq β] in
theorem Shows.same (h : Shows backend s t) (h' : Shows backend s' t) : SameLookups backend s s' where
  latest := h'.latest.trans h.latest.symm
  block hfits := (h'.block hfits).trans (h.block hfits).symm
  found hfits := (h'.found hfits).trans (h.found hfits).symm
  heightForTx x := (h'.heightForTx x).trans (h.heightForTx x).symm
  archived := h'.archived.trans h.archived.symm

theorem conforms_of (refines : (service σ).Refines (StoredBlocks.service reply) Verdict.of
      (Fits backend) R)
    (shows : ∀ {s t}, R s t → Shows backend s t)
    (treats : ∀ {s t b}, R s t → Adds backend t b → Treats reply R s t b) {start : σ}
    (new : R start .empty) {calls : List (Call β)}
    (fit : (StoredBlocks.service reply).Along (Fits backend) .empty calls) :
    Conforms σ reply backend start calls := by
  have hrel := refines.run new fit
  have hshows := shows hrel
  exact {
    answers := refines.answers new fit
    indexed := fun {x h} hfits => by
      rw [hshows.heightForTx, hshows.block hfits]
      simp only [Except.ok.injEq, StoredBlocks.heightOf_eq_some]
    forever := fun {more} hmore => by
      have hshows' := shows (refines.run new hmore)
      rw [(StoredBlocks.service reply).run_append] at hshows'
      constructor
      · intro x h hx
        rw [hshows.heightForTx] at hx
        rw [hshows'.heightForTx, StoredBlocks.heightOf_run more (Except.ok.inj hx)]
      · intro h b hfits hb
        rw [hshows.block hfits] at hb
        rw [hshows'.block hfits, StoredBlocks.get?_run more (Except.ok.inj hb)]
    again := fun {b} hadds hb => by
      rw [hshows.block hadds.height] at hb
      obtain ⟨r, s', hadd, hreply, hrel'⟩ := (treats hrel hadds).again (Except.ok.inj hb)
      rw [perform_addBlock hadd, hadd]
      exact ⟨hreply, hshows.same (shows hrel')⟩
    refused := fun {b} hadds hclash => by
      rw [Clashes, hshows.block hadds.height] at hclash
      rcases hclash with ⟨c, hc, hne⟩ | ⟨hnone, h, hx⟩
      · obtain ⟨_, _, hadd⟩ := (treats hrel hadds).used (Except.ok.inj hc) hne
        rw [hadd]
        exact ⟨⟨_, rfl⟩, hshows.same hshows⟩
      · rw [hshows.heightForTx] at hx
        obtain ⟨e, hadd, -⟩ := (treats hrel hadds).stored (Except.ok.inj hnone) (Except.ok.inj hx)
        rw [hadd]
        exact ⟨⟨e, rfl⟩, hshows.same hshows⟩ }

end

/-- What fits does not depend on the reply to a block that is there already. -/
theorem along_reply {backend : Backend} {reply reply' : BlockHeight → Verdict β}
    {t : StoredBlocks β} {calls : List (Call β)}
    (fit : (StoredBlocks.service reply).Along (Fits backend) t calls) :
    (StoredBlocks.service reply').Along (Fits backend) t calls := by
  induction calls generalizing t with
  | nil => trivial
  | cons call calls ih => exact ⟨fit.1, ih fit.2⟩

/-- Calls that fit a backing store get the same answers from it, and from the store of a node over
it, as from any other store that they fit. -/
theorem stores_agree (backend : Backend) (calls : List (Call β))
    (fit : (StoredBlocks.service .alreadyInserted).Along (Fits backend) .empty calls) :
    Conforms (KolmeStoreInner β) .alreadyInserted backend backend.new calls ∧
      Conforms (KolmeStore β) (fun _ => .answer .done) backend (.new backend) calls :=
  ⟨conforms_of (Holds.refines backend) Holds.shows Holds.treats (.new backend) fit,
    conforms_of (NodeHolds.refines backend) NodeHolds.shows NodeHolds.treats (.new backend)
      (along_reply fit)⟩

/-! ## Samples -/

namespace StoreSample

scoped instance : Rendered Bool where
  toText b := if b then "true" else "false"
  fromText text := if text = "true" then some true else if text = "false" then some false else none

/-- Two blocks of different heights with the same transaction -/
def first : StorableBlock Bool where
  height := 0
  blockhash := 10
  txhash := 7
  block := false

def second : StorableBlock Bool where
  height := 1
  blockhash := 11
  txhash := 7
  block := true

/-- The hashes of the serialized blocks: a version byte, the height, the two hashes, and the
block -/
scoped instance : MerkleHashed (StorableBlock Bool) where
  contentHash b :=
    if b = first then
      79459449447736916421488273765346825327497068791428014138837825139604478415328
    else if b = second then
      84174966697455198694774852238972844976089615768254095012676683598505862477143
    else 0

end StoreSample

open StoreSample in
/-- Fjall takes the second block with a transaction, and the transaction's height changes. -/
theorem stores_agree_counterexample :
    let s := (service (KolmeStore Bool)).run (.new .fjall) [.addBlock first]
    getHeightForTx s second.txhash = .ok (some 0) ∧ (addBlock second s).1 = .ok () ∧
      getHeightForTx (addBlock second s).2 second.txhash = .ok (some 1) ∧
      ∀ backend ∈ [Backend.inMemory, .postgres],
        (addBlock second ((service (KolmeStore Bool)).run (.new backend) [.addBlock first])).1 ≠
          .ok () := by
  decide

open StoreSample in
/-- The same block twice, and then its transaction -/
theorem stores_agree_example :
    Conforms (KolmeStore Bool) (fun _ => .answer .done) .fjall (.new .fjall)
      [.addBlock first, .addBlock first, .getHeightForTx first.txhash] := by
  refine (stores_agree .fjall _ ?_).2
  refine ⟨⟨nofun, nofun, nofun, fun _ _ => rfl⟩, ⟨nofun, nofun, fun {h c} hget _ => ?_, nofun⟩,
    trivial, trivial⟩
  have fresh : StoredBlocks.empty.Fresh first := ⟨rfl, rfl⟩
  change (StoredBlocks.empty.insert first fresh).blocks.get? h = some c at hget
  rw [StoredBlocks.get?_insert] at hget
  split at hget
  · exact (Option.some.inj hget).symm
  · cases hget

end Kolme.Store
