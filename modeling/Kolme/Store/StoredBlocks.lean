import Kolme.Lib.SortedMap
import Kolme.Store.Interface

/-!
# What a store is for

The blocks by height, where every transaction is in at most one block, and the latest height that
was archived. A block is added at an unused height when its transaction is new; the block that is
there already is reported, and any other block is refused.
-/

namespace Kolme.Store

structure StoredBlocks (β : Type) where
  blocks : SortedMap BlockHeight (StorableBlock β)
  latestArchived : Option BlockHeight
  height_eq : ∀ {h b}, blocks.get? h = some b → b.height = h
  unique : ∀ {h h' b b'}, blocks.get? h = some b → blocks.get? h' = some b' →
    b.txhash = b'.txhash → h = h'

namespace StoredBlocks

variable {β : Type}

def empty : StoredBlocks β where
  blocks := .empty
  latestArchived := none
  height_eq h := nomatch h
  unique h := nomatch h

/-- The height of the block with a transaction. -/
def heightOf (t : StoredBlocks β) (x : TxHash) : Option BlockHeight :=
  (t.blocks.find? (·.txhash = x)).map Prod.fst

variable {t : StoredBlocks β} {x : TxHash} {h : BlockHeight} {b : StorableBlock β}

theorem heightOf_eq_some :
    t.heightOf x = some h ↔ ∃ b, t.blocks.get? h = some b ∧ b.txhash = x := by
  constructor
  · intro hx
    obtain ⟨⟨h, b⟩, hfind, rfl⟩ := Option.map_eq_some_iff.mp hx
    obtain ⟨hget, hp⟩ := SortedMap.find?_spec hfind
    exact ⟨b, hget, of_decide_eq_true hp⟩
  · rintro ⟨b, hget, rfl⟩
    cases hfind : t.blocks.find? (·.txhash = b.txhash) with
    | none => exact absurd (SortedMap.find?_eq_none.mp hfind h b hget) (by simp)
    | some e =>
      obtain ⟨hget', hp⟩ := SortedMap.find?_spec hfind
      rw [heightOf, hfind, Option.map_some, t.unique hget' hget (of_decide_eq_true hp)]

theorem heightOf_eq_none :
    t.heightOf x = none ↔ ∀ h b, t.blocks.get? h = some b → b.txhash ≠ x := by
  rw [Option.eq_none_iff_forall_ne_some]
  exact ⟨fun hx h b hget he => hx h (heightOf_eq_some.mpr ⟨b, hget, he⟩),
    fun hx h he => (heightOf_eq_some.mp he).elim fun b hb => hx h b hb.1 hb.2⟩

/-- A block fits when its height is unused and its transaction is new. -/
def Fresh (t : StoredBlocks β) (b : StorableBlock β) : Prop :=
  t.blocks.get? b.height = none ∧ t.heightOf b.txhash = none

instance (t : StoredBlocks β) (b : StorableBlock β) : Decidable (t.Fresh b) :=
  inferInstanceAs (Decidable (_ ∧ _))

def insert (t : StoredBlocks β) (b : StorableBlock β) (fresh : t.Fresh b) : StoredBlocks β where
  blocks := t.blocks.insert b.height b
  latestArchived := t.latestArchived
  height_eq {h c} hget := by
    rw [SortedMap.get?_insert] at hget
    split at hget
    · obtain rfl := Option.some.inj hget
      exact Eq.symm ‹_›
    · exact t.height_eq hget
  unique {h h' c c'} hget hget' he := by
    have new := heightOf_eq_none.mp fresh.2
    rw [SortedMap.get?_insert] at hget hget'
    split at hget <;> split at hget'
    · exact Eq.trans ‹_› (Eq.symm ‹_›)
    · obtain rfl := Option.some.inj hget
      exact absurd he.symm (new _ _ hget')
    · obtain rfl := Option.some.inj hget'
      exact absurd he (new _ _ hget)
    · exact t.unique hget hget' he

theorem get?_insert {fresh : t.Fresh b} :
    (t.insert b fresh).blocks.get? h = if h = b.height then some b else t.blocks.get? h :=
  SortedMap.get?_insert ..

theorem get?_insert_of_some {c : StorableBlock β} (fresh : t.Fresh b)
    (hget : t.blocks.get? h = some c) : (t.insert b fresh).blocks.get? h = some c := by
  rw [get?_insert, if_neg, hget]
  rintro rfl
  rw [fresh.1] at hget
  cases hget

theorem heightOf_insert {fresh : t.Fresh b} :
    (t.insert b fresh).heightOf x = if x = b.txhash then some b.height else t.heightOf x := by
  split
  · rw [heightOf_eq_some]
    exact ⟨b, get?_insert.trans (if_pos rfl), Eq.symm ‹_›⟩
  · refine Option.ext fun h => ?_
    rw [heightOf_eq_some, heightOf_eq_some]
    constructor
    · rintro ⟨c, hget, rfl⟩
      rw [get?_insert] at hget
      split at hget
      · exact absurd (congrArg StorableBlock.txhash (Option.some.inj hget)).symm ‹_›
      · exact ⟨c, hget, rfl⟩
    · rintro ⟨c, hget, hx⟩
      exact ⟨c, get?_insert_of_some fresh hget, hx⟩

/-- The state after a call. -/
def next (t : StoredBlocks β) : Call β → StoredBlocks β
  | .addBlock b => if fresh : t.Fresh b then t.insert b fresh else t
  | .archiveBlock h => { t with latestArchived := some h }
  | _ => t

/-- Nothing is ever removed. -/
theorem get?_next {call : Call β} (hget : t.blocks.get? h = some b) :
    (t.next call).blocks.get? h = some b := by
  cases call with
  | addBlock c =>
    simp only [next]
    split
    · exact get?_insert_of_some ‹_› hget
    · exact hget
  | _ => exact hget

variable [DecidableEq β]

/-- The verdict on a call, given the one on adding a block that is there already. -/
def verdict (again : BlockHeight → Verdict β) (t : StoredBlocks β) : Call β → Verdict β
  | .loadLatestBlock => .answer (.height (t.blocks.last?.map Prod.fst))
  | .loadBlock h => .answer (.block (t.blocks.get? h))
  | .hasBlock h => .answer (.found (t.blocks.contains h))
  | .getHeightForTx x => .answer (.height (t.heightOf x))
  | .addBlock b =>
    if t.blocks.get? b.height = some b then again b.height
    else if t.Fresh b then .answer .done
    else .failed
  | .archiveBlock _ => .answer .done
  | .getLatestArchivedBlockHeight => .answer (.height t.latestArchived)

def service (again : BlockHeight → Verdict β) : Service (StoredBlocks β) (Call β) (Verdict β) where
  call t call := (t.verdict again call, t.next call)

theorem get?_run {again : BlockHeight → Verdict β} (calls : List (Call β))
    (hget : t.blocks.get? h = some b) : ((service again).run t calls).blocks.get? h = some b :=
  (service again).run_invariant (I := fun t => t.blocks.get? h = some b)
    (fun _ _ => get?_next) hget calls

theorem heightOf_run {again : BlockHeight → Verdict β} (calls : List (Call β))
    (hx : t.heightOf x = some h) : ((service again).run t calls).heightOf x = some h := by
  obtain ⟨b, hget, he⟩ := heightOf_eq_some.mp hx
  exact heightOf_eq_some.mpr ⟨b, get?_run calls hget, he⟩

end StoredBlocks

end Kolme.Store
