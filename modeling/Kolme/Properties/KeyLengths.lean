import Kolme.Merkle.Depth
import Kolme.Properties.MerkleMaps

/-!
# Keys of every length

The depth of a node counts nibbles in a `u16`. Programs on Merkle maps work, whatever the lengths of
the keys are, exactly as long as no more than sixteen keys of a map share all the nibbles that can
be counted.
-/

namespace Kolme.Merkle

variable {K V : Type} [ToMerkleKey K] [Inhabited V]

/-- Up to each operation the program returns what it returns on sorted maps, and leaves trees with
the entries of the sorted maps in which every lookup can count its depth. -/
def Works (operations : List (Operation K V)) : Prop :=
  ∀ before, before <+: operations → ∃ maps,
    runOperations before (fun _ => MerkleMap.new) =
      some (maps, (EntryMap.run before (fun _ => ∅)).2) ∧
    ∀ i, ((EntryMap.run before (fun _ => ∅)).1 i).toList =
      (maps i).node.entries.map LeafEntry.assoc ∧ (maps i).node.Counts

/-- A program works if and only if after each of its operations at most sixteen keys of a map begin
with the same 65535 nibbles. -/
theorem works_iff (operations : List (Operation K V)) :
    Works operations ↔ ∀ before, before <+: operations →
      AllRoomy (EntryMap.run before (fun _ => ∅)).1 := by
  constructor
  · intro hworks before hbefore
    by_contra hroomy
    obtain ⟨maps, hrun, -⟩ := hworks before hbefore
    have hnone : runOperations before (fun _ => MerkleMap.new) = none :=
      (runOperations_simulates before fun _ => holds_new).2 fun hall =>
        hroomy (hall before List.prefix_rfl)
    cases hrun.symm.trans hnone
  · intro hall before hbefore
    obtain ⟨maps, hrun, hholds⟩ := (runOperations_simulates before fun _ => holds_new).1
      fun earlier hearlier => hall earlier (hearlier.trans hbefore)
    refine ⟨maps, hrun, fun i => ⟨(hholds i).entries, ?_⟩⟩
    exact (hholds i).valid.counts ((hholds i).keysOf_eq ▸ (hholds i).roomy)

theorem MerkleKey.nibblesOf_append (a b : Bytes) :
    nibblesOf (a ++ b) = nibblesOf a ++ nibblesOf b := by
  induction a with
  | nil => rfl
  | cons byte a ih =>
    rw [List.cons_append, nibblesOf, ih, nibblesOf]
    rfl

theorem MerkleKey.length_nibblesOf (bytes : Bytes) : (nibblesOf bytes).length = 2 * bytes.length :=
  length_nibbles ⟨bytes⟩

namespace LongSample

def shared : Bytes := List.replicate 32768 0

theorem length_shared : shared.length = 32768 := List.length_replicate

/-- Keys that share their first 32768 bytes. -/
scoped instance : ToMerkleKey (Fin 17) := ⟨fun i => ⟨shared ++ [UInt8.ofNat i]⟩⟩

def start : List Nibble := (MerkleKey.nibblesOf shared).take maxDepth

theorem length_start : start.length = maxDepth := by
  rw [start, List.length_take, MerkleKey.length_nibblesOf, length_shared]
  exact Nat.min_eq_left (by decide)

theorem start_prefix (i : Fin 17) : start <+: (ToMerkleKey.toMerkleKey i).nibbles := by
  change start <+: MerkleKey.nibblesOf (shared ++ [UInt8.ofNat i])
  rw [MerkleKey.nibblesOf_append]
  exact (List.take_prefix _ _).trans (List.prefix_append _ _)

theorem toMerkleKey_injective :
    Function.Injective (ToMerkleKey.toMerkleKey : Fin 17 → MerkleKey) := by
  intro i j h
  have hkeys : shared ++ [UInt8.ofNat i] = shared ++ [UInt8.ofNat j] := congrArg MerkleKey.bytes h
  have hlast : [UInt8.ofNat i] = [UInt8.ofNat j] := (List.append_right_inj shared).mp hkeys
  have hbytes : ∀ i j : Fin 17, [UInt8.ofNat i] = [UInt8.ofNat j] → i = j := by decide
  exact hbytes i j hlast

def insertions : List (Operation (Fin 17) Nat) := (List.finRange 17).map fun i => .insert 0 i 0

theorem keySet_run (keys : List (Fin 17)) (ms : Nat → EntryMap (Fin 17) Nat) :
    ((EntryMap.run (keys.map fun i => .insert 0 i 0) ms).1 0).keySet =
      (keys.map ToMerkleKey.toMerkleKey).toFinset ∪ (ms 0).keySet := by
  induction keys generalizing ms with
  | nil => simp [EntryMap.run]
  | cons i keys ih =>
    simp only [List.map_cons, EntryMap.run, ih, EntryMap.perform, Function.update_self,
      EntryMap.keySet_insert, List.toFinset_cons, Finset.union_insert, Finset.insert_union]

end LongSample

open LongSample in
/-- Seventeen keys that share 32768 bytes have no place in a map. -/
theorem works_fails :
    runOperations insertions (fun _ => MerkleMap.new) = none ∧ ¬Works insertions := by
  have hnone : runOperations insertions (fun _ => MerkleMap.new) = none :=
    (runOperations_simulates insertions fun _ => holds_new).2 fun hall => by
      have hcard := hall insertions List.prefix_rfl 0 start length_start
      have hle : ((List.finRange 17).map
          (ToMerkleKey.toMerkleKey : Fin 17 → MerkleKey)).toFinset.card ≤ 16 := by
        refine (Finset.card_le_card fun key hkey => ?_).trans hcard
        rw [insertions, keySet_run]
        refine Finset.mem_filter.mpr ⟨Finset.mem_union_left _ hkey, ?_⟩
        obtain ⟨i, -, rfl⟩ := List.mem_map.mp (List.mem_toFinset.mp hkey)
        exact start_prefix i
      rw [List.toFinset_card_of_nodup ((List.nodup_finRange 17).map toMerkleKey_injective),
        List.length_map, List.length_finRange] at hle
      omega
  refine ⟨hnone, fun hworks => ?_⟩
  obtain ⟨maps, hrun, -⟩ := hworks insertions List.prefix_rfl
  cases hrun.symm.trans hnone

end Kolme.Merkle
