import Kolme.Components.Mempool

/-!
# The order of the pool and the reasons it reports

Which transactions are pending is seen from outside, and so is the order in which they arrived. The
cache keeps that order as long as no entry is marked as gossiped but the newest one. A reason why a
transaction is blocked is kept once there is one.
-/

namespace Kolme

variable {M : Type} (sha256 : ByteArray → Sha256Hash)

/-! ## Arrivals -/

/-- The hashes of the pending transactions, the one that has been pending longest first, when the
pool has changed: those that are gone are dropped, and those that are new come last. -/
def observe (arrivals pending : List TxHash) : List TxHash :=
  arrivals.filter (· ∈ pending) ++ (pending.filter (· ∉ arrivals)).reverse

namespace MempoolCall

/-- The pending transactions in the order of their arrival, as a run shows it. -/
def arrivals (state : MempoolState M) (past : List (MempoolCall M)) : List TxHash :=
  (past.foldl (fun (state, queue) call =>
    (call.apply sha256 state, observe queue (call.apply sha256 state).txs.keys)) (state, [])).2

variable {sha256} {state : MempoolState M} {past : List (MempoolCall M)} {call : MempoolCall M}

theorem foldl_fst : (past.foldl (fun (state, queue) call =>
    (call.apply sha256 state, observe queue (call.apply sha256 state).txs.keys))
      (state, ([] : List TxHash))).1 = run sha256 state past := by
  induction past using List.reverseRecOn with
  | nil => rfl
  | append_singleton past call ih => rw [List.foldl_concat, run_concat, ← ih]

@[simp] theorem arrivals_nil : arrivals sha256 state [] = [] := rfl

@[simp] theorem arrivals_concat : arrivals sha256 state (past ++ [call]) =
    observe (arrivals sha256 state past) (run sha256 state (past ++ [call])).txs.keys := by
  rw [run_concat, ← foldl_fst, arrivals, List.foldl_concat]
  rfl

end MempoolCall

/-- Dropping keeps the order. -/
theorem observe_reverse_filter (pending : List TxHash) (p : TxHash → Bool) :
    observe pending.reverse (pending.filter p) = (pending.filter p).reverse := by
  have hold : pending.reverse.filter (· ∈ pending.filter p) = (pending.filter p).reverse := by
    rw [← List.filter_reverse]
    refine List.filter_congr fun hash hmem => ?_
    simp [List.mem_reverse.mp hmem]
  have hnew : (pending.filter p).filter (· ∉ pending.reverse) = [] := by
    rw [List.filter_eq_nil_iff]
    intro hash hmem
    simp [List.mem_of_mem_filter hmem]
  rw [observe, hold, hnew, List.reverse_nil, List.append_nil]

theorem observe_reverse_self (pending : List TxHash) :
    observe pending.reverse pending = pending.reverse := by
  simpa using observe_reverse_filter pending fun _ => true

/-- What is put in comes last, and what it displaces was first. -/
theorem observe_reverse_take {pending : List TxHash} {hash : TxHash} {cap : Nat} (hcap : 0 < cap)
    (hnodup : pending.Nodup) (hnew : hash ∉ pending) :
    observe pending.reverse ((hash :: pending).take cap) =
      ((hash :: pending).take cap).reverse := by
  obtain ⟨n, rfl⟩ := Nat.exists_eq_succ_of_ne_zero (Nat.pos_iff_ne_zero.mp hcap)
  rw [List.take_succ_cons]
  have hsplit := List.take_append_drop n pending
  have hapart : ∀ x ∈ pending.drop n, x ∉ pending.take n := by
    rw [← hsplit] at hnodup
    exact fun x hdrop htake => List.disjoint_of_nodup_append hnodup htake hdrop
  have hkept : pending.reverse.filter (· ∈ hash :: pending.take n) = (pending.take n).reverse := by
    have htake : (pending.take n).filter (· ∈ hash :: pending.take n) = pending.take n := by
      rw [List.filter_eq_self]
      intro x hx
      simp [hx]
    have hdrop : (pending.drop n).filter (· ∈ hash :: pending.take n) = [] := by
      rw [List.filter_eq_nil_iff]
      intro x hx
      have hne : x ≠ hash := fun heq => hnew (heq ▸ List.mem_of_mem_drop hx)
      simp [hne, hapart x hx]
    have hall : pending.filter (· ∈ hash :: pending.take n) = pending.take n := by
      calc pending.filter (· ∈ hash :: pending.take n)
          = (pending.take n ++ pending.drop n).filter (· ∈ hash :: pending.take n) := by
            rw [hsplit]
        _ = pending.take n := by rw [List.filter_append, htake, hdrop, List.append_nil]
    rw [List.filter_reverse, hall]
  have hadded : (hash :: pending.take n).filter (· ∉ pending.reverse) = [hash] := by
    rw [List.filter_cons_of_pos (by simpa using hnew)]
    refine congrArg _ (List.filter_eq_nil_iff.mpr fun x hx => ?_)
    simp [List.mem_of_mem_take hx]
  rw [observe, hkept, hadded, List.reverse_singleton, List.reverse_cons]

/-! ## The order that the cache keeps -/

namespace MempoolState

/-- The cache lists the pending transactions under their hashes, the newest first, and blocks none
of them. -/
structure Ordered (state : MempoolState M) (arrivals : List TxHash) : Prop where
  order : state.txs.keys.reverse = arrivals
  keyed : ∀ p ∈ state.txs.entries, p.2.tx.messageHash sha256 = p.1
  apart : ∀ hash ∈ state.txs.keys, hash ∉ state.blocked.keys

variable {sha256} {state : MempoolState M} {arrivals : List TxHash}

namespace Ordered

theorem same (h : Ordered sha256 state arrivals) :
    Ordered sha256 state (observe arrivals state.txs.keys) where
  order := by rw [← h.order, observe_reverse_self]
  keyed := h.keyed
  apart := h.apart

theorem dropTx (h : Ordered sha256 state arrivals) (hash : TxHash) :
    Ordered sha256 (state.dropTx hash) (observe arrivals (state.dropTx hash).txs.keys) where
  order := by
    rw [MempoolState.dropTx, LruCache.keys_pop, ← h.order]
    exact (observe_reverse_filter _ _).symm
  keyed p hp := h.keyed p (List.mem_of_mem_filter hp)
  apart hash' hmem := by
    rw [MempoolState.dropTx, LruCache.keys_pop] at hmem
    exact h.apart hash' (List.mem_of_mem_filter hmem)

theorem block (h : Ordered sha256 state arrivals) (hash : TxHash) (reason : BlockReason M) :
    Ordered sha256 (state.block hash reason).1
      (observe arrivals (state.block hash reason).1.txs.keys) := by
  cases hblocked : state.blocked.contains hash with
  | true =>
    rw [block_of_blocked hblocked]
    exact h.same
  | false =>
    rw [block_of_new hblocked]
    have hdrop := h.dropTx hash
    refine ⟨hdrop.order, hdrop.keyed, fun hash' hmem hblocked' => ?_⟩
    rcases LruCache.mem_keys_of_put hblocked' with rfl | hold
    · rw [MempoolState.dropTx, LruCache.keys_pop] at hmem
      exact absurd (List.mem_filter.mp hmem).2 (by simp)
    · exact hdrop.apart hash' hmem hold

theorem add (h : Ordered sha256 state arrivals) (tx : SignedTransaction M) :
    Ordered sha256 (state.add sha256 tx).1
      (observe arrivals (state.add sha256 tx).1.txs.keys) := by
  cases hreason : state.blocked.peek (tx.messageHash sha256) with
  | some reason =>
    rw [add_of_blocked hreason]
    exact ⟨h.same.order, h.keyed, fun hash hmem hblocked =>
      h.apart hash hmem (LruCache.mem_keys_of_getMut hblocked)⟩
  | none =>
    cases hpending : state.txs.contains (tx.messageHash sha256) with
    | true =>
      rw [add_of_pending hreason hpending]
      exact h.same
    | false =>
      have hnew : tx.messageHash sha256 ∉ state.txs.keys := by
        rw [← LruCache.contains_iff, hpending]
        simp
      have hkeys : (state.txs.put (tx.messageHash sha256) ⟨tx, none⟩).keys =
          (tx.messageHash sha256 :: state.txs.keys).take state.txs.cap := by
        rw [LruCache.keys_put, List.filter_eq_self.mpr]
        intro hash hmem
        have hne : hash ≠ tx.messageHash sha256 := fun heq => hnew (heq ▸ hmem)
        simpa using hne
      rw [add_of_new hreason hpending]
      refine ⟨?_, fun p hp => ?_, fun hash hmem => ?_⟩
      · rw [hkeys, ← h.order]
        exact (observe_reverse_take state.txs.cap_pos state.txs.nodup hnew).symm
      · rcases LruCache.mem_entries_of_put hp with rfl | ⟨hp, -⟩
        · rfl
        · exact h.keyed p hp
      · rcases LruCache.mem_keys_of_put hmem with rfl | hmem
        · exact LruCache.peek_eq_none.mp hreason
        · exact h.apart hash hmem

end Ordered

/-- Marking an entry changes nothing but its time. -/
structure MarksOnly (state : MempoolState M) (hash : TxHash) (now : Instant) : Prop where
  blocked : (state.markMempoolEntryGossiped hash now).blocked = state.blocked
  entries : (state.markMempoolEntryGossiped hash now).txs.entries =
    state.txs.entries.map fun p =>
      if p.1 = hash then (p.1, { p.2 with lastGossiped := some now }) else p

theorem MarksOnly.keys {hash : TxHash} {now : Instant} (h : MarksOnly state hash now) :
    (state.markMempoolEntryGossiped hash now).txs.keys = state.txs.keys := by
  rw [LruCache.keys, h.entries, List.map_map, LruCache.keys]
  refine List.map_congr_left fun p _ => ?_
  simp only [Function.comp_apply]
  split <;> rfl

/-- An entry that is marked moves to the front, so nothing else changes only if it is there. -/
theorem marksOnly_iff {hash : TxHash} {now : Instant} : MarksOnly state hash now ↔
    (hash ∈ state.txs.keys → state.txs.keys.head? = some hash) := by
  constructor
  · intro h hmem
    obtain ⟨n, hn⟩ := Nat.exists_eq_succ_of_ne_zero (Nat.pos_iff_ne_zero.mp state.txs.cap_pos)
    rw [← h.keys, markMempoolEntryGossiped, LruCache.getMut]
    cases hpeek : state.txs.peek hash with
    | none => exact absurd hmem (LruCache.peek_eq_none.mp hpeek)
    | some item => simp [LruCache.keys_put, hn]
  · intro hfirst
    refine ⟨rfl, ?_⟩
    rw [markMempoolEntryGossiped, LruCache.getMut]
    cases hpeek : state.txs.peek hash with
    | none =>
      have habsent := LruCache.peek_eq_none.mp hpeek
      refine (List.map_id _).symm.trans (List.map_congr_left fun p hp => ?_)
      rw [if_neg fun heq : p.1 = hash => habsent (heq ▸ List.mem_map_of_mem (f := Prod.fst) hp), id]
    | some item =>
      have hitem := LruCache.peek_eq_some.mp hpeek
      have hhead := hfirst (List.mem_map_of_mem (f := Prod.fst) hitem)
      have hnodup := state.txs.nodup
      have hlength := state.txs.length_le
      cases hentries : state.txs.entries with
      | nil =>
        rw [hentries] at hitem
        cases hitem
      | cons p rest =>
        rw [LruCache.keys, hentries] at hhead
        rw [hentries] at hitem hnodup hlength
        obtain rfl : p.1 = hash := Option.some.inj hhead
        obtain ⟨hnot, -⟩ := List.nodup_cons.mp hnodup
        have hrest : ∀ q ∈ rest, q.1 ≠ p.1 := fun q hq heq =>
          hnot (heq ▸ List.mem_map_of_mem (f := Prod.fst) hq)
        have hp : p.2 = item := by
          rcases List.mem_cons.mp hitem with heq | hmem
          · rw [← heq]
          · exact absurd rfl (hrest (p.1, item) hmem)
        have hsame : rest.map (fun q =>
            if q.1 = p.1 then (q.1, { q.2 with lastGossiped := some now }) else q) = rest := by
          refine (List.map_congr_left fun q hq => ?_).trans (List.map_id _)
          rw [if_neg (hrest q hq), id]
        have hfilter : (p :: rest).filter (fun q => q.1 ≠ p.1) = rest := by
          rw [List.filter_cons_of_neg (by simp), List.filter_eq_self]
          exact fun q hq => by simpa using hrest q hq
        rw [LruCache.entries_put, hentries, hfilter, List.map_cons, if_pos rfl, hsame, ← hp]
        exact List.take_of_length_le hlength

theorem Ordered.mark (h : Ordered sha256 state arrivals) {hash : TxHash} {now : Instant}
    (honly : MarksOnly state hash now) :
    Ordered sha256 (state.markMempoolEntryGossiped hash now)
      (observe arrivals (state.markMempoolEntryGossiped hash now).txs.keys) where
  order := by rw [honly.keys, ← h.order, observe_reverse_self]
  keyed p hp := by
    rw [honly.entries] at hp
    obtain ⟨q, hq, rfl⟩ := List.mem_map.mp hp
    have hkey := h.keyed q hq
    split
    · exact hkey
    · exact hkey
  apart hash' hmem := by
    rw [honly.keys] at hmem
    exact h.apart hash' hmem

/-- An entry is at the front of the cache exactly if it arrived last. -/
theorem Ordered.marksOnly_iff (h : Ordered sha256 state arrivals) {hash : TxHash} {now : Instant} :
    MarksOnly state hash now ↔ (hash ∈ arrivals → arrivals.getLast? = some hash) := by
  rw [MempoolState.marksOnly_iff, ← h.order, List.mem_reverse, List.getLast?_reverse]

end MempoolState

namespace MempoolCall

variable {sha256} {state : MempoolState M}

/-- A run keeps the order if its marks do. -/
theorem ordered_run (calls : List (MempoolCall M)) (start : state.Ordered sha256 [])
    (hmarks : ∀ past hash now, past ++ [.markMempoolEntryGossiped hash now] <+: calls →
      (run sha256 state past).Ordered sha256 (arrivals sha256 state past) →
      (run sha256 state past).MarksOnly hash now) :
    (run sha256 state calls).Ordered sha256 (arrivals sha256 state calls) := by
  induction calls using List.reverseRecOn with
  | nil => exact start
  | append_singleton past call ih =>
    have h := ih fun earlier hash now hpre =>
      hmarks earlier hash now (hpre.trans (List.prefix_append _ _))
    rw [arrivals_concat, run_concat]
    cases call with
    | add tx => exact h.add tx
    | addSignedBlock block => exact h.block _ _
    | addFailedTransaction failed => exact h.block _ _
    | remove hash => exact h.dropTx hash
    | markMempoolEntryGossiped hash now => exact h.mark (hmarks past hash now List.prefix_rfl h)
    | peek | getEntries | getEntriesForGossip => exact h.same

end MempoolCall

/-- In every state of a run the pool hands out what has been pending longest and holds nothing that
is blocked, and marking an entry changes nothing but its time. -/
structure KeepsOrder (state : MempoolState M) (calls : List (MempoolCall M)) : Prop where
  oldest : ∀ past, past <+: calls →
    (MempoolCall.run sha256 state past).peek.map (·.messageHash sha256) =
      (MempoolCall.arrivals sha256 state past).head?
  apart : ∀ past, past <+: calls → ∀ hash,
    ¬((MempoolCall.run sha256 state past).txs.contains hash = true ∧
      (MempoolCall.run sha256 state past).blocked.contains hash = true)
  marks : ∀ past hash now, past ++ [.markMempoolEntryGossiped hash now] <+: calls →
    (MempoolCall.run sha256 state past).MarksOnly hash now

theorem KeepsOrder.of_marks {calls : List (MempoolCall M)} {state : MempoolState M}
    (start : state.Ordered sha256 [])
    (hmarks : ∀ past hash now, past ++ [.markMempoolEntryGossiped hash now] <+: calls →
      (MempoolCall.run sha256 state past).Ordered sha256 (MempoolCall.arrivals sha256 state past) →
      (MempoolCall.run sha256 state past).MarksOnly hash now) :
    KeepsOrder sha256 state calls := by
  have hordered : ∀ past, past <+: calls → (MempoolCall.run sha256 state past).Ordered sha256
      (MempoolCall.arrivals sha256 state past) := fun past hpast =>
    MempoolCall.ordered_run past start fun earlier hash now hpre =>
      hmarks earlier hash now (hpre.trans hpast)
  refine ⟨fun past hpast => ?_, fun past hpast hash ⟨hpending, hblocked⟩ => ?_,
    fun past hash now hpre => ?_⟩
  · have h := hordered past hpast
    rw [← h.order, List.head?_reverse, LruCache.keys, List.getLast?_map, MempoolState.peek,
      LruCache.peekLru]
    cases hlast : (MempoolCall.run sha256 state past).txs.entries.getLast? with
    | none => rfl
    | some p => exact congrArg some (h.keyed p (List.mem_of_getLast? hlast))
  · exact (hordered past hpast).apart hash (LruCache.contains_iff.mp hpending)
      (LruCache.contains_iff.mp hblocked)
  · exact hmarks past hash now hpre (hordered past ((List.prefix_append _ _).trans hpre))

theorem ordered_new {txCount blockedTxCount : Nat} (htx : 0 < txCount)
    (hblocked : 0 < blockedTxCount) :
    (MempoolState.new txCount blockedTxCount htx hblocked : MempoolState M).Ordered sha256 [] :=
  ⟨rfl, fun _ h => (nomatch h), fun _ h => nomatch h⟩

/-- A run keeps the order exactly if it marks no pending transaction but the one that arrived
last. -/
theorem keepsOrder_iff {txCount blockedTxCount : Nat} (htx : 0 < txCount)
    (hblocked : 0 < blockedTxCount) (calls : List (MempoolCall M)) :
    KeepsOrder sha256 (.new txCount blockedTxCount htx hblocked) calls ↔
      ∀ past hash now, past ++ [.markMempoolEntryGossiped hash now] <+: calls →
        let arrivals := MempoolCall.arrivals sha256
          (.new txCount blockedTxCount htx hblocked : MempoolState M) past
        hash ∈ arrivals → arrivals.getLast? = some hash := by
  have start := ordered_new (M := M) sha256 htx hblocked
  constructor
  · intro h past hash now hpre
    have hordered := MempoolCall.ordered_run past start fun earlier hash now hearlier _ =>
      h.marks earlier hash now (hearlier.trans ((List.prefix_append _ _).trans hpre))
    exact hordered.marksOnly_iff.mp (h.marks past hash now hpre)
  · intro h
    exact .of_marks sha256 start fun past hash now hpre hordered =>
      hordered.marksOnly_iff.mpr (h past hash now hpre)

namespace PoolSample

/-- The number of bytes of a text stands for its hash. -/
def textSize (bytes : ByteArray) : Sha256Hash := Fin.ofNat _ bytes.size

def tx (text : String) : SignedTransaction Unit := ⟨⟨text, ⟨0, 0, [], none⟩⟩, 0, 0⟩

def pool : MempoolState Unit := .new 10 10 (by decide) (by decide)

/-- Two transactions arrive, and the first is gossiped. -/
def calls : List (MempoolCall Unit) :=
  [.add (tx "a"), .add (tx "bb"), .markMempoolEntryGossiped 1 0]

/-- Two transactions arrive, the second is gossiped, and the first lands. -/
def gossiped : List (MempoolCall Unit) :=
  [.add (tx "a"), .add (tx "bb"), .markMempoolEntryGossiped 2 0, .remove 1]

end PoolSample

open PoolSample in
theorem keepsOrder_iff_example :
    KeepsOrder textSize pool gossiped ↔
      ∀ past hash now, past ++ [.markMempoolEntryGossiped hash now] <+: gossiped →
        let arrivals := MempoolCall.arrivals textSize pool past
        hash ∈ arrivals → arrivals.getLast? = some hash :=
  keepsOrder_iff textSize (by decide) (by decide) gossiped

open PoolSample in
/-- The transaction that arrived second is taken first. -/
theorem keepsOrder_fails :
    (MempoolCall.run textSize pool calls).peek.map (·.messageHash textSize) = some 2 ∧
      MempoolCall.arrivals textSize pool calls = [1, 2] ∧
      ¬ ∀ calls : List (MempoolCall Unit), KeepsOrder textSize pool calls := by
  have hpeek : (MempoolCall.run textSize pool calls).peek.map (·.messageHash textSize) =
      some 2 := by decide
  have harrivals : MempoolCall.arrivals textSize pool calls = [1, 2] := by decide
  refine ⟨hpeek, harrivals, fun h => ?_⟩
  have holdest := (h calls).oldest calls List.prefix_rfl
  rw [hpeek, harrivals] at holdest
  exact absurd holdest (by decide)

/-! ## The reason that is reported -/

namespace MempoolCall

/-- The transaction that a call blocks, and why. -/
def notice? : MempoolCall M → Option (TxHash × BlockReason M)
  | addSignedBlock block => some (block.tx.messageHash sha256, .inBlock block)
  | addFailedTransaction failed => some (failed.message.value.txhash, .failed failed)
  | _ => none

/-- The first reason why a run blocks a transaction. -/
def firstReason (calls : List (MempoolCall M)) (hash : TxHash) : Option (BlockReason M) :=
  (calls.filterMap (notice? sha256)).findSome? fun p => if p.1 = hash then some p.2 else none

/-- The transactions that a run blocks. -/
def noticed (calls : List (MempoolCall M)) : List TxHash :=
  ((calls.filterMap (notice? sha256)).map Prod.fst).dedup

variable {sha256} {calls past : List (MempoolCall M)} {call : MempoolCall M} {hash : TxHash}

theorem firstReason_append : firstReason sha256 (past ++ calls) hash =
    (firstReason sha256 past hash).or (firstReason sha256 calls hash) := by
  rw [firstReason, List.filterMap_append, List.findSome?_append]
  rfl

theorem firstReason_single {reason : BlockReason M} (h : call.notice? sha256 = some (hash, reason))
    (hash' : TxHash) :
    firstReason sha256 [call] hash' = if hash = hash' then some reason else none := by
  simp only [firstReason, List.filterMap_cons, h, List.filterMap_nil, List.findSome?_cons,
    List.findSome?_nil]
  split <;> simp_all

theorem firstReason_single_none (h : call.notice? sha256 = none) :
    firstReason sha256 [call] hash = none := by
  simp [firstReason, h]

theorem mem_noticed : hash ∈ noticed sha256 calls ↔ firstReason sha256 calls hash ≠ none := by
  rw [noticed, List.mem_dedup, List.mem_map, firstReason, Ne, List.findSome?_eq_none_iff]
  simp only [not_forall]
  constructor
  · rintro ⟨p, hp, rfl⟩
    exact ⟨p, hp, by simp⟩
  · rintro ⟨p, hp, hne⟩
    refine ⟨p, hp, by_contra fun hkey => hne ?_⟩
    rw [if_neg hkey]

theorem firstReason_ne_none {block : SignedBlock M} (h : .addSignedBlock block ∈ calls) :
    firstReason sha256 calls (block.tx.messageHash sha256) ≠ none := by
  rw [← mem_noticed, noticed, List.mem_dedup, List.mem_map]
  exact ⟨_, List.mem_filterMap.mpr ⟨_, h, rfl⟩, rfl⟩

theorem length_noticed_le :
    (noticed sha256 past).length ≤ (noticed sha256 (past ++ calls)).length := by
  refine (List.subperm_of_subset (List.nodup_dedup _) fun hash hmem => ?_).length_le
  refine mem_noticed.mpr fun hnone => mem_noticed.mp hmem ?_
  rw [firstReason_append] at hnone
  exact (Option.or_eq_none_iff.mp hnone).1

variable (sha256) in
/-- The reasons of a cache are the first ones of a run. -/
def Reasons (past : List (MempoolCall M)) (blocked : LruCache TxHash (BlockReason M)) : Prop :=
  ∀ hash, blocked.peek hash = firstReason sha256 past hash

theorem Reasons.block {state : MempoolState M} {reason : BlockReason M}
    (h : Reasons sha256 past state.blocked)
    (hnotice : call.notice? sha256 = some (hash, reason))
    (hroom : (noticed sha256 (past ++ [call])).length ≤ state.blocked.cap) :
    (state.block hash reason).1.blocked.cap = state.blocked.cap ∧
      Reasons sha256 (past ++ [call]) (state.block hash reason).1.blocked := by
  have hconcat (hash' : TxHash) : firstReason sha256 (past ++ [call]) hash' =
      (state.blocked.peek hash').or (if hash = hash' then some reason else none) := by
    rw [firstReason_append, firstReason_single hnotice, h hash']
  cases hblocked : state.blocked.contains hash with
  | true =>
    rw [MempoolState.block_of_blocked hblocked]
    refine ⟨rfl, fun hash' => ?_⟩
    rw [hconcat]
    cases hpeek : state.blocked.peek hash' with
    | some reason' => rfl
    | none =>
      have hne : hash ≠ hash' := by
        rintro rfl
        exact LruCache.peek_eq_none.mp hpeek (LruCache.contains_iff.mp hblocked)
      rw [if_neg hne]
      rfl
  | false =>
    have habsent : hash ∉ state.blocked.keys := by
      rw [← LruCache.contains_iff, hblocked]
      simp
    have hkeys : (hash :: state.blocked.keys).length ≤
        (noticed sha256 (past ++ [call])).length := by
      refine (List.subperm_of_subset (List.nodup_cons.mpr ⟨habsent, state.blocked.nodup⟩)
        fun hash' hmem => ?_).length_le
      rw [mem_noticed, hconcat]
      rcases List.mem_cons.mp hmem with rfl | hmem
      · simp
      · obtain ⟨reason', hpeek⟩ := Option.ne_none_iff_exists'.mp
          (mt LruCache.peek_eq_none.mp (not_not_intro hmem))
        simp [hpeek]
    have hspace : (state.blocked.keys.filter (· ≠ hash)).length < state.blocked.cap :=
      (Nat.lt_succ_of_le (List.length_filter_le _ _)).trans_le (hkeys.trans hroom)
    rw [MempoolState.block_of_new hblocked]
    refine ⟨rfl, fun hash' => ?_⟩
    rw [hconcat, MempoolState.dropTx, LruCache.peek_put_of_room hspace]
    by_cases heq : hash' = hash
    · subst heq
      rw [if_pos rfl, if_pos rfl, LruCache.peek_eq_none.mpr habsent]
      rfl
    · rw [if_neg heq, if_neg (Ne.symm heq), Option.or_none]

theorem Reasons.same {blocked : LruCache TxHash (BlockReason M)}
    (h : Reasons sha256 past blocked) (hnotice : call.notice? sha256 = none) :
    Reasons sha256 (past ++ [call]) blocked := by
  intro hash
  rw [firstReason_append, firstReason_single_none hnotice, Option.or_none]
  exact h hash

theorem Reasons.add {state : MempoolState M} (h : Reasons sha256 past state.blocked)
    (tx : SignedTransaction M) : (state.add sha256 tx).1.blocked.cap = state.blocked.cap ∧
      Reasons sha256 (past ++ [.add tx]) (state.add sha256 tx).1.blocked := by
  cases hreason : state.blocked.peek (tx.messageHash sha256) with
  | some reason =>
    rw [MempoolState.add_of_blocked hreason]
    refine ⟨LruCache.cap_getMut, Reasons.same (fun hash => ?_) rfl⟩
    rw [LruCache.peek_getMut, Option.map_id, id]
    split
    · rename_i heq
      rw [← heq]
      exact h hash
    · exact h hash
  | none =>
    cases hpending : state.txs.contains (tx.messageHash sha256) with
    | true =>
      rw [MempoolState.add_of_pending hreason hpending]
      exact ⟨rfl, h.same rfl⟩
    | false =>
      rw [MempoolState.add_of_new hreason hpending]
      exact ⟨rfl, h.same rfl⟩

/-- While there is room for all blocked transactions, each is blocked for its first reason. -/
theorem reasons_run {state : MempoolState M} (start : state.blocked.entries = [])
    (hroom : (noticed sha256 calls).length ≤ state.blocked.cap) :
    (run sha256 state calls).blocked.cap = state.blocked.cap ∧
      Reasons sha256 calls (run sha256 state calls).blocked := by
  induction calls using List.reverseRecOn with
  | nil =>
    refine ⟨rfl, fun hash => LruCache.peek_eq_none.mpr ?_⟩
    rw [run_nil, LruCache.keys, start]
    exact List.not_mem_nil
  | append_singleton past call ih =>
    obtain ⟨hcap, h⟩ := ih (length_noticed_le.trans hroom)
    rw [run_concat, ← hcap]
    rw [← hcap] at hroom
    cases call with
    | add tx => exact h.add tx
    | addSignedBlock block => exact h.block rfl hroom
    | addFailedTransaction failed => exact h.block rfl hroom
    | remove | markMempoolEntryGossiped | peek | getEntries | getEntriesForGossip =>
      exact ⟨rfl, h.same rfl⟩

end MempoolCall

/-- What a client that waits for its transaction does when it has proposed it again: it goes on
waiting, or returns the block or the failure it was told of. -/
def proposeAndAwaitTurn : Except (ProposeTransactionError M) Unit →
    Option (Except KolmeError (SignedBlock M))
  | .ok () => none
  | .error .inMempool => none
  | .error (.inBlock block) => some (.ok block)
  | .error (.failed notice) => some (.error notice.message.value.error)

/-- In every state of a run a transaction of a block that was added is reported to be in that
block, and a client that waits for it returns the block. -/
def LandedReported (state : MempoolState M) (calls : List (MempoolCall M)) : Prop :=
  ∀ past, past <+: calls → ∀ block tx, .addSignedBlock block ∈ past →
    tx.messageHash sha256 = block.tx.messageHash sha256 →
    let result := ((MempoolCall.run sha256 state past).add sha256 tx).2
    result = .error (.inBlock block) ∧ proposeAndAwaitTurn result = some (.ok block)

/-- While there is room for all blocked transactions, those of blocks are reported to be in them
exactly if no call before blocked them for another reason. -/
theorem landedReported_iff {txCount blockedTxCount : Nat} (htx : 0 < txCount)
    (hblocked : 0 < blockedTxCount) (calls : List (MempoolCall M))
    (hroom : (MempoolCall.noticed sha256 calls).length ≤ blockedTxCount) :
    LandedReported sha256 (.new txCount blockedTxCount htx hblocked) calls ↔
      ∀ block, .addSignedBlock block ∈ calls →
        MempoolCall.firstReason sha256 calls (block.tx.messageHash sha256) =
          some (.inBlock block) := by
  have hadd : ∀ past, past <+: calls → ∀ tx reason,
      MempoolCall.firstReason sha256 past (tx.messageHash sha256) = some reason →
      ((MempoolCall.run sha256 (.new txCount blockedTxCount htx hblocked) past).add sha256 tx).2 =
        .error reason.toError := by
    rintro past ⟨future, rfl⟩ tx reason hreason
    obtain ⟨-, hreasons⟩ := @MempoolCall.reasons_run _ sha256 past
      (.new txCount blockedTxCount htx hblocked) rfl (MempoolCall.length_noticed_le.trans hroom)
    rw [MempoolState.add_of_blocked ((hreasons _).trans hreason)]
  constructor
  · intro h block hmem
    obtain ⟨reason, hreason⟩ := Option.ne_none_iff_exists'.mp
      (MempoolCall.firstReason_ne_none hmem)
    obtain ⟨hresult, -⟩ := h calls List.prefix_rfl block block.tx hmem rfl
    rw [hadd calls List.prefix_rfl block.tx reason hreason] at hresult
    rw [hreason]
    cases reason with
    | inBlock block' => cases hresult; rfl
    | failed notice => cases hresult
  · intro h past hpast block tx hmem htx
    obtain ⟨reason, hreason⟩ := Option.ne_none_iff_exists'.mp
      (MempoolCall.firstReason_ne_none hmem)
    have hwhole := h block (hpast.subset hmem)
    obtain ⟨future, rfl⟩ := hpast
    rw [MempoolCall.firstReason_append, hreason] at hwhole
    obtain rfl : reason = .inBlock block := Option.some.inj hwhole
    have hresult := hadd past (List.prefix_append _ _) tx _ (htx ▸ hreason)
    exact ⟨hresult, by rw [hresult]; rfl⟩

namespace LandedSample

open PoolSample

def block : SignedBlock Unit := ⟨⟨"", ⟨tx "a", 0, 0, 1, 0, 0, 0, 0, []⟩⟩, 0, 0⟩

def failed : SignedTaggedJson FailedTransaction := ⟨⟨"", ⟨1, 1, .other "late"⟩⟩, 0, 0⟩

/-- The block of a transaction, and a notice of its failure. -/
def landed : List (MempoolCall Unit) := [.addSignedBlock block, .addFailedTransaction failed]

end LandedSample

open PoolSample LandedSample in
theorem landedReported_iff_example :
    LandedReported textSize pool landed ↔ ∀ block, .addSignedBlock block ∈ landed →
      MempoolCall.firstReason textSize landed (block.tx.messageHash textSize) =
        some (.inBlock block) :=
  landedReported_iff textSize (by decide) (by decide) landed (by decide)

open PoolSample LandedSample in
/-- When the notice arrives first, the failure is reported although the block is known. -/
theorem landedReported_fails :
    (MempoolCall.noticed textSize landed.reverse).length ≤ 10 ∧
      ((MempoolCall.run textSize pool landed.reverse).add textSize (tx "a")).2 =
        .error (.failed failed) ∧
      ¬ ∀ calls : List (MempoolCall Unit), (MempoolCall.noticed textSize calls).length ≤ 10 →
        LandedReported textSize pool calls := by
  have hroom : (MempoolCall.noticed textSize landed.reverse).length ≤ 10 := by decide
  have hfailed : ((MempoolCall.run textSize pool landed.reverse).add textSize (tx "a")).2 =
      .error (.failed failed) := by rfl
  refine ⟨hroom, hfailed, fun h => ?_⟩
  obtain ⟨hresult, -⟩ := h landed.reverse hroom _ List.prefix_rfl block (tx "a")
    (by simp [landed]) rfl
  rw [hfailed] at hresult
  cases hresult

end Kolme
