import Kolme.Merkle.Map
import Kolme.Merkle.Search

/-!
# Iteration over the Merkle map

The entries that an iterator has left are a list. `next` takes its first element and `next_back` its
last, in whatever order the two are called.
-/

namespace Kolme.Merkle

variable {K V : Type}

/-! ## Cuts of a sorted list -/

section Cut

variable {α : Type} {R : α → α → Prop} {l : List α} {p q r : α → Bool} {e : α}

/-- Two searches, when what the second one looks for comes later. -/
theorem find?_or_find? (h : l.Pairwise fun a b => q a = true → p b = false) :
    (l.find? p).or (l.find? q) = l.find? fun a => p a || q a := by
  induction l with
  | nil => rfl
  | cons a l ih =>
    obtain ⟨ha, hl⟩ := List.pairwise_cons.mp h
    cases hp : p a with
    | true => simp [hp]
    | false =>
      cases hq : q a with
      | false => simpa [hp, hq] using ih hl
      | true =>
        have hnone : l.find? p = none :=
          List.find?_eq_none.mpr fun b hb => by simp [ha b hb hq]
        simp [hp, hq, hnone]

/-- The elements from the first one that passes a test on, when all later ones pass it too. -/
theorem filter_eq_cons (hl : l.Pairwise R) (hasymm : ∀ a b, R a b → ¬R b a)
    (hup : ∀ a b, R a b → p a = true → p b = true) (hrest : ∀ x, r x = true ↔ R e x)
    (h : l.find? p = some e) : l.filter p = e :: l.filter r := by
  obtain ⟨hpe, before, after, rfl, hbefore⟩ := List.find?_eq_some_iff_append.mp h
  obtain ⟨-, hafter, hcross⟩ := List.pairwise_append.mp hl
  obtain ⟨hlater, -⟩ := List.pairwise_cons.mp hafter
  have hirrefl : ¬R e e := fun he => hasymm e e he he
  have hp : before.filter p = [] :=
    List.filter_eq_nil_iff.mpr fun x hx => by simpa using hbefore x hx
  have hr : before.filter r = [] := List.filter_eq_nil_iff.mpr fun x hx hrx =>
    hasymm x e (hcross x hx e (List.mem_cons_self ..)) ((hrest x).mp hrx)
  have hpafter : after.filter p = after :=
    List.filter_eq_self.mpr fun x hx => hup e x (hlater x hx) hpe
  have hrafter : after.filter r = after :=
    List.filter_eq_self.mpr fun x hx => (hrest x).mpr (hlater x hx)
  rw [List.filter_append, List.filter_append, hp, hr, List.filter_cons_of_pos hpe,
    List.filter_cons_of_neg fun hre => hirrefl ((hrest e).mp hre), hpafter, hrafter]
  rfl

/-- Between two bounds there is nothing left after the first element, unless it is inside. -/
theorem filter_step (hl : l.Pairwise R) (hasymm : ∀ a b, R a b → ¬R b a)
    (hup : ∀ a b, R a b → p a = true → p b = true)
    (hdown : ∀ a b, R a b → q b = true → q a = true) (hrest : ∀ x, r x = true ↔ R e x)
    (h : l.find? p = some e) :
    (l.filter fun x => p x && q x) = if q e = true then e :: l.filter (fun x => r x && q x) else [] := by
  have hcut := filter_eq_cons hl hasymm hup hrest h
  have hpq : (l.filter fun x => p x && q x) = (l.filter p).filter q := by
    rw [List.filter_filter]
    exact List.filter_congr fun x _ => Bool.and_comm _ _
  have hrq : (l.filter fun x => r x && q x) = (l.filter r).filter q := by
    rw [List.filter_filter]
    exact List.filter_congr fun x _ => Bool.and_comm _ _
  rw [hpq, hrq, hcut]
  split
  next hq => rw [List.filter_cons_of_pos hq]
  next hq =>
    rw [List.filter_cons_of_neg hq]
    refine List.filter_eq_nil_iff.mpr fun x hx hqx => hq (hdown e x ?_ hqx)
    exact (hrest x).mp (List.mem_filter.mp hx).2

theorem filter_rest (hdown : ∀ a b, R a b → q b = true → q a = true)
    (hrest : ∀ x, r x = true ↔ R e x) (hq : q e ≠ true) :
    (l.filter fun x => r x && q x) = [] := by
  refine List.filter_eq_nil_iff.mpr fun x _ hx => hq ?_
  obtain ⟨hr, hqx⟩ := Bool.and_eq_true_iff.mp hx
  exact hdown e x ((hrest x).mp hr) hqx

end Cut

theorem orElse_eq_or {α : Type} (a b : Option α) : (a <|> b) = a.or b := by
  cases a <;> rfl

/-! ## Steps of an iterator -/

namespace Iter

variable {self : Iter K V}

/-- The entries that are left. -/
def window (self : Iter K V) : List (LeafEntry K V) :=
  self.node.entries.filter fun entry =>
    self.startBound.allowsFrom entry.keyBytes && self.endBound.allowsTo entry.keyBytes

theorem get_eq_find? (h : self.node.Valid []) (key : MerkleKey) :
    self.node.get key 0 = self.node.entries.find? fun entry => entry.keyBytes = key := by
  ext entry
  rw [find?_key h.sorted]
  exact h.get (List.nil_prefix)

theorem startEntry_eq (h : self.node.Valid []) :
    self.startEntry =
      self.node.entries.find? fun entry => self.startBound.allowsFrom entry.keyBytes := by
  have hafter : ∀ key, self.node.findEntryAfter key 0 =
      self.node.entries.find? fun entry => key < entry.keyBytes :=
    fun key => h.findEntryAfter (.inl List.nil_prefix)
  have hfrom : ∀ key, (self.node.get key 0 <|> self.node.findEntryAfter key 0) =
      self.node.entries.find? fun entry => key ≤ entry.keyBytes := by
    intro key
    rw [get_eq_find? h, hafter, orElse_eq_or, find?_or_find?]
    · congr 1
      ext entry
      simp [le_iff_eq_or_lt, eq_comm]
    · exact h.sorted.imp fun {a b} hab ha => by
        have : key < b.keyBytes := lt_trans (of_decide_eq_true ha) hab
        simpa using this.ne'
  unfold startEntry
  cases self.startBound with
  | included key => exact hfrom key
  | excluded key => exact hafter key
  | unbounded =>
    have hleast : ∀ key : MerkleKey, ⟨[]⟩ ≤ key := fun key => by
      rw [← not_lt, MerkleKey.lt_iff_bytes]
      simp
    simp only [hfrom, hleast, decide_true, Bound.allowsFrom]

theorem endEntry_eq (h : self.node.Valid []) :
    self.endEntry =
      self.node.entries.reverse.find? fun entry => self.endBound.allowsTo entry.keyBytes := by
  have hbefore : ∀ key, self.node.findEntryBefore key 0 =
      self.node.entries.reverse.find? fun entry => entry.keyBytes < key :=
    fun key => h.findEntryBefore (.inl List.nil_prefix)
  have hto : ∀ key, (self.node.get key 0 <|> self.node.findEntryBefore key 0) =
      self.node.entries.reverse.find? fun entry => entry.keyBytes ≤ key := by
    intro key
    have hget : self.node.get key 0 =
        self.node.entries.reverse.find? fun entry => entry.keyBytes = key := by
      ext entry
      rw [find?_key_of_mem h.sorted fun _ => List.mem_reverse]
      exact h.get (List.nil_prefix)
    rw [hget, hbefore, orElse_eq_or, find?_or_find?]
    · congr 1
      ext entry
      simp [le_iff_eq_or_lt]
    · refine List.pairwise_reverse.mpr (h.sorted.imp fun {a b} hab hb => ?_)
      have : a.keyBytes < key := lt_trans hab (of_decide_eq_true hb)
      simpa using this.ne
  unfold endEntry
  cases self.endBound with
  | included key => exact hto key
  | excluded key => exact hbefore key
  | unbounded =>
    rw [Node.findLastEntry_eq, ← List.head?_reverse]
    exact (find?_eq_head? fun _ _ => rfl).symm

theorem start_le {bound : Bound} {start key : MerkleKey} {inc : Bool}
    (hkey : bound.key? = some (start, inc)) (h : bound.allowsFrom key = true) :
    start ≤ key ∧ (inc = false → start ≠ key) := by
  cases bound with
  | included s =>
    obtain ⟨rfl, rfl⟩ := Prod.mk.inj (Option.some.inj hkey)
    exact ⟨of_decide_eq_true h, fun h => nomatch h⟩
  | excluded s =>
    obtain ⟨rfl, rfl⟩ := Prod.mk.inj (Option.some.inj hkey)
    have hlt : s < key := of_decide_eq_true h
    exact ⟨hlt.le, fun _ => hlt.ne⟩
  | unbounded => cases hkey

theorem le_last {bound : Bound} {last key : MerkleKey} {inc : Bool}
    (hkey : bound.key? = some (last, inc)) (h : bound.allowsTo key = true) : key ≤ last := by
  cases bound with
  | included s =>
    obtain ⟨rfl, -⟩ := Prod.mk.inj (Option.some.inj hkey)
    exact of_decide_eq_true h
  | excluded s =>
    obtain ⟨rfl, -⟩ := Prod.mk.inj (Option.some.inj hkey)
    have hlt : key < s := of_decide_eq_true h
    exact hlt.le
  | unbounded => cases hkey

/-- Nothing is left between bounds that have met. -/
theorem window_of_isComplete (hcomplete : self.isComplete = true) : self.window = [] := by
  refine List.filter_eq_nil_iff.mpr fun entry _ hentry => ?_
  obtain ⟨hfrom, hto⟩ := Bool.and_eq_true_iff.mp hentry
  unfold isComplete at hcomplete
  split at hcomplete
  next start startInc last endInc hstart hend =>
    obtain ⟨hle, hne⟩ := start_le hstart hfrom
    have hle' := hle.trans (le_last hend hto)
    split at hcomplete
    next => cases hcomplete
    next hlt =>
      -- The bounds are equal, so the entry is at both of them.
      obtain rfl := le_antisymm hle' (not_lt.mp hlt)
      rw [if_pos rfl, Bool.and_eq_true_iff] at hcomplete
      exact hne (by simpa using hcomplete.1) (le_antisymm hle (le_last hend hto))
  next => cases hcomplete

theorem before_asymm (a b : LeafEntry K V) (h : a.Before b) : ¬b.Before a := not_lt_of_gt h

theorem allowsFrom_mono {bound : Bound} {a b : MerkleKey} (hab : a < b)
    (h : bound.allowsFrom a = true) : bound.allowsFrom b = true := by
  cases bound with
  | included start => exact decide_eq_true (le_trans (of_decide_eq_true h) hab.le)
  | excluded start => exact decide_eq_true (lt_trans (of_decide_eq_true h) hab)
  | unbounded => rfl

theorem allowsTo_mono {bound : Bound} {a b : MerkleKey} (hab : a < b)
    (h : bound.allowsTo b = true) : bound.allowsTo a = true := by
  cases bound with
  | included last => exact decide_eq_true (le_trans hab.le (of_decide_eq_true h))
  | excluded last => exact decide_eq_true (lt_trans hab (of_decide_eq_true h))
  | unbounded => rfl

/-- What `next` does with the entry it has found. -/
theorem next_of_startEntry {entry : LeafEntry K V} (hcomplete : self.isComplete = false)
    (hentry : self.startEntry = some entry) :
    self.next = (if self.endBound.allowsTo entry.keyBytes = true then some entry.pair else none,
      { self with startBound := .excluded entry.keyBytes }) := by
  unfold next
  rw [hcomplete, if_neg Bool.false_ne_true, hentry]
  cases hend : self.endBound with
  | unbounded => rfl
  | included last =>
    by_cases hlast : last < entry.keyBytes <;> simp [Bound.allowsTo, hlast]
  | excluded last =>
    by_cases hlast : last ≤ entry.keyBytes <;> simp [Bound.allowsTo, hlast]

theorem nextBack_of_endEntry {entry : LeafEntry K V} (hcomplete : self.isComplete = false)
    (hentry : self.endEntry = some entry) :
    self.nextBack =
      (if self.startBound.allowsFrom entry.keyBytes = true then some entry.pair else none,
        { self with endBound := .excluded entry.keyBytes }) := by
  unfold nextBack
  rw [hcomplete, if_neg Bool.false_ne_true, hentry]
  cases hstart : self.startBound with
  | unbounded => rfl
  | included start =>
    by_cases hlast : entry.keyBytes < start <;> simp [Bound.allowsFrom, hlast]
  | excluded start =>
    by_cases hlast : entry.keyBytes ≤ start <;> simp [Bound.allowsFrom, hlast]

/-- The first entry is taken from what is left. -/
theorem next_spec (h : self.node.Valid []) :
    self.next.1 = self.window.head?.map LeafEntry.pair ∧
      self.next.2.window = self.window.tail ∧ self.next.2.node = self.node := by
  have hempty : self.window = [] → self.next = (none, self) →
      self.next.1 = self.window.head?.map LeafEntry.pair ∧
        self.next.2.window = self.window.tail ∧ self.next.2.node = self.node := by
    intro hwindow hnext
    rw [hnext, hwindow]
    exact ⟨rfl, rfl, rfl⟩
  have hentry := startEntry_eq h
  cases hcomplete : self.isComplete with
  | true => exact hempty (window_of_isComplete hcomplete) (by unfold next; rw [if_pos hcomplete])
  | false =>
    cases hstart : self.startEntry with
    | none =>
      rw [hstart] at hentry
      refine hempty (List.filter_eq_nil_iff.mpr fun x hx hxw =>
        List.find?_eq_none.mp hentry.symm x hx (Bool.and_eq_true_iff.mp hxw).1) ?_
      unfold next
      rw [hcomplete, if_neg Bool.false_ne_true, hstart]
    | some entry =>
      rw [hstart] at hentry
      have hdown : ∀ a b : LeafEntry K V, a.Before b →
          self.endBound.allowsTo b.keyBytes = true → self.endBound.allowsTo a.keyBytes = true :=
        fun a b hab => allowsTo_mono hab
      have hrest : ∀ x : LeafEntry K V,
          (Bound.excluded entry.keyBytes).allowsFrom x.keyBytes = true ↔ entry.Before x :=
        fun x => by simp [Bound.allowsFrom, LeafEntry.Before]
      have hwindow : self.window = _ := filter_step h.sorted before_asymm
        (fun a b hab => allowsFrom_mono hab) hdown hrest hentry.symm
      rw [next_of_startEntry hcomplete hstart, hwindow]
      split
      next hto => exact ⟨rfl, rfl, rfl⟩
      next hto => exact ⟨rfl, filter_rest hdown hrest hto, rfl⟩

/-- The last entry is taken from what is left. -/
theorem nextBack_spec (h : self.node.Valid []) :
    self.nextBack.1 = self.window.getLast?.map LeafEntry.pair ∧
      self.nextBack.2.window = self.window.dropLast ∧ self.nextBack.2.node = self.node := by
  have hempty : self.window = [] → self.nextBack = (none, self) →
      self.nextBack.1 = self.window.getLast?.map LeafEntry.pair ∧
        self.nextBack.2.window = self.window.dropLast ∧ self.nextBack.2.node = self.node := by
    intro hwindow hnext
    rw [hnext, hwindow]
    exact ⟨rfl, rfl, rfl⟩
  have hentry := endEntry_eq h
  cases hcomplete : self.isComplete with
  | true =>
    exact hempty (window_of_isComplete hcomplete) (by unfold nextBack; rw [if_pos hcomplete])
  | false =>
    cases hend : self.endEntry with
    | none =>
      rw [hend] at hentry
      refine hempty (List.filter_eq_nil_iff.mpr fun x hx hxw =>
        List.find?_eq_none.mp hentry.symm x (List.mem_reverse.mpr hx)
          (Bool.and_eq_true_iff.mp hxw).2) ?_
      unfold nextBack
      rw [hcomplete, if_neg Bool.false_ne_true, hend]
    | some entry =>
      rw [hend] at hentry
      have hdown : ∀ a b : LeafEntry K V, b.Before a →
          self.startBound.allowsFrom b.keyBytes = true →
          self.startBound.allowsFrom a.keyBytes = true :=
        fun a b hab => allowsFrom_mono hab
      have hrest : ∀ x : LeafEntry K V,
          (Bound.excluded entry.keyBytes).allowsTo x.keyBytes = true ↔ x.Before entry :=
        fun x => by simp [Bound.allowsTo, LeafEntry.Before]
      -- The argument about `next`, on the reversed list.
      have hreverse : ∀ bound : Bound, (self.node.entries.filter fun x =>
          self.startBound.allowsFrom x.keyBytes && bound.allowsTo x.keyBytes) =
          (self.node.entries.reverse.filter fun x =>
            bound.allowsTo x.keyBytes && self.startBound.allowsFrom x.keyBytes).reverse := by
        intro bound
        rw [List.filter_reverse, List.reverse_reverse]
        exact List.filter_congr fun x _ => Bool.and_comm _ _
      have hwindow : self.window = _ := hreverse self.endBound
      rw [filter_step (List.pairwise_reverse.mpr h.sorted) (fun a b => before_asymm b a)
        (fun a b hab => allowsTo_mono hab) hdown hrest hentry.symm] at hwindow
      have hrestwindow := hreverse (.excluded entry.keyBytes)
      rw [nextBack_of_endEntry hcomplete hend, hwindow]
      split
      next hfrom =>
        rw [List.reverse_cons, List.getLast?_append, List.dropLast_concat, ← hrestwindow]
        exact ⟨rfl, rfl, rfl⟩
      next hfrom => exact ⟨rfl, hrestwindow.trans (by rw [filter_rest hdown hrest hfrom]; rfl), rfl⟩

end Iter

end Kolme.Merkle
