import Mathlib.Algebra.Order.BigOperators.Group.Finset
import Mathlib.Logic.Relation

/-!
# The post-order of a graph

A stack of work gives the nodes below some roots in an order in which each node comes once and after
its children. A node is processed before its children are, and written after them. The order may
already hold nodes from an earlier run: these are not visited again.
-/

namespace Postorder

variable {α : Type*}

/-- What is still to be done, top first. -/
inductive Work (α : Type*)
  | process (a : α)
  | write (a : α)

section

variable (children : α → Option (List α))

/-- A node has a child. -/
def Child (a c : α) : Prop := ∃ cs, children a = some cs ∧ c ∈ cs

def Reaches : α → α → Prop := Relation.ReflTransGen (Child children)

/-- Everything below a node has its children listed. -/
def Complete (a : α) : Prop := ∀ b, Reaches children a b → (children b).isSome

/-- An order in which each node comes once and after its children. -/
inductive Ordered : List α → Prop
  | nil : Ordered []
  | snoc {order : List α} {a : α} {cs : List α} (h : Ordered order) (new : a ∉ order)
    (hchildren : children a = some cs) (before : ∀ c ∈ cs, c ∈ order) : Ordered (order ++ [a])

variable [DecidableEq α]

def run : ℕ → List (Work α) → List α → Option (List α)
  | 0, _, _ => none
  | _ + 1, [], order => some order
  | fuel + 1, .process a :: work, order =>
    if a ∈ order then run fuel work order
    else do
      let cs ← children a
      run fuel (((cs.filter (· ∉ order)).map .process).reverse ++ .write a :: work) order
  | fuel + 1, .write a :: work, order =>
    if a ∈ order then run fuel work order
    else do
      let cs ← children a
      if ∀ c ∈ cs, c ∈ order then run fuel work (order ++ [a]) else none

/-- The turns that the nodes that are not in the order can still take. -/
def budget (nodes : Finset α) (order : List α) : ℕ :=
  ∑ a ∈ nodes with a ∉ order, (((children a).getD []).length + 1)

/-- The order goes on with the nodes below the roots that were not in it. -/
structure Visits (roots : List α) (order order' : List α) : Prop where
  ordered : Ordered children order'
  goesOn : order <+: order'
  mem : ∀ b, b ∈ order' ↔ b ∈ order ∨ ∃ a ∈ roots, Reaches children a b

end

variable {children : α → Option (List α)} {order order' order'' roots : List α} {a b c : α}

/-! ## Orders -/

namespace Ordered

theorem nodup (h : Ordered children order) : order.Nodup := by
  induction h with
  | nil => exact List.nodup_nil
  | snoc h new hchildren before ih =>
    exact List.nodup_append.mpr ⟨ih, List.nodup_singleton _, fun x hx y hy => by
      rintro rfl
      exact new (List.mem_singleton.mp hy ▸ hx)⟩

theorem isSome (h : Ordered children order) (hmem : a ∈ order) : (children a).isSome = true := by
  induction h with
  | nil => cases hmem
  | snoc h new hchildren before ih =>
    rcases List.mem_append.mp hmem with hmem | hmem
    · exact ih hmem
    · rw [List.mem_singleton.mp hmem, hchildren]
      rfl

/-- The children of a node in the order are in it. -/
theorem closed (h : Ordered children order) (hmem : a ∈ order) (hchild : Child children a c) :
    c ∈ order := by
  induction h with
  | nil => cases hmem
  | snoc h new hchildren before ih =>
    refine List.mem_append_left _ ?_
    rcases List.mem_append.mp hmem with hmem | hmem
    · exact ih hmem
    · obtain ⟨cs, hcs, hc⟩ := hchild
      rw [List.mem_singleton.mp hmem, hchildren] at hcs
      exact before c (Option.some.inj hcs ▸ hc)

theorem reaches (h : Ordered children order) (hmem : a ∈ order) (hreaches : Reaches children a b) :
    b ∈ order := by
  induction hreaches with
  | refl => exact hmem
  | tail _ hchild ih => exact h.closed ih hchild

/-- The children of a node come before it. -/
theorem before (h : Ordered children order) {pre post : List α} (heq : order = pre ++ a :: post)
    (hchild : Child children a c) : c ∈ pre := by
  induction h generalizing post with
  | nil => simp at heq
  | @snoc order x cs h new hchildren before ih =>
    rcases List.eq_nil_or_concat post with rfl | ⟨post, y, rfl⟩
    · obtain ⟨rfl, hx⟩ := List.append_inj' heq rfl
      obtain rfl := List.singleton_inj.mp hx
      obtain ⟨cs', hcs, hc⟩ := hchild
      rw [hchildren] at hcs
      exact before c (Option.some.inj hcs ▸ hc)
    · rw [List.concat_eq_append, ← List.cons_append, ← List.append_assoc] at heq
      exact ih (List.append_inj' heq rfl).1

/-- A node is not in the order before it. -/
theorem fresh (h : Ordered children order) {pre post : List α} (heq : order = pre ++ a :: post) :
    a ∉ pre := by
  have hnodup := h.nodup
  rw [heq, List.nodup_append] at hnodup
  exact fun hmem => hnodup.2.2 a hmem a (List.mem_cons_self ..) rfl

end Ordered

namespace Visits

theorem refl (h : Ordered children order) : Visits children [] order order :=
  ⟨h, List.prefix_refl _, by simp⟩

theorem trans {roots' : List α} (h : Visits children roots order order')
    (h' : Visits children roots' order' order'') :
    Visits children (roots ++ roots') order order'' where
  ordered := h'.ordered
  goesOn := h.goesOn.trans h'.goesOn
  mem b := by
    rw [h'.mem, h.mem, or_assoc]
    simp only [List.mem_append, or_and_right, exists_or]

theorem of_mem (h : Ordered children order) (hmem : a ∈ order) :
    Visits children [a] order order where
  ordered := h
  goesOn := List.prefix_refl _
  mem b := by
    refine ⟨.inl, ?_⟩
    rintro (hb | ⟨x, hx, hreaches⟩)
    · exact hb
    · obtain rfl := List.mem_singleton.mp hx
      exact h.reaches hmem hreaches

/-- A node is visited after its children, some of which may be in the order already. -/
theorem snoc {cs cs' : List α} (h : Visits children cs' order order')
    (hchildren : children a = some cs) (hsub : ∀ c ∈ cs, c ∈ order ∨ c ∈ cs')
    (hsup : ∀ c ∈ cs', c ∈ cs) (new : a ∉ order') : Visits children [a] order (order' ++ [a]) where
  ordered := by
    refine h.ordered.snoc new hchildren fun c hc => (h.mem c).mpr ?_
    rcases hsub c hc with hmem | hmem
    · exact .inl hmem
    · exact .inr ⟨c, hmem, .refl⟩
  goesOn := h.goesOn.trans (List.prefix_append _ _)
  mem b := by
    rw [List.mem_append, h.mem, List.mem_singleton]
    constructor
    · rintro ((hb | ⟨c, hc, hreaches⟩) | rfl)
      · exact .inl hb
      · exact .inr ⟨a, List.mem_singleton_self _, hreaches.head ⟨cs, hchildren, hsup c hc⟩⟩
      · exact .inr ⟨b, List.mem_singleton_self _, .refl⟩
    · rintro (hb | ⟨x, hx, hreaches⟩)
      · exact .inl (.inl hb)
      · obtain rfl := List.mem_singleton.mp hx
        rcases Relation.ReflTransGen.cases_head hreaches with rfl | ⟨c, ⟨cs₁, hcs, hc⟩, hrest⟩
        · exact .inr rfl
        · rw [hchildren] at hcs
          obtain rfl := Option.some.inj hcs
          refine .inl ((h.mem b).mp ?_)
          rcases hsub c hc with hmem | hmem
          · exact h.ordered.reaches ((h.mem c).mpr (.inl hmem)) hrest
          · exact (h.mem b).mpr (.inr ⟨c, hmem, hrest⟩)

end Visits

/-! ## Runs -/

section

variable [DecidableEq α] {nodes : Finset α}

theorem budget_anti (h : ∀ a ∈ order, a ∈ order') :
    budget children nodes order' ≤ budget children nodes order := by
  refine Finset.sum_le_sum_of_subset fun a hmem => ?_
  rw [Finset.mem_filter] at hmem ⊢
  exact ⟨hmem.1, fun hin => hmem.2 (h a hin)⟩

/-- A node that is not in the order has its turns left. -/
theorem budget_erase {cs : List α} (hmem : a ∈ nodes) (new : a ∉ order)
    (hchildren : children a = some cs) :
    budget children (nodes.erase a) order + (cs.length + 1) = budget children nodes order := by
  rw [budget, budget, Finset.filter_erase,
    ← Finset.sum_erase_add _ _ (Finset.mem_filter.mpr ⟨hmem, new⟩), hchildren]
  rfl

theorem budget_snoc : budget children nodes (order ++ [a]) =
    budget children (nodes.erase a) order := by
  rw [budget, budget]
  refine Finset.sum_congr (Finset.ext fun b => ?_) fun _ _ => rfl
  simp only [Finset.mem_filter, Finset.mem_erase, List.mem_append, List.mem_singleton]
  tauto

/-- With a turn for each root, and with the budget of the nodes, the stack comes down to the work
below the roots, and what is not needed of the fuel is left. -/
def Descends (children : α → Option (List α)) (nodes : Finset α) (roots : List α) : Prop :=
  ∀ (fuel extra : ℕ) (work : List (Work α)) (order : List α), Ordered children order →
    budget children nodes order + roots.length + extra ≤ fuel →
    ∃ fuel' order', run children fuel (roots.map .process ++ work) order =
        run children fuel' work order' ∧
      Visits children roots order order' ∧ budget children nodes order' + extra ≤ fuel'

theorem descends_append {roots' : List α} (h : Descends children nodes roots)
    (h' : Descends children nodes roots') : Descends children nodes (roots ++ roots') := by
  intro fuel extra work order ordered hfuel
  rw [List.length_append] at hfuel
  obtain ⟨fuel₁, order₁, hrun, visits, hfuel₁⟩ :=
    h fuel (roots'.length + extra) (roots'.map .process ++ work) order ordered (by omega)
  obtain ⟨fuel₂, order₂, hrun', visits', hfuel₂⟩ :=
    h' fuel₁ extra work order₁ visits.ordered (by omega)
  refine ⟨fuel₂, order₂, ?_, visits.trans visits', hfuel₂⟩
  rw [List.map_append, List.append_assoc, hrun, hrun']

theorem descends_of_forall (h : ∀ a ∈ roots, Descends children nodes [a]) :
    Descends children nodes roots := by
  induction roots with
  | nil => exact fun fuel _ _ order ordered hfuel =>
      ⟨fuel, order, rfl, .refl ordered, by simpa using hfuel⟩
  | cons a roots ih =>
    obtain ⟨ha, hroots⟩ := List.forall_mem_cons.mp h
    exact descends_append ha (ih hroots)

/-- The nodes below a complete node are visited, if none is below itself. -/
theorem descends (wf : WellFounded fun c a => Child children a c) (complete : Complete children a)
    (hnodes : ∀ b, Reaches children a b → b ∈ nodes) : Descends children nodes [a] := by
  induction a using wf.induction generalizing nodes with
  | _ a ih =>
    intro fuel extra work order ordered hfuel
    rw [List.length_singleton] at hfuel
    obtain ⟨fuel, rfl⟩ : ∃ k, fuel = k + 1 := ⟨fuel - 1, by omega⟩
    by_cases hmem : a ∈ order
    · refine ⟨fuel, order, ?_, .of_mem ordered hmem, by omega⟩
      rw [List.map_singleton, List.singleton_append, run, if_pos hmem]
    · obtain ⟨cs, hchildren⟩ := Option.isSome_iff_exists.mp (complete a .refl)
      have hbudget := budget_erase (hnodes a .refl) hmem hchildren
      -- The children are visited without the node, which is not below any of them.
      have hbelow : ∀ c ∈ cs, Descends children (nodes.erase a) [c] := by
        intro c hc
        have hchild : Child children a c := ⟨cs, hchildren, hc⟩
        refine ih c hchild (fun b hreaches => complete b (hreaches.head hchild)) fun b hreaches => ?_
        refine Finset.mem_erase.mpr ⟨?_, hnodes b (hreaches.head hchild)⟩
        rintro rfl
        have hcycle : Relation.TransGen (Child children) b b := .head' hchild hreaches
        exact wf.transGen.irrefl.irrefl b (Relation.transGen_swap.mp hcycle)
      let cs' := (cs.filter (· ∉ order)).reverse
      have hsup : ∀ c ∈ cs', c ∈ cs := fun c hc =>
        (List.mem_filter.mp (List.mem_reverse.mp hc)).1
      have hlength : cs'.length ≤ cs.length :=
        (List.length_reverse).trans_le (List.length_filter_le _ _)
      have hall : Descends children (nodes.erase a) cs' :=
        descends_of_forall fun c hc => hbelow c (hsup c hc)
      obtain ⟨fuel₁, order₁, hrun, visits, hfuel₁⟩ :=
        hall fuel (extra + 1) (.write a :: work) order ordered (by omega)
      obtain ⟨fuel₁, rfl⟩ : ∃ k, fuel₁ = k + 1 := ⟨fuel₁ - 1, by omega⟩
      have hsub : ∀ c ∈ cs, c ∈ order ∨ c ∈ cs' := by
        intro c hc
        by_cases hin : c ∈ order
        · exact .inl hin
        · exact .inr (List.mem_reverse.mpr (List.mem_filter.mpr ⟨hc, by simpa using hin⟩))
      have new : a ∉ order₁ := by
        intro hin
        rcases (visits.mem a).mp hin with hin | ⟨c, hc, hreaches⟩
        · exact hmem hin
        · have hcycle : Relation.TransGen (Child children) a a :=
            .head' ⟨cs, hchildren, hsup c hc⟩ hreaches
          exact wf.transGen.irrefl.irrefl a (Relation.transGen_swap.mp hcycle)
      have visited := visits.snoc hchildren hsub hsup new
      have hbefore : ∀ c ∈ cs, c ∈ order₁ := by
        intro c hc
        rcases hsub c hc with hin | hin
        · exact (visits.mem c).mpr (.inl hin)
        · exact (visits.mem c).mpr (.inr ⟨c, hin, .refl⟩)
      refine ⟨fuel₁, order₁ ++ [a], ?_, visited, ?_⟩
      · rw [List.map_singleton, List.singleton_append, run, if_neg hmem, hchildren]
        simp only [Option.bind_eq_bind, Option.bind_some]
        rw [← List.map_reverse, hrun, run, if_neg new, hchildren]
        simp only [Option.bind_eq_bind, Option.bind_some, if_pos hbefore]
      · rw [budget_snoc]
        omega

/-- With enough fuel a run visits everything below the roots. -/
theorem run_visits (wf : WellFounded fun c a => Child children a c)
    (complete : ∀ a ∈ roots, Complete children a)
    (hnodes : ∀ a ∈ roots, ∀ b, Reaches children a b → b ∈ nodes)
    (ordered : Ordered children order) {fuel : ℕ}
    (hfuel : budget children nodes order + roots.length < fuel) :
    ∃ order', run children fuel (roots.map .process) order = some order' ∧
      Visits children roots order order' := by
  have hall : Descends children nodes roots :=
    descends_of_forall fun a ha => descends wf (complete a ha) (hnodes a ha)
  obtain ⟨fuel', order', hrun, visits, hfuel'⟩ := hall fuel 1 [] order ordered hfuel
  obtain ⟨fuel', rfl⟩ : ∃ k, fuel' = k + 1 := ⟨fuel' - 1, by omega⟩
  exact ⟨order', by rw [← List.append_nil (roots.map _), hrun, run], visits⟩

end

end Postorder
