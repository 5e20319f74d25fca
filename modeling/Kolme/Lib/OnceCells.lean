import Kolme.Lib.Exec
import Mathlib.Logic.Function.Basic
import Mathlib.Order.Nat

/-!
# Cells that are set once

Objects share cells with their copies. A cell keeps the value of its object once it was computed,
and what changes an object in place gives it a new cell if the old one is set. That is safe as long
as a cell that is not set belongs to one object only: then no copy can set it to another value.

## Main results

* `OnceCells.Sound.edit`: an edit of one object of many.
* `OnceCells.Sound.fill`: the values of an object and of its parts are computed.
-/

/-- The cells, and the address of the next one. -/
structure OnceCells (γ : Type) where
  contents : ℕ → Option γ
  next : ℕ

namespace OnceCells

variable {ε γ ο η ι κ ν : Type}

def empty : OnceCells γ := ⟨fun _ => none, 0⟩

/-- Allocate a cell. -/
def alloc : Exec ε (OnceCells γ) ℕ := fun s => (.ok s.next, { s with next := s.next + 1 })

/-- The cell of an object that is about to change. -/
def reset (c : ℕ) : Exec ε (OnceCells γ) ℕ := do
  if ((← Exec.get).contents c).isSome then alloc else return c

/-- Set a cell unless it is set. -/
def getOrInit (c : ℕ) (a : γ) : Exec ε (OnceCells γ) Unit :=
  Exec.modify fun s =>
    if (s.contents c).isSome then s
    else { s with contents := Function.update s.contents c (some a) }

theorem isSome_getOrInit (c : ℕ) (a : γ) (s : OnceCells γ) :
    (((getOrInit c a : Exec ε (OnceCells γ) Unit) s).2.contents c).isSome = true := by
  unfold getOrInit Exec.modify
  beta_reduce
  split
  · assumption
  · exact Option.isSome_iff_exists.mpr ⟨a, Function.update_self ..⟩

theorem reset_cases (c : ℕ) (s : OnceCells γ) :
    s.contents c = none ∧ (reset c : Exec ε (OnceCells γ) ℕ) s = (.ok c, s) ∨
      (reset c : Exec ε (OnceCells γ) ℕ) s = (.ok s.next, { s with next := s.next + 1 }) := by
  have h : (reset c : Exec ε (OnceCells γ) ℕ) s =
      (if (s.contents c).isSome = true then (alloc : Exec ε (OnceCells γ) ℕ) else pure c) s := rfl
  rw [h]
  split
  · exact .inr rfl
  · exact .inl ⟨Option.not_isSome_iff_eq_none.mp ‹_›, rfl⟩

theorem reset_frame {c : ℕ} {s s' : OnceCells γ} {r : Except ε ℕ}
    (h : (reset c : Exec ε (OnceCells γ) ℕ) s = (r, s')) :
    s'.contents = s.contents ∧ s.next ≤ s'.next := by
  rcases reset_cases (ε := ε) c s with ⟨-, h'⟩ | h' <;>
    obtain ⟨-, rfl⟩ := Prod.mk.inj (h'.symm.trans h)
  · exact ⟨rfl, le_rfl⟩
  · exact ⟨rfl, Nat.le_succ _⟩

/-! ## Edits -/

section Edits

variable (cell : ο → ℕ)

/-- Every object is in an allocated cell. -/
def Below (s : OnceCells γ) (places : ι → Option ο) : Prop :=
  ∀ {p o}, places p = some o → cell o < s.next

/-- A cell that is not set is in one place only. -/
def Single (s : OnceCells γ) (places : ι → Option ο) : Prop :=
  ∀ {p q o o'}, places p = some o → places q = some o' → cell o = cell o' →
    s.contents (cell o) = none → p = q

/-- No cell is set, and whatever has a set cell was there before, as it is. What has no set cell may
have been changed, or has a new one. -/
structure Edits (s : OnceCells γ) (old : ι → Option ο) (s' : OnceCells γ) (new : κ → Option ο) :
    Prop where
  contents : s'.contents = s.contents
  next : s.next ≤ s'.next
  filled : ∀ {p o}, new p = some o → (s.contents (cell o)).isSome = true → ∃ q, old q = some o
  free : ∀ {p o}, new p = some o → s.contents (cell o) = none →
    s.next ≤ cell o ∧ cell o < s'.next ∨ ∃ q o', old q = some o' ∧ cell o' = cell o
  single : Below cell s old → Single cell s old → Single cell s' new

variable {cell} {s s' s'' : OnceCells γ} {old : ι → Option ο} {mid : κ → Option ο}
  {new : ν → Option ο}

/-- Some of the objects, each in its place or in another one. -/
theorem Edits.sub (place : κ → ι) (injective : Function.Injective place)
    (contents : s'.contents = s.contents) (next : s.next ≤ s'.next)
    (h : ∀ {p o}, mid p = some o → old (place p) = some o) : Edits cell s old s' mid where
  contents := contents
  next := next
  filled hp _ := ⟨_, h hp⟩
  free hp _ := .inr ⟨_, _, h hp, rfl⟩
  single _ single _ _ _ _ hp hq he hfree :=
    injective (single (h hp) (h hq) he (contents ▸ hfree))

theorem Edits.refl : Edits cell s old s old := .sub id Function.injective_id rfl le_rfl fun h => h

/-- No objects are left. -/
theorem Edits.nothing (contents : s'.contents = s.contents) (next : s.next ≤ s'.next)
    (h : ∀ p, new p = none) : Edits cell s old s' new where
  contents := contents
  next := next
  filled hp := absurd (hp.symm.trans (h _)) (Option.some_ne_none _)
  free hp := absurd (hp.symm.trans (h _)) (Option.some_ne_none _)
  single _ _ _ _ _ _ hp := absurd (hp.symm.trans (h _)) (Option.some_ne_none _)

theorem Edits.below (edits : Edits cell s old s' mid) (below : Below cell s old) :
    Below cell s' mid := by
  intro p o h
  cases hcontents : s.contents (cell o) with
  | some a =>
    obtain ⟨q, hq⟩ := edits.filled h (by rw [hcontents]; rfl)
    exact (below hq).trans_le edits.next
  | none =>
    rcases edits.free h hcontents with ⟨-, hlt⟩ | ⟨q, o', hq, he⟩
    · exact hlt
    · exact he ▸ (below hq).trans_le edits.next

theorem Edits.trans (first : Edits cell s old s' mid) (second : Edits cell s' mid s'' new) :
    Edits cell s old s'' new where
  contents := second.contents.trans first.contents
  next := first.next.trans second.next
  filled h hset := by
    obtain ⟨q, hq⟩ := second.filled h (first.contents ▸ hset)
    exact first.filled hq hset
  free h hfree := by
    rcases second.free h (first.contents ▸ hfree) with ⟨hle, hlt⟩ | ⟨q, o', hq, he⟩
    · exact .inl ⟨first.next.trans hle, hlt⟩
    · rcases first.free hq (by rw [he, hfree]) with ⟨hle, hlt⟩ | ⟨r, o'', hr, he'⟩
      · exact .inl ⟨he ▸ hle, he ▸ hlt.trans_le second.next⟩
      · exact .inr ⟨r, o'', hr, he'.trans he⟩
  single below single := second.single (first.below below) (first.single below single)

/-! ## Programs -/

/-- No cell is set before it is allocated. -/
def Fresh (s : OnceCells γ) : Prop := ∀ {c}, s.next ≤ c → s.contents c = none

theorem Fresh.mono (fresh : s.Fresh) (contents : s'.contents = s.contents)
    (next : s.next ≤ s'.next) :
    s'.Fresh := fun hle => by
  rw [contents]
  exact fresh (next.trans hle)

variable (cell) in
/-- A program over cells that does what a computation without cells does, and edits the objects that
it is given to those that it returns. -/
structure Tracks {α β : Type} (x : Exec ε (OnceCells γ) α) (plain : Option β) (erase : α → β)
    (s : OnceCells γ) (old : ι → Option ο) (places : α → κ → Option ο) : Prop where
  ok : ∀ {a s'}, x s = (.ok a, s') → plain = some (erase a) ∧ Edits cell s old s' (places a)
  error : ∀ {e s'}, x s = (.error e, s') →
    plain = none ∧ s'.contents = s.contents ∧ s.next ≤ s'.next

section Tracks

variable {α β α' β' : Type} {x : Exec ε (OnceCells γ) α} {plain : Option β} {erase : α → β}
  {places : α → κ → Option ο}

theorem Tracks.pure {a : α} (hplain : plain = some (erase a))
    (edits : Edits cell s old s (places a)) :
    Tracks cell (Pure.pure a : Exec ε (OnceCells γ) α) plain erase s old places where
  ok h := by
    obtain ⟨rfl, rfl⟩ := Exec.pure_eq_ok.mp h
    exact ⟨hplain, edits⟩
  error h := absurd h Exec.pure_ne_error

theorem Tracks.throw {e : ε} (hplain : plain = none) :
    Tracks cell (Exec.throw e : Exec ε (OnceCells γ) α) plain erase s old places where
  ok h := absurd h Exec.throw_ne_ok
  error h := by
    obtain ⟨-, rfl⟩ := Exec.throw_eq_error.mp h
    exact ⟨hplain, rfl, le_rfl⟩

/-- The plain computation goes on from the result of the first program, and fails if that fails. -/
theorem Tracks.bind {f : α → Exec ε (OnceCells γ) α'} {plain' : Option β'} {erase' : α' → β'}
    {places' : α' → ν → Option ο} (hx : Tracks cell x plain erase s old places) (fresh : s.Fresh)
    (hnone : plain = none → plain' = none)
    (hf : ∀ {a s'}, plain = some (erase a) → s'.Fresh →
      Tracks cell (f a) plain' erase' s' (places a) places') :
    Tracks cell (x >>= f) plain' erase' s old places' where
  ok h := by
    obtain ⟨a, s', hrun, h⟩ := Exec.bind_eq_ok.mp h
    obtain ⟨hplain, edits⟩ := hx.ok hrun
    obtain ⟨hplain', edits'⟩ := (hf hplain (fresh.mono edits.contents edits.next)).ok h
    exact ⟨hplain', edits.trans edits'⟩
  error h := by
    rcases Exec.bind_eq_error.mp h with h | ⟨a, s', hrun, h⟩
    · obtain ⟨hplain, h⟩ := hx.error h
      exact ⟨hnone hplain, h⟩
    · obtain ⟨hplain, edits⟩ := hx.ok hrun
      have fresh' : s'.Fresh := fresh.mono edits.contents edits.next
      obtain ⟨hplain', hcontents, hnext⟩ := (hf hplain fresh').error h
      exact ⟨hplain', hcontents.trans edits.contents, edits.next.trans hnext⟩

theorem Tracks.bind_some {b : β} {f : α → Exec ε (OnceCells γ) α'} {plain' : Option β'}
    {erase' : α' → β'} {places' : α' → ν → Option ο}
    (hx : Tracks cell x (some b) erase s old places) (fresh : s.Fresh)
    (hf : ∀ {a s'}, b = erase a → s'.Fresh →
      Tracks cell (f a) plain' erase' s' (places a) places') :
    Tracks cell (x >>= f) plain' erase' s old places' :=
  hx.bind fresh (fun h => by cases h) fun h => hf (Option.some.inj h)

theorem tracks_assoc {δ : Type} {f : α → Exec ε (OnceCells γ) δ} {g : δ → Exec ε (OnceCells γ) α'}
    {plain' : Option β'} {erase' : α' → β'} {places' : α' → ν → Option ο} :
    Tracks cell ((x >>= f) >>= g) plain' erase' s old places' ↔
      Tracks cell (x >>= fun a => f a >>= g) plain' erase' s old places' :=
  ⟨fun h => ⟨fun hrun => h.ok (Exec.bind_bind.trans hrun),
      fun hrun => h.error (Exec.bind_bind.trans hrun)⟩,
    fun h => ⟨fun hrun => h.ok (Exec.bind_bind.symm.trans hrun),
      fun hrun => h.error (Exec.bind_bind.symm.trans hrun)⟩⟩

/-- Some of the resulting objects are dropped. -/
theorem Tracks.drop {places' : α → ν → Option ο} (hx : Tracks cell x plain erase s old places)
    (h : ∀ {a} {s' : OnceCells γ}, Edits cell s' (places a) s' (places' a)) :
    Tracks cell x plain erase s old places' where
  ok hrun := (hx.ok hrun).imp_right fun edits => edits.trans h
  error := hx.error

/-- Only some of the objects matter to the program. -/
theorem Tracks.from {places' : α → ν → Option ο} (edits : Edits cell s old s mid)
    (hx : Tracks cell x plain erase s mid places') : Tracks cell x plain erase s old places' where
  ok h := (hx.ok h).imp_right edits.trans
  error := hx.error

end Tracks

end Edits

/-! ## Objects -/

/-- Objects with their cells, their parts, themselves included, and the values to keep. -/
structure Objects (ο κ γ : Type) where
  cell : ο → ℕ
  part : ο → κ → Option ο
  value : ο → γ
  part_part : ∀ {o p o' q o''}, part o p = some o' → part o' q = some o'' →
    ∃ r, part o r = some o''

namespace Objects

variable (objects : Objects ο κ γ)

/-- The parts of the objects that there are. -/
def places (held : η → Option ο) (x : η × κ) : Option ο :=
  (held x.1).bind fun o => objects.part o x.2

/-- What is set is right, also in all parts, and what is not set belongs to one object. -/
structure Sound (s : OnceCells γ) (held : η → Option ο) : Prop where
  right : ∀ {x o a}, objects.places held x = some o → s.contents (objects.cell o) = some a →
    a = objects.value o
  parts : ∀ {x o p o'}, objects.places held x = some o →
    (s.contents (objects.cell o)).isSome = true → objects.part o p = some o' →
    (s.contents (objects.cell o')).isSome = true
  single : Single objects.cell s (objects.places held)
  below : Below objects.cell s (objects.places held)
  fresh : s.Fresh

/-- Cells of the given objects are set to the right values, and no others. -/
structure Fills (s : OnceCells γ) (places : ι → Option ο) (s' : OnceCells γ) : Prop where
  next : s'.next = s.next
  kept : ∀ {c a}, s.contents c = some a → s'.contents c = some a
  only : ∀ {c a}, s.contents c = none → s'.contents c = some a →
    ∃ p o, places p = some o ∧ objects.cell o = c ∧ a = objects.value o

/-- The cells of all given objects are set. -/
def Filled (s : OnceCells γ) (places : ι → Option ο) : Prop :=
  ∀ p o, places p = some o → (s.contents (objects.cell o)).isSome = true

variable {objects} {s s' s'' : OnceCells γ} {held : η → Option ο} {o : ο}

theorem places_eq_some {x : η × κ} :
    objects.places held x = some o ↔ ∃ o', held x.1 = some o' ∧ objects.part o' x.2 = some o :=
  Option.bind_eq_some_iff

variable [DecidableEq η] {i : η}

theorem places_update {new : Option ο} {x : η × κ} :
    objects.places (Function.update held i new) x =
      if x.1 = i then new.bind fun o => objects.part o x.2 else objects.places held x := by
  unfold places
  by_cases h : x.1 = i
  · rw [if_pos h, h, Function.update_self]
  · rw [if_neg h, Function.update_of_ne h]

/-- Edits of one object are edits of all. -/
theorem edits_update {new : Option ο}
    (edits : Edits objects.cell s (fun p => (held i).bind fun o => objects.part o p) s'
      (fun p => new.bind fun o => objects.part o p)) :
    Edits objects.cell s (objects.places held) s'
      (objects.places (Function.update held i new)) where
  contents := edits.contents
  next := edits.next
  filled {x o} h hset := by
    rw [places_update] at h
    split at h
    · obtain ⟨q, hq⟩ := edits.filled h hset
      exact ⟨(i, q), hq⟩
    · exact ⟨x, h⟩
  free {x o} h hfree := by
    rw [places_update] at h
    split at h
    · rcases edits.free h hfree with hnew | ⟨q, o', hq, he⟩
      · exact .inl hnew
      · exact .inr ⟨(i, q), o', hq, he⟩
    · exact .inr ⟨x, o, h, rfl⟩
  single below single := by
    have below' : Below objects.cell s fun p => (held i).bind fun o => objects.part o p :=
      fun {p o} h => below (p := (i, p)) h
    have single' : Single objects.cell s fun p => (held i).bind fun o => objects.part o p :=
      fun {p q o o'} h h' he hfree =>
        (Prod.mk.inj (single (p := (i, p)) (q := (i, q)) h h' he hfree)).2
    -- What is edited shares no free cell with what is not.
    have apart : ∀ {p y o o'}, (new.bind fun o => objects.part o p) = some o →
        objects.places held y = some o' → y.1 ≠ i → objects.cell o = objects.cell o' →
        s.contents (objects.cell o) ≠ none := by
      intro p y o o' h h' hne he hfree
      rcases edits.free h hfree with ⟨hle, -⟩ | ⟨q, o'', hq, he'⟩
      · exact absurd (below h') (Nat.not_lt.mpr (he ▸ hle))
      · have hplace := single (p := (i, q)) hq h' (he'.trans he) (he'.symm ▸ hfree)
        exact hne (congrArg Prod.fst hplace).symm
    rintro ⟨j, p⟩ ⟨k, q⟩ o o' h h' he hfree
    rw [edits.contents] at hfree
    rw [places_update] at h h'
    split at h <;> split at h'
    · rename_i hj hk
      have hp : p = q := edits.single below' single' h h' he (by rwa [edits.contents])
      exact Prod.ext (hj.trans hk.symm) hp
    · exact absurd hfree (apart h h' ‹_› he)
    · exact absurd (he ▸ hfree) (apart h' h ‹_› he.symm)
    · exact single h h' he hfree

/-- A program that edits one object edits it among all. -/
theorem tracks_update {α β : Type} {x : Exec ε (OnceCells γ) α} {plain : Option β} {erase : α → β}
    (new : α → Option ο)
    (hx : Tracks objects.cell x plain erase s (fun p => (held i).bind fun o => objects.part o p)
      fun a p => (new a).bind fun o => objects.part o p) :
    Tracks objects.cell x plain erase s (objects.places held)
      fun a => objects.places (Function.update held i (new a)) where
  ok h := (hx.ok h).imp_right edits_update
  error := hx.error

theorem Sound.edit (sound : objects.Sound s held) {new : Option ο}
    (edits : Edits objects.cell s (fun p => (held i).bind fun o => objects.part o p) s'
      (fun p => new.bind fun o => objects.part o p)) :
    objects.Sound s' (Function.update held i new) := by
  have all := edits_update edits
  refine ⟨fun {x o a} h hset => ?_, fun {x o p o'} h hset hpart => ?_,
    all.single sound.below sound.single, all.below sound.below,
    Fresh.mono sound.fresh all.contents all.next⟩
  · rw [edits.contents] at hset
    obtain ⟨y, hy⟩ := all.filled h (by rw [hset]; rfl)
    exact sound.right hy hset
  · rw [edits.contents] at hset ⊢
    obtain ⟨y, hy⟩ := all.filled h hset
    exact sound.parts hy hset hpart

/-- A copy of an object whose cells are all set. -/
theorem Sound.copy (sound : objects.Sound s held) {j : η} (hheld : held i = some o)
    (filled : objects.Filled s (objects.part o)) :
    objects.Sound s (Function.update held j (some o)) := by
  have same : ∀ {x o'}, objects.places (Function.update held j (some o)) x = some o' →
      ∃ y, objects.places held y = some o' := by
    intro x o' h
    rw [places_update] at h
    split at h
    · exact ⟨(i, x.2), places_eq_some.mpr ⟨o, hheld, h⟩⟩
    · exact ⟨x, h⟩
  refine ⟨fun h => ?_, fun h => ?_, ?_, fun h => ?_, sound.fresh⟩
  · obtain ⟨y, hy⟩ := same h
    exact sound.right hy
  · obtain ⟨y, hy⟩ := same h
    exact sound.parts hy
  · rintro x y o' o'' h h' he hfree
    rw [places_update] at h h'
    split at h
    · exact absurd hfree (Option.isSome_iff_ne_none.mp (filled _ _ h))
    · split at h'
      · exact absurd (he ▸ hfree) (Option.isSome_iff_ne_none.mp (filled _ _ h'))
      · exact sound.single h h' he hfree
  · obtain ⟨y, hy⟩ := same h
    exact sound.below hy

omit [DecidableEq η] in
/-- Some of the parts, each in its place or in another one. -/
theorem Sound.sub {held' : ι → Option ο} (sound : objects.Sound s held) (place : ι × κ → η × κ)
    (injective : Function.Injective place)
    (h : ∀ {x o}, objects.places held' x = some o → objects.places held (place x) = some o) :
    objects.Sound s held' where
  right hx := sound.right (h hx)
  parts hx := sound.parts (h hx)
  single hx hy he hfree := injective (sound.single (h hx) (h hy) he hfree)
  below hx := sound.below (h hx)
  fresh := sound.fresh

/-! ## Computing values -/

theorem Fills.refl {places : ι → Option ο} : objects.Fills s places s where
  next := rfl
  kept h := h
  only hfree hset := absurd (hfree.symm.trans hset) (Option.some_ne_none _).symm

theorem Fills.trans {places : ι → Option ο} (first : objects.Fills s places s')
    (second : objects.Fills s' places s'') : objects.Fills s places s'' where
  next := second.next.trans first.next
  kept h := second.kept (first.kept h)
  only {c a} hfree hset := by
    cases hmid : s'.contents c with
    | none => exact second.only hmid hset
    | some b =>
      obtain rfl := Option.some.inj ((second.kept hmid).symm.trans hset)
      exact first.only hfree hmid

theorem Fills.mono {places : ι → Option ο} {places' : ν → Option ο}
    (fills : objects.Fills s places s')
    (h : ∀ {p o}, places p = some o → ∃ q, places' q = some o) : objects.Fills s places' s' where
  next := fills.next
  kept := fills.kept
  only hfree hset := by
    obtain ⟨p, o, hp, he, hvalue⟩ := fills.only hfree hset
    obtain ⟨q, hq⟩ := h hp
    exact ⟨q, o, hq, he, hvalue⟩

theorem Fills.filled {places : ι → Option ο} {places' : ν → Option ο}
    (fills : objects.Fills s places s') (filled : objects.Filled s places') :
    objects.Filled s' places' := fun _ _ h => by
  obtain ⟨a, ha⟩ := Option.isSome_iff_exists.mp (filled _ _ h)
  rw [fills.kept ha]
  rfl

/-- The value of an object is kept in its cell. -/
theorem Fills.getOrInit {places : ι → Option ο} {p : ι} (h : places p = some o) :
    objects.Fills s places ((getOrInit (objects.cell o) (objects.value o) : Exec ε _ _) s).2 := by
  unfold OnceCells.getOrInit Exec.modify
  beta_reduce
  split
  · exact .refl
  · refine ⟨rfl, fun {c a} hset => ?_, fun {c a} hfree hset => ?_⟩
    · rw [← hset]
      exact Function.update_of_ne (fun he => ‹¬_› (by rw [← he, hset]; rfl)) _ _
    · change Function.update s.contents (objects.cell o) (some (objects.value o)) c = some a at hset
      obtain rfl | hne := eq_or_ne c (objects.cell o)
      · rw [Function.update_self] at hset
        exact ⟨p, o, h, rfl, (Option.some.inj hset).symm⟩
      · rw [Function.update_of_ne hne, hfree] at hset
        cases hset

omit [DecidableEq η] in
/-- The values of an object and its parts are computed. -/
theorem Sound.fill (sound : objects.Sound s held) (hheld : held i = some o)
    (fills : objects.Fills s (objects.part o) s') (all : objects.Filled s' (objects.part o)) :
    objects.Sound s' held := by
  -- What is set now is a part of the object, by the only place of its cell.
  have filled : ∀ {x o₁ a}, objects.places held x = some o₁ →
      s.contents (objects.cell o₁) = none → s'.contents (objects.cell o₁) = some a →
      (∃ p, objects.part o p = some o₁) ∧ a = objects.value o₁ := by
    intro x o₁ a h hfree hset
    obtain ⟨p, o', hpart, he, hvalue⟩ := fills.only hfree hset
    have hplace : objects.places held (i, p) = some o' := places_eq_some.mpr ⟨o, hheld, hpart⟩
    have hsame : x = (i, p) := sound.single h hplace he.symm hfree
    rw [hsame, hplace] at h
    obtain rfl := Option.some.inj h
    exact ⟨⟨p, hpart⟩, hvalue⟩
  refine ⟨fun {x o₁ a} h hset => ?_, fun {x o₁ p o₂} h hset hpart => ?_,
    fun {x y o₁ o₂} h h' he hfree => ?_, fun h => fills.next ▸ sound.below h, fun {c} hle => ?_⟩
  · cases hold : s.contents (objects.cell o₁) with
    | some b =>
      rw [fills.kept hold] at hset
      exact Option.some.inj hset ▸ sound.right h hold
    | none => exact (filled h hold hset).2
  · obtain ⟨a, hset⟩ := Option.isSome_iff_exists.mp hset
    cases hold : s.contents (objects.cell o₁) with
    | some b =>
      obtain ⟨b', hb'⟩ := Option.isSome_iff_exists.mp
        (sound.parts h (by rw [hold]; rfl) hpart)
      rw [fills.kept hb']
      rfl
    | none =>
      obtain ⟨⟨q, hq⟩, -⟩ := filled h hold hset
      obtain ⟨r, hr⟩ := objects.part_part hq hpart
      exact all _ _ hr
  · refine sound.single h h' he ?_
    refine Option.eq_none_iff_forall_ne_some.mpr fun a hold => ?_
    rw [fills.kept hold] at hfree
    cases hfree
  · rw [fills.next] at hle
    refine Option.eq_none_iff_forall_ne_some.mpr fun a hset => ?_
    obtain ⟨p, o', hpart, he, -⟩ := fills.only (sound.fresh hle) hset
    have hlt := sound.below (places_eq_some.mpr ⟨o, hheld, hpart⟩ :
      objects.places held (i, p) = some o')
    exact absurd (he ▸ hlt) (Nat.not_lt.mpr hle)

end Objects

end OnceCells
