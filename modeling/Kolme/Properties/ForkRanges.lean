import Kolme.Components.ForkInfo
import Mathlib.Order.Bounds.Basic
import Mathlib.Tactic.IntervalCases

/-!
# The ranges of versions

A search ends well only if the intervals that it halves do not come down to a single block. Which
intervals there are depends on the bounds alone.
-/

namespace Kolme

open Except

/-! ## Halving -/

/-- The intervals that come from halving an interval of heights again and again. -/
inductive Halving : ℕ → ℕ → ℕ → ℕ → Prop
  | self (start «end» : ℕ) : Halving start «end» start «end»
  | lower {start «end» middle a b : ℕ}
    (hmiddle : BlockHeight.increasingMiddle start «end» = .ok middle)
    (rest : Halving start (middle - 1) a b) : Halving start «end» a b
  | upper {start «end» middle a b : ℕ}
    (hmiddle : BlockHeight.increasingMiddle start «end» = .ok middle)
    (rest : Halving (middle + 1) «end» a b) : Halving start «end» a b

variable {start stop middle a b first last height bound : ℕ}

theorem Halving.bounds (h : Halving start stop a b) (hab : a ≤ b) : start ≤ a ∧ b ≤ stop := by
  induction h with
  | self => exact ⟨le_rfl, le_rfl⟩
  | lower hmiddle rest ih =>
    have hbounds := BlockHeight.increasingMiddle_bounds hmiddle
    have := ih hab
    omega
  | upper hmiddle rest ih =>
    have hbounds := BlockHeight.increasingMiddle_bounds hmiddle
    have := ih hab
    omega

/-- An interval of an interval with a middle is the whole, or lies below or above the middle. -/
theorem Halving.cases_middle (hmiddle : BlockHeight.increasingMiddle start stop = .ok middle)
    (h : Halving start stop a b) :
    a = start ∧ b = stop ∨ Halving start (middle - 1) a b ∨ Halving (middle + 1) stop a b := by
  cases h with
  | self => exact .inl ⟨rfl, rfl⟩
  | lower hmiddle' rest =>
    obtain rfl := ok.inj (hmiddle.symm.trans hmiddle')
    exact .inr (.inl rest)
  | upper hmiddle' rest =>
    obtain rfl := ok.inj (hmiddle.symm.trans hmiddle')
    exact .inr (.inr rest)

theorem increasingMiddle_eq_error (h : stop ≤ start) :
    BlockHeight.increasingMiddle start stop = .error (.invalidBlockHeight start stop) := if_pos h

theorem exists_increasingMiddle (h : start < stop) :
    ∃ middle : ℕ, BlockHeight.increasingMiddle start stop = .ok middle :=
  ⟨_, if_neg (Nat.not_le.mpr h)⟩

/-- The halving towards a bound passes over the two heights below it, or has nothing left. -/
def Clears (start stop bound : ℕ) : Prop :=
  stop < start ∨ ∃ height, bound = height + 2 ∧ Halving start stop height (height + 1)

theorem not_clears_single : ¬Clears start start bound := by
  rintro (h | ⟨height, rfl, h⟩)
  · exact lt_irrefl _ h
  · have := h.bounds (Nat.le_succ _)
    omega

theorem clears_lower (hmiddle : BlockHeight.increasingMiddle start stop = .ok middle)
    (h : bound ≤ middle) : Clears start stop bound ↔ Clears start (middle - 1) bound := by
  have hbounds := BlockHeight.increasingMiddle_bounds hmiddle
  constructor
  · rintro (hlt | ⟨height, rfl, hhalving⟩)
    · omega
    · rcases hhalving.cases_middle hmiddle with ⟨rfl, rfl⟩ | hlower | hupper
      · omega
      · exact .inr ⟨height, rfl, hlower⟩
      · have := hupper.bounds (Nat.le_succ _)
        omega
  · rintro (hlt | ⟨height, rfl, hhalving⟩)
    · omega
    · exact .inr ⟨height, rfl, .lower hmiddle hhalving⟩

theorem clears_upper (hmiddle : BlockHeight.increasingMiddle start stop = .ok middle)
    (h : middle < bound) (hbound : bound ≤ stop + 1) :
    Clears start stop bound ↔ Clears (middle + 1) stop bound := by
  have hbounds := BlockHeight.increasingMiddle_bounds hmiddle
  constructor
  · rintro (hlt | ⟨height, rfl, hhalving⟩)
    · omega
    · rcases hhalving.cases_middle hmiddle with ⟨rfl, rfl⟩ | hlower | hupper
      · exact .inl (by omega)
      · have := hlower.bounds (Nat.le_succ _)
        omega
      · exact .inr ⟨height, rfl, hupper⟩
  · rintro (hlt | ⟨height, rfl, hhalving⟩)
    · -- The middle is the end, so the interval had two heights.
      have htwo : stop = start + 1 := by omega
      have hbound' : bound = start + 2 := by omega
      exact .inr ⟨start, hbound', htwo ▸ .self start (start + 1)⟩
    · exact .inr ⟨height, rfl, .upper hmiddle hhalving⟩

/-- The halving comes to a height of a range as the middle of an interval around the range. -/
def Meets (start stop first last height : ℕ) : Prop :=
  ∃ a b, Halving start stop a b ∧ a ≤ first ∧ last ≤ b ∧
    BlockHeight.increasingMiddle a b = .ok height ∧ first ≤ height ∧ height ≤ last

theorem not_meets_single (h : stop ≤ start) : ¬Meets start stop first last height := by
  rintro ⟨a, b, hhalving, -, -, hmiddle, -⟩
  have hbounds := BlockHeight.increasingMiddle_bounds hmiddle
  have := hhalving.bounds (by omega)
  omega

theorem meets_here (hmiddle : BlockHeight.increasingMiddle start stop = .ok middle)
    (hstart : start ≤ first) (hstop : last ≤ stop) (hfirst : first ≤ middle)
    (hlast : middle ≤ last) : Meets start stop first last height ↔ height = middle := by
  constructor
  · rintro ⟨a, b, hhalving, ha, hb, hmid, -⟩
    have hbounds := BlockHeight.increasingMiddle_bounds hmid
    rcases hhalving.cases_middle hmiddle with ⟨rfl, rfl⟩ | hlower | hupper
    · exact ok.inj (hmid.symm.trans hmiddle)
    · have := hlower.bounds (by omega)
      omega
    · have := hupper.bounds (by omega)
      omega
  · rintro rfl
    exact ⟨start, stop, .self start stop, hstart, hstop, hmiddle, hfirst, hlast⟩

theorem meets_lower (hmiddle : BlockHeight.increasingMiddle start stop = .ok middle)
    (h : last < middle) :
    Meets start stop first last height ↔ Meets start (middle - 1) first last height := by
  constructor
  · rintro ⟨a, b, hhalving, ha, hb, hmid, hfirst, hlast⟩
    have hbounds := BlockHeight.increasingMiddle_bounds hmid
    rcases hhalving.cases_middle hmiddle with ⟨rfl, rfl⟩ | hlower | hupper
    · obtain rfl := ok.inj (hmid.symm.trans hmiddle)
      omega
    · exact ⟨a, b, hlower, ha, hb, hmid, hfirst, hlast⟩
    · have := hupper.bounds (by omega)
      omega
  · rintro ⟨a, b, hhalving, hrest⟩
    exact ⟨a, b, .lower hmiddle hhalving, hrest⟩

theorem meets_upper (hmiddle : BlockHeight.increasingMiddle start stop = .ok middle)
    (h : middle < first) :
    Meets start stop first last height ↔ Meets (middle + 1) stop first last height := by
  constructor
  · rintro ⟨a, b, hhalving, ha, hb, hmid, hfirst, hlast⟩
    have hbounds := BlockHeight.increasingMiddle_bounds hmid
    rcases hhalving.cases_middle hmiddle with ⟨rfl, rfl⟩ | hlower | hupper
    · obtain rfl := ok.inj (hmid.symm.trans hmiddle)
      omega
    · have := hlower.bounds (by omega)
      omega
    · exact ⟨a, b, hupper, ha, hb, hmid, hfirst, hlast⟩
  · rintro ⟨a, b, hhalving, hrest⟩
    exact ⟨a, b, .upper hmiddle hhalving, hrest⟩

/-! ## Versions of the blocks -/

/-- The comparison is a total preorder on some versions. -/
structure VersionCompare.TotalOn (vc : VersionCompare) (le : vc.Version → vc.Version → Prop)
    (s : Set vc.Version) : Prop where
  total {a b : vc.Version} : a ∈ s → b ∈ s → le a b ∨ le b a
  trans {a b c : vc.Version} : a ∈ s → b ∈ s → c ∈ s → le a b → le b c → le a c
  compare_eq {a b : vc.Version} : a ∈ s → b ∈ s → (vc.compare a b = .eq ↔ le a b ∧ le b a)
  compare_lt {a b : vc.Version} : a ∈ s → b ∈ s → (vc.compare a b = .lt ↔ ¬le b a)
  compare_gt {a b : vc.Version} : a ∈ s → b ∈ s → (vc.compare a b = .gt ↔ ¬le a b)

/-- A node that has all blocks below a height, with the versions of the chain at them. -/
structure BlockReader.Serves {M : Type} (kolme : BlockReader M) (vc : VersionCompare) (n : ℕ)
    (version : ℕ → vc.Version) : Prop where
  nextHeight_eq : kolme.nextHeight = n
  stored {height : ℕ} : height < n → ∃ block state, kolme.getBlock height = .ok (some block) ∧
    kolme.getFramework block.message.value.frameworkState = .ok state ∧
    vc.from? state.version = some (version height)

/-- The heights of the blocks of a version. -/
def heightsOf (vc : VersionCompare) (n : ℕ) (version : ℕ → vc.Version) (v : vc.Version) : Set ℕ :=
  {height | height < n ∧ vc.compare v (version height) = .eq}

section

variable {M : Type} {kolme : BlockReader M} {vc : VersionCompare} {n : ℕ}
  {version : ℕ → vc.Version} {v : vc.Version} {le : vc.Version → vc.Version → Prop}

theorem BlockReader.Serves.blockResponse (h : kolme.Serves vc n version) (hheight : height < n) :
    ∃ response, kolme.blockResponse height = .ok response ∧ response.blockHeight = height ∧
      vc.from? response.chainVersion = some (version height) := by
  obtain ⟨block, state, hblock, hstate, hversion⟩ := h.stored hheight
  refine ⟨⟨state.version, height⟩, ?_, rfl, hversion⟩
  simp only [BlockReader.blockResponse, hblock, hstate, ok_bind, pure_eq_ok]

theorem BlockReader.Serves.latestBlock (h : kolme.Serves vc n version) (hn : 1 ≤ n) :
    kolme.latestBlock = .ok (n - 1) := by
  rw [BlockReader.latestBlock, h.nextHeight_eq, if_neg (Nat.ne_of_gt hn)]

/-- How the versions below, at and above a range compare to the version of the range. -/
structure Ranged (vc : VersionCompare) (n : ℕ) (version : ℕ → vc.Version) (v : vc.Version)
    (first last : ℕ) : Prop where
  first_le : first ≤ last
  last_lt : last < n
  below {height : ℕ} : height < first →
    vc.compare v (version height) = .gt ∧ vc.compare (version height) v = .lt
  within {height : ℕ} : first ≤ height → height ≤ last →
    vc.compare v (version height) = .eq ∧ vc.compare (version height) v = .eq
  above {height : ℕ} : last < height → height < n →
    vc.compare v (version height) = .lt ∧ vc.compare (version height) v = .gt

/-- Where versions never decrease, the blocks of one version are a range. -/
theorem ranged_of_monotone (htotal : vc.TotalOn le (insert v (version '' Set.Iio n)))
    (hmono : ∀ ⦃a b⦄, a ≤ b → b < n → le (version a) (version b))
    (hfirst : IsLeast (heightsOf vc n version v) first)
    (hlast : IsGreatest (heightsOf vc n version v) last) : Ranged vc n version v first last := by
  have hv : v ∈ insert v (version '' Set.Iio n) := Set.mem_insert _ _
  have hmem : ∀ {height}, height < n → version height ∈ insert v (version '' Set.Iio n) :=
    fun h => Set.mem_insert_of_mem _ ⟨_, h, rfl⟩
  obtain ⟨⟨hfirst_lt, hfirst_eq⟩, hfirst_le⟩ := hfirst
  obtain ⟨⟨hlast_lt, hlast_eq⟩, hle_last⟩ := hlast
  obtain ⟨hv_first, hfirst_v⟩ := (htotal.compare_eq hv (hmem hfirst_lt)).mp hfirst_eq
  obtain ⟨hv_last, hlast_v⟩ := (htotal.compare_eq hv (hmem hlast_lt)).mp hlast_eq
  have hfirst_last : first ≤ last := hfirst_le ⟨hlast_lt, hlast_eq⟩
  refine ⟨hfirst_last, hlast_lt, fun {height} h => ?_, fun {height} h h' => ?_,
    fun {height} h h' => ?_⟩
  · have hn := h.trans hfirst_lt
    have hle : le (version height) v :=
      htotal.trans (hmem hn) (hmem hfirst_lt) hv (hmono h.le hfirst_lt) hfirst_v
    have hnot : ¬le v (version height) := fun hge =>
      (hfirst_le ⟨hn, (htotal.compare_eq hv (hmem hn)).mpr ⟨hge, hle⟩⟩).not_gt h
    exact ⟨(htotal.compare_gt hv (hmem hn)).mpr hnot, (htotal.compare_lt (hmem hn) hv).mpr hnot⟩
  · have hn := h'.trans_lt hlast_lt
    have hge : le v (version height) :=
      htotal.trans hv (hmem hfirst_lt) (hmem hn) hv_first (hmono h hn)
    have hle : le (version height) v :=
      htotal.trans (hmem hn) (hmem hlast_lt) hv (hmono h' hlast_lt) hlast_v
    exact ⟨(htotal.compare_eq hv (hmem hn)).mpr ⟨hge, hle⟩,
      (htotal.compare_eq (hmem hn) hv).mpr ⟨hle, hge⟩⟩
  · have hge : le v (version height) :=
      htotal.trans hv (hmem hlast_lt) (hmem h') hv_last (hmono h.le h')
    have hnot : ¬le (version height) v := fun hle =>
      (hle_last ⟨h', (htotal.compare_eq hv (hmem h')).mpr ⟨hge, hle⟩⟩).not_gt h
    exact ⟨(htotal.compare_lt hv (hmem h')).mpr hnot, (htotal.compare_gt (hmem h') hv).mpr hnot⟩

/-! ## Searches -/

/-- A search for some block of a version ends well at the height where the halving meets the range
of the version. -/
theorem findBlockHeightFrom_iff (hserves : kolme.Serves vc n version)
    (hranged : Ranged vc n version v first last) (hstart : start ≤ first) (hstop : last ≤ stop)
    (hn : stop < n) :
    (∃ response, kolme.findBlockHeightFrom vc v start stop = .ok response ∧
      response.blockHeight = height) ↔ Meets start stop first last height := by
  have hfirst_last := hranged.first_le
  induction hsize : stop - start using Nat.strong_induction_on generalizing start stop with
  | _ size ih =>
    rcases (hstart.trans (hfirst_last.trans hstop)).eq_or_lt with rfl | hlt
    · refine iff_of_false ?_ (not_meets_single le_rfl)
      rintro ⟨response, h, -⟩
      rw [BlockReader.findBlockHeightFrom_single] at h
      cases h
    · obtain ⟨middle, hmiddle⟩ := exists_increasingMiddle hlt
      have hbounds := BlockHeight.increasingMiddle_bounds hmiddle
      obtain ⟨response, hresponse, hheight, hversion⟩ :=
        hserves.blockResponse (hbounds.2.1.trans_lt hn)
      rw [BlockReader.findBlockHeightFrom_middle hmiddle hresponse hversion]
      rcases lt_or_ge middle first with hbelow | hge
      · rw [(hranged.below hbelow).1, meets_upper hmiddle hbelow]
        exact ih _ (by omega) hbelow hstop hn rfl
      · rcases le_or_gt middle last with hle | habove
        · rw [(hranged.within hge hle).1, meets_here hmiddle hstart hstop hge hle]
          simp only [ok.injEq, exists_eq_left', hheight, eq_comm]
        · have hne : ¬middle = 0 := by omega
          rw [(hranged.above habove (hbounds.2.1.trans_lt hn)).1, meets_lower hmiddle habove]
          simp only [if_neg hne]
          exact ih _ (by omega) hstart (by omega) (by omega) rfl

/-- A search for the first block of a version, from a block of the version, ends well exactly if the
halving clears the first block. -/
theorem findFirstBlockFrom_iff (hserves : kolme.Serves vc n version)
    (hranged : Ranged vc n version v first last) {found : Option BlockHeight}
    (hstart : start ≤ first) (hfirst : first ≤ stop + 1) (hstop : stop ≤ last)
    (hfound : first = stop + 1 → found = some first) :
    kolme.findFirstBlockFrom vc v start stop found = .ok (some first) ↔
      Clears start stop first := by
  induction hsize : stop + 1 - start using Nat.strong_induction_on
    generalizing start stop found with
  | _ size ih =>
    rcases lt_trichotomy stop start with hempty | rfl | hlt
    · have heq : first = stop + 1 := by omega
      rw [BlockReader.findFirstBlockFrom_empty hempty, hfound heq]
      exact iff_of_true rfl (.inl hempty)
    · rw [BlockReader.findFirstBlockFrom_single]
      exact iff_of_false nofun not_clears_single
    · obtain ⟨middle, hmiddle⟩ := exists_increasingMiddle hlt
      have hbounds := BlockHeight.increasingMiddle_bounds hmiddle
      obtain ⟨response, hresponse, hheight, hversion⟩ :=
        hserves.blockResponse (hbounds.2.1.trans_lt (hstop.trans_lt hranged.last_lt))
      rw [BlockReader.findFirstBlockFrom_middle hmiddle hresponse hversion]
      rcases lt_or_ge middle first with hbelow | hge
      · have hbeq : vc.beq (version middle) v = false := by
          simp [VersionCompare.beq, (hranged.below hbelow).2]
        rw [hbeq, if_neg Bool.false_ne_true, if_pos (hranged.below hbelow).2,
          clears_upper hmiddle hbelow hfirst]
        exact ih _ (by omega) hbelow hfirst hstop hfound rfl
      · have hbeq : vc.beq (version middle) v = true := by
          simp [VersionCompare.beq, (hranged.within hge (hbounds.2.1.trans hstop)).2]
        rw [hbeq, if_pos rfl, clears_lower hmiddle hge]
        refine ih _ (by omega) hstart (by omega) (by omega) (fun heq => ?_) rfl
        rw [heq, Nat.sub_add_cancel (by omega)]

/-- A search for the last block of a version, from a block of the version, ends well exactly if the
halving clears the block after the last one. -/
theorem findLastBlockFrom_iff (hserves : kolme.Serves vc n version)
    (hranged : Ranged vc n version v first last) {found : Option BlockHeight}
    (hstart : start ≤ last + 1) (hfirst : first ≤ start) (hlast : last ≤ stop) (hn : stop < n)
    (hfound : last + 1 = start → found = some last) :
    kolme.findLastBlockFrom vc v start stop found = .ok (some last) ↔
      Clears start stop (last + 1) := by
  induction hsize : stop + 1 - start using Nat.strong_induction_on
    generalizing start stop found with
  | _ size ih =>
    rcases lt_trichotomy stop start with hempty | rfl | hlt
    · have heq : last + 1 = start := by omega
      rw [BlockReader.findLastBlockFrom_empty hempty, hfound heq]
      exact iff_of_true rfl (.inl hempty)
    · rw [BlockReader.findLastBlockFrom_single]
      exact iff_of_false nofun not_clears_single
    · obtain ⟨middle, hmiddle⟩ := exists_increasingMiddle hlt
      have hbounds := BlockHeight.increasingMiddle_bounds hmiddle
      obtain ⟨response, hresponse, hheight, hversion⟩ :=
        hserves.blockResponse (hbounds.2.1.trans_lt hn)
      rw [BlockReader.findLastBlockFrom_middle hmiddle hresponse hversion]
      rcases le_or_gt middle last with hle | habove
      · have hbeq : vc.beq (version middle) v = true := by
          simp [VersionCompare.beq, (hranged.within (by omega) hle).2]
        rw [hbeq, if_pos rfl, clears_upper hmiddle (Nat.lt_succ_of_le hle) (by omega)]
        refine ih _ (by omega) (by omega) (by omega) hlast hn (fun heq => ?_) rfl
        rw [Nat.succ_inj.mp heq]
      · have hcompare := (hranged.above habove (hbounds.2.1.trans_lt hn)).2
        have hbeq : vc.beq (version middle) v = false := by
          simp [VersionCompare.beq, hcompare]
        rw [hbeq, if_neg Bool.false_ne_true, if_pos hcompare, clears_lower hmiddle habove]
        exact ih _ (by omega) hstart hfirst (by omega) (by omega) hfound rfl

/-- A search finds blocks of the version only. -/
theorem findBlockHeightFrom_ok (hserves : kolme.Serves vc n version) (hn : stop < n)
    {response : BlockResponse} (h : kolme.findBlockHeightFrom vc v start stop = .ok response) :
    response.blockHeight ∈ heightsOf vc n version v := by
  induction hsize : stop + 1 - start using Nat.strong_induction_on generalizing start stop with
  | _ size ih =>
    rcases lt_trichotomy stop start with hempty | rfl | hlt
    · rw [BlockReader.findBlockHeightFrom, if_neg (Nat.not_le.mpr hempty)] at h
      cases h
    · rw [BlockReader.findBlockHeightFrom_single] at h
      cases h
    · obtain ⟨middle, hmiddle⟩ := exists_increasingMiddle hlt
      have hbounds := BlockHeight.increasingMiddle_bounds hmiddle
      obtain ⟨response', hresponse, hheight, hversion⟩ :=
        hserves.blockResponse (hbounds.2.1.trans_lt hn)
      rw [BlockReader.findBlockHeightFrom_middle hmiddle hresponse hversion] at h
      cases hcompare : vc.compare v (version middle) with
      | eq =>
        rw [hcompare] at h
        obtain rfl := ok.inj h
        rw [hheight]
        exact ⟨hbounds.2.1.trans_lt hn, hcompare⟩
      | lt | le =>
        have hne : ¬middle = 0 := by omega
        rw [hcompare] at h
        simp only [if_neg hne] at h
        exact ih _ (by omega) (by omega) h rfl
      | gt | ge =>
        rw [hcompare] at h
        exact ih _ (by omega) hn h rfl
      | ne =>
        rw [hcompare] at h
        cases h

theorem findBlockHeight_eq (hserves : kolme.Serves vc n version) (hn : 1 ≤ n) :
    kolme.findBlockHeight vc v = kolme.findBlockHeightFrom vc v 0 (n - 1) := by
  rw [BlockReader.findBlockHeight, hserves.latestBlock hn]
  rfl

theorem findFirstBlock_eq_ok :
    kolme.findFirstBlock vc v height = .ok first ↔
      kolme.findFirstBlockFrom vc v 0 height none = .ok (some first) := by
  rw [BlockReader.findFirstBlock]
  rcases kolme.findFirstBlockFrom vc v 0 height none with e | found
  · exact iff_of_false nofun nofun
  · cases found with
    | none => exact iff_of_false nofun nofun
    | some found => simp only [ok_bind, fromOption_some, ok.injEq, Option.some.injEq]

theorem findLastBlock_eq_ok (hserves : kolme.Serves vc n version) (hn : 1 ≤ n) :
    kolme.findLastBlock vc v height = .ok last ↔
      kolme.findLastBlockFrom vc v height (n - 1) none = .ok (some last) := by
  rw [BlockReader.findLastBlock, hserves.latestBlock hn, ok_bind]
  rcases kolme.findLastBlockFrom vc v height (n - 1) none with e | found
  · exact iff_of_false nofun nofun
  · cases found with
    | none => exact iff_of_false nofun nofun
    | some found => simp only [ok_bind, fromOption_some, ok.injEq, Option.some.injEq]

/-! ## The query -/

variable (kolme vc n version v) in
/-- The searches find a block of the version and its first and last block, or report that there is
none. -/
structure ForksExact : Prop where
  found : ∀ first last, IsLeast (heightsOf vc n version v) first →
    IsGreatest (heightsOf vc n version v) last →
    ∃ found, kolme.findBlockHeight vc v = .ok found ∧
      found.blockHeight ∈ heightsOf vc n version v ∧
      kolme.findFirstBlock vc v found.blockHeight = .ok first ∧
      kolme.findLastBlock vc v found.blockHeight = .ok last
  missing : heightsOf vc n version v = ∅ → ∃ e, kolme.forkInfo vc v = .error e

/-- The halving of all blocks meets a range, and from there clears its first block and the one after
its last. -/
def Splits (n first last : ℕ) : Prop :=
  ∃ height, Meets 0 (n - 1) first last height ∧ Clears 0 height first ∧
    Clears height (n - 1) (last + 1)

theorem forkInfo_missing (hserves : kolme.Serves vc n version) (hn : 1 ≤ n)
    (hmissing : heightsOf vc n version v = ∅) : ∃ e, kolme.forkInfo vc v = .error e := by
  rw [BlockReader.forkInfo, findBlockHeight_eq hserves hn]
  rcases hsearch : kolme.findBlockHeightFrom vc v 0 (n - 1) with e | found
  · exact ⟨e, rfl⟩
  · have hmem := findBlockHeightFrom_ok hserves (Nat.sub_lt hn Nat.one_pos) hsearch
    rw [hmissing] at hmem
    cases hmem

theorem searches_iff (hserves : kolme.Serves vc n version) (hn : 1 ≤ n)
    (hranged : Ranged vc n version v first last) :
    (∃ found, kolme.findBlockHeight vc v = .ok found ∧
      kolme.findFirstBlock vc v found.blockHeight = .ok first ∧
      kolme.findLastBlock vc v found.blockHeight = .ok last) ↔ Splits n first last := by
  have hlast := hranged.last_lt
  have hsearch {height : ℕ} : (∃ response,
      kolme.findBlockHeightFrom vc v 0 (n - 1) = .ok response ∧ response.blockHeight = height) ↔
        Meets 0 (n - 1) first last height :=
    findBlockHeightFrom_iff hserves hranged (Nat.zero_le first) (Nat.le_sub_one_of_lt hlast)
      (Nat.sub_lt hn Nat.one_pos)
  -- The halving meets the range at one of its heights, where the other searches start.
  have hfirst {height : ℕ} (h : Meets 0 (n - 1) first last height) :
      kolme.findFirstBlock vc v height = .ok first ↔ Clears 0 height first := by
    obtain ⟨a, b, -, -, -, -, hge, hle⟩ := h
    rw [findFirstBlock_eq_ok]
    exact findFirstBlockFrom_iff hserves hranged (Nat.zero_le _) (by omega) hle (by omega)
  have hlast {height : ℕ} (h : Meets 0 (n - 1) first last height) :
      kolme.findLastBlock vc v height = .ok last ↔ Clears height (n - 1) (last + 1) := by
    obtain ⟨a, b, -, -, -, -, hge, hle⟩ := h
    rw [findLastBlock_eq_ok hserves hn]
    exact findLastBlockFrom_iff hserves hranged (by omega) hge (by omega) (by omega) (by omega)
  rw [findBlockHeight_eq hserves hn]
  constructor
  · rintro ⟨found, hfound, hfirst', hlast'⟩
    have hmeets := hsearch.mp ⟨found, hfound, rfl⟩
    exact ⟨_, hmeets, (hfirst hmeets).mp hfirst', (hlast hmeets).mp hlast'⟩
  · rintro ⟨height, hmeets, hfirst', hlast'⟩
    obtain ⟨found, hfound, rfl⟩ := hsearch.mpr hmeets
    exact ⟨found, hfound, (hfirst hmeets).mpr hfirst', (hlast hmeets).mpr hlast'⟩

/-- On a chain whose versions never decrease, the query is exact if and only if the halving of its
heights splits the range of the version. -/
theorem forkInfo_iff (hserves : kolme.Serves vc n version) (hn : 1 ≤ n)
    (htotal : vc.TotalOn le (insert v (version '' Set.Iio n)))
    (hmono : ∀ ⦃a b⦄, a ≤ b → b < n → le (version a) (version b)) :
    ForksExact kolme vc n version v ↔
      ∀ first last, IsLeast (heightsOf vc n version v) first →
        IsGreatest (heightsOf vc n version v) last → Splits n first last := by
  constructor
  · intro h first last hfirst hlast
    obtain ⟨found, hfound, -, hrest⟩ := h.found first last hfirst hlast
    exact (searches_iff hserves hn (ranged_of_monotone htotal hmono hfirst hlast)).mp
      ⟨found, hfound, hrest⟩
  · intro h
    refine ⟨fun first last hfirst hlast => ?_, forkInfo_missing hserves hn⟩
    obtain ⟨found, hfound, hrest⟩ :=
      (searches_iff hserves hn (ranged_of_monotone htotal hmono hfirst hlast)).mpr
        (h first last hfirst hlast)
    have hmem := findBlockHeightFrom_ok hserves (Nat.sub_lt hn Nat.one_pos)
      ((findBlockHeight_eq hserves hn).symm.trans hfound)
    exact ⟨found, hfound, hmem, hrest⟩

end

namespace RangeSample

def compareNumbers (a b : ℕ) : Cmp := if a < b then .lt else if a = b then .eq else .gt

/-- Versions of one number. -/
def versions : VersionCompare where
  Version := ℕ
  from?
    | "1" => some 1
    | "2" => some 2
    | "3" => some 3
    | _ => none
  compare := compareNumbers

def version (number : ℕ) : versions.Version := number

theorem compareNumbers_spec (a b : ℕ) :
    (compareNumbers a b = .eq ↔ a ≤ b ∧ b ≤ a) ∧ (compareNumbers a b = .lt ↔ ¬b ≤ a) ∧
      (compareNumbers a b = .gt ↔ ¬a ≤ b) := by
  unfold compareNumbers
  split_ifs <;> simp <;> omega

theorem versions_total (s : Set versions.Version) : versions.TotalOn Nat.le s where
  total _ _ := Nat.le_total _ _
  trans _ _ _ := Nat.le_trans
  compare_eq _ _ := (compareNumbers_spec _ _).1
  compare_lt _ _ := (compareNumbers_spec _ _).2.1
  compare_gt _ _ := (compareNumbers_spec _ _).2.2

/-- The second version is in force from block 2 to block 4. -/
def versionAt (height : ℕ) : ℕ := if height < 2 then 1 else if height ≤ 4 then 2 else 3

def text : ℕ → String
  | 1 => "1"
  | 2 => "2"
  | _ => "3"

def block (height : ℕ) : SignedBlock Unit :=
  ⟨⟨"", ⟨⟨⟨"", ⟨1, 0, [], none⟩⟩, 0, 0⟩, 0, 0, height, 0, Fin.ofNat _ height, 0, 0, []⟩⟩, 0, 0⟩

def state (version : String) : FrameworkState :=
  ⟨⟨1, {1}, 1, {1}, 1⟩, ∅, ⟨∅, ∅, ∅⟩, ⟨0, ∅⟩, version⟩

/-- A node with some number of blocks. -/
def node (n : ℕ) : BlockReader Unit where
  nextHeight := n
  getBlock height := .ok (if (height : ℕ) < n then some (block height) else none)
  getFramework hash := .ok (state (text (versionAt hash.val)))

theorem node_serves {n : ℕ} (hn : n ≤ 7) : (node n).Serves versions n versionAt where
  nextHeight_eq := rfl
  stored {height} h := by
    refine ⟨block height, state (text (versionAt height)), congrArg ok (if_pos h), ?_, ?_⟩
    · have : height < 7 := h.trans_le hn
      interval_cases height <;> rfl
    · have : height < 7 := h.trans_le hn
      interval_cases height <;> rfl

theorem versionAt_mono {a b : ℕ} (h : a ≤ b) : Nat.le (versionAt a) (versionAt b) := by
  simp only [versionAt, Nat.le_eq]
  split_ifs <;> omega

theorem mem_heightsOf_second {height : ℕ} :
    height ∈ heightsOf versions 7 versionAt (version 2) ↔ 2 ≤ height ∧ height ≤ 4 := by
  constructor
  · rintro ⟨hlt, heq⟩
    interval_cases height <;> first | decide | exact absurd heq (by decide)
  · rintro ⟨hge, hle⟩
    exact ⟨by omega, by interval_cases height <;> rfl⟩

end RangeSample

open RangeSample in
/-- Of seven blocks, the halving splits the range of the second version. -/
theorem forkInfo_iff_example : ForksExact (node 7) versions 7 versionAt (version 2) := by
  refine (forkInfo_iff (node_serves le_rfl) (by decide) (versions_total _)
    (fun a b h _ => versionAt_mono h)).mpr fun first last hfirst hlast => ?_
  have hfirst_eq : first = 2 := le_antisymm (hfirst.2 (mem_heightsOf_second.mpr (by decide)))
    (mem_heightsOf_second.mp hfirst.1).1
  have hlast_eq : last = 4 := le_antisymm (mem_heightsOf_second.mp hlast.1).2
    (hlast.2 (mem_heightsOf_second.mpr (by decide)))
  subst hfirst_eq hlast_eq
  refine ⟨3, ⟨0, 6, .self 0 6, by decide, by decide, rfl, by decide, by decide⟩, ?_, ?_⟩
  · exact .inr ⟨0, rfl, @Halving.lower 0 3 2 0 1 rfl (.self 0 1)⟩
  · exact .inr ⟨3, rfl, @Halving.lower 3 6 5 3 4 rfl (.self 3 4)⟩

open RangeSample in
/-- A chain of a single block has no middle, so the version of that block is not found. -/
theorem forkInfo_fails :
    (node 1).Serves versions 1 versionAt ∧
      versions.TotalOn Nat.le (insert (version 1) (versionAt '' Set.Iio 1)) ∧
      (∀ ⦃a b⦄, a ≤ b → b < 1 → Nat.le (versionAt a) (versionAt b)) ∧
      (node 1).forkInfo versions (version 1) = .error (.kolme (.invalidBlockHeight 0 0)) ∧
      ¬ForksExact (node 1) versions 1 versionAt (version 1) := by
  have hsearch : (node 1).findBlockHeight versions (version 1) =
      .error (.kolme (.invalidBlockHeight 0 0)) := BlockReader.findBlockHeightFrom_single
  refine ⟨node_serves (by decide), versions_total _, fun a b h _ => versionAt_mono h, ?_, ?_⟩
  · rw [BlockReader.forkInfo, hsearch]
    rfl
  · rintro ⟨hfound, -⟩
    have hmem : ∀ height, height ∈ heightsOf versions 1 versionAt (version 1) ↔ height = 0 := by
      intro height
      constructor
      · rintro ⟨hlt, -⟩
        omega
      · rintro rfl
        exact ⟨by decide, rfl⟩
    have hleast : IsLeast (heightsOf versions 1 versionAt (version 1)) 0 :=
      ⟨(hmem 0).mpr rfl, fun height _ => Nat.zero_le height⟩
    have hgreatest : IsGreatest (heightsOf versions 1 versionAt (version 1)) 0 :=
      ⟨(hmem 0).mpr rfl, fun height h => ((hmem height).mp h).le⟩
    obtain ⟨found, h, -⟩ := hfound 0 0 hleast hgreatest
    cases hsearch.symm.trans h

end Kolme
