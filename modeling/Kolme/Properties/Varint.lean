import Kolme.Merkle.Canonical

/-!
# Variable-length integers

The reader of a `usize` computes in 64 bits. It is compared with the number that the bytes stand
for, which has no limit.
-/

namespace Kolme.Merkle

namespace MerkleDeserializer

/-- The number that chunks of seven bits stand for, the highest first, behind a number that has been
read. -/
def ofChunks (value : ℕ) (chunks : Bytes) : ℕ :=
  chunks.foldl (fun value byte => value * 128 + byte.toNat % 128) value

/-- Some bytes start with an encoding: chunks with the continuation bit and a last one without. -/
structure Starts (bytes : Bytes) (chunks : Bytes) (last : UInt8) : Prop where
  split : chunks ++ [last] <+: bytes
  continued : ∀ byte ∈ chunks, 128 ≤ byte.toNat
  terminated : last.toNat < 128

namespace Starts

variable {bytes chunks : Bytes} {byte last : UInt8}

theorem cons (hbyte : 128 ≤ byte.toNat) (h : Starts bytes chunks last) :
    Starts (byte :: bytes) (byte :: chunks) last where
  split := List.cons_prefix_cons.mpr ⟨rfl, h.split⟩
  continued := List.forall_mem_cons.mpr ⟨hbyte, h.continued⟩
  terminated := h.terminated

theorem single (hbyte : byte.toNat < 128) : Starts (byte :: bytes) [] byte where
  split := List.cons_prefix_cons.mpr ⟨rfl, List.nil_prefix⟩
  continued _ h := nomatch h
  terminated := hbyte

/-- The first byte is the last one of the encoding or a chunk before it. -/
theorem cases (h : Starts (byte :: bytes) chunks last) :
    byte.toNat < 128 ∧ chunks = [] ∧ last = byte ∨
      128 ≤ byte.toNat ∧ ∃ chunks', chunks = byte :: chunks' ∧ Starts bytes chunks' last := by
  cases chunks with
  | nil =>
    obtain ⟨rfl, -⟩ := List.cons_prefix_cons.mp h.split
    exact .inl ⟨h.terminated, rfl, rfl⟩
  | cons chunk chunks =>
    obtain ⟨rfl, hsplit⟩ := List.cons_prefix_cons.mp h.split
    obtain ⟨hchunk, hchunks⟩ := List.forall_mem_cons.mp h.continued
    exact .inr ⟨hchunk, chunks, rfl, hsplit, hchunks, h.terminated⟩

theorem unique {chunks' : Bytes} {last' : UInt8} (h : Starts bytes chunks last)
    (h' : Starts bytes chunks' last') : chunks = chunks' ∧ last = last' := by
  induction bytes generalizing chunks chunks' with
  | nil => exact absurd h.split (by simp)
  | cons byte bytes ih =>
    obtain ⟨hbyte, rfl, rfl⟩ | ⟨hbyte, rest, rfl, hrest⟩ := h.cases
    · obtain ⟨-, rfl, rfl⟩ | ⟨hge, -⟩ := h'.cases
      · exact ⟨rfl, rfl⟩
      · omega
    · obtain ⟨hlt, -⟩ | ⟨-, rest', rfl, hrest'⟩ := h'.cases
      · omega
      · obtain ⟨rfl, rfl⟩ := ih hrest hrest'
        exact ⟨rfl, rfl⟩

/-- Bytes without an encoding all have the continuation bit. -/
theorem exists_iff :
    (∃ chunks last, Starts bytes chunks last) ↔ ∃ byte ∈ bytes, byte.toNat < 128 := by
  constructor
  · rintro ⟨chunks, last, h⟩
    exact ⟨last, h.split.subset (List.mem_append_right _ (List.mem_singleton_self _)), h.terminated⟩
  · rintro ⟨byte, hmem, hbyte⟩
    induction bytes with
    | nil => cases hmem
    | cons first bytes ih =>
      by_cases hfirst : first.toNat < 128
      · exact ⟨[], first, .single hfirst⟩
      · rcases List.mem_cons.mp hmem with rfl | hmem
        · exact absurd hbyte hfirst
        · obtain ⟨chunks, last, h⟩ := ih hmem
          exact ⟨first :: chunks, last, h.cons (Nat.not_lt.mp hfirst)⟩

end Starts

variable {bytes chunks : Bytes} {last : UInt8} {value read n read' : ℕ}

theorem le_ofChunks (value : ℕ) (chunks : Bytes) : value ≤ ofChunks value chunks := by
  induction chunks generalizing value with
  | nil => exact le_rfl
  | cons chunk chunks ih => exact le_trans (by omega) (ih (value * 128 + chunk.toNat % 128))

/-- The number grows with every chunk, so what is too large before the last chunk stays so. -/
theorem le_of_ofChunks_lt (h : ofChunks value (chunks ++ [last]) < usizeLimit) :
    value ≤ (usizeLimit - 1) / 128 := by
  have hle : value * 128 ≤ ofChunks value (chunks ++ [last]) := by
    cases chunks with
    | nil => exact Nat.le_add_right _ _
    | cons chunk chunks => exact (Nat.le_add_right _ _).trans (le_ofChunks _ _)
  rw [Nat.le_div_iff_mul_le (by decide)]
  exact Nat.le_pred_of_lt (hle.trans_lt h)

/-- Behind a number that has been read, exactly the encodings of numbers that fit are read. -/
theorem readUsize_eq_ok_iff : readUsize bytes value read = .ok (n, read') ↔
    ∃ chunks last, Starts bytes chunks last ∧ n = ofChunks value (chunks ++ [last]) ∧
      n < usizeLimit ∧ read' = read + (chunks.length + 1) := by
  induction bytes generalizing value read with
  | nil =>
    simp only [readUsize, reduceCtorEq, false_iff, not_exists]
    rintro chunks last ⟨h, -⟩
    exact absurd h.split (by simp)
  | cons byte bytes ih =>
    rw [readUsize_cons_eq_ok, ih]
    constructor
    · rintro ⟨hvalue, ⟨hbyte, rfl, rfl⟩ | ⟨hbyte, chunks, last, h, rfl, hlt, rfl⟩⟩
      · refine ⟨[], byte, .single hbyte, ?_, ?_, rfl⟩
        · simp [ofChunks, Nat.mod_eq_of_lt hbyte]
        · change value ≤ (2 ^ 64 - 1) / 128 at hvalue
          change value * 128 + byte.toNat < 2 ^ 64
          omega
      · refine ⟨byte :: chunks, last, h.cons hbyte, rfl, hlt, ?_⟩
        rw [List.length_cons]
        omega
    · rintro ⟨chunks, last, h, rfl, hlt, rfl⟩
      refine ⟨le_of_ofChunks_lt hlt, ?_⟩
      obtain ⟨hbyte, rfl, rfl⟩ | ⟨hbyte, rest, rfl, hrest⟩ := h.cases
      · exact .inl ⟨hbyte, by simp [ofChunks, Nat.mod_eq_of_lt hbyte], rfl⟩
      · refine .inr ⟨hbyte, rest, last, hrest, rfl, hlt, ?_⟩
        rw [List.length_cons]
        omega

end MerkleDeserializer

open MerkleDeserializer MerkleSerializer

theorem loadUsize_eq_ok_iff {d d' : MerkleDeserializer} {n : ℕ} : loadUsize d = (.ok n, d') ↔
    ∃ chunks last, Starts d.rest chunks last ∧ n = ofChunks 0 (chunks ++ [last]) ∧
      n < usizeLimit ∧ d' = d.advance (chunks.length + 1) := by
  rw [loadUsize_eq]
  constructor
  · intro h
    cases hread : readUsize d.rest 0 0 with
    | error e => simp [hread] at h
    | ok pair =>
      obtain ⟨value, read⟩ := pair
      obtain ⟨chunks, last, hstarts, rfl, hlt, rfl⟩ := readUsize_eq_ok_iff.mp hread
      simp only [hread, Prod.mk.injEq, Except.ok.injEq, zero_add] at h
      exact ⟨chunks, last, hstarts, h.1.symm, h.1 ▸ hlt, h.2.symm⟩
  · rintro ⟨chunks, last, hstarts, rfl, hlt, rfl⟩
    rw [readUsize_eq_ok_iff.mpr ⟨chunks, last, hstarts, rfl, hlt, (zero_add _).symm⟩]

/-- What is not read has no encoding at its start or that of a number that does not fit. -/
theorem loadUsize_eq_error_iff {d : MerkleDeserializer} :
    (∃ e d', loadUsize d = (.error e, d')) ↔ (∀ byte ∈ d.rest, 128 ≤ byte.toNat) ∨
      ∃ chunks last, Starts d.rest chunks last ∧ usizeLimit ≤ ofChunks 0 (chunks ++ [last]) := by
  constructor
  · rintro ⟨e, d', herror⟩
    by_cases hend : ∃ byte ∈ d.rest, byte.toNat < 128
    · obtain ⟨chunks, last, hstarts⟩ := Starts.exists_iff.mpr hend
      refine .inr ⟨chunks, last, hstarts, Nat.not_lt.mp fun hlt => ?_⟩
      have hok := loadUsize_eq_ok_iff.mpr ⟨chunks, last, hstarts, rfl, hlt, rfl⟩
      rw [herror] at hok
      cases hok
    · refine .inl fun byte hmem => Nat.not_lt.mp fun hlt => hend ⟨byte, hmem, hlt⟩
  · intro h
    cases hload : loadUsize d with
    | mk result d' =>
      cases result with
      | error e => exact ⟨e, d', rfl⟩
      | ok n =>
        obtain ⟨chunks, last, hstarts, rfl, hlt, -⟩ := loadUsize_eq_ok_iff.mp hload
        rcases h with hcontinued | ⟨chunks', last', hstarts', hle⟩
        · obtain ⟨byte, hmem, hbyte⟩ := Starts.exists_iff.mp ⟨chunks, last, hstarts⟩
          exact absurd (hcontinued byte hmem) (Nat.not_le.mpr hbyte)
        · obtain ⟨rfl, rfl⟩ := hstarts.unique hstarts'
          exact absurd hle (Nat.not_le.mpr hlt)

/-- The reader of a `usize` returns the number that the bytes stand for and stops behind them; it
fails exactly when the encoding does not end or the number does not fit. -/
theorem loadUsize_exact :
    (∀ (n : ℕ) (tail : Bytes) (d : MerkleDeserializer), n < usizeLimit →
      d.rest = (storeUsize n).buff ++ tail →
      loadUsize d = (.ok n, d.advance (storeUsize n).buff.length)) ∧
    (∀ d n d', loadUsize d = (.ok n, d') ↔ ∃ chunks last, Starts d.rest chunks last ∧
      n = ofChunks 0 (chunks ++ [last]) ∧ n < usizeLimit ∧ d' = d.advance (chunks.length + 1)) ∧
    ∀ d, (∃ e d', loadUsize d = (.error e, d')) ↔
      (∀ byte ∈ d.rest, 128 ≤ byte.toNat) ∨
      ∃ chunks last, Starts d.rest chunks last ∧ usizeLimit ≤ ofChunks 0 (chunks ++ [last]) := by
  refine ⟨fun n tail d hn hrest => ?_, fun d n d' => loadUsize_eq_ok_iff,
    fun d => loadUsize_eq_error_iff⟩
  rw [loadUsize_eq, hrest, readUsize_storeUsize hn]

end Kolme.Merkle
