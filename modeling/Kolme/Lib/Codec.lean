import Kolme.Lib.Bytes
import Mathlib.Data.Finset.Sort

/-!
# Length-prefixed binary codecs

A codec writes a value as bytes and reads it back from the front of a longer input. The round
trip is a field, so a codec that loses information cannot be built. The combinators cover the
layout in which integers are little-endian, sequences carry a four-byte length and enumerations
a one-byte tag.

## Main definitions

* `Codec`: a writer, a reader of prefixes, and their round trip.
* `Codec.decodeAll`: the reader that accepts only input it consumes completely.
-/

structure Codec (α : Type) where
  encode : α → Option Bytes
  decode : Bytes → Option (α × Bytes)
  decode_encode : ∀ a bs, encode a = some bs → ∀ rest, decode (bs ++ rest) = some (a, rest)

namespace Codec



variable {α β : Type}

/-- Read a value that takes up the whole input. -/
def decodeAll (c : Codec α) (bs : Bytes) : Option α :=
  match c.decode bs with
  | some (a, []) => some a
  | _ => none

theorem decodeAll_encode (c : Codec α) {a : α} {bs : Bytes} (h : c.encode a = some bs) :
    c.decodeAll bs = some a := by
  have hd := c.decode_encode a bs h []
  rw [List.append_nil] at hd
  simp [decodeAll, hd]

/-- Bytes left over after a value make the whole input unreadable. -/
theorem decodeAll_encode_append (c : Codec α) {a : α} {bs rest : Bytes}
    (h : c.encode a = some bs) (hrest : rest ≠ []) : c.decodeAll (bs ++ rest) = none := by
  obtain ⟨b, rest, rfl⟩ := List.exists_cons_of_ne_nil hrest
  simp [decodeAll, c.decode_encode a bs h]

/-- Two values with one encoding are equal. -/
theorem encode_injective (c : Codec α) {a a' : α} {bs : Bytes} (h : c.encode a = some bs)
    (h' : c.encode a' = some bs) : a = a' := by
  have e := c.decodeAll_encode h
  rw [c.decodeAll_encode h'] at e
  exact (Option.some.inj e).symm

/-! ## Numbers and fixed arrays -/

/-- Take exactly `k` bytes off the input. -/
def takeBytes (k : Nat) (bs : Bytes) : Option (Bytes × Bytes) :=
  if k ≤ bs.length then some (bs.take k, bs.drop k) else none

@[simp] theorem takeBytes_append {k : Nat} {bs rest : Bytes} (h : bs.length = k) :
    takeBytes k (bs ++ rest) = some (bs, rest) := by
  subst h
  simp [takeBytes]

/-- A little-endian integer of `k` bytes. -/
def uint (k : Nat) : Codec (Fin (256 ^ k)) where
  encode n := some (Bytes.toLE k n)
  decode bs := do
    let (b, rest) ← takeBytes k bs
    if h : Bytes.ofLE b < 256 ^ k then some (⟨Bytes.ofLE b, h⟩, rest) else none
  decode_encode := by
    rintro n _ ⟨⟩ rest
    simp [Bytes.ofLE_toLE n.isLt]

/-- An array of `k` bytes, read as a big-endian number. -/
def array (k : Nat) : Codec (Fin (256 ^ k)) where
  encode n := some (Bytes.toBE k n)
  decode bs := do
    let (b, rest) ← takeBytes k bs
    if h : Bytes.ofBE b < 256 ^ k then some (⟨Bytes.ofBE b, h⟩, rest) else none
  decode_encode := by
    rintro n _ ⟨⟩ rest
    simp [Bytes.ofBE_toBE n.isLt]

/-- A single byte. -/
def byte : Codec UInt8 where
  encode b := some [b]
  decode
    | [] => none
    | b :: rest => some (b, rest)
  decode_encode := by
    rintro b _ ⟨⟩ rest
    rfl

@[simp] theorem encode_uint (k : Nat) (n : Fin (256 ^ k)) :
    (uint k).encode n = some (Bytes.toLE k n) := rfl

@[simp] theorem encode_array (k : Nat) (n : Fin (256 ^ k)) :
    (array k).encode n = some (Bytes.toBE k n) := rfl

/-! ## Products, translations and enumerations -/

/-- The empty value, written as no bytes. -/
def unit : Codec Unit where
  encode _ := some []
  decode bs := some ((), bs)
  decode_encode := by
    rintro _ _ ⟨⟩ rest
    rfl

/-- One value after another. -/
def pair (c : Codec α) (d : Codec β) : Codec (α × β) where
  encode p := do
    let x ← c.encode p.1
    let y ← d.encode p.2
    some (x ++ y)
  decode bs := do
    let (a, rest) ← c.decode bs
    let (b, rest) ← d.decode rest
    some ((a, b), rest)
  decode_encode := by
    rintro ⟨a, b⟩ bs h rest
    simp only [Option.bind_eq_bind, Option.bind_eq_some_iff, Option.some.injEq] at h
    obtain ⟨x, hx, y, hy, rfl⟩ := h
    simp [List.append_assoc, c.decode_encode a x hx, d.decode_encode b y hy]

theorem encode_pair {c : Codec α} {d : Codec β} {p : α × β} {bs : Bytes} :
    (pair c d).encode p = some bs ↔
      ∃ x, c.encode p.1 = some x ∧ ∃ y, d.encode p.2 = some y ∧ x ++ y = bs := by
  simp [pair, Option.bind_eq_some_iff]

/-- Read a value of one type as a value of another; the reader may refuse. -/
def xmap (c : Codec α) (read : α → Option β) (write : β → α)
    (read_write : ∀ b, read (write b) = some b) : Codec β where
  encode b := c.encode (write b)
  decode bs := do
    let (a, rest) ← c.decode bs
    let b ← read a
    some (b, rest)
  decode_encode := by
    intro b bs h rest
    simp [c.decode_encode (write b) bs h, read_write]

/-- One of `n` cases: a tag byte and then the case's own value. -/
def enum (n : Nat) (hn : n ≤ 256) {F : Fin n → Type} (c : ∀ i, Codec (F i)) :
    Codec (Σ i, F i) where
  encode v := do
    let bs ← (c v.1).encode v.2
    some (UInt8.ofNat v.1 :: bs)
  decode
    | [] => none
    | t :: bs =>
      if h : t.toNat < n then do
        let (v, rest) ← (c ⟨t.toNat, h⟩).decode bs
        some (⟨⟨t.toNat, h⟩, v⟩, rest)
      else none
  decode_encode := by
    rintro ⟨i, v⟩ bs h rest
    simp only [Option.bind_eq_bind, Option.bind_eq_some_iff, Option.some.injEq] at h
    obtain ⟨x, hx, rfl⟩ := h
    have ht : (UInt8.ofNat i).toNat = i := by
      have hi := i.isLt
      rw [UInt8.toNat_ofNat']
      omega
    have hlt : (UInt8.ofNat i).toNat < n := by rw [ht]; exact i.isLt
    have hi : (⟨(UInt8.ofNat i).toNat, hlt⟩ : Fin n) = i := Fin.ext ht
    simp only [List.cons_append, hlt, dif_pos]
    rw [hi]
    simp [(c i).decode_encode v x hx]

/-! ## Sequences -/

/-- The bytes of `as`, one value after another. -/
def encodeMany (c : Codec α) : List α → Option Bytes
  | [] => some []
  | a :: as => do
    let x ← c.encode a
    let y ← encodeMany c as
    some (x ++ y)

/-- Read `n` values. -/
def decodeMany (c : Codec α) : Nat → Bytes → Option (List α × Bytes)
  | 0, bs => some ([], bs)
  | n + 1, bs => do
    let (a, rest) ← c.decode bs
    let (as, rest) ← decodeMany c n rest
    some (a :: as, rest)

theorem decodeMany_encodeMany (c : Codec α) {as : List α} {bs : Bytes}
    (h : c.encodeMany as = some bs) (rest : Bytes) :
    c.decodeMany as.length (bs ++ rest) = some (as, rest) := by
  induction as generalizing bs with
  | nil =>
    obtain rfl : [] = bs := by simpa [encodeMany] using h
    rfl
  | cons a as ih =>
    simp only [encodeMany, Option.bind_eq_bind, Option.bind_eq_some_iff, Option.some.injEq] at h
    obtain ⟨x, hx, y, hy, rfl⟩ := h
    simp [decodeMany, List.append_assoc, c.decode_encode a x hx, ih hy]

/-- A sequence: its length in four bytes, then its elements. -/
def list (c : Codec α) : Codec (List α) where
  encode as :=
    if as.length < 256 ^ 4 then do
      let bs ← c.encodeMany as
      some (Bytes.toLE 4 as.length ++ bs)
    else none
  decode bs := do
    let (n, rest) ← (uint 4).decode bs
    c.decodeMany n rest
  decode_encode := by
    intro as bs h rest
    rw [Option.ite_none_right_eq_some] at h
    obtain ⟨hlen, h⟩ := h
    simp only [Option.bind_eq_bind, Option.bind_eq_some_iff, Option.some.injEq] at h
    obtain ⟨x, hx, rfl⟩ := h
    have hn := (uint 4).decode_encode ⟨as.length, hlen⟩ _ rfl (x ++ rest)
    simp [List.append_assoc, hn, c.decodeMany_encodeMany hx]

/-- A finite set, written as the sequence of its elements in order. -/
def finset [LinearOrder α] (c : Codec α) : Codec (Finset α) :=
  (list c).xmap (fun as => some as.toFinset) (fun s => s.sort (· ≤ ·)) (by simp)

/-- An optional value: a tag byte, then the value if there is one. -/
def option (c : Codec α) : Codec (Option α) where
  encode
    | none => some [0]
    | some a => do
      let x ← c.encode a
      some (1 :: x)
  decode
    | [] => none
    | t :: bs =>
      if t = 0 then some (none, bs)
      else if t = 1 then do
        let (a, rest) ← c.decode bs
        some (some a, rest)
      else none
  decode_encode := by
    rintro (_ | a) bs h rest
    · obtain rfl : [0] = bs := by simpa using h
      simp
    · simp only [Option.bind_eq_bind, Option.bind_eq_some_iff, Option.some.injEq] at h
      obtain ⟨x, hx, rfl⟩ := h
      simp [c.decode_encode a x hx]

/-- A truth value, as the byte `0` or `1`. -/
def bool : Codec Bool :=
  byte.xmap (fun b => if b = 0 then some false else if b = 1 then some true else none)
    (fun b => if b then 1 else 0) (by decide)

/-- A text: the sequence of its UTF-8 bytes. -/
def string : Codec String :=
  (list byte).xmap (fun bs => String.fromUTF8? ⟨bs.toArray⟩) (fun s => s.toByteArray.data.toList)
    (by
      intro s
      simp [String.fromUTF8?, s.isValidUTF8, String.fromUTF8])

/-! ## Fixed sizes -/

/-- Every value of the type takes `k` bytes. -/
def Fixed (c : Codec α) (k : Nat) : Prop :=
  ∀ a, ∃ bs, c.encode a = some bs ∧ bs.length = k

theorem uint_fixed (k : Nat) : (uint k).Fixed k :=
  fun n => ⟨Bytes.toLE k n, rfl, by simp⟩

theorem array_fixed (k : Nat) : (array k).Fixed k :=
  fun n => ⟨Bytes.toBE k n, rfl, by simp⟩

namespace Fixed

variable {c : Codec α} {k : Nat}

theorem length (h : c.Fixed k) {a : α} {bs : Bytes} (e : c.encode a = some bs) :
    bs.length = k := by
  obtain ⟨bs', e', hlen⟩ := h a
  rw [e] at e'
  rw [Option.some.inj e', hlen]

theorem length_encodeMany (h : c.Fixed k) {as : List α} {bs : Bytes}
    (e : c.encodeMany as = some bs) : bs.length = k * as.length := by
  induction as generalizing bs with
  | nil =>
    obtain rfl : [] = bs := by simpa [encodeMany] using e
    rfl
  | cons a as ih =>
    simp only [encodeMany, Option.bind_eq_bind, Option.bind_eq_some_iff, Option.some.injEq] at e
    obtain ⟨x, hx, y, hy, rfl⟩ := e
    rw [List.length_append, h.length hx, ih hy, List.length_cons, Nat.mul_succ, Nat.add_comm]

theorem exists_encodeMany (h : c.Fixed k) (as : List α) : ∃ bs, c.encodeMany as = some bs := by
  induction as with
  | nil => exact ⟨[], rfl⟩
  | cons a as ih =>
    obtain ⟨x, hx, -⟩ := h a
    obtain ⟨y, hy⟩ := ih
    exact ⟨x ++ y, by simp [encodeMany, hx, hy]⟩

theorem length_list (h : c.Fixed k) {as : List α} {bs : Bytes}
    (e : (list c).encode as = some bs) : bs.length = 4 + k * as.length := by
  simp only [list] at e
  rw [Option.ite_none_right_eq_some] at e
  obtain ⟨-, e⟩ := e
  simp only [Option.bind_eq_bind, Option.bind_eq_some_iff, Option.some.injEq] at e
  obtain ⟨x, hx, rfl⟩ := e
  rw [List.length_append, Bytes.length_toLE, h.length_encodeMany hx]

theorem length_finset [LinearOrder α] (h : c.Fixed k) {s : Finset α} {bs : Bytes}
    (e : (finset c).encode s = some bs) : bs.length = 4 + k * s.card := by
  rw [h.length_list e, Finset.length_sort]

theorem exists_list (h : c.Fixed k) {as : List α} (has : as.length < 256 ^ 4) :
    ∃ bs, (list c).encode as = some bs := by
  obtain ⟨bs, hbs⟩ := h.exists_encodeMany as
  exact ⟨Bytes.toLE 4 as.length ++ bs, by simp only [list, if_pos has, hbs]; rfl⟩

theorem exists_finset [LinearOrder α] (h : c.Fixed k) {s : Finset α} (hs : s.card < 256 ^ 4) :
    ∃ bs, (finset c).encode s = some bs :=
  h.exists_list (by rwa [Finset.length_sort])

end Fixed

theorem byte_fixed : byte.Fixed 1 := fun b => ⟨[b], rfl, rfl⟩

theorem encodeMany_byte (bs : Bytes) : byte.encodeMany bs = some bs := by
  induction bs with
  | nil => rfl
  | cons b bs ih =>
    rw [encodeMany, ih]
    rfl

/-- A text is written as its length and its bytes. -/
theorem encode_string_of {s : String} (hs : s.toByteArray.data.toList.length < 256 ^ 4) :
    string.encode s = some (Bytes.toLE 4 s.toByteArray.data.toList.length ++
      s.toByteArray.data.toList) := by
  change (list byte).encode _ = _
  simp only [list, if_pos hs, encodeMany_byte]
  rfl

theorem exists_string {s : String} (hs : s.utf8ByteSize < 256 ^ 4) :
    ∃ bs, string.encode s = some bs :=
  byte_fixed.exists_list hs

end Codec
