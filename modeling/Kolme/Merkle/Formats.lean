import Kolme.Core.Decimal
import Kolme.Lib.SortedMap
import Kolme.Merkle.RoundTrip
import Mathlib.Data.Finset.Sort

/-!
# Formats of the basic types

Integers are little-endian, texts are prefixed by their lengths, and collections by their numbers of
elements. Ids and heights are natural numbers here and 64 bits wide in the program.
-/

namespace Kolme.Merkle

open Exec MerkleDeserializer MerkleSerializer

/-- What other libraries read from bytes. -/
class ByteFormats where
  decimal : Bytes → Decimal
  publicKey : Bytes → Option PublicKey
  signature : Bytes → Option Signature

abbrev U32 := Fin (256 ^ 4)
abbrev U128 := Fin (256 ^ 16)

variable {α β : Type} [MerkleSerializeRaw α] [MerkleDeserializeRaw α] [MerkleSerializeRaw β]
  [MerkleDeserializeRaw β]

/-! ## Integers -/

def storeLE (len n : ℕ) : MerkleSerializer := storeRawBytes (Bytes.toLE len n)

def loadLE (len : ℕ) : Load ℕ := do
  let bytes ← loadRawBytes len
  return Bytes.ofLE bytes

instance : MerkleSerializeRaw UInt8 := ⟨storeByte⟩
instance : MerkleDeserializeRaw UInt8 := ⟨popByte⟩

instance : MerkleSerializeRaw U16 := ⟨fun n => storeLE 2 n⟩
instance : MerkleDeserializeRaw U16 := ⟨do return Fin.ofNat _ (← loadLE 2)⟩

instance : MerkleSerializeRaw U32 := ⟨fun n => storeLE 4 n⟩
instance : MerkleDeserializeRaw U32 := ⟨do return Fin.ofNat _ (← loadLE 4)⟩

instance : MerkleSerializeRaw U64 := ⟨fun n => storeLE 8 n⟩
instance : MerkleDeserializeRaw U64 := ⟨do return Fin.ofNat _ (← loadLE 8)⟩

instance : MerkleSerializeRaw U128 := ⟨fun n => storeLE 16 n⟩
instance : MerkleDeserializeRaw U128 := ⟨do return Fin.ofNat _ (← loadLE 16)⟩

/-- Ids and heights. -/
instance : MerkleSerializeRaw ℕ := ⟨storeLE 8⟩
instance : MerkleDeserializeRaw ℕ := ⟨loadLE 8⟩

instance : MerkleSerializeRaw Bool := ⟨fun b => storeByte (if b then 1 else 0)⟩
instance : MerkleDeserializeRaw Bool := ⟨do return (← popByte) = 1⟩

/-! ## Texts, hashes, decimals, keys and signatures -/

def utf8 (text : String) : Bytes := text.toByteArray.data.toList

def fromUtf8 (bytes : Bytes) : Except MerkleSerialError String :=
  Except.fromOption (.custom "invalid utf-8") (String.fromUTF8? ⟨bytes.toArray⟩)

instance : MerkleSerializeRaw String := ⟨fun text => storeSlice (utf8 text)⟩
instance : MerkleDeserializeRaw String := ⟨do lift (fromUtf8 (← loadBytes))⟩

instance : MerkleSerializeRaw Sha256Hash := ⟨storeHash⟩
instance : MerkleDeserializeRaw Sha256Hash := ⟨loadHash⟩

/-- The flags, with the scale and the sign, and then the integer. -/
def decimalBytes (d : Decimal) : Bytes :=
  Bytes.toLE 4 (d.scale * 2 ^ 16 + if d.negative then 2 ^ 31 else 0) ++ Bytes.toLE 12 d.int

instance : MerkleSerializeRaw Decimal := ⟨fun d => storeRawBytes (decimalBytes d)⟩
instance [ByteFormats] : MerkleDeserializeRaw Decimal :=
  ⟨do return ByteFormats.decimal (← loadRawBytes 16)⟩

instance : MerkleSerializeRaw PublicKey := ⟨fun key => storeSlice (Bytes.toBE 33 key)⟩
instance [ByteFormats] : MerkleDeserializeRaw PublicKey :=
  ⟨do fromOption (.custom "public key") (ByteFormats.publicKey (← loadBytes))⟩

instance : MerkleSerializeRaw Signature := ⟨fun sig => storeSlice (Bytes.toBE 64 sig)⟩
instance [ByteFormats] : MerkleDeserializeRaw Signature :=
  ⟨do fromOption (.custom "signature") (ByteFormats.signature (← loadBytes))⟩

def loadRecoveryId : Load UInt8 := do
  let byte ← popByte
  ensure (byte.toNat < 4) (.custom "recovery id")
  return byte

instance : MerkleSerializeRaw SignatureWithRecovery := ⟨fun sig => storeByte sig.recid ++ store sig.sig⟩
instance [ByteFormats] : MerkleDeserializeRaw SignatureWithRecovery :=
  ⟨do
    let recid ← loadRecoveryId
    let sig ← load
    return { recid, sig }⟩

/-! ## Collections -/

instance : MerkleSerializeRaw (Option α) where
  merkleSerializeRaw
    | some a => storeByte 1 ++ store a
    | none => storeByte 0

instance : MerkleDeserializeRaw (Option α) where
  merkleDeserializeRaw := do
    let byte ← popByte
    if byte = 0 then return none
    else if byte = 1 then return some (← load)
    else throw (.other ("When deserializing an Option, invalid byte " ++ toString byte.toNat))

instance : MerkleSerializeRaw (α × β) := ⟨fun pair => store pair.1 ++ store pair.2⟩
instance : MerkleDeserializeRaw (α × β) :=
  ⟨do
    let a ← load
    let b ← load
    return (a, b)⟩

/-- Vectors. -/
instance : MerkleSerializeRaw (List α) := ⟨fun as => storeUsize as.length ++ storeAll store as⟩
instance : MerkleDeserializeRaw (List α) :=
  ⟨do
    let len ← loadUsize
    withCapacity len
    loadMany load len⟩

variable [LinearOrder α]

omit [MerkleSerializeRaw α] [MerkleDeserializeRaw α] in
scoped instance isTrans_le : IsTrans α (· ≤ ·) := inferInstance

omit [MerkleSerializeRaw α] [MerkleDeserializeRaw α] in
scoped instance antisymm_le : Std.Antisymm fun a b : α => a ≤ b := inferInstance

instance : MerkleSerializeRaw (Finset α) :=
  ⟨fun s => storeUsize s.card ++ storeAll store (s.sort (· ≤ ·))⟩
instance : MerkleDeserializeRaw (Finset α) :=
  ⟨do
    let len ← loadUsize
    let as ← loadMany load len
    return as.toFinset⟩

instance : MerkleSerializeRaw (SortedMap α β) :=
  ⟨fun m => storeUsize m.toList.length ++ storeAll store m.toList⟩
instance : MerkleDeserializeRaw (SortedMap α β) :=
  ⟨do
    let len ← loadUsize
    let entries ← loadMany load len
    return SortedMap.ofList entries⟩

/-! ## The formats are read as they were written -/

section Lawful

variable [Sha256]

theorem Reads.loadLE {len n : ℕ} (hn : n < 256 ^ len) : Reads (loadLE len) (storeLE len n) n :=
  (Reads.loadRawBytes (Bytes.length_toLE len n)).map (by rw [Bytes.ofLE_toLE hn])

theorem Reads.loadFin {len : ℕ} [NeZero (256 ^ len)] (n : Fin (256 ^ len)) :
    Reads (do return Fin.ofNat (256 ^ len) (← Merkle.loadLE len)) (storeLE len n) n :=
  (Reads.loadLE n.isLt).map (by rw [Fin.ofNat_val_eq_self])

instance : LawfulMerkle UInt8 := ⟨fun _ => True, fun {byte} _ => .popByte byte⟩
instance : LawfulMerkle U16 := ⟨fun _ => True, fun {n} _ => .loadFin n⟩
instance : LawfulMerkle U32 := ⟨fun _ => True, fun {n} _ => .loadFin n⟩
instance : LawfulMerkle U64 := ⟨fun _ => True, fun {n} _ => .loadFin n⟩
instance : LawfulMerkle U128 := ⟨fun _ => True, fun {n} _ => .loadFin n⟩
instance : LawfulMerkle ℕ := ⟨fun n => n < usizeLimit, fun h => .loadLE h⟩

instance : LawfulMerkle Bool where
  Fits _ := True
  reads {b} _ := (Reads.popByte _).map (by cases b <;> rfl)

instance : LawfulMerkle String where
  Fits _ := True
  reads {text} _ := (Reads.loadBytes (utf8 text)).map (by
    simp [fromUtf8, utf8, String.fromUTF8?, text.isValidUTF8, String.fromUTF8]
    rfl)

instance : LawfulMerkle Sha256Hash := ⟨fun _ => True, fun {hash} _ => .loadHash hash⟩

section

variable [ByteFormats]

instance : LawfulMerkle Decimal where
  Fits d := ByteFormats.decimal (decimalBytes d) = d
  reads {d} hfits := (Reads.loadRawBytes (by simp [decimalBytes])).map (by rw [hfits])

instance : LawfulMerkle PublicKey where
  Fits key := ByteFormats.publicKey (Bytes.toBE 33 key) = some key
  reads hfits := (Reads.loadBytes _).map (by rw [hfits]; rfl)

instance : LawfulMerkle Signature where
  Fits sig := ByteFormats.signature (Bytes.toBE 64 sig) = some sig
  reads hfits := (Reads.loadBytes _).map (by rw [hfits]; rfl)

omit [ByteFormats] in
theorem Reads.loadRecoveryId {byte : UInt8} (hfits : byte.toNat < 4) :
    Reads loadRecoveryId (storeByte byte) byte :=
  (Reads.popByte byte).map (by simp only [ensure, Except.ensure_of hfits]; rfl)

instance : LawfulMerkle SignatureWithRecovery where
  Fits sig := sig.recid.toNat < 4 ∧ Fits sig.sig
  reads hfits := (Reads.loadRecoveryId hfits.1).bind ((LawfulMerkle.reads hfits.2).map rfl)

end

variable {α β : Type} [MerkleSerializeRaw α] [MerkleDeserializeRaw α] [LawfulMerkle α]
  [MerkleSerializeRaw β] [MerkleDeserializeRaw β] [LawfulMerkle β]

instance : LawfulMerkle (Option α) where
  Fits o := ∀ a, o = some a → Fits a
  reads {o} hfits := by
    cases o with
    | none => exact (Reads.popByte 0).map rfl
    | some a => exact (Reads.popByte 1).bind ((LawfulMerkle.reads (hfits a rfl)).map rfl)

instance : LawfulMerkle (α × β) where
  Fits pair := Fits pair.1 ∧ Fits pair.2
  reads hfits := (LawfulMerkle.reads hfits.1).bind ((LawfulMerkle.reads hfits.2).map rfl)

theorem Reads.loadMany_store {as : List α} (hfits : ∀ a ∈ as, Fits a) :
    Reads (MerkleDeserializer.loadMany load as.length) (storeAll store as) as :=
  .loadMany fun a ha => LawfulMerkle.reads (hfits a ha)

instance : LawfulMerkle (List α) where
  Fits as := as.length < memoryLimit ∧ ∀ a ∈ as, Fits a
  reads hfits := (Reads.loadUsize (hfits.1.trans (by decide))).bind
    ((Reads.withCapacity hfits.1).bind (.loadMany_store hfits.2))

variable [LinearOrder α]

instance : LawfulMerkle (Finset α) where
  Fits s := s.card < usizeLimit ∧ ∀ a ∈ s, Fits a
  reads {s} hfits := by
    have hmany : Reads (loadMany load s.card) (storeAll store (s.sort (· ≤ ·))) (s.sort (· ≤ ·)) := by
      have hall : ∀ a ∈ s.sort (· ≤ ·), Fits a := fun a ha => hfits.2 a ((Finset.mem_sort _).mp ha)
      have hlist := Reads.loadMany_store hall
      rwa [Finset.length_sort] at hlist
    have hset : Reads (do return (← loadMany load s.card).toFinset) _ s :=
      hmany.map (by rw [Finset.sort_toFinset])
    exact (Reads.loadUsize hfits.1).bind hset

instance : LawfulMerkle (SortedMap α β) where
  Fits m := m.toList.length < usizeLimit ∧ ∀ entry ∈ m.toList, Fits entry
  reads {m} hfits := by
    have hentries : Reads (do return SortedMap.ofList (← loadMany load m.toList.length)) _ m :=
      (Reads.loadMany_store hfits.2).map (by rw [SortedMap.ofList_toList])
    exact (Reads.loadUsize hfits.1).bind hentries

end Lawful

end Kolme.Merkle
