import Kolme.Merkle.Contents

/-!
# Serializing values

A value is written as bytes, with the contents of the values that it refers to by hash next to them.
What a program writes is the concatenation of what its steps write.
-/

namespace Kolme.Merkle

/-- What a program has serialized. -/
@[ext] structure MerkleSerializer where
  buff : Bytes
  children : List MerkleContents

namespace MerkleSerializer

def new : MerkleSerializer := ⟨[], []⟩

/-- One output after another. -/
instance : Append MerkleSerializer := ⟨fun a b => ⟨a.buff ++ b.buff, a.children ++ b.children⟩⟩

def storeByte (byte : UInt8) : MerkleSerializer := ⟨[byte], []⟩

/-- Store raw bytes without any length encoding. -/
def storeRawBytes (bytes : Bytes) : MerkleSerializer := ⟨bytes, []⟩

/-- Finish generating the output. -/
def finish (self : MerkleSerializer) : MerkleContents := .mk self.buff self.children

/-- The chunks of seven bits above the lowest one, highest first, with the continuation bit. -/
def highChunks : (room : ℕ) → (value : ℕ) → Bytes
  | 0, _ => []
  | room + 1, value =>
    if value = 0 then []
    else highChunks room (value / 128) ++ [UInt8.ofNat (128 + value % 128)]

/-- Variable-length encoding of a `usize`, which has ten chunks at most. -/
def storeUsize (value : ℕ) : MerkleSerializer :=
  storeRawBytes (highChunks 9 (value / 128) ++ [UInt8.ofNat (value % 128)])

/-- Store the size of the buffer followed by the bytes. -/
def storeSlice (bytes : Bytes) : MerkleSerializer :=
  storeUsize bytes.length ++ storeRawBytes bytes

def storeHash (hash : Sha256Hash) : MerkleSerializer := storeRawBytes (Bytes.toBE 32 hash.val)

/-- Store the hash of a value that is serialized on its own. -/
def storeByHash [Sha256] (child : MerkleSerializer) : MerkleSerializer :=
  ⟨(storeHash child.finish.hash).buff, [child.finish]⟩

/-- One output after another, for a list of values. -/
def storeAll {α : Type} (store : α → MerkleSerializer) : List α → MerkleSerializer
  | [] => new
  | a :: as => store a ++ storeAll store as

/-! ## Concatenation -/

variable (a b c : MerkleSerializer)

@[simp] theorem buff_append : (a ++ b).buff = a.buff ++ b.buff := rfl

@[simp] theorem children_append : (a ++ b).children = a.children ++ b.children := rfl

@[simp] theorem buff_new : new.buff = [] := rfl

@[simp] theorem children_new : new.children = [] := rfl

@[simp] theorem new_append : new ++ a = a := rfl

@[simp] theorem append_new : a ++ new = a := by ext1 <;> simp

theorem append_assoc : a ++ b ++ c = a ++ (b ++ c) := by ext1 <;> simp

end MerkleSerializer

/-! ## Values that can be serialized -/

/-- A type that can be serialized, without requiring a version number in its payload. -/
class MerkleSerializeRaw (α : Type) where
  merkleSerializeRaw : α → MerkleSerializer

/-- A type that is serialized with a version number. -/
class MerkleSerialize (α : Type) where
  merkleSerialize : α → MerkleSerializer
  /-- The version number of the serialized format. -/
  merkleVersion : ℕ := 0

/-- Store any value that can be serialized. -/
def MerkleSerializer.store {α : Type} [MerkleSerializeRaw α] (value : α) : MerkleSerializer :=
  MerkleSerializeRaw.merkleSerializeRaw value

instance {α : Type} [MerkleSerialize α] : MerkleSerializeRaw α where
  merkleSerializeRaw value :=
    .storeUsize (MerkleSerialize.merkleVersion α) ++ MerkleSerialize.merkleSerialize value

/-- Serialize a value into contents for later storage. -/
def serialize {α : Type} [MerkleSerializeRaw α] (value : α) : MerkleContents :=
  (MerkleSerializer.store value).finish

end Kolme.Merkle
