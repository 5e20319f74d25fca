import Kolme.Lib.Exec
import Kolme.Merkle.Serializer

/-!
# Deserializing values

A value is read from the payload of some contents, from a position on. Values that are referred to
by hash are read from the children of the contents.

Two things are panics: an index that does not fit a `usize`, and a vector that does not fit the
memory.
-/

namespace Kolme.Merkle

/-- The contents that are read, and the position in them. The requests record which buffers were
asked for, each with the number of bytes that were left; the program does not have them. -/
structure MerkleDeserializer where
  contents : MerkleContents
  pos : ℕ
  requests : List (ℕ × ℕ)

/-- A program that reads a value. -/
abbrev Load (α : Type) := Exec MerkleSerialError MerkleDeserializer α

/-- One more than the greatest `usize`. -/
abbrev usizeLimit : ℕ := 2 ^ 64

/-- One more than the greatest size of an allocation. -/
abbrev memoryLimit : ℕ := 2 ^ 63

namespace MerkleDeserializer

open Exec

def new (contents : MerkleContents) : MerkleDeserializer := ⟨contents, 0, []⟩

/-- The bytes that are not consumed yet. -/
def rest (self : MerkleDeserializer) : Bytes := self.contents.payload.drop self.pos

def advance (len : ℕ) (self : MerkleDeserializer) : MerkleDeserializer :=
  { self with pos := self.pos + len }

/-- Look at the next byte without consuming it. -/
def peekByte : Load UInt8 := do
  let self ← get
  fromOption .insufficientInput self.rest.head?

/-- Get the next byte. -/
def popByte : Load UInt8 := do
  let byte ← peekByte
  modify (advance 1)
  return byte

/-- Load up the given number of bytes. -/
def loadRawBytes (len : ℕ) : Load Bytes := do
  let self ← get
  ensure (self.pos + len < usizeLimit) .panic
  ensure (self.pos + len ≤ self.contents.payload.length) .insufficientInput
  modify (advance len)
  return self.rest.take len

/-- Finish processing, ensuring that all input was consumed. -/
def finish : Load Unit := do
  let self ← get
  ensure (self.contents.payload.length = self.pos) .tooMuchInput

/-- The value that a variable-length encoding stands for and the number of its bytes, when some
bytes have been read already. -/
def readUsize : Bytes → (value read : ℕ) → Except MerkleSerialError (ℕ × ℕ)
  | [], _, _ => .error .insufficientInput
  | byte :: bytes, value, read =>
    if (usizeLimit - 1) / 128 < value then .error .usizeOverflow
    else
      let value := value * 128 + byte.toNat % 128
      -- If there is no continuation bit, this was the last byte.
      if byte.toNat < 128 then .ok (value, read + 1) else readUsize bytes value (read + 1)

def loadUsize : Load ℕ := do
  let self ← get
  let (value, read) ← lift (readUsize self.rest 0 0)
  modify (advance read)
  return value

/-- Get the bytes stored by `storeSlice`. -/
def loadBytes : Load Bytes := do
  let len ← loadUsize
  loadRawBytes len

def loadHash : Load Sha256Hash := do
  let bytes ← loadRawBytes 32
  return Fin.ofNat _ (Bytes.ofBE bytes)

/-- Ask for a vector with room for a number of elements. -/
def withCapacity (len : ℕ) : Load Unit := do
  ensure (len < memoryLimit) .panic
  modify fun self => { self with requests := self.requests ++ [(len, self.rest.length)] }

/-- Ignore the remaining data, not generating an error on unconsumed input. -/
def ignoreRemaining : Load Unit :=
  modify fun self => { self with pos := self.contents.payload.length }

/-- Read a value that takes up the whole payload. -/
def loadWhole {α : Type} (load : Load α) : Load α := do
  let value ← load
  finish
  return value

/-- Read a value from other contents. -/
def loadChild {α : Type} (load : Load α) (child : MerkleContents) : Load α :=
  zoom (fun self => ⟨child, 0, self.requests⟩) (fun self d => { self with requests := d.requests })
    (loadWhole load)

/-- Load a value from the first child with a hash. -/
def loadByGivenHash [Sha256] {α : Type} (load : Load α) (hash : Sha256Hash) : Load α := do
  let self ← get
  match self.contents.children.find? (·.hash = hash) with
  | none => throw (.hashesNotFound {hash})
  | some child => loadChild load child

/-- A value for each of a number of elements. -/
def loadMany {α : Type} (load : Load α) : ℕ → Load (List α)
  | 0 => pure []
  | len + 1 => do
    let a ← load
    let as ← loadMany load len
    return a :: as

end MerkleDeserializer

open MerkleDeserializer

/-! ## Values that can be deserialized -/

class MerkleDeserializeRaw (α : Type) where
  merkleDeserializeRaw : Load α

/-- A type that is deserialized with a version number, which is never greater than that of the
type. -/
class MerkleDeserialize (α : Type) where
  merkleDeserialize : (version : ℕ) → Load α

/-- Load any value that can be deserialized. -/
def load {α : Type} [MerkleDeserializeRaw α] : Load α := MerkleDeserializeRaw.merkleDeserializeRaw

instance {α : Type} [MerkleSerialize α] [MerkleDeserialize α] : MerkleDeserializeRaw α where
  merkleDeserializeRaw := do
    let version ← loadUsize
    let highestSupported := MerkleSerialize.merkleVersion α
    if version > highestSupported then
      let self ← Exec.get
      Exec.throw (.unexpectedVersion highestSupported version self.pos)
    else MerkleDeserialize.merkleDeserialize version

/-- Deserialize a value from contents. -/
def deserialize {α : Type} [MerkleDeserializeRaw α] (contents : MerkleContents) :
    Except MerkleSerialError α :=
  (loadWhole load (.new contents)).1

end Kolme.Merkle
