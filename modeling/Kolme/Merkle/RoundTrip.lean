import Kolme.Merkle.Deserializer

/-!
# Reading what was written

A program reads an output if it turns the bytes of the output into the value, wherever they are and
whatever follows them, and stops right behind them. Programs that read outputs one after another
read their concatenation.
-/

namespace Kolme.Merkle

open Exec MerkleDeserializer MerkleSerializer

variable [Sha256] {α β : Type}

/-- Every layer fits the memory, and its children are told apart by their hashes. -/
def MerkleContents.Readable (contents : MerkleContents) : Prop :=
  ∀ within, Within within contents → within.payload.length < usizeLimit ∧
    ∀ child ∈ within.children, within.children.find? (·.hash = child.hash) = some child

/-- The deserializer is in front of an output: its bytes come next, and the contents it refers to
are what is found under their hashes. -/
structure MerkleDeserializer.At (d : MerkleDeserializer) (out : MerkleSerializer) : Prop where
  small : d.contents.payload.length < usizeLimit
  inside : d.pos ≤ d.contents.payload.length
  bytes : out.buff <+: d.rest
  children : ∀ child ∈ out.children,
    d.contents.children.find? (·.hash = child.hash) = some child ∧ child.Readable

/-- The program reads the output as the value and stops right behind it. -/
def Reads (x : Load α) (out : MerkleSerializer) (a : α) : Prop :=
  ∀ d, d.At out → ∃ requests, x d = (.ok a, { d.advance out.buff.length with requests })

variable {x : Load α} {f : α → Load β} {out out' : MerkleSerializer} {a : α} {b : β}
  {d : MerkleDeserializer}

namespace MerkleDeserializer.At

theorem length_le (hat : d.At out) : d.pos + out.buff.length ≤ d.contents.payload.length := by
  have hle := hat.bytes.length_le
  rw [rest, List.length_drop] at hle
  have hinside := hat.inside
  omega

theorem left (hat : d.At (out ++ out')) : d.At out where
  small := hat.small
  inside := hat.inside
  bytes := (List.prefix_append _ _).trans hat.bytes
  children child hchild := hat.children child (List.mem_append_left _ hchild)

theorem right (hat : d.At (out ++ out')) (requests : List (ℕ × ℕ)) :
    At { d.advance out.buff.length with requests } out' where
  small := hat.small
  inside := hat.left.length_le
  bytes := by
    obtain ⟨tail, htail⟩ := hat.bytes
    rw [buff_append, List.append_assoc] at htail
    refine ⟨tail, ?_⟩
    simp only [rest, advance, ← List.drop_drop]
    have hdrop : (out.buff ++ (out'.buff ++ tail)).drop out.buff.length = out'.buff ++ tail :=
      List.drop_left
    exact hdrop.symm.trans (congrArg _ htail)
  children child hchild := hat.children child (List.mem_append_right _ hchild)

end MerkleDeserializer.At

namespace Reads

theorem pure (a : α) : Reads (Pure.pure a) new a := fun d _ => ⟨d.requests, rfl⟩

theorem bind (hx : Reads x out a) (hf : Reads (f a) out' b) :
    Reads (x >>= f) (out ++ out') b := by
  intro d hat
  obtain ⟨requests, hrun⟩ := hx d hat.left
  obtain ⟨requests', hrun'⟩ := hf _ (hat.right requests)
  refine ⟨requests', ?_⟩
  rw [bind_of_ok hrun, hrun', buff_append, List.length_append]
  simp only [advance, Nat.add_assoc]

/-- What is computed from the value that was read. -/
theorem map (hx : Reads x out a) (hf : f a = Pure.pure b) : Reads (x >>= f) out b := by
  have hpure : Reads (f a) new b := hf ▸ pure b
  have h := hx.bind hpure
  rwa [append_new] at h

theorem assoc {out'' : MerkleSerializer} (hx : Reads x (out ++ (out' ++ out'')) a) :
    Reads x (out ++ out' ++ out'') a := by
  rwa [append_assoc]

theorem of_eq {b : α} (hx : Reads x out a) (h : a = b) : Reads x out b := h ▸ hx

/-! ## Bytes -/

theorem popByte (byte : UInt8) : Reads popByte (storeByte byte) byte := by
  intro d hat
  obtain ⟨tail, htail⟩ := hat.bytes
  refine ⟨d.requests, ?_⟩
  have hpeek : peekByte d = (.ok byte, d) := by
    rw [peekByte, get_bind, ← htail]
    rfl
  rw [MerkleDeserializer.popByte, bind_of_ok hpeek]
  rfl

theorem loadRawBytes {len : ℕ} {bytes : Bytes} (hlen : bytes.length = len) :
    Reads (loadRawBytes len) (storeRawBytes bytes) bytes := by
  subst hlen
  intro d hat
  refine ⟨d.requests, ?_⟩
  have hle : d.pos + bytes.length ≤ d.contents.payload.length := hat.length_le
  have hlt : d.pos + bytes.length < usizeLimit := hle.trans_lt hat.small
  have htake : d.rest.take bytes.length = bytes := by
    obtain ⟨tail, htail⟩ := hat.bytes
    rw [← htail]
    exact List.take_left
  rw [MerkleDeserializer.loadRawBytes, get_bind]
  simp only [ensure, Except.ensure_of hlt, Except.ensure_of hle]
  rw [htake]
  rfl

end Reads

/-! ## Lengths -/

omit [Sha256] in
theorem toNat_highChunk (value : ℕ) : (UInt8.ofNat (128 + value % 128)).toNat = 128 + value % 128 := by
  rw [UInt8.toNat_ofNat']
  omega

omit [Sha256] in
/-- The chunks above the lowest one are read to the value they stand for. -/
theorem readUsize_highChunks {room value : ℕ} (hroom : value < 128 ^ room)
    (hfits : value ≤ (usizeLimit - 1) / 128) (bytes : Bytes) (read : ℕ) :
    readUsize (highChunks room value ++ bytes) 0 read =
      readUsize bytes value (read + (highChunks room value).length) := by
  induction room generalizing value bytes read with
  | zero =>
    obtain rfl : value = 0 := by simpa using hroom
    rfl
  | succ room ih =>
    by_cases hvalue : value = 0
    · subst hvalue
      rfl
    · have hdiv : value / 128 < 128 ^ room := by
        rw [Nat.div_lt_iff_lt_mul (by decide)]
        exact hroom
      have hle : value / 128 ≤ (usizeLimit - 1) / 128 := (Nat.div_le_self _ _).trans hfits
      rw [highChunks, if_neg hvalue, List.append_assoc, ih hdiv hle, List.singleton_append,
        readUsize, if_neg (Nat.not_lt.mpr hle), toNat_highChunk, if_neg (by omega),
        List.length_append]
      congr 1
      · omega

omit [Sha256] in
theorem readUsize_storeUsize {value : ℕ} (hfits : value < usizeLimit) (bytes : Bytes) :
    readUsize ((storeUsize value).buff ++ bytes) 0 0 = .ok (value, (storeUsize value).buff.length) := by
  have hdiv : value / 128 ≤ (usizeLimit - 1) / 128 := Nat.div_le_div_right (by omega)
  have hroom : value / 128 < 128 ^ 9 := by
    rw [Nat.div_lt_iff_lt_mul (by decide)]
    exact hfits.trans (by decide)
  have hbyte : (UInt8.ofNat (value % 128)).toNat = value % 128 := by
    rw [UInt8.toNat_ofNat']
    omega
  rw [storeUsize, storeRawBytes, List.append_assoc, readUsize_highChunks hroom hdiv,
    List.singleton_append, readUsize, if_neg (Nat.not_lt.mpr hdiv), hbyte, if_pos (by omega),
    List.length_append]
  congr 2
  · omega
  · simp

theorem Reads.loadUsize {value : ℕ} (hfits : value < usizeLimit) :
    Reads loadUsize (storeUsize value) value := by
  intro d hat
  refine ⟨d.requests, ?_⟩
  obtain ⟨tail, htail⟩ := hat.bytes
  have hread := readUsize_storeUsize hfits tail
  rw [htail] at hread
  rw [MerkleDeserializer.loadUsize, get_bind, hread]
  rfl

/-- A length-prefixed string of bytes that is in the payload has a length that fits. -/
theorem Reads.loadBytes (bytes : Bytes) : Reads loadBytes (storeSlice bytes) bytes := by
  intro d hat
  have hlen : bytes.length < usizeLimit := by
    have hle := hat.length_le
    have hsmall := hat.small
    rw [storeSlice, buff_append, List.length_append] at hle
    exact (Nat.le_add_left _ _).trans_lt ((Nat.le_add_left _ _).trans_lt (hle.trans_lt hsmall))
  exact (Reads.loadUsize hlen).bind (Reads.loadRawBytes rfl) d hat

/-! ## Values one after another -/

theorem Reads.withCapacity {len : ℕ} (hlen : len < memoryLimit) :
    Reads (withCapacity len) new () := by
  intro d _
  refine ⟨d.requests ++ [(len, d.rest.length)], ?_⟩
  rw [MerkleDeserializer.withCapacity]
  simp only [ensure, Except.ensure_of hlen]
  rfl

theorem Reads.loadMany {store : α → MerkleSerializer} {as : List α}
    (h : ∀ a ∈ as, Reads x (store a) a) : Reads (loadMany x as.length) (storeAll store as) as := by
  induction as with
  | nil => exact .pure []
  | cons a as ih =>
    rw [List.forall_mem_cons] at h
    exact h.1.bind ((ih h.2).map rfl)

/-! ## Values with layers of their own -/

namespace MerkleContents.Readable

variable {contents below : MerkleContents}

theorem child (h : contents.Readable) (hbelow : below ∈ contents.children) : below.Readable :=
  fun within hwithin => h within (.child hbelow hwithin)

/-- Contents that are stored are readable, if their layers fit the memory. -/
theorem of_storedIn {store : MerkleStore} (stored : contents.StoredIn store)
    (small : ∀ within, MerkleContents.Within within contents →
      within.payload.length < usizeLimit) : contents.Readable := by
  intro within hwithin
  refine ⟨small within hwithin, fun child hchild => ?_⟩
  have hsome : (within.children.find? (·.hash = child.hash)).isSome := by
    rw [List.find?_isSome]
    exact ⟨child, hchild, by simp⟩
  obtain ⟨found, hfound⟩ := Option.isSome_iff_exists.mp hsome
  have hhash : found.hash = child.hash := by simpa using List.find?_some hfound
  have hstored := stored.within hwithin
  rw [hfound, (hstored.child (List.mem_of_find?_eq_some hfound)).eq_of_hash
    (hstored.child hchild) hhash]

/-- The whole of readable contents is read by what reads their output. -/
theorem loadWhole (readable : out.finish.Readable) (hx : Reads x out a)
    (requests : List (ℕ × ℕ)) :
    ∃ d, MerkleDeserializer.loadWhole x ⟨out.finish, 0, requests⟩ = (.ok a, d) := by
  have hself := readable _ (.refl _)
  obtain ⟨requests', hrun⟩ := hx ⟨out.finish, 0, requests⟩
    ⟨hself.1, Nat.zero_le _, List.prefix_refl _, fun child hchild =>
      ⟨hself.2 child hchild, readable.child hchild⟩⟩
  have hend : out.buff.length = 0 + out.buff.length := (Nat.zero_add _).symm
  have hfinish : finish ⟨out.finish, 0 + out.buff.length, requests'⟩ =
      (.ok (), ⟨out.finish, 0 + out.buff.length, requests'⟩) :=
    congrArg (·, _) (Except.ensure_of hend _)
  refine ⟨⟨out.finish, 0 + out.buff.length, requests'⟩, ?_⟩
  rw [MerkleDeserializer.loadWhole, bind_of_ok hrun]
  exact bind_of_ok hfinish

end MerkleContents.Readable

theorem Reads.loadHash (hash : Sha256Hash) : Reads loadHash (storeHash hash) hash := by
  refine (Reads.loadRawBytes (Bytes.length_toBE 32 _)).map ?_
  have hlt : hash.val < 256 ^ 32 := hash.isLt.trans_eq (by norm_num)
  rw [Bytes.ofBE_toBE hlt]
  exact congrArg Pure.pure (Fin.ofNat_val_eq_self hash)

/-- A value that is stored by its hash is read from the children. -/
theorem Reads.loadByHash {child : MerkleSerializer} (hx : Reads x child a) :
    Reads (MerkleDeserializer.loadHash >>= loadByGivenHash x) (storeByHash child) a := by
  intro d hat
  obtain ⟨hfound, hreadable⟩ := hat.children child.finish (List.mem_singleton_self _)
  have hhash : d.At (storeHash child.finish.hash) :=
    ⟨hat.small, hat.inside, hat.bytes, fun _ h => nomatch h⟩
  obtain ⟨requests, hrun⟩ := Reads.loadHash child.finish.hash d hhash
  obtain ⟨d', hwhole⟩ := hreadable.loadWhole hx requests
  refine ⟨d'.requests, ?_⟩
  rw [bind_of_ok hrun, loadByGivenHash, get_bind]
  simp only [advance, hfound]
  rw [loadChild, zoom, hwhole]
  rfl

/-! ## Types whose values are read -/

/-- The values of the type are read as they were written. The values that fit are those that the
type of the program has: their counters and lengths are machine words. -/
class LawfulMerkle (α : Type) [MerkleSerializeRaw α] [MerkleDeserializeRaw α] where
  Fits : α → Prop
  reads : ∀ {a}, Fits a → Reads load (store a) a

export LawfulMerkle (Fits)

/-- Serialized contents are deserialized to the value. -/
theorem MerkleContents.Readable.deserialize [MerkleSerializeRaw α] [MerkleDeserializeRaw α]
    [LawfulMerkle α] (fits : Fits a) (readable : (serialize a).Readable) :
    Merkle.deserialize (serialize a) = .ok a := by
  obtain ⟨d, hload⟩ := readable.loadWhole (LawfulMerkle.reads fits) []
  exact congrArg Prod.fst hload

omit [Sha256] in
theorem zero_lt_usizeLimit : 0 < usizeLimit := by decide

/-- A value with a version number is read if it is read without. -/
theorem Reads.versioned [MerkleSerialize α] [MerkleDeserialize α]
    (hversion : MerkleSerialize.merkleVersion α < usizeLimit)
    (h : Reads (MerkleDeserialize.merkleDeserialize (MerkleSerialize.merkleVersion α))
      (MerkleSerialize.merkleSerialize a) a) :
    Reads load (store a) a :=
  (Reads.loadUsize hversion).bind (by rw [if_neg (Nat.lt_irrefl _)]; exact h)

end Kolme.Merkle
