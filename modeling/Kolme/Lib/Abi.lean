import Kolme.Lib.Bytes

/-!
# Tuples in the Solidity ABI

`decodeX` functions read the fields of a tuple the way a compiled `abi.decode` does: every field
owns one word of the head; the word of a dynamic field is an offset, relative to the tuple, at
which a length and the contents stand; an element of a dynamic array is again found through an
offset, relative to the array's first word. Reading fails on a short head, on a number that does
not fit its type, and on contents that run past the end; other bytes are ignored.

`encode` lays a tuple out with all contents packed behind the head. Reading a field of an encoded
tuple gives the field back, as long as the whole encoding is shorter than `2 ^ 64`.
-/

namespace Abi

/-- The word at byte position `pos`, if it lies inside the input. -/
def word (bs : Bytes) (pos : Nat) : Option Nat :=
  if pos + 32 ≤ bs.length then some (Bytes.ofBE ((bs.drop pos).take 32)) else none

/-- Offsets and lengths have to fit in 64 bits. -/
def offset (bs : Bytes) (pos : Nat) : Option Nat := do
  let n ← word bs pos
  if n < 2 ^ 64 then some n else none

/-- The head of a tuple with `fields` fields is complete. -/
def head (bs : Bytes) (fields : Nat) : Option Unit :=
  if 32 * fields ≤ bs.length then some () else none

/-- The unsigned integer of `bits` bits in head position `i`. -/
def decodeUint (bits : Nat) (bs : Bytes) (i : Nat) : Option (Fin (2 ^ bits)) := do
  let n ← word bs (32 * i)
  if h : n < 2 ^ bits then some ⟨n, h⟩ else none

/-- A length at `pos` and that many bytes behind it. -/
def bytesAt (bs : Bytes) (pos : Nat) : Option Bytes := do
  let length ← offset bs pos
  if pos + 32 + length ≤ bs.length then some ((bs.drop (pos + 32)).take length) else none

/-- The byte string of head position `i`. -/
def decodeBytes (bs : Bytes) (i : Nat) : Option Bytes := do
  let pos ← offset bs (32 * i)
  bytesAt bs pos

/-- The byte strings found through `n` offsets from position `pos` on, relative to `base`. -/
def elementsAt (bs : Bytes) (base : Nat) : (pos n : Nat) → Option (List Bytes)
  | _, 0 => some []
  | pos, n + 1 => do
    let element ← offset bs pos
    let x ← bytesAt bs (base + element)
    let xs ← elementsAt bs base (pos + 32) n
    some (x :: xs)

/-- The array of byte strings of head position `i`. -/
def decodeBytesArray (bs : Bytes) (i : Nat) : Option (List Bytes) := do
  let pos ← offset bs (32 * i)
  let n ← offset bs pos
  if pos + 32 + 32 * n ≤ bs.length then elementsAt bs (pos + 32) (pos + 32) n else none

/-! ## Encoding -/

/-- A field of a tuple. -/
inductive Field
  | uint (n : Nat)
  | bytes (b : Bytes)
  | bytesArray (bs : List Bytes)

/-- A byte string: its length and its bytes, filled up to whole words. -/
def encodeBytes (b : Bytes) : Bytes :=
  Bytes.toBE 32 b.length ++ b ++ List.replicate ((32 - b.length % 32) % 32) 0

/-- Offset words for `contents` that are laid out from `start` on. -/
def offsets (start : Nat) : List Bytes → Bytes
  | [] => []
  | c :: cs => Bytes.toBE 32 start ++ offsets (start + c.length) cs

/-- An array of byte strings: its length, the offsets, the strings. -/
def encodeBytesArray (bs : List Bytes) : Bytes :=
  let contents := bs.map encodeBytes
  Bytes.toBE 32 bs.length ++ offsets (32 * bs.length) contents ++ contents.flatten

/-- The contents of a field behind the head. -/
def Field.contents : Field → Bytes
  | .uint _ => []
  | .bytes b => encodeBytes b
  | .bytesArray bs => encodeBytesArray bs

/-- The words of the head, when the contents are laid out from `start` on. -/
def heads (start : Nat) : List Field → Bytes
  | [] => []
  | .uint n :: fs => Bytes.toBE 32 n ++ heads start fs
  | f :: fs => Bytes.toBE 32 start ++ heads (start + f.contents.length) fs

/-- A tuple: the head and the contents of its dynamic fields. -/
def encode (fields : List Field) : Bytes :=
  heads (32 * fields.length) fields ++ (fields.map Field.contents).flatten

/-! ## Round trips -/

/-- The bytes `piece` stand at position `pos`. -/
def At (bs : Bytes) (pos : Nat) (piece : Bytes) : Prop :=
  pos + piece.length ≤ bs.length ∧ (bs.drop pos).take piece.length = piece

variable {bs piece piece' : Bytes} {pos n : Nat}

theorem at_append_iff : At bs pos (piece ++ piece') ↔
    At bs pos piece ∧ At bs (pos + piece.length) piece' := by
  unfold At
  rw [List.length_append, List.take_add, List.drop_drop]
  constructor
  · rintro ⟨hlength, htake⟩
    obtain ⟨htake, htake'⟩ := List.append_inj htake (by simp; omega)
    exact ⟨⟨by omega, htake⟩, by omega, htake'⟩
  · rintro ⟨⟨-, htake⟩, hlength, htake'⟩
    exact ⟨by omega, by rw [htake, htake']⟩

theorem at_append_right (h : At bs pos piece) (rest : Bytes) : At (bs ++ rest) pos piece := by
  obtain ⟨hlength, htake⟩ := h
  refine ⟨by rw [List.length_append]; omega, ?_⟩
  rw [List.drop_append_of_le_length (by omega), List.take_append_of_le_length (by simp; omega),
    htake]

theorem at_append_left (rest : Bytes) (h : At bs pos piece) :
    At (rest ++ bs) (rest.length + pos) piece := by
  obtain ⟨hlength, htake⟩ := h
  refine ⟨by rw [List.length_append]; omega, ?_⟩
  rw [← List.drop_drop, List.drop_left, htake]

theorem at_zero (piece rest : Bytes) : At (piece ++ rest) 0 piece :=
  ⟨by simp, by simp⟩

theorem word_of_at (h : At bs pos (Bytes.toBE 32 n)) (hn : n < 256 ^ 32) :
    word bs pos = some n := by
  obtain ⟨hlength, htake⟩ := h
  rw [Bytes.length_toBE] at hlength htake
  rw [word, if_pos hlength, htake, Bytes.ofBE_toBE hn]

theorem offset_of_at (h : At bs pos (Bytes.toBE 32 n)) (hn : n < 2 ^ 64) :
    offset bs pos = some n := by
  have hword : n < 256 ^ 32 := hn.trans (by decide)
  rw [offset, word_of_at h hword]
  exact if_pos hn

theorem bytesAt_of_at {b : Bytes} (h : At bs pos (encodeBytes b)) (hb : b.length < 2 ^ 64) :
    bytesAt bs pos = some b := by
  rw [encodeBytes, List.append_assoc, at_append_iff, at_append_iff, Bytes.length_toBE] at h
  obtain ⟨hword, ⟨hlength, htake⟩, -⟩ := h
  rw [bytesAt, offset_of_at hword hb]
  simp [hlength, htake]

theorem length_encodeBytes_ge (b : Bytes) : b.length ≤ (encodeBytes b).length := by
  rw [encodeBytes, List.length_append, List.length_append]
  omega

/-! ### Arrays -/

theorem length_offsets (start : Nat) (contents : List Bytes) :
    (offsets start contents).length = 32 * contents.length := by
  induction contents generalizing start with
  | nil => rfl
  | cons c cs ih =>
    rw [offsets, List.length_append, Bytes.length_toBE, ih, List.length_cons]
    omega

/-- The strings behind the offsets, when they are laid out from `start` on. -/
theorem elementsAt_of_at {base start : Nat} {strings : List Bytes}
    (hoffsets : At bs pos (offsets start (strings.map encodeBytes)))
    (hstrings : At bs (base + start) (strings.map encodeBytes).flatten)
    (hlength : bs.length < 2 ^ 64) :
    elementsAt bs base pos strings.length = some strings := by
  induction strings generalizing pos start with
  | nil => rfl
  | cons b strings ih =>
    rw [List.map_cons, offsets, at_append_iff, Bytes.length_toBE] at hoffsets
    rw [List.map_cons, List.flatten_cons, at_append_iff] at hstrings
    obtain ⟨hoffset, hoffsets⟩ := hoffsets
    obtain ⟨hb, hstrings⟩ := hstrings
    have hle := length_encodeBytes_ge b
    have hfits := hb.1
    rw [Nat.add_assoc] at hstrings
    have hrest := ih hoffsets hstrings
    rw [List.length_cons, elementsAt, offset_of_at hoffset (by omega)]
    simp only [Option.bind_eq_bind, Option.bind_some, bytesAt_of_at hb (by omega), hrest]

/-! ### Tuples -/

/-- The word in the head for a field whose contents stand at `pos`. -/
def Field.word (pos : Nat) : Field → Bytes
  | .uint n => Bytes.toBE 32 n
  | _ => Bytes.toBE 32 pos

theorem Field.length_word (pos : Nat) (f : Field) : (f.word pos).length = 32 := by
  cases f <;> exact Bytes.length_toBE ..

theorem heads_cons (start : Nat) (f : Field) (fs : List Field) :
    heads start (f :: fs) = f.word start ++ heads (start + f.contents.length) fs := by
  cases f <;> rfl

theorem length_heads (start : Nat) (fields : List Field) :
    (heads start fields).length = 32 * fields.length := by
  induction fields generalizing start with
  | nil => rfl
  | cons f fs ih =>
    rw [heads_cons, List.length_append, f.length_word, ih, List.length_cons]
    omega

/-- Where a field's word and its contents stand. -/
theorem at_field {fields : List Field} {start i : Nat} {f : Field} (hf : fields[i]? = some f)
    (hheads : At bs pos (heads start fields))
    (hcontents : At bs start (fields.map Field.contents).flatten) :
    ∃ at', At bs (pos + 32 * i) (f.word at') ∧ At bs at' f.contents := by
  induction fields generalizing start pos i with
  | nil => simp at hf
  | cons f' fs ih =>
    rw [heads_cons, at_append_iff, Field.length_word] at hheads
    rw [List.map_cons, List.flatten_cons, at_append_iff] at hcontents
    cases i with
    | zero =>
      obtain rfl : f' = f := by simpa using hf
      exact ⟨start, hheads.1, hcontents.1⟩
    | succ i =>
      obtain ⟨at', hword, hat⟩ := ih (by simpa using hf) hheads.2 hcontents.2
      refine ⟨at', ?_, hat⟩
      rwa [show pos + 32 * (i + 1) = pos + 32 + 32 * i by omega]

section

variable {fields : List Field} {i : Nat}

theorem at_encode {f : Field} (hf : fields[i]? = some f) :
    ∃ at', At (encode fields) (32 * i) (f.word at') ∧ At (encode fields) at' f.contents := by
  have hheads : At (encode fields) 0 (heads (32 * fields.length) fields) := at_zero ..
  have hcontents : At (encode fields) (32 * fields.length) (fields.map Field.contents).flatten := by
    have h := at_append_left (heads (32 * fields.length) fields)
      (at_zero (fields.map Field.contents).flatten [])
    rwa [List.append_nil, Nat.add_zero, length_heads] at h
  obtain ⟨at', hword, hat⟩ := at_field hf hheads hcontents
  exact ⟨at', by rwa [Nat.zero_add] at hword, hat⟩

theorem head_encode {n : Nat} (h : n ≤ fields.length) : head (encode fields) n = some () := by
  rw [head, if_pos]
  rw [encode, List.length_append, length_heads]
  omega

theorem length_le_encode {b : Bytes} (hf : fields[i]? = some (.bytes b)) :
    b.length ≤ (encode fields).length := by
  obtain ⟨at', -, hat⟩ := at_encode hf
  have hle := length_encodeBytes_ge b
  have hfits : at' + (encodeBytes b).length ≤ (encode fields).length := hat.1
  omega

theorem decodeUint_encode {bits n : Nat} (hf : fields[i]? = some (.uint n)) (h : n < 2 ^ bits)
    (hbits : bits ≤ 256) : decodeUint bits (encode fields) i = some ⟨n, h⟩ := by
  obtain ⟨_, hword, -⟩ := at_encode hf
  have hn : n < 256 ^ 32 :=
    h.trans_le ((Nat.pow_le_pow_right (by decide) hbits).trans (by norm_num))
  rw [decodeUint, word_of_at hword hn]
  simp [h]

theorem decodeBytes_encode {b : Bytes} (hf : fields[i]? = some (.bytes b))
    (hlength : (encode fields).length < 2 ^ 64) : decodeBytes (encode fields) i = some b := by
  obtain ⟨at', hword, hat⟩ := at_encode hf
  have hle := length_encodeBytes_ge b
  have hfits : at' + (encodeBytes b).length ≤ (encode fields).length := hat.1
  rw [decodeBytes, offset_of_at hword (by omega)]
  exact bytesAt_of_at hat (by omega)

theorem decodeBytesArray_encode {strings : List Bytes}
    (hf : fields[i]? = some (.bytesArray strings)) (hlength : (encode fields).length < 2 ^ 64) :
    decodeBytesArray (encode fields) i = some strings := by
  obtain ⟨at', hword, hat⟩ := at_encode hf
  rw [Field.contents, encodeBytesArray, List.append_assoc, at_append_iff, at_append_iff,
    Bytes.length_toBE, length_offsets, List.length_map] at hat
  obtain ⟨hcount, hoffsets, hstrings⟩ := hat
  have hfits := hoffsets.1
  rw [length_offsets, List.length_map] at hfits
  rw [decodeBytesArray, offset_of_at hword (by omega)]
  simp only [Option.bind_eq_bind, Option.bind_some, offset_of_at hcount (by omega), if_pos hfits]
  exact elementsAt_of_at hoffsets hstrings hlength

end

end Abi
