import Kolme.Merkle.Totality

/-!
# Bytes in canonical form

The bytes of a value are canonical if the value is written as the same bytes again. A value is never
written longer than it was read, so what is read part by part is canonical exactly if all parts are.
-/

namespace Kolme.Merkle

open Exec MerkleDeserializer MerkleSerializer

variable {α β γ K V : Type}

/-- What was read between two positions. -/
structure Took (d d' : MerkleDeserializer) (bytes : Bytes) : Prop where
  contents : d'.contents = d.contents
  rest : d.rest = bytes ++ d'.rest
  pos : d'.pos = d.pos + bytes.length

namespace Took

variable {d d₁ d₂ : MerkleDeserializer} {bytes bytes' : Bytes}

theorem nil (d : MerkleDeserializer) : Took d d [] := ⟨rfl, rfl, rfl⟩

theorem append (h : Took d d₁ bytes) (h' : Took d₁ d₂ bytes') : Took d d₂ (bytes ++ bytes') where
  contents := h'.contents.trans h.contents
  rest := by rw [h.rest, h'.rest, List.append_assoc]
  pos := by rw [h'.pos, h.pos, List.length_append, Nat.add_assoc]

theorem unique (h : Took d d₁ bytes) (h' : Took d d₁ bytes') : bytes = bytes' :=
  List.append_cancel_right (h.rest.symm.trans h'.rest)

theorem advance {len : ℕ} (hlen : len ≤ d.rest.length) : Took d (d.advance len) (d.rest.take len) where
  contents := rfl
  rest := by
    rw [MerkleDeserializer.rest, MerkleDeserializer.rest, MerkleDeserializer.advance,
      ← List.drop_drop, List.take_append_drop]
  pos := by
    rw [List.length_take_of_le hlen]
    rfl

theorem inside (h : Took d d₁ bytes) (hinside : d.Inside) : d₁.Inside where
  le := by
    have hle := hinside.le
    have hlength := congrArg List.length h.rest
    have hrest : d.rest.length = d.contents.payload.length - d.pos := List.length_drop
    rw [List.length_append, hrest] at hlength
    rw [h.contents, h.pos]
    omega
  small := h.contents ▸ hinside.small

end Took

/-! ## What a read says -/

section

variable {d d' : MerkleDeserializer} {len n : ℕ}

theorem popByte_eq_ok {byte : UInt8} :
    popByte d = (.ok byte, d') ↔ ∃ tail, d.rest = byte :: tail ∧ d' = d.advance 1 := by
  rw [popByte_eq]
  cases hrest : d.rest with
  | nil => simp
  | cons first tail =>
    simp only [List.head?_cons, Prod.mk.injEq, Except.ok.injEq, List.cons.injEq]
    constructor
    · rintro ⟨rfl, rfl⟩
      exact ⟨tail, ⟨rfl, rfl⟩, rfl⟩
    · rintro ⟨_, ⟨rfl, rfl⟩, rfl⟩
      exact ⟨rfl, rfl⟩

theorem peekByte_eq_ok {byte : UInt8} (h : peekByte d = (.ok byte, d')) : d = d' := by
  rw [peekByte, get_bind] at h
  exact (fromOption_eq_ok.mp h).2

theorem loadRawBytes_eq_ok {bytes : Bytes} (h : loadRawBytes len d = (.ok bytes, d')) :
    len ≤ d.rest.length ∧ bytes = d.rest.take len ∧ d' = d.advance len := by
  rw [loadRawBytes_eq] at h
  have hrest : d.rest.length = d.contents.payload.length - d.pos := List.length_drop
  split_ifs at h
  · obtain ⟨hbytes, rfl⟩ := Prod.mk.inj h
    exact ⟨by omega, (Except.ok.inj hbytes).symm, rfl⟩
  · cases h
  · cases h

theorem loadUsize_eq_ok : loadUsize d = (.ok n, d') ↔ ∃ byte tail read,
    d.rest = byte :: tail ∧ readUsize (byte :: tail) 0 0 = .ok (n, read) ∧ d' = d.advance read := by
  rw [loadUsize_eq]
  cases hrest : d.rest with
  | nil => simp [readUsize]
  | cons byte tail =>
    cases hread : readUsize (byte :: tail) 0 0 with
    | error e => simp [hread]
    | ok pair => 
      obtain ⟨value, read⟩ := pair
      simp [hread, eq_comm]

end

variable [Sha256]

/-- No layer below the output has the hash of a layer of the contents with another payload. -/
def Apart (contents : MerkleContents) (out : MerkleSerializer) : Prop :=
  ∀ child ∈ out.children, ∀ written, MerkleContents.Within written child →
    ∀ read, MerkleContents.Within read contents → written.hash = read.hash →
      written.payload = read.payload

theorem apart_append {contents : MerkleContents} {out out' : MerkleSerializer} :
    Apart contents (out ++ out') ↔ Apart contents out ∧ Apart contents out' := by
  simp only [Apart, children_append, List.forall_mem_append]

/-- Whatever is read is written no longer than it was. The condition says when what is read is sound
and is written as the bytes that were read. -/
structure Canonical (x : Load α) (w : α → MerkleSerializer) (Sound : α → Prop) where
  Holds : MerkleDeserializer → Prop
  took : ∀ {d a d'}, d.Inside → x d = (.ok a, d') →
    ∃ bytes, Took d d' bytes ∧ (w a).buff.length ≤ bytes.length
  iff : ∀ {d a d' bytes}, d.Inside → x d = (.ok a, d') → Took d d' bytes →
    Apart d.contents (w a) → (Sound a ∧ (w a).buff = bytes ↔ Holds d)

namespace Canonical

variable {x : Load α} {w : α → MerkleSerializer} {S : α → Prop}

/-- A program that reads nothing. -/
def quiet (hrun : ∀ {d a d'}, x d = (.ok a, d') → d.rest = d'.rest ∧ d'.contents = d.contents ∧
    d'.pos = d.pos ∧ (w a).buff = [] ∧ S a) : Canonical x w S where
  Holds _ := True
  took {d a d'} _ h := by
    obtain ⟨hrest, hcontents, hpos, hout, -⟩ := hrun h
    exact ⟨[], ⟨hcontents, hrest, hpos⟩, by rw [hout]⟩
  iff {d a d' bytes} _ h htook _ := by
    obtain ⟨hrest, hcontents, hpos, hout, hsound⟩ := hrun h
    have hnil : Took d d' [] := ⟨hcontents, hrest, hpos⟩
    rw [htook.unique hnil, hout]
    exact iff_of_true ⟨hsound, rfl⟩ trivial

/-- One part after another. -/
def bind {f : α → Load β} {wf : α → β → MerkleSerializer} {Sf : α → β → Prop}
    {out : β → MerkleSerializer} {T : β → Prop} (gx : Canonical x w S)
    (gf : ∀ a, Canonical (f a) (wf a) (Sf a))
    (split : ∀ {d a d₁ b d'}, d.Inside → x d = (.ok a, d₁) → f a d₁ = (.ok b, d') →
      out b = w a ++ wf a b ∧ (T b ↔ S a ∧ Sf a b)) : Canonical (x >>= f) out T where
  Holds d := gx.Holds d ∧ ∀ a d', x d = (.ok a, d') → (gf a).Holds d'
  took {d b d'} hinside h := by
    obtain ⟨a, d₁, hx, hf⟩ := bind_eq_ok.mp h
    obtain ⟨bytes, htook, hle⟩ := gx.took hinside hx
    obtain ⟨bytes', htook', hle'⟩ := (gf a).took (htook.inside hinside) hf
    refine ⟨bytes ++ bytes', htook.append htook', ?_⟩
    rw [(split hinside hx hf).1, buff_append, List.length_append, List.length_append]
    exact Nat.add_le_add hle hle'
  iff {d b d' all} hinside h hall hapart := by
    obtain ⟨a, d₁, hx, hf⟩ := bind_eq_ok.mp h
    obtain ⟨bytes, htook, hle⟩ := gx.took hinside hx
    obtain ⟨bytes', htook', hle'⟩ := (gf a).took (htook.inside hinside) hf
    obtain ⟨hout, hsound⟩ := split hinside hx hf
    rw [hout, apart_append] at hapart
    have hfirst := gx.iff hinside hx htook hapart.1
    have hrest := (gf a).iff (htook.inside hinside) hf htook' (htook.contents ▸ hapart.2)
    have hnext : (∀ a' d', x d = (.ok a', d') → (gf a').Holds d') ↔ (gf a).Holds d₁ := by
      rw [hx]
      constructor
      · exact fun h => h a d₁ rfl
      · rintro h _ _ ⟨⟩
        exact h
    rw [hnext, ← hfirst, ← hrest, hall.unique (htook.append htook'), hout, hsound, buff_append]
    constructor
    · rintro ⟨⟨hs, hs'⟩, hbuff⟩
      have hlength := congrArg List.length hbuff
      rw [List.length_append, List.length_append] at hlength
      obtain ⟨h₁, h₂⟩ := List.append_inj hbuff (by omega)
      exact ⟨⟨hs, h₁⟩, hs', h₂⟩
    · rintro ⟨⟨hs, h₁⟩, hs', h₂⟩
      exact ⟨⟨hs, hs'⟩, by rw [h₁, h₂]⟩

/-- What is computed from what was read. -/
def map {f : α → Load β} {out : β → MerkleSerializer} {T : β → Prop} (gx : Canonical x w S)
    (hf : ∀ {d a d₁ b d'}, d.Inside → x d = (.ok a, d₁) → f a d₁ = (.ok b, d') →
      d₁ = d' ∧ out b = w a ∧ (T b ↔ S a)) : Canonical (x >>= f) out T where
  Holds := gx.Holds
  took {d b d'} hinside h := by
    obtain ⟨a, d₁, hx, hrest⟩ := bind_eq_ok.mp h
    obtain ⟨rfl, hout, -⟩ := hf hinside hx hrest
    exact hout ▸ gx.took hinside hx
  iff {d b d' bytes} hinside h htook hapart := by
    obtain ⟨a, d₁, hx, hrest⟩ := bind_eq_ok.mp h
    obtain ⟨rfl, hout, hsound⟩ := hf hinside hx hrest
    rw [hout, hsound]
    exact gx.iff hinside hx htook (hout ▸ hapart)

/-- What is read is to have another property. -/
def restrict (gx : Canonical x w S) (P : α → Prop) : Canonical x w fun a => S a ∧ P a where
  Holds d := gx.Holds d ∧ ∀ a d', x d = (.ok a, d') → P a
  took := gx.took
  iff {d a d' bytes} hinside h htook hapart := by
    rw [← gx.iff hinside h htook hapart, h]
    constructor
    · rintro ⟨⟨hs, hp⟩, hbuff⟩
      refine ⟨⟨hs, hbuff⟩, ?_⟩
      rintro _ _ ⟨⟩
      exact hp
    · rintro ⟨⟨hs, hbuff⟩, hp⟩
      exact ⟨⟨hs, hp a d' rfl⟩, hbuff⟩

end Canonical

/-! ## Lengths -/

section

omit [Sha256]

theorem highChunks_of_lt {room value : ℕ} (h : value < 128 ^ room) :
    highChunks (room + 1) value = highChunks room value := by
  induction room generalizing value with
  | zero =>
    obtain rfl : value = 0 := by simpa using h
    rfl
  | succ room ih =>
    have hdiv : value / 128 < 128 ^ room := by
      rw [Nat.div_lt_iff_lt_mul (by decide)]
      exact h
    conv_lhs => rw [highChunks, ih hdiv]
    rw [highChunks]

theorem length_highChunks_mono {room m n : ℕ} (h : m ≤ n) :
    (highChunks room m).length ≤ (highChunks room n).length := by
  induction room generalizing m n with
  | zero => exact le_rfl
  | succ room ih =>
    rw [highChunks, highChunks]
    split_ifs with hm hn
    · exact le_rfl
    · exact Nat.zero_le _
    · omega
    · rw [List.length_append, List.length_append]
      exact Nat.add_le_add_right (ih (Nat.div_le_div_right h)) _

theorem length_storeUsize_mono {m n : ℕ} (h : m ≤ n) :
    (storeUsize m).buff.length ≤ (storeUsize n).buff.length := by
  simp only [storeUsize, storeRawBytes, List.length_append]
  exact Nat.add_le_add_right (length_highChunks_mono (Nat.div_le_div_right h)) _

variable {bytes : Bytes} {value read n read' : ℕ}

theorem readUsize_cons_eq_ok {byte : UInt8} :
    readUsize (byte :: bytes) value read = .ok (n, read') ↔
      value ≤ (usizeLimit - 1) / 128 ∧
      (byte.toNat < 128 ∧ n = value * 128 + byte.toNat ∧ read' = read + 1 ∨
        128 ≤ byte.toNat ∧
          readUsize bytes (value * 128 + byte.toNat % 128) (read + 1) = .ok (n, read')) := by
  rw [readUsize]
  by_cases hvalue : (usizeLimit - 1) / 128 < value
  · rw [if_pos hvalue]
    simp only [reduceCtorEq, false_iff, not_and]
    omega
  · rw [if_neg hvalue]
    by_cases hbyte : byte.toNat < 128
    · simp only [hbyte, if_true, Except.ok.injEq, Prod.mk.injEq, Nat.mod_eq_of_lt hbyte]
      constructor
      · rintro ⟨rfl, rfl⟩
        exact ⟨Nat.not_lt.mp hvalue, .inl ⟨trivial, rfl, rfl⟩⟩
      · rintro ⟨-, ⟨-, rfl, rfl⟩ | ⟨hge, -⟩⟩
        · exact ⟨rfl, rfl⟩
        · omega
    · simp only [hbyte, if_false]
      constructor
      · exact fun h => ⟨Nat.not_lt.mp hvalue, .inr ⟨Nat.not_lt.mp hbyte, h⟩⟩
      · rintro ⟨-, ⟨hlt, -⟩ | ⟨-, h⟩⟩
        · exact hlt.elim
        · exact h

theorem le_of_readUsize (h : readUsize bytes value read = .ok (n, read')) :
    value ≤ (usizeLimit - 1) / 128 := by
  cases bytes with
  | nil => cases h
  | cons byte bytes => exact (readUsize_cons_eq_ok.mp h).1

theorem readUsize_lt (h : readUsize bytes value read = .ok (n, read')) : n < usizeLimit := by
  induction bytes generalizing value read with
  | nil => cases h
  | cons byte bytes ih =>
    obtain ⟨hvalue, ⟨hbyte, rfl, -⟩ | ⟨-, hrest⟩⟩ := readUsize_cons_eq_ok.mp h
    · change value * 128 + byte.toNat < 2 ^ 64
      change value ≤ (2 ^ 64 - 1) / 128 at hvalue
      omega
    · exact ih hrest

theorem ofNat_toNat_of_ge {byte : UInt8} (h : 128 ≤ byte.toNat) :
    UInt8.ofNat (128 + byte.toNat % 128) = byte := by
  have hlt := byte.toNat_lt
  rw [show 128 + byte.toNat % 128 = byte.toNat by omega, UInt8.ofNat_toNat]

/-- Behind a first chunk that is not empty, the bytes are those that are written. -/
theorem storeUsize_of_readUsize (h : readUsize bytes value read = .ok (n, read'))
    (hvalue : value ≠ 0) :
    read ≤ read' ∧ (storeUsize n).buff = highChunks 9 value ++ bytes.take (read' - read) := by
  induction bytes generalizing value read with
  | nil => cases h
  | cons byte bytes ih =>
    obtain ⟨hle, ⟨hbyte, rfl, rfl⟩ | ⟨hbyte, hrest⟩⟩ := readUsize_cons_eq_ok.mp h
    · refine ⟨Nat.le_succ _, ?_⟩
      rw [storeUsize, storeRawBytes, Nat.add_sub_cancel_left, List.take_succ_cons, List.take_zero,
        show (value * 128 + byte.toNat) / 128 = value by omega,
        show (value * 128 + byte.toNat) % 128 = byte.toNat by omega, UInt8.ofNat_toNat]
    · obtain ⟨hread, hout⟩ := ih hrest (by omega)
      refine ⟨by omega, ?_⟩
      have hnext := le_of_readUsize hrest
      have hsmall : value < 128 ^ 8 := by
        change _ ≤ (2 ^ 64 - 1) / 128 at hnext
        omega
      rw [hout, highChunks, if_neg (by omega),
        show (value * 128 + byte.toNat % 128) / 128 = value by omega,
        show (value * 128 + byte.toNat % 128) % 128 = byte.toNat % 128 by omega,
        ofNat_toNat_of_ge hbyte, highChunks_of_lt hsmall, List.append_assoc,
        show read' - read = read' - (read + 1) + 1 by omega, List.take_succ_cons]
      rfl

/-- A length is written with as many bytes at most as it was read from, and with the same bytes
unless the first chunk is empty. -/
theorem storeUsize_readUsize {byte : UInt8} {bytes : Bytes} {read n read' : ℕ}
    (h : readUsize (byte :: bytes) 0 read = .ok (n, read')) :
    read < read' ∧ (storeUsize n).buff.length + read ≤ read' ∧
      ((storeUsize n).buff = (byte :: bytes).take (read' - read) ↔ byte ≠ 128) := by
  have hne_of : byte.toNat ≠ 128 → byte ≠ 128 := by
    rintro hne rfl
    exact hne rfl
  obtain ⟨-, ⟨hbyte, rfl, rfl⟩ | ⟨hbyte, hrest⟩⟩ := readUsize_cons_eq_ok.mp h
  · have hout : (storeUsize (0 * 128 + byte.toNat)).buff = [byte] := by
      rw [storeUsize, storeRawBytes, show (0 * 128 + byte.toNat) / 128 = 0 by omega,
        show (0 * 128 + byte.toNat) % 128 = byte.toNat by omega, UInt8.ofNat_toNat]
      rfl
    rw [hout, Nat.add_sub_cancel_left]
    exact ⟨Nat.lt_succ_self _, by rw [List.length_singleton, Nat.add_comm],
      iff_of_true rfl (hne_of (by omega))⟩
  · rw [Nat.zero_mul, Nat.zero_add] at hrest
    by_cases hzero : byte.toNat % 128 = 0
    · obtain rfl : byte = 128 := by
        have hlt := byte.toNat_lt
        exact UInt8.toNat_inj.mp (by rw [show byte.toNat = 128 by omega]; rfl)
      have hle := readUsize_le h
      cases bytes with
      | nil => cases hrest
      | cons next bytes =>
        obtain ⟨hread, hlength, -⟩ := @storeUsize_readUsize next _ _ _ _ hrest
        refine ⟨by omega, by omega, iff_of_false (fun hout => ?_) (fun h => h rfl)⟩
        have htake := congrArg List.length hout
        rw [List.length_take_of_le (by omega)] at htake
        omega
    · obtain ⟨hread, hout⟩ := storeUsize_of_readUsize hrest hzero
      have hchunk : highChunks 9 (byte.toNat % 128) = [byte] := by
        rw [highChunks, if_neg hzero, Nat.mod_mod, ofNat_toNat_of_ge hbyte,
          show byte.toNat % 128 / 128 = 0 by omega]
        rfl
      rw [hchunk] at hout
      have htake : (byte :: bytes).take (read' - read) = (storeUsize n).buff := by
        rw [hout, show read' - read = read' - (read + 1) + 1 by omega, List.take_succ_cons]
        rfl
      refine ⟨hread, ?_, iff_of_true htake.symm (hne_of (by omega))⟩
      rw [← htake]
      have hle := List.length_take_le (read' - read) (byte :: bytes)
      omega
termination_by bytes.length

end

/-! ## Bytes -/

namespace Canonical

def popByte : Canonical popByte storeByte fun _ => True where
  Holds _ := True
  took {d a d'} _ h := by
    obtain ⟨tail, hrest, rfl⟩ := popByte_eq_ok.mp h
    exact ⟨_, .advance (by rw [hrest]; exact Nat.succ_pos _), by rw [hrest]; exact le_rfl⟩
  iff {d a d' bytes} _ h htook _ := by
    obtain ⟨tail, hrest, rfl⟩ := popByte_eq_ok.mp h
    have hone : Took d (d.advance 1) (d.rest.take 1) :=
      .advance (by rw [hrest]; exact Nat.succ_pos _)
    rw [htook.unique hone, hrest]
    exact iff_of_true ⟨trivial, rfl⟩ trivial

def loadRawBytes (len : ℕ) :
    Canonical (loadRawBytes len) storeRawBytes fun _ => True where
  Holds _ := True
  took {d a d'} _ h := by
    obtain ⟨hle, rfl, rfl⟩ := loadRawBytes_eq_ok h
    exact ⟨_, .advance hle, le_rfl⟩
  iff {d a d' bytes} _ h htook _ := by
    obtain ⟨hle, rfl, rfl⟩ := loadRawBytes_eq_ok h
    rw [htook.unique (.advance hle)]
    exact iff_of_true ⟨trivial, rfl⟩ trivial

/-- The first chunk of a length is not empty. -/
def loadUsize : Canonical loadUsize storeUsize fun _ => True where
  Holds d := d.rest.head? ≠ some 128
  took {d a d'} hinside h := by
    obtain ⟨byte, tail, read, hrest, hread, rfl⟩ := loadUsize_eq_ok.mp h
    have hle := readUsize_le hread
    rw [Nat.zero_add, ← hrest] at hle
    obtain ⟨-, hlength, -⟩ := storeUsize_readUsize hread
    refine ⟨_, .advance hle, ?_⟩
    rw [List.length_take_of_le hle]
    omega
  iff {d a d' bytes} hinside h htook _ := by
    obtain ⟨byte, tail, read, hrest, hread, rfl⟩ := loadUsize_eq_ok.mp h
    have hle := readUsize_le hread
    rw [Nat.zero_add, ← hrest] at hle
    obtain ⟨-, -, hbytes⟩ := storeUsize_readUsize hread
    rw [Nat.sub_zero] at hbytes
    rw [htook.unique (.advance hle), hrest, true_and, hbytes]
    simp

def loadBytes : Canonical loadBytes storeSlice fun _ => True :=
  loadUsize.bind loadRawBytes fun _ _ h => by
    obtain ⟨hle, rfl, -⟩ := loadRawBytes_eq_ok h
    refine ⟨?_, by simp⟩
    rw [storeSlice, List.length_take_of_le hle]

variable {x : Load α} {w : α → MerkleSerializer} {S : α → Prop}

/-! ## Values one after another -/

def loadMany (g : Canonical x w S) : (len : ℕ) →
    Canonical (loadMany x len) (storeAll w) fun as => ∀ a ∈ as, S a
  | 0 => quiet fun h => by
    obtain ⟨rfl, rfl⟩ := pure_eq_ok.mp h
    exact ⟨rfl, rfl, rfl, rfl, List.forall_mem_nil _⟩
  | len + 1 =>
    have rest (a : α) : Canonical (MerkleDeserializer.loadMany x len >>= fun as => pure (a :: as))
        (fun as => storeAll w as.tail) fun as => ∀ a ∈ as.tail, S a :=
      (loadMany g len).map fun _ _ h => by
        obtain ⟨rfl, rfl⟩ := pure_eq_ok.mp h
        exact ⟨rfl, rfl, Iff.rfl⟩
    g.bind rest fun _ _ h => by
      obtain ⟨as, _, -, hpure⟩ := bind_eq_ok.mp h
      obtain ⟨rfl, -⟩ := pure_eq_ok.mp hpure
      exact ⟨rfl, List.forall_mem_cons⟩

omit [Sha256] in
theorem length_storeAll (as : List α) :
    (storeAll w as).buff.length = (as.map fun a => (w a).buff.length).sum := by
  induction as with
  | nil => rfl
  | cons a as ih => rw [storeAll, buff_append, List.length_append, ih, List.map_cons, List.sum_cons]

omit [Sha256] in
theorem length_storeAll_le {as bs : List α} (h : bs.Subperm as) :
    (storeAll w bs).buff.length ≤ (storeAll w as).buff.length := by
  obtain ⟨cs, hperm, hsub⟩ := h
  rw [length_storeAll, length_storeAll, ← (hperm.map _).sum_eq]
  exact (hsub.map _).sum_le_sum fun _ _ => Nat.zero_le _

/-- A value that the program reads somewhere. -/
def IsRead (x : Load α) (a : α) : Prop := ∃ d d', x d = (.ok a, d')

omit [Sha256] in
theorem isRead_of_mem {len : ℕ} {as : List α} {d d' : MerkleDeserializer}
    (h : MerkleDeserializer.loadMany x len d = (.ok as, d')) : as.length = len ∧
      ∀ a ∈ as, IsRead x a := by
  induction len generalizing as d d' with
  | zero =>
    obtain ⟨rfl, -⟩ := pure_eq_ok.mp h
    exact ⟨rfl, List.forall_mem_nil _⟩
  | succ len ih =>
    obtain ⟨a, d₁, ha, hrest⟩ := bind_eq_ok.mp h
    obtain ⟨as, d₂, has, hpure⟩ := bind_eq_ok.mp hrest
    obtain ⟨rfl, -⟩ := pure_eq_ok.mp hpure
    obtain ⟨hlength, hread⟩ := ih has
    exact ⟨congrArg Nat.succ hlength, List.forall_mem_cons.mpr ⟨⟨d, d₁, ha⟩, hread⟩⟩

variable {κ : Type} {key : α → κ}

/-- The key of a value is read from any bytes that begin with the value. -/
def KeyRead (x : Load α) (w : α → MerkleSerializer) (key : α → κ) : Prop :=
  ∀ {d a d' b}, d.Inside → x d = (.ok a, d') → IsRead x b → (w b).buff <+: d.rest → key a = key b

/-- Values that are written in another order are written as other bytes. -/
theorem eq_of_storeAll (g : Canonical x w S) (keyRead : KeyRead x w key) {as bs : List α} {len : ℕ}
    {d d' : MerkleDeserializer} (hinside : d.Inside)
    (h : MerkleDeserializer.loadMany x len d = (.ok as, d')) (hperm : bs.Perm as)
    (hkeys : ∀ a ∈ as, ∀ b ∈ as, key a = key b → a = b) {bytes : Bytes} (htook : Took d d' bytes)
    (hbuff : (storeAll w bs).buff = bytes) : bs = as := by
  induction len generalizing as bs d d' bytes with
  | zero =>
    obtain ⟨rfl, -⟩ := pure_eq_ok.mp h
    exact hperm.eq_nil
  | succ len ih =>
    have hread := (isRead_of_mem h).2
    obtain ⟨a, d₁, ha, hrest⟩ := bind_eq_ok.mp h
    obtain ⟨as, d₂, has, hpure⟩ := bind_eq_ok.mp hrest
    obtain ⟨rfl, rfl⟩ := pure_eq_ok.mp hpure
    obtain ⟨first, hfirst, hle⟩ := g.took hinside ha
    obtain ⟨later, hlater, hle'⟩ := (loadMany g len).took (hfirst.inside hinside) has
    cases bs with
    | nil => exact absurd hperm.length_eq (by simp)
    | cons b bs =>
      have hb : b ∈ a :: as := hperm.subset (List.mem_cons_self ..)
      have hprefix : (w b).buff <+: d.rest := by
        rw [htook.rest, ← hbuff, storeAll, buff_append, List.append_assoc]
        exact List.prefix_append _ _
      obtain rfl : a = b := hkeys a (List.mem_cons_self ..) b hb
        (keyRead hinside ha (hread b hb) hprefix)
      have hperm' : bs.Perm as := (List.perm_cons a).mp hperm
      have hlength : (storeAll w bs).buff.length ≤ later.length :=
        (length_storeAll_le hperm'.subperm).trans hle'
      rw [htook.unique (hfirst.append hlater), storeAll, buff_append] at hbuff
      have hboth := congrArg List.length hbuff
      rw [List.length_append, List.length_append] at hboth
      obtain ⟨-, hbuff'⟩ := List.append_inj hbuff (by omega)
      rw [ih (hfirst.inside hinside) has hperm'
        (fun a ha b hb => hkeys a (List.mem_cons_of_mem _ ha) b (List.mem_cons_of_mem _ hb))
        hlater hbuff']

/-- How the values of a collection are put in order. -/
structure Collects [LinearOrder κ] (key : α → κ) (collect : List α → γ) (list : γ → List α) :
    Prop where
  sub : ∀ as, (list (collect as)).Subperm as
  sorted : ∀ c, (list c).Pairwise (key · < key ·)
  fixed : ∀ as, as.Pairwise (key · < key ·) → list (collect as) = as

/-- A collection is written in order, with its length in front. -/
def collection [LinearOrder κ] (g : Canonical x w S) (keyRead : KeyRead x w key)
    {collect : List α → γ} {list : γ → List α} (collects : Collects key collect list) :
    Canonical (MerkleDeserializer.loadUsize >>= fun len =>
        MerkleDeserializer.loadMany x len >>= fun as => pure (collect as))
      (fun c => storeUsize (list c).length ++ storeAll w (list c)) fun c => ∀ a ∈ list c, S a where
  Holds d := loadUsize.Holds d ∧ ∀ len d₁, MerkleDeserializer.loadUsize d = (.ok len, d₁) →
    (loadMany g len).Holds d₁ ∧ ∀ as d₂, MerkleDeserializer.loadMany x len d₁ = (.ok as, d₂) →
      as.Pairwise (key · < key ·)
  took {d c d'} hinside h := by
    obtain ⟨len, d₁, hlen, hrest⟩ := bind_eq_ok.mp h
    obtain ⟨as, d₂, has, hpure⟩ := bind_eq_ok.mp hrest
    obtain ⟨rfl, rfl⟩ := pure_eq_ok.mp hpure
    obtain ⟨bytes, htook, hle⟩ := loadUsize.took hinside hlen
    obtain ⟨bytes', htook', hle'⟩ := (loadMany g len).took (htook.inside hinside) has
    have hlength := (collects.sub as).length_le
    rw [(isRead_of_mem has).1] at hlength
    refine ⟨bytes ++ bytes', htook.append htook', ?_⟩
    rw [buff_append, List.length_append, List.length_append]
    exact Nat.add_le_add ((length_storeUsize_mono hlength).trans hle)
      ((length_storeAll_le (collects.sub as)).trans hle')
  iff {d c d' all} hinside h hall hapart := by
    obtain ⟨len, d₁, hlen, hrest⟩ := bind_eq_ok.mp h
    obtain ⟨as, d₂, has, hpure⟩ := bind_eq_ok.mp hrest
    obtain ⟨rfl, rfl⟩ := pure_eq_ok.mp hpure
    obtain ⟨bytes, htook, hle⟩ := loadUsize.took hinside hlen
    obtain ⟨bytes', htook', hle'⟩ := (loadMany g len).took (htook.inside hinside) has
    have hinside₁ := htook.inside hinside
    have hcount := (isRead_of_mem has).1
    have hsub := collects.sub as
    have hlength := hsub.length_le
    rw [hcount] at hlength
    have hnil : Apart d.contents (storeUsize len) := fun _ h => nomatch h
    have hfirst := loadUsize.iff hinside hlen htook hnil
    rw [apart_append] at hapart
    have hnext : (∀ len' d', MerkleDeserializer.loadUsize d = (.ok len', d') →
        (loadMany g len').Holds d' ∧ ∀ as' d₂, MerkleDeserializer.loadMany x len' d' = (.ok as', d₂) →
          as'.Pairwise (key · < key ·)) ↔
        (loadMany g len).Holds d₁ ∧ as.Pairwise (key · < key ·) := by
      rw [hlen]
      constructor
      · intro h
        obtain ⟨hmany, hsorted⟩ := h len d₁ rfl
        exact ⟨hmany, hsorted as d₂ has⟩
      · rintro ⟨hmany, hsorted⟩ _ _ ⟨⟩
        refine ⟨hmany, ?_⟩
        rw [has]
        rintro _ _ ⟨⟩
        exact hsorted
    rw [hnext, ← hfirst, hall.unique (htook.append htook'), buff_append, true_and]
    have hmany (hfixed : list (collect as) = as) := (loadMany g len).iff hinside₁ has htook'
      (by rw [← hfixed, htook.contents]; exact hapart.2)
    constructor
    · rintro ⟨hsound, hbuff⟩
      have hboth := congrArg List.length hbuff
      rw [List.length_append, List.length_append] at hboth
      have hshort := (length_storeUsize_mono hlength).trans hle
      have hshort' := (length_storeAll_le hsub).trans hle'
      obtain ⟨hbytes, hbytes'⟩ := List.append_inj hbuff (by omega)
      -- The length that is written is the one that was read.
      have hsame : (list (collect as)).length = len := by
        obtain ⟨byte, tail, read, hrest, hread, hd₁⟩ := loadUsize_eq_ok.mp hlen
        have hsmall := hlength.trans_lt (readUsize_lt hread)
        have hwritten := readUsize_storeUsize hsmall d₁.rest
        rw [hbytes, ← htook.rest, hrest, hread] at hwritten
        exact (Prod.mk.inj (Except.ok.inj hwritten)).1.symm
      have hperm : (list (collect as)).Perm as :=
        hsub.perm_of_length_le (by rw [hcount, hsame])
      have hkeys : ∀ a ∈ as, ∀ b ∈ as, key a = key b → a = b := by
        have hpairwise := (collects.sorted (collect as)).imp fun h => ne_of_lt h
        have hinj := List.inj_on_of_nodup_map (List.pairwise_map.mpr hpairwise)
        exact fun a ha b hb => hinj (hperm.symm.subset ha) (hperm.symm.subset hb)
      have hfixed := eq_of_storeAll g keyRead hinside₁ has hperm hkeys htook' hbytes'
      have hsorted := collects.sorted (collect as)
      rw [hfixed] at hsorted hsound hbytes'
      rw [hsame] at hbytes
      exact ⟨hbytes, (hmany hfixed).mp ⟨hsound, hbytes'⟩, hsorted⟩
    · rintro ⟨hbytes, hholds, hsorted⟩
      have hfixed := collects.fixed as hsorted
      obtain ⟨hsound, hbytes'⟩ := (hmany hfixed).mpr hholds
      rw [hfixed, hcount, hbytes, hbytes']
      exact ⟨hsound, rfl⟩

def ite {c : Prop} [Decidable c] {y : Load α} (gx : Canonical x w S) (gy : Canonical y w S) :
    Canonical (if c then x else y) w S where
  Holds d := if c then gx.Holds d else gy.Holds d
  took hinside h := by
    split at h
    · exact gx.took hinside h
    · exact gy.took hinside h
  iff hinside h htook hapart := by
    split at h
    · rw [if_pos ‹c›]
      exact gx.iff hinside h htook hapart
    · rw [if_neg ‹¬c›]
      exact gy.iff hinside h htook hapart

/-- Another name for the bytes and for soundness. -/
def of_eq (g : Canonical x w S) {out : α → MerkleSerializer} {T : α → Prop}
    (h : ∀ a, out a = w a ∧ (T a ↔ S a)) : Canonical x out T where
  Holds := g.Holds
  took {d a d'} hinside hx := (h a).1 ▸ g.took hinside hx
  iff {d a d' bytes} hinside hx htook hapart := by
    rw [(h a).1, (h a).2]
    exact g.iff hinside hx htook ((h a).1 ▸ hapart)

def throw (e : MerkleSerialError) : Canonical (Exec.throw e) w S :=
  quiet fun h => absurd h throw_ne_ok

def pure {a : α} (hout : (w a).buff = []) (hsound : S a) : Canonical (Pure.pure a) w S :=
  quiet fun h => by
    obtain ⟨rfl, rfl⟩ := pure_eq_ok.mp h
    exact ⟨rfl, rfl, rfl, hout, hsound⟩

end Canonical

/-! ## Types -/

/-- A type with canonical bytes for its sound values. -/
class CanonicalFormat (α : Type) [MerkleSerializeRaw α] [MerkleDeserializeRaw α] where
  Sound : α → Prop
  canonical : Canonical load store Sound

export CanonicalFormat (Sound)

open CanonicalFormat (canonical)

def Canonical.loadLE (len : ℕ) : Canonical (loadLE len) (storeLE len) fun _ => True :=
  (Canonical.loadRawBytes len).map fun _ hx h => by
    obtain ⟨rfl, rfl⟩ := pure_eq_ok.mp h
    obtain ⟨hle, rfl, -⟩ := loadRawBytes_eq_ok hx
    refine ⟨rfl, ?_, Iff.rfl⟩
    rw [storeLE]
    nth_rewrite 1 [← List.length_take_of_le hle]
    rw [Bytes.toLE_ofLE]

omit [Sha256] in
theorem loadLE_lt {len n : ℕ} {d d' : MerkleDeserializer} (h : loadLE len d = (.ok n, d')) :
    n < 256 ^ len := by
  obtain ⟨bytes, _, hbytes, hpure⟩ := bind_eq_ok.mp h
  obtain ⟨rfl, -⟩ := pure_eq_ok.mp hpure
  obtain ⟨hle, rfl, -⟩ := loadRawBytes_eq_ok hbytes
  have hlt := Bytes.ofLE_lt (d.rest.take len)
  rwa [List.length_take_of_le hle] at hlt

def Canonical.loadFin (len : ℕ) [NeZero (256 ^ len)] :
    Canonical (do return Fin.ofNat (256 ^ len) (← Merkle.loadLE len))
      (fun n : Fin (256 ^ len) => storeLE len n) fun _ => True :=
  (Canonical.loadLE len).map fun _ hx h => by
    obtain ⟨rfl, rfl⟩ := pure_eq_ok.mp h
    refine ⟨rfl, ?_, Iff.rfl⟩
    rw [Fin.val_ofNat, Nat.mod_eq_of_lt (loadLE_lt hx)]

instance : CanonicalFormat UInt8 := ⟨_, .popByte⟩
instance : CanonicalFormat U16 := ⟨_, .loadFin 2⟩
instance : CanonicalFormat U32 := ⟨_, .loadFin 4⟩
instance : CanonicalFormat U64 := ⟨_, .loadFin 8⟩
instance : CanonicalFormat U128 := ⟨_, .loadFin 16⟩
instance : CanonicalFormat ℕ := ⟨_, .loadLE 8⟩

omit [Sha256] in
theorem storeBool_eq_iff (byte : UInt8) :
    (store (decide (byte = 1))).buff = (storeByte byte).buff ↔ byte.toNat < 2 := by
  change [if decide (byte = 1) = true then (1 : UInt8) else 0] = [byte] ↔ _
  by_cases hone : byte = 1
  · subst hone
    decide
  · simp only [hone, decide_false, Bool.false_eq_true, if_false, List.cons.injEq, and_true]
    constructor
    · rintro rfl
      decide
    · intro hlt
      refine UInt8.toNat_inj.mp ?_
      have hne : byte.toNat ≠ 1 := fun h => hone (UInt8.toNat_inj.mp h)
      change 0 = byte.toNat
      omega

omit [Sha256] in
theorem utf8_of_fromUtf8 {bytes : Bytes} {text : String} (h : fromUtf8 bytes = .ok text) :
    utf8 text = bytes := by
  rw [fromUtf8, String.fromUTF8?] at h
  split at h
  · obtain rfl := Except.ok.inj h
    rfl
  · cases h

/-- The byte is zero or one. -/
instance : CanonicalFormat Bool where
  Sound _ := True
  canonical :=
    { Holds := fun d => ∀ byte tail, d.rest = byte :: tail → byte.toNat < 2
      took := fun {d b d'} hinside h => by
        obtain ⟨byte, d₁, hbyte, hpure⟩ := bind_eq_ok.mp h
        obtain ⟨rfl, rfl⟩ := pure_eq_ok.mp hpure
        obtain ⟨bytes, htook, hle⟩ := Canonical.popByte.took hinside hbyte
        exact ⟨bytes, htook, hle⟩
      iff := fun {d b d' bytes} hinside h htook hapart => by
        obtain ⟨byte, d₁, hbyte, hpure⟩ := bind_eq_ok.mp h
        obtain ⟨rfl, rfl⟩ := pure_eq_ok.mp hpure
        have hone := (Canonical.popByte.iff hinside hbyte htook fun _ h => nomatch h).mpr trivial
        obtain ⟨tail, hrest, -⟩ := popByte_eq_ok.mp hbyte
        have hholds : (∀ byte tail, d.rest = byte :: tail → byte.toNat < 2) ↔ byte.toNat < 2 := by
          rw [hrest]
          constructor
          · exact fun h => h byte tail rfl
          · rintro h _ _ ⟨⟩
            exact h
        rw [hholds, ← hone.2, true_and]
        exact storeBool_eq_iff byte }

instance : CanonicalFormat String where
  Sound _ := True
  canonical := Canonical.loadBytes.map fun _ _ h => by
    obtain ⟨htext, rfl⟩ := lift_eq_ok.mp h
    refine ⟨rfl, ?_, Iff.rfl⟩
    rw [← utf8_of_fromUtf8 htext]
    rfl

def Canonical.loadHash : Canonical loadHash storeHash fun _ => True :=
  (Canonical.loadRawBytes 32).map fun {d _ _ _ _} _ hx h => by
    obtain ⟨rfl, rfl⟩ := pure_eq_ok.mp h
    obtain ⟨hle, rfl, -⟩ := loadRawBytes_eq_ok hx
    refine ⟨rfl, ?_, Iff.rfl⟩
    have hlength : (d.rest.take 32).length = 32 := List.length_take_of_le hle
    have hlt := Bytes.ofBE_lt (d.rest.take 32)
    rw [hlength] at hlt
    rw [storeHash, Fin.val_ofNat, Nat.mod_eq_of_lt (hlt.trans_eq (by norm_num))]
    nth_rewrite 1 [← hlength]
    rw [Bytes.toBE_ofBE]

instance : CanonicalFormat Sha256Hash := ⟨_, .loadHash⟩

variable [MerkleSerializeRaw α] [MerkleDeserializeRaw α] [CanonicalFormat α]
  [MerkleSerializeRaw β] [MerkleDeserializeRaw β] [CanonicalFormat β]

/-- A byte that says whether there is a value. -/
def Canonical.optional {γ : Type} {x : Load γ} {w : γ → MerkleSerializer} {S : γ → Prop}
    (g : Canonical x w S) (e : UInt8 → MerkleSerialError) :
    Canonical (MerkleDeserializer.popByte >>= fun byte => if byte = 0 then Pure.pure none
      else if byte = 1 then x >>= fun c => Pure.pure (some c) else Exec.throw (e byte))
      (fun o => o.elim (storeByte 0) fun c => storeByte 1 ++ w c) fun o => ∀ c, o = some c → S c :=
  have some : Canonical (x >>= fun c => Pure.pure (some c)) (fun o : Option γ => o.elim new w)
      fun o => ∀ c, o = some c → S c :=
    g.map fun _ _ h => by
      obtain ⟨rfl, rfl⟩ := pure_eq_ok.mp h
      exact ⟨rfl, rfl, by simp⟩
  popByte.bind (fun _ => .ite (.pure rfl nofun) (.ite some (.throw _)))
    fun {_ byte _ o _} _ _ h => by
      by_cases hzero : byte = 0
      · rw [if_pos hzero] at h
        obtain ⟨rfl, -⟩ := pure_eq_ok.mp h
        exact ⟨by rw [hzero]; rfl, by simp⟩
      · rw [if_neg hzero] at h
        by_cases hone : byte = 1
        · rw [if_pos hone] at h
          obtain ⟨c, _, -, hpure⟩ := bind_eq_ok.mp h
          obtain ⟨rfl, -⟩ := pure_eq_ok.mp hpure
          exact ⟨by rw [hone]; rfl, by simp⟩
        · rw [if_neg hone] at h
          exact absurd h throw_ne_ok

instance : CanonicalFormat (Option α) where
  Sound o := ∀ a, o = some a → Sound a
  canonical := (canonical.optional _).of_eq fun o => ⟨by cases o <;> rfl, Iff.rfl⟩

instance : CanonicalFormat (α × β) where
  Sound pair := Sound pair.1 ∧ Sound pair.2
  canonical :=
    have rest (a : α) : Canonical (load >>= fun b => pure (a, b))
        (fun pair : α × β => store pair.2) fun pair => Sound pair.2 :=
      canonical.map fun _ _ h => by
        obtain ⟨rfl, rfl⟩ := pure_eq_ok.mp h
        exact ⟨rfl, rfl, Iff.rfl⟩
    canonical.bind rest fun _ _ h => by
      obtain ⟨b, _, -, hpure⟩ := bind_eq_ok.mp h
      obtain ⟨rfl, -⟩ := pure_eq_ok.mp hpure
      exact ⟨rfl, Iff.rfl⟩

/-! ## Collections -/

def Canonical.withCapacity (len : ℕ) :
    Canonical (withCapacity len) (fun _ => new) fun _ => True :=
  quiet fun h => by
    rw [MerkleDeserializer.withCapacity, bind_eq_ok] at h
    obtain ⟨_, t, hensure, hmodify⟩ := h
    obtain ⟨-, rfl⟩ := ensure_eq_ok.mp hensure
    obtain rfl := modify_eq_ok.mp hmodify
    exact ⟨rfl, rfl, rfl, rfl, trivial⟩

instance : CanonicalFormat (List α) where
  Sound as := ∀ a ∈ as, Sound a
  canonical :=
    have elements (len : ℕ) : Canonical
        (MerkleDeserializer.withCapacity len >>= fun _ => loadMany (load : Load α) len)
        (storeAll store) fun as => ∀ a ∈ as, Sound a :=
      (Canonical.withCapacity len).bind (fun _ => .loadMany canonical len) fun _ _ _ =>
        ⟨rfl, (true_and _).symm ▸ Iff.rfl⟩
    Canonical.loadUsize.bind elements fun {_ len _ as _} _ _ h => by
      obtain ⟨_, _, -, hmany⟩ := bind_eq_ok.mp h
      refine ⟨?_, (true_and _).symm ▸ Iff.rfl⟩
      rw [← (Canonical.isRead_of_mem hmany).1]
      rfl

/-- Keys of sets and maps: whatever is read fits, and refers to no other layers. -/
class PlainKey (α : Type) [MerkleSerializeRaw α] [MerkleDeserializeRaw α] [LawfulMerkle α] :
    Prop where
  fits : ∀ {a : α}, Canonical.IsRead load a → Fits a
  childless : ∀ a : α, (store a).children = []

section

instance : PlainKey UInt8 := ⟨fun _ => trivial, fun _ => rfl⟩
instance : PlainKey U16 := ⟨fun _ => trivial, fun _ => rfl⟩
instance : PlainKey U32 := ⟨fun _ => trivial, fun _ => rfl⟩
instance : PlainKey U64 := ⟨fun _ => trivial, fun _ => rfl⟩
instance : PlainKey U128 := ⟨fun _ => trivial, fun _ => rfl⟩
instance : PlainKey Bool := ⟨fun _ => trivial, fun _ => rfl⟩
instance : PlainKey String := ⟨fun _ => trivial, fun _ => rfl⟩
instance : PlainKey Sha256Hash := ⟨fun _ => trivial, fun _ => rfl⟩

instance : PlainKey ℕ where
  fits := fun ⟨_, _, h⟩ => (loadLE_lt h).trans_eq (by norm_num [usizeLimit])
  childless _ := rfl

variable [LawfulMerkle α] [PlainKey α] [LawfulMerkle β] [PlainKey β]

omit [CanonicalFormat α] in
instance : PlainKey (Option α) where
  fits := by
    rintro o ⟨d, d', h⟩ a rfl
    obtain ⟨byte, d₁, -, h⟩ := bind_eq_ok.mp h
    by_cases hzero : byte = 0
    · rw [if_pos hzero] at h
      exact nomatch (pure_eq_ok.mp h).1
    · rw [if_neg hzero] at h
      by_cases hone : byte = 1
      · rw [if_pos hone] at h
        obtain ⟨b, d₂, hb, hpure⟩ := bind_eq_ok.mp h
        obtain ⟨heq, -⟩ := pure_eq_ok.mp hpure
        obtain rfl := Option.some.inj heq
        exact PlainKey.fits ⟨d₁, d₂, hb⟩
      · rw [if_neg hone] at h
        exact absurd h throw_ne_ok
  childless
    | none => rfl
    | some a => PlainKey.childless a

omit [CanonicalFormat α] [CanonicalFormat β] in
instance : PlainKey (α × β) where
  fits := by
    rintro pair ⟨d, d', h⟩
    obtain ⟨a, d₁, ha, h⟩ := bind_eq_ok.mp h
    obtain ⟨b, d₂, hb, hpure⟩ := bind_eq_ok.mp h
    obtain ⟨rfl, -⟩ := pure_eq_ok.mp hpure
    exact ⟨PlainKey.fits ⟨d, d₁, ha⟩, PlainKey.fits ⟨d₁, d₂, hb⟩⟩
  childless pair := by
    change (store pair.1).children ++ (store pair.2).children = []
    rw [PlainKey.childless, PlainKey.childless, List.append_nil]

end

section

variable [LawfulMerkle α] [PlainKey α]

omit [CanonicalFormat α] in
theorem PlainKey.keyRead : Canonical.KeyRead load store (id : α → α) := by
  intro d a d' b hinside h hb hprefix
  have hat : d.At (store b) := by
    refine ⟨?_, hinside.le, hprefix, ?_⟩
    · exact (hinside.small _ (.refl _)).trans (by decide)
    · rw [PlainKey.childless]
      exact List.forall_mem_nil _
  obtain ⟨requests, hrun⟩ := LawfulMerkle.reads (PlainKey.fits hb) d hat
  rw [hrun] at h
  exact (Except.ok.inj (Prod.mk.inj h).1).symm

omit [CanonicalFormat α] [CanonicalFormat β] in
theorem PlainKey.keyRead_pair :
    Canonical.KeyRead load store (Prod.fst : α × β → α) := by
  intro d a d' b hinside h hb hprefix
  obtain ⟨k, d₁, hk, hrest⟩ := bind_eq_ok.mp h
  obtain ⟨v, _, -, hpure⟩ := bind_eq_ok.mp hrest
  obtain ⟨rfl, -⟩ := pure_eq_ok.mp hpure
  obtain ⟨e, e', he⟩ := hb
  obtain ⟨k', e₁, hk', hrest'⟩ := bind_eq_ok.mp he
  obtain ⟨v', _, -, hpure'⟩ := bind_eq_ok.mp hrest'
  obtain ⟨rfl, -⟩ := pure_eq_ok.mp hpure'
  exact PlainKey.keyRead hinside hk ⟨e, e₁, hk'⟩ ((List.prefix_append _ _).trans hprefix)

variable [LinearOrder α]

omit [Sha256] [MerkleSerializeRaw α] [MerkleDeserializeRaw α] [CanonicalFormat α]
  [LawfulMerkle α] [PlainKey α] in
theorem collects_finset :
    Canonical.Collects (id : α → α) List.toFinset fun s : Finset α => s.sort (· ≤ ·) where
  sub as := (Finset.sort_nodup _ _).subperm fun a ha =>
    List.mem_toFinset.mp ((Finset.mem_sort _).mp ha)
  sorted s := s.sortedLT_sort.pairwise
  fixed as h := by
    have hperm : (as.toFinset.sort (· ≤ ·)).Perm as :=
      (List.perm_ext_iff_of_nodup (Finset.sort_nodup _ _) (h.imp fun h => ne_of_lt h)).mpr
        fun a => by rw [Finset.mem_sort, List.mem_toFinset]
    exact hperm.eq_of_pairwise' as.toFinset.sortedLT_sort.pairwise h

omit [Sha256] [MerkleSerializeRaw α] [MerkleDeserializeRaw α] [CanonicalFormat α]
  [MerkleSerializeRaw β] [MerkleDeserializeRaw β] [CanonicalFormat β] [LawfulMerkle α]
  [PlainKey α] in
theorem collects_sortedMap :
    Canonical.Collects (Prod.fst : α × β → α) SortedMap.ofList SortedMap.toList where
  sub _ := (SortedMap.nodup_keys _).of_map.subperm fun _ h => SortedMap.mem_of_mem_ofList h
  sorted m := m.sorted
  fixed entries h := congrArg SortedMap.toList (SortedMap.ofList_toList ⟨entries, h⟩)

instance : CanonicalFormat (Finset α) where
  Sound s := ∀ a ∈ s.sort (· ≤ ·), Sound a
  canonical := (Canonical.collection canonical PlainKey.keyRead collects_finset).of_eq fun s => by
    rw [Finset.length_sort]
    exact ⟨rfl, Iff.rfl⟩

instance : CanonicalFormat (SortedMap α β) where
  Sound m := ∀ entry ∈ m.toList, Sound entry
  canonical := Canonical.collection canonical PlainKey.keyRead_pair collects_sortedMap

end

/-! ## Layers below -/

theorem loadByHash_eq_ok {x : Load γ} {c : γ} {d d' : MerkleDeserializer}
    (h : (MerkleDeserializer.loadHash >>= loadByGivenHash x) d = (.ok c, d')) :
    ∃ hash d₁ child below, MerkleDeserializer.loadHash d = (.ok hash, d₁) ∧
      d₁.contents.children.find? (·.hash = hash) = some child ∧
      x ⟨child, 0, d₁.requests⟩ = (.ok c, below) ∧
      below.contents.payload.length = below.pos ∧
      d' = { d₁ with requests := below.requests } := by
  obtain ⟨hash, d₁, hhash, h⟩ := bind_eq_ok.mp h
  cases hfind : d₁.contents.children.find? (·.hash = hash) with
  | none =>
    rw [loadByGivenHash_of_none x hfind] at h
    cases h
  | some child =>
    rw [loadByGivenHash_of_some x hfind] at h
    obtain ⟨hresult, rfl⟩ := Prod.mk.inj h
    have hrun : loadWhole x ⟨child, 0, d₁.requests⟩ =
        (.ok c, (loadWhole x ⟨child, 0, d₁.requests⟩).2) := Prod.ext hresult rfl
    obtain ⟨c', below, hx, hrest⟩ := bind_eq_ok.mp hrun
    obtain ⟨_, below', hfinish, hpure⟩ := bind_eq_ok.mp hrest
    obtain ⟨rfl, hbelow⟩ := pure_eq_ok.mp hpure
    rw [MerkleDeserializer.finish, get_bind, ensure_eq_ok] at hfinish
    obtain ⟨hend, rfl⟩ := hfinish
    exact ⟨hash, d₁, child, below, hhash, hfind, hx, hend, by rw [← hbelow]⟩

omit [Sha256] in
theorem storeHash_inj {hash hash' : Sha256Hash} :
    (storeHash hash).buff = (storeHash hash').buff ↔ hash = hash' := by
  constructor
  · intro h
    have hlt (hash : Sha256Hash) : hash.val < 256 ^ 32 := hash.isLt.trans_eq (by norm_num)
    have hval := congrArg Bytes.ofBE h
    change Bytes.ofBE (Bytes.toBE 32 hash.val) = Bytes.ofBE (Bytes.toBE 32 hash'.val) at hval
    rw [Bytes.ofBE_toBE (hlt hash), Bytes.ofBE_toBE (hlt hash')] at hval
    exact Fin.ext hval
  · exact fun h => h ▸ rfl

/-- What is read to the end takes the whole payload. -/
theorem Canonical.whole {x : Load γ} {w : γ → MerkleSerializer} {S : γ → Prop}
    (g : Canonical x w S) {contents : MerkleContents} {requests : List (ℕ × ℕ)} {c : γ}
    {d : MerkleDeserializer} (hinside : Inside ⟨contents, 0, requests⟩)
    (h : x ⟨contents, 0, requests⟩ = (.ok c, d)) (hend : d.contents.payload.length = d.pos) :
    Took ⟨contents, 0, requests⟩ d contents.payload := by
  obtain ⟨all, hall, -⟩ := g.took hinside h
  have hrest : contents.payload = all ++ d.rest := hall.rest
  have hnil : d.rest = [] := by
    rw [rest, ← hend]
    exact List.drop_length
  rw [hnil, List.append_nil] at hrest
  exact hrest ▸ hall

/-- What is stored by its hash is canonical if the layer with the hash is. -/
def Canonical.storeByHash {x : Load γ} {w : γ → MerkleSerializer} {S : γ → Prop}
    (g : Canonical x w S) :
    Canonical (MerkleDeserializer.loadHash >>= loadByGivenHash x)
      (fun c => MerkleSerializer.storeByHash (w c)) S where
  Holds d := ∀ hash d₁ child, MerkleDeserializer.loadHash d = (.ok hash, d₁) →
    d₁.contents.children.find? (·.hash = hash) = some child → g.Holds ⟨child, 0, d₁.requests⟩
  took {d c d'} hinside h := by
    obtain ⟨hash, d₁, child, below, hhash, -, -, -, rfl⟩ := loadByHash_eq_ok h
    obtain ⟨bytes, htook, hle⟩ := Canonical.loadHash.took hinside hhash
    refine ⟨bytes, ⟨htook.contents, htook.rest, htook.pos⟩, ?_⟩
    have hlength (hash : Sha256Hash) : (storeHash hash).buff.length = 32 := Bytes.length_toBE 32 _
    change (storeHash _).buff.length ≤ _
    rwa [hlength, ← hlength hash]
  iff {d c d' bytes} hinside h htook hapart := by
    obtain ⟨hash, d₁, child, below, hhash, hfind, hx, hend, rfl⟩ := loadByHash_eq_ok h
    have htook₁ : Took d d₁ bytes := ⟨htook.contents, htook.rest, htook.pos⟩
    have hbytes := (Canonical.loadHash.iff hinside hhash htook₁ fun _ h => nomatch h).mpr trivial
    have hmem : child ∈ d.contents.children := htook.contents ▸ List.mem_of_find?_eq_some hfind
    have hchild : child.hash = hash := by simpa using List.find?_some hfind
    have hinside' : Inside ⟨child, 0, d₁.requests⟩ :=
      ⟨Nat.zero_le _, fun within hwithin => hinside.small within (.child hmem hwithin)⟩
    have hwhole : Took ⟨child, 0, d₁.requests⟩ below child.payload := g.whole hinside' hx hend
    have hapart' : Apart child (w c) := fun written hwritten part hpart read hread =>
      hapart _ (List.mem_singleton_self _) part (.child hwritten hpart) read (.child hmem hread)
    have hholds : (∀ hash d₁ child, MerkleDeserializer.loadHash d = (.ok hash, d₁) →
        d₁.contents.children.find? (·.hash = hash) = some child → g.Holds ⟨child, 0, d₁.requests⟩) ↔
        g.Holds ⟨child, 0, d₁.requests⟩ := by
      rw [hhash]
      constructor
      · exact fun h => h hash d₁ child rfl hfind
      · rintro h _ _ child' ⟨⟩ hfind'
        rw [hfind] at hfind'
        exact Option.some.inj hfind' ▸ h
    rw [hholds, ← g.iff hinside' hx hwhole hapart', ← hbytes.2]
    change S c ∧ (storeHash (w c).finish.hash).buff = (storeHash hash).buff ↔ _
    rw [storeHash_inj]
    refine and_congr_right fun _ => ⟨fun h => ?_, fun h => ?_⟩
    · exact hapart _ (List.mem_singleton_self _) _ (.refl _) child (.child hmem (.refl _))
        (h.trans hchild.symm)
    · rw [← hchild]
      exact congrArg Sha256.hash h

/-! ## Merkle maps -/

section

variable [FromMerkleKey K] [MerkleSerializeRaw V] [MerkleDeserializeRaw V] [CanonicalFormat V]

instance : CanonicalFormat (LeafEntry K V) where
  Sound entry := Sound entry.value
  canonical :=
    have value (bytes : Bytes) (key : K) : Canonical
        (load >>= fun value => pure (⟨⟨bytes⟩, key, value⟩ : LeafEntry K V))
        (fun entry => store entry.value) fun entry => Sound entry.value :=
      canonical.map fun _ _ h => by
        obtain ⟨rfl, rfl⟩ := pure_eq_ok.mp h
        exact ⟨rfl, rfl, Iff.rfl⟩
    have rest (bytes : Bytes) : Canonical
        (lift (FromMerkleKey.fromMerkleKey bytes) >>= fun key =>
          load >>= fun value => pure (⟨⟨bytes⟩, key, value⟩ : LeafEntry K V))
        (fun entry => store entry.value) fun entry => Sound entry.value :=
      (Canonical.quiet (w := fun _ => new) (S := fun _ => True) fun h => by
        obtain ⟨-, rfl⟩ := lift_eq_ok.mp h
        exact ⟨rfl, rfl, rfl, rfl, trivial⟩).bind (value bytes) fun _ _ _ =>
          ⟨rfl, (true_and _).symm ▸ Iff.rfl⟩
    Canonical.loadBytes.bind rest fun _ _ h => by
      obtain ⟨key, _, -, hvalue⟩ := bind_eq_ok.mp h
      obtain ⟨v, _, -, hpure⟩ := bind_eq_ok.mp hvalue
      obtain ⟨rfl, -⟩ := pure_eq_ok.mp hpure
      exact ⟨rfl, (true_and _).symm ▸ Iff.rfl⟩

namespace Canonical

def popMagicByte (expected : UInt8) :
    Canonical (popMagicByte expected) (fun _ => storeByte expected) fun _ => True :=
  popByte.map fun _ _ h => by
    obtain ⟨rfl, rfl⟩ := ensure_eq_ok.mp h
    exact ⟨rfl, rfl, Iff.rfl⟩

def ensure {c : Prop} [Decidable c] {e : MerkleSerialError} :
    Canonical (Exec.ensure c e) (fun _ => new) fun _ => True :=
  quiet fun h => by
    obtain ⟨-, rfl⟩ := ensure_eq_ok.mp h
    exact ⟨rfl, rfl, rfl, rfl, trivial⟩

def loadLeafContents : Canonical (LeafContents.merkleDeserialize : Load (List (LeafEntry K V)))
    LeafContents.merkleSerialize fun values => ∀ entry ∈ values, Sound entry :=
  have entries (len : ℕ) : Canonical (Exec.ensure (len ≤ 16)
      (.leafContentLimitExceeded 16 len) >>= fun _ =>
        MerkleDeserializer.loadMany (load : Load (LeafEntry K V)) len)
      (storeAll store) fun values => ∀ entry ∈ values, Sound entry :=
    ensure.bind (fun _ => loadMany canonical len) fun _ _ _ =>
      ⟨rfl, (true_and _).symm ▸ Iff.rfl⟩
  have counted (_ : Unit) : Canonical (MerkleDeserializer.loadUsize >>= fun len => Exec.ensure
      (len ≤ 16) (.leafContentLimitExceeded 16 len) >>= fun _ =>
        MerkleDeserializer.loadMany (load : Load (LeafEntry K V)) len)
      (fun values => storeUsize values.length ++ storeAll store values)
      fun values => ∀ entry ∈ values, Sound entry :=
    loadUsize.bind entries fun _ _ h => by
      obtain ⟨_, _, -, hmany⟩ := bind_eq_ok.mp h
      exact ⟨by rw [(isRead_of_mem hmany).1], (true_and _).symm ▸ Iff.rfl⟩
  (popMagicByte 42).bind counted fun _ _ _ =>
    ⟨MerkleSerializer.append_assoc _ _ _, (true_and _).symm ▸ Iff.rfl⟩

def loadLeaf : Canonical (TreeContents.loadLeaf : Load (Option (LeafEntry K V))) storeLeaf
    fun leaf => ∀ entry, leaf = some entry → Sound entry :=
  (optional canonical _).of_eq fun leaf => ⟨by cases leaf <;> rfl, Iff.rfl⟩

omit [Sha256] [FromMerkleKey K] [MerkleSerializeRaw V] [MerkleDeserializeRaw V]
  [CanonicalFormat V] in
theorem checkEmpty_eq_ok {node : Node K V} {empty : Bool} {d d' : MerkleDeserializer}
    (h : node.checkEmpty d = (.ok empty, d')) : empty = node.isEmpty ∧ d' = d := by
  cases node with
  | leaf values =>
    obtain ⟨rfl, rfl⟩ := pure_eq_ok.mp h
    exact ⟨rfl, rfl⟩
  | tree len leaf branches =>
    obtain ⟨_, _, hensure, hpure⟩ := bind_eq_ok.mp h
    obtain ⟨-, rfl⟩ := ensure_eq_ok.mp hensure
    obtain ⟨rfl, rfl⟩ := pure_eq_ok.mp hpure
    exact ⟨rfl, rfl⟩

omit [Sha256] [FromMerkleKey K] [MerkleSerializeRaw V] [MerkleDeserializeRaw V]
  [CanonicalFormat V] in
/-- Other branches are left alone. -/
theorem loadBranches_eq_ok {x : Load (Node K V)} {is : List Nibble}
    {start branches : Nibble → Option (Node K V)} {d d' : MerkleDeserializer}
    (h : TreeContents.loadBranches x is start d = (.ok branches, d')) {j : Nibble} (hj : j ∉ is) :
    branches j = start j := by
  induction is generalizing start d with
  | nil =>
    obtain ⟨rfl, -⟩ := pure_eq_ok.mp h
    rfl
  | cons i is ih =>
    obtain ⟨node, d₁, -, hrest⟩ := bind_eq_ok.mp h
    obtain ⟨empty, d₂, -, hrest⟩ := bind_eq_ok.mp hrest
    rw [List.mem_cons, not_or] at hj
    rw [ih hrest hj.2]
    split
    · rfl
    · rw [Function.update_of_ne hj.1]

omit [FromMerkleKey K] [MerkleDeserializeRaw V] [CanonicalFormat V] in
theorem storeByHash_slot {node : Node K V} :
    slotSerialize (if node.isEmpty then none else some node) =
      MerkleSerializer.storeByHash node.merkleSerialize := by
  cases node with
  | tree len leaf branches => rfl
  | leaf values =>
    cases values with
    | nil =>
      change MerkleSerializer.storeByHash emptyBranchSerialize =
        MerkleSerializer.storeByHash (LeafContents.merkleSerialize [])
      rw [LeafContents.merkleSerialize, storeAll, append_new]
      rfl
    | cons entry values => rfl

/-- The branches of a tree are canonical if their layers are. -/
def loadBranches {x : Load (Node K V)} {S : Nibble → Node K V → Prop}
    (g : ∀ i, Canonical x (fun node => MerkleSerializer.storeByHash node.merkleSerialize) (S i))
    (hempty : ∀ i node, node.isEmpty = true → S i node) : (is : List Nibble) →
    (start : Nibble → Option (Node K V)) → is.Nodup → (∀ i ∈ is, start i = none) →
    Canonical (TreeContents.loadBranches x is start)
      (fun branches => storeAll (fun i => slotSerialize (branches i)) is)
      fun branches => ∀ i ∈ is, ∀ node, branches i = some node → S i node
  | [], _, _, _ => pure rfl (List.forall_mem_nil _)
  | i :: is, start, nodup, hstart =>
    have hnext (node : Node K V) (empty : Bool) : ∀ j ∈ is,
        (if empty then start else Function.update start i (some node)) j = none := by
      intro j hj
      have hne : j ≠ i := fun h => (List.nodup_cons.mp nodup).1 (h ▸ hj)
      split
      · exact hstart j (List.mem_cons_of_mem _ hj)
      · rw [Function.update_of_ne hne, hstart j (List.mem_cons_of_mem _ hj)]
    have checked (node : Node K V) : Canonical (node.checkEmpty >>= fun empty =>
        TreeContents.loadBranches x is
          (if empty then start else Function.update start i (some node)))
        (fun branches => storeAll (fun i => slotSerialize (branches i)) is)
        fun branches => ∀ i ∈ is, ∀ node, branches i = some node → S i node :=
      (quiet (w := fun _ => new) (S := fun _ => True) fun h => by
        obtain ⟨-, rfl⟩ := checkEmpty_eq_ok h
        exact ⟨rfl, rfl, rfl, rfl, trivial⟩).bind
        (fun empty => loadBranches g hempty is _ (List.nodup_cons.mp nodup).2 (hnext node empty))
        fun _ _ _ => ⟨rfl, (true_and _).symm ▸ Iff.rfl⟩
    (g i).bind checked fun {_ node _ branches _} _ _ h => by
      obtain ⟨empty, d₂, hcheck, hrest⟩ := bind_eq_ok.mp h
      obtain ⟨rfl, -⟩ := checkEmpty_eq_ok hcheck
      have hslot : branches i = if node.isEmpty then none else some node := by
        rw [loadBranches_eq_ok hrest (List.nodup_cons.mp nodup).1]
        split
        · exact hstart i (List.mem_cons_self ..)
        · rw [Function.update_self]
      refine ⟨?_, ?_⟩
      · rw [storeAll, hslot, storeByHash_slot]
      · rw [List.forall_mem_cons, hslot]
        refine and_congr_left fun _ => ?_
        by_cases hnode : node.isEmpty = true
        · simp [hnode, hempty i node hnode]
        · simp [hnode]

omit [Sha256] [FromMerkleKey K] [MerkleSerializeRaw V] [MerkleDeserializeRaw V]
  [CanonicalFormat V] in
/-- Empty branches are left out. -/
theorem loadBranches_nonempty {x : Load (Node K V)} {is : List Nibble}
    {start branches : Nibble → Option (Node K V)} {d d' : MerkleDeserializer}
    (h : TreeContents.loadBranches x is start d = (.ok branches, d'))
    (hstart : ∀ j node, start j = some node → node.isEmpty = false) :
    ∀ j node, branches j = some node → node.isEmpty = false := by
  induction is generalizing start d with
  | nil =>
    obtain ⟨rfl, -⟩ := pure_eq_ok.mp h
    exact hstart
  | cons i is ih =>
    obtain ⟨node, d₁, -, hrest⟩ := bind_eq_ok.mp h
    obtain ⟨empty, d₂, hcheck, hrest⟩ := bind_eq_ok.mp hrest
    obtain ⟨rfl, -⟩ := checkEmpty_eq_ok hcheck
    refine ih hrest fun j node' hj => ?_
    by_cases hempty : node.isEmpty = true
    · rw [if_pos hempty] at hj
      exact hstart j node' hj
    · rw [if_neg hempty] at hj
      by_cases hji : j = i
      · rw [hji, Function.update_self] at hj
        rw [← Option.some.inj hj]
        exact Bool.eq_false_iff.mpr hempty
      · rw [Function.update_of_ne hji] at hj
        exact hstart j node' hj

/-- A tree is canonical if its branches are. -/
def loadTreeContents {x : Load (Node K V)} {S : Nibble → Node K V → Prop}
    (g : ∀ i, Canonical x (fun node => MerkleSerializer.storeByHash node.merkleSerialize) (S i))
    (hempty : ∀ i node, node.isEmpty = true → S i node) :
    Canonical (TreeContents.merkleDeserialize x) (fun tree => tree.node.merkleSerialize)
      fun tree => (∀ entry, tree.leaf = some entry → Sound entry) ∧
        ∀ i node, tree.branches i = some node → S i node :=
  have branches (len : ℕ) (leaf : Option (LeafEntry K V)) : Canonical
      (TreeContents.loadBranches x (List.finRange 16) (fun _ => none) >>= fun branches =>
        Pure.pure (⟨len, leaf, branches⟩ : TreeContents K V))
      (fun tree => storeAll (fun i => slotSerialize (tree.branches i)) (List.finRange 16))
      fun tree => ∀ i node, tree.branches i = some node → S i node :=
    (loadBranches g hempty _ _ (List.nodup_finRange 16) fun _ _ => rfl).map fun _ _ h => by
      obtain ⟨rfl, rfl⟩ := pure_eq_ok.mp h
      exact ⟨rfl, rfl, by simp⟩
  have leaf (len : ℕ) : Canonical (TreeContents.loadLeaf >>= fun leaf =>
      TreeContents.loadBranches x (List.finRange 16) (fun _ => none) >>= fun branches =>
        Pure.pure (⟨len, leaf, branches⟩ : TreeContents K V))
      (fun tree => storeLeaf tree.leaf ++
        storeAll (fun i => slotSerialize (tree.branches i)) (List.finRange 16))
      fun tree => (∀ entry, tree.leaf = some entry → Sound entry) ∧
        ∀ i node, tree.branches i = some node → S i node :=
    loadLeaf.bind (branches len) fun _ _ h => by
      obtain ⟨_, _, -, hpure⟩ := bind_eq_ok.mp h
      obtain ⟨rfl, -⟩ := pure_eq_ok.mp hpure
      exact ⟨rfl, Iff.rfl⟩
  have counted (_ : Unit) : Canonical (MerkleDeserializer.loadUsize >>= fun len =>
      TreeContents.loadLeaf >>= fun leaf =>
      TreeContents.loadBranches x (List.finRange 16) (fun _ => none) >>= fun branches =>
        Pure.pure (⟨len, leaf, branches⟩ : TreeContents K V))
      (fun tree => storeUsize tree.len ++ (storeLeaf tree.leaf ++
        storeAll (fun i => slotSerialize (tree.branches i)) (List.finRange 16)))
      fun tree => (∀ entry, tree.leaf = some entry → Sound entry) ∧
        ∀ i node, tree.branches i = some node → S i node :=
    loadUsize.bind leaf fun _ _ h => by
      obtain ⟨_, _, -, hbranches⟩ := bind_eq_ok.mp h
      obtain ⟨_, _, -, hpure⟩ := bind_eq_ok.mp hbranches
      obtain ⟨rfl, -⟩ := pure_eq_ok.mp hpure
      exact ⟨rfl, (true_and _).symm ▸ Iff.rfl⟩
  (popMagicByte 43).bind counted fun {_ _ _ tree _} _ _ _ => by
    refine ⟨?_, (true_and _).symm ▸ Iff.rfl⟩
    change storeByte 43 ++ storeUsize tree.len ++ storeLeaf tree.leaf ++ storeAll _ _ = _
    rw [MerkleSerializer.append_assoc, MerkleSerializer.append_assoc]

end Canonical

/-! ## Nodes -/

/-- The entries of a leaf are in order, and their keys begin with the path. -/
structure LeafContents.Ordered (path : List Nibble) (values : List (LeafEntry K V)) : Prop where
  sorted : values.Pairwise LeafEntry.Before
  below : ∀ entry ∈ values, path <+: entry.keyBytes.nibbles

/-- A tree declares the entries it has, more than a leaf holds, and its own ends at the path. -/
structure TreeContents.Counted (path : List Nibble) (tree : TreeContents K V) : Prop where
  large : 16 < tree.len
  count : tree.len = childrenLen tree.leaf tree.branches
  ends : ∀ entry, tree.leaf = some entry → entry.keyBytes.nibbles = path

/-- A valid node with sound values. -/
structure Node.SoundAt (path : List Nibble) (node : Node K V) : Prop where
  valid : node.Valid path
  sound : ∀ entry ∈ node.entries, Sound entry

theorem Node.soundAt_of_isEmpty {path : List Nibble} {node : Node K V}
    (h : node.isEmpty = true) : node.SoundAt path := by
  cases node with
  | tree len leaf branches => cases h
  | leaf values =>
    obtain rfl := List.isEmpty_iff.mp h
    exact ⟨Node.valid_default, List.forall_mem_nil _⟩

theorem LeafContents.soundAt_leaf {path : List Nibble} {values : List (LeafEntry K V)}
    {d d' : MerkleDeserializer} (h : LeafContents.merkleDeserialize d = (.ok values, d')) :
    (Node.leaf values).SoundAt path ↔
      (∀ entry ∈ values, Sound entry) ∧ LeafContents.Ordered path values := by
  obtain ⟨_, _, -, h⟩ := bind_eq_ok.mp h
  obtain ⟨len, _, -, h⟩ := bind_eq_ok.mp h
  obtain ⟨_, _, hensure, hmany⟩ := bind_eq_ok.mp h
  have full : values.length ≤ 16 := by
    rw [(Canonical.isRead_of_mem hmany).1]
    exact (ensure_eq_ok.mp hensure).1
  constructor
  · rintro ⟨⟨-, sorted, below⟩, sound⟩
    exact ⟨sound, sorted, below⟩
  · rintro ⟨sound, sorted, below⟩
    exact ⟨.leaf full sorted below, sound⟩

theorem TreeContents.soundAt_tree {path : List Nibble} {x : Load (Node K V)}
    {tree : TreeContents K V} {d d' : MerkleDeserializer}
    (h : TreeContents.merkleDeserialize x d = (.ok tree, d')) :
    tree.node.SoundAt path ↔
      ((∀ entry, tree.leaf = some entry → Sound entry) ∧
        ∀ i node, tree.branches i = some node → node.SoundAt (path ++ [i])) ∧
      tree.Counted path := by
  obtain ⟨_, _, -, h⟩ := bind_eq_ok.mp h
  obtain ⟨len, _, -, h⟩ := bind_eq_ok.mp h
  obtain ⟨leaf, _, -, h⟩ := bind_eq_ok.mp h
  obtain ⟨branches, _, hbranches, hpure⟩ := bind_eq_ok.mp h
  obtain ⟨rfl, -⟩ := pure_eq_ok.mp hpure
  have nonempty := Canonical.loadBranches_nonempty hbranches nofun
  constructor
  · rintro ⟨hvalid, sound⟩
    obtain ⟨large, hvalid⟩ := Node.valid_tree.mp hvalid
    refine ⟨⟨fun entry hleaf => ?_, fun i node hnode => ⟨hvalid.children i node hnode, ?_⟩⟩,
      large, hvalid.count, hvalid.ends⟩
    · exact sound entry (TreeContents.mem_entries.mpr (.inl hleaf))
    · intro entry hentry
      exact sound entry (TreeContents.mem_entries.mpr
        (.inr ⟨i, mem_slotEntries.mpr ⟨node, hnode, hentry⟩⟩))
  · rintro ⟨⟨hleaf, hbranch⟩, large, count, ends⟩
    refine ⟨Node.valid_tree.mpr ⟨large, count, ends, fun i node hnode => (hbranch i node hnode).1,
      nonempty⟩, fun entry hentry => ?_⟩
    rcases TreeContents.mem_entries.mp hentry with hown | ⟨i, hi⟩
    · exact hleaf entry hown
    · obtain ⟨node, hnode, hmem⟩ := mem_slotEntries.mp hi
      exact (hbranch i node hnode).2 entry hmem

/-- A node is canonical at a path if its leaves are in order, its trees count right, and the layers
of its branches are canonical at their paths. -/
def Canonical.loadNode : (levels : ℕ) → (path : List Nibble) →
    Canonical (Node.merkleDeserialize levels : Load (Node K V)) Node.merkleSerialize
      (Node.SoundAt path)
  | 0, _ => .throw _
  | levels + 1, path =>
    have leaf : Canonical (LeafContents.merkleDeserialize >>= fun values =>
        Pure.pure (.leaf values : Node K V)) Node.merkleSerialize (Node.SoundAt path) :=
      (loadLeafContents.restrict (LeafContents.Ordered path)).map fun _ hx h => by
        obtain ⟨rfl, rfl⟩ := pure_eq_ok.mp h
        exact ⟨rfl, rfl, LeafContents.soundAt_leaf hx⟩
    have tree : Canonical (TreeContents.merkleDeserialize
        (MerkleDeserializer.loadHash >>= loadByGivenHash (Node.merkleDeserialize levels)) >>=
          fun tree : TreeContents K V => Pure.pure tree.node)
        Node.merkleSerialize (Node.SoundAt path) :=
      ((loadTreeContents (fun i => (loadNode levels (path ++ [i])).storeByHash)
        fun _ _ => Node.soundAt_of_isEmpty).restrict (TreeContents.Counted path)).map
        fun _ hx h => by
          obtain ⟨rfl, rfl⟩ := pure_eq_ok.mp h
          exact ⟨rfl, rfl, TreeContents.soundAt_tree hx⟩
    (quiet (w := fun _ => new) (S := fun _ => True) fun h => by
      obtain rfl := peekByte_eq_ok h
      exact ⟨rfl, rfl, rfl, rfl, trivial⟩).bind
      (fun _ => .ite leaf (.ite tree (.throw _)))
      fun _ _ _ => ⟨rfl, (true_and _).symm ▸ Iff.rfl⟩

variable {levels : ℕ} {path : List Nibble} {d : MerkleDeserializer} {tail : Bytes}

/-- The condition at a leaf. -/
theorem canonical_leaf_iff (h : d.rest = 42 :: tail) :
    (Canonical.loadNode (levels + 1) path : Canonical (Node.merkleDeserialize (levels + 1) :
      Load (Node K V)) _ _).Holds d ↔
    (Canonical.loadLeafContents (K := K) (V := V)).Holds d ∧
      ∀ (values : List (LeafEntry K V)) d', LeafContents.merkleDeserialize d = (.ok values, d') →
        LeafContents.Ordered path values := by
  have hpeek : peekByte d = (.ok 42, d) := by
    rw [peekByte, get_bind, h]
    rfl
  simp [Canonical.loadNode, Canonical.bind, Canonical.quiet, Canonical.ite, Canonical.map, Canonical.restrict, hpeek]

/-- The condition at a tree, with the conditions at its branches one level below. -/
theorem canonical_tree_iff (h : d.rest = 43 :: tail) :
    (Canonical.loadNode (levels + 1) path : Canonical (Node.merkleDeserialize (levels + 1) :
      Load (Node K V)) _ _).Holds d ↔
    (Canonical.loadTreeContents
      (fun i => (Canonical.loadNode (K := K) (V := V) levels (path ++ [i])).storeByHash)
      fun _ _ => Node.soundAt_of_isEmpty).Holds d ∧
      ∀ (tree : TreeContents K V) d', TreeContents.merkleDeserialize
        (loadHash >>= loadByGivenHash (Node.merkleDeserialize levels)) d = (.ok tree, d') →
        tree.Counted path := by
  have hpeek : peekByte d = (.ok 43, d) := by
    rw [peekByte, get_bind, h]
    rfl
  simp [Canonical.loadNode, Canonical.bind, Canonical.quiet, Canonical.ite, Canonical.map, Canonical.restrict, hpeek]

instance : CanonicalFormat (MerkleMap K V) where
  Sound map := map.node.SoundAt []
  canonical :=
    have node (d : MerkleDeserializer) : Canonical
        (Node.merkleDeserialize d.contents.levels >>= fun node =>
          Pure.pure (⟨node⟩ : MerkleMap K V))
        (fun map => map.node.merkleSerialize) fun map => map.node.SoundAt [] :=
      (Canonical.loadNode d.contents.levels []).map fun _ _ h => by
        obtain ⟨rfl, rfl⟩ := pure_eq_ok.mp h
        exact ⟨rfl, rfl, Iff.rfl⟩
    (Canonical.quiet (w := fun _ => new) (S := fun _ => True) fun h => by
      obtain ⟨rfl, rfl⟩ := get_eq_ok.mp h
      exact ⟨rfl, rfl, rfl, rfl, trivial⟩).bind node
      fun _ _ _ => ⟨rfl, (true_and _).symm ▸ Iff.rfl⟩

end

end Kolme.Merkle
