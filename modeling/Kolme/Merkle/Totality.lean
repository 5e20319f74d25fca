import Kolme.Merkle.NodeFormat

/-!
# Reading arbitrary bytes

A program is total on an input if it does not panic and asks for no buffer with room for more
elements than there are bytes left. The guard of a program is the condition on the input under which
it is total. Programs that read one thing after another have their guards one after another.
-/

namespace Kolme.Merkle

open Exec MerkleDeserializer

variable {α β K V : Type}

/-- The program returns a value or an error, and the buffers that it asks for are justified by the
bytes that are left. -/
def Total (x : Load α) (d : MerkleDeserializer) : Prop :=
  (x d).1 ≠ .error .panic ∧
    ∀ asked, (x d).2.requests = d.requests ++ asked → ∀ request ∈ asked, request.1 ≤ request.2

/-- The position is in the payload, and all layers are in the memory. -/
structure MerkleDeserializer.Inside (d : MerkleDeserializer) : Prop where
  le : d.pos ≤ d.contents.payload.length
  small : ∀ within, MerkleContents.Within within d.contents → within.payload.length < memoryLimit

/-- The condition under which a program is total. -/
structure Guard (x : Load α) where
  Holds : MerkleDeserializer → Prop
  total_iff : ∀ {d}, d.Inside → (Total x d ↔ Holds d)
  grows : ∀ d, ∃ asked, (x d).2.requests = d.requests ++ asked
  inside : ∀ {d a d'}, x d = (.ok a, d') → d.Inside → d'.Inside

namespace MerkleDeserializer

variable {d : MerkleDeserializer} {len : ℕ}

theorem Inside.advance (h : d.Inside) (hlen : d.pos + len ≤ d.contents.payload.length) :
    (d.advance len).Inside := ⟨hlen, h.small⟩

theorem Inside.length_rest (h : d.Inside) : d.rest.length < memoryLimit := by
  rw [rest, List.length_drop]
  exact (Nat.sub_le _ _).trans_lt (h.small _ (.refl _))

theorem peekByte_eq : peekByte d = (Except.fromOption .insufficientInput d.rest.head?, d) := rfl

theorem popByte_eq : popByte d = match d.rest.head? with
    | none => (.error .insufficientInput, d)
    | some byte => (.ok byte, d.advance 1) := by
  rw [popByte]
  cases hrest : d.rest.head? with
  | none => exact bind_of_error (by rw [peekByte_eq, hrest]; rfl)
  | some byte =>
    have hpeek : peekByte d = (.ok byte, d) := by rw [peekByte_eq, hrest]; rfl
    rw [bind_of_ok hpeek]
    rfl

theorem loadRawBytes_eq : loadRawBytes len d =
    if d.pos + len < usizeLimit then
      if d.pos + len ≤ d.contents.payload.length then (.ok (d.rest.take len), d.advance len)
      else (.error .insufficientInput, d)
    else (.error .panic, d) := by
  rw [loadRawBytes, get_bind]
  by_cases hlt : d.pos + len < usizeLimit
  · by_cases hle : d.pos + len ≤ d.contents.payload.length
    · simp only [ensure, Except.ensure, hlt, hle, if_true]
      rfl
    · rw [if_pos hlt, if_neg hle]
      simp only [ensure, Except.ensure_of hlt, Except.ensure_of_not hle]
      rfl
  · rw [if_neg hlt]
    simp only [ensure, Except.ensure_of_not hlt]
    rfl

theorem loadUsize_eq : loadUsize d = match readUsize d.rest 0 0 with
    | .ok (value, read) => (.ok value, d.advance read)
    | .error e => (.error e, d) := by
  rw [loadUsize, get_bind]
  cases hread : readUsize d.rest 0 0 with
  | error e => rfl
  | ok pair => rfl

theorem loadByGivenHash_of_none [Sha256] (x : Load α) {hash : Sha256Hash}
    (hfind : d.contents.children.find? (·.hash = hash) = none) :
    loadByGivenHash x hash d = (.error (.hashesNotFound {hash}), d) := by
  rw [loadByGivenHash, get_bind, hfind]
  rfl

theorem loadByGivenHash_of_some [Sha256] (x : Load α) {hash : Sha256Hash} {child : MerkleContents}
    (hfind : d.contents.children.find? (·.hash = hash) = some child) :
    loadByGivenHash x hash d = ((loadWhole x ⟨child, 0, d.requests⟩).1,
      { d with requests := (loadWhole x ⟨child, 0, d.requests⟩).2.requests }) := by
  rw [loadByGivenHash, get_bind, hfind]
  rfl

theorem readUsize_ne_panic (bytes : Bytes) (value read : ℕ) :
    readUsize bytes value read ≠ .error .panic := by
  induction bytes generalizing value read with
  | nil => simp [readUsize]
  | cons byte bytes ih =>
    rw [readUsize]
    split
    · simp
    · dsimp only
      split
      · simp
      · exact ih _ _

theorem readUsize_le {bytes : Bytes} {value read n read' : ℕ}
    (h : readUsize bytes value read = .ok (n, read')) : read' ≤ read + bytes.length := by
  induction bytes generalizing value read with
  | nil => simp [readUsize] at h
  | cons byte bytes ih =>
    rw [readUsize] at h
    split at h
    · cases h
    · dsimp only at h
      split at h
      · obtain ⟨-, rfl⟩ := Prod.mk.inj (Except.ok.inj h)
        rw [List.length_cons]
        omega
      · have hle := ih h
        rw [List.length_cons]
        omega

end MerkleDeserializer

namespace Guard

variable {x : Load α} {f : α → Load β}

/-- A program that never panics and asks for no buffer. -/
def quiet (hpanic : ∀ d, (x d).1 ≠ .error .panic) (hrequests : ∀ d, (x d).2.requests = d.requests)
    (hinside : ∀ {d a d'}, x d = (.ok a, d') → d.Inside → d'.Inside) : Guard x where
  Holds _ := True
  total_iff {d} _ := by
    refine iff_of_true ⟨hpanic d, fun asked hasked => ?_⟩ trivial
    rw [hrequests, List.self_eq_append_right] at hasked
    simp [hasked]
  grows d := ⟨[], by rw [hrequests, List.append_nil]⟩
  inside := hinside

def pure (a : α) : Guard (Pure.pure a : Load α) :=
  quiet (fun _ => nofun) (fun _ => rfl) fun h hinside => by
    obtain ⟨-, rfl⟩ := pure_eq_ok.mp h
    exact hinside

def lift {e : Except MerkleSerialError α} (h : e ≠ .error .panic) : Guard (Exec.lift e) :=
  quiet (fun _ => h) (fun _ => rfl) fun h hinside => by
    obtain ⟨-, rfl⟩ := lift_eq_ok.mp h
    exact hinside

def throw {e : MerkleSerialError} (h : e ≠ .panic) : Guard (Exec.throw e : Load α) :=
  lift fun he => h (Except.error.inj he)

def fromOption {e : MerkleSerialError} (h : e ≠ .panic) (o : Option α) :
    Guard (Exec.fromOption e o) :=
  lift (by cases o <;> simp [Except.fromOption, h])

def ensure {c : Prop} [Decidable c] {e : MerkleSerialError} (h : e ≠ .panic) :
    Guard (Exec.ensure c e) :=
  lift (by by_cases hc : c <;> simp [Except.ensure, hc, h])

def ite {c : Prop} [Decidable c] {y : Load α} (gx : Guard x) (gy : Guard y) :
    Guard (if c then x else y) where
  Holds d := if c then gx.Holds d else gy.Holds d
  total_iff hinside := by
    split
    · exact gx.total_iff hinside
    · exact gy.total_iff hinside
  grows d := by
    split
    · exact gx.grows d
    · exact gy.grows d
  inside h := by
    split at h
    · exact gx.inside h
    · exact gy.inside h

theorem total_iff_asked {d : MerkleDeserializer} {asked : List (ℕ × ℕ)}
    (hasked : (x d).2.requests = d.requests ++ asked) :
    Total x d ↔ (x d).1 ≠ .error .panic ∧ ∀ request ∈ asked, request.1 ≤ request.2 := by
  simp [Total, hasked]

/-- A run that goes on asks for what both parts ask for. -/
theorem total_bind (gx : Guard x) (gf : ∀ a, Guard (f a)) {d : MerkleDeserializer} :
    Total (x >>= f) d ↔ Total x d ∧ ∀ a d', x d = (.ok a, d') → Total (f a) d' := by
  obtain ⟨asked, hasked⟩ := gx.grows d
  rw [total_iff_asked hasked]
  cases hx : x d with
  | mk result d' =>
    rw [hx] at hasked
    cases result with
    | error e =>
      have hboth : ((x >>= f) d).2.requests = d.requests ++ asked := by
        rw [bind_of_error hx]
        exact hasked
      rw [total_iff_asked hboth, bind_of_error hx]
      simp
    | ok a =>
      obtain ⟨asked', hasked'⟩ := (gf a).grows d'
      have hboth : ((x >>= f) d).2.requests = d.requests ++ (asked ++ asked') := by
        rw [bind_of_ok hx, hasked', hasked, List.append_assoc]
      have hrest : (∀ b t, ((.ok a, d') : Except MerkleSerialError α × _) = (.ok b, t) →
          Total (f b) t) ↔ Total (f a) d' := by
        constructor
        · exact fun h => h a d' rfl
        · rintro h _ _ ⟨⟩
          exact h
      rw [total_iff_asked hboth, bind_of_ok hx, hrest, total_iff_asked hasked',
        List.forall_mem_append]
      simp only [ne_eq, reduceCtorEq, not_false_eq_true, true_and]
      exact and_left_comm

/-- One program after another. -/
def bind (gx : Guard x) (gf : ∀ a, Guard (f a)) : Guard (x >>= f) where
  Holds d := gx.Holds d ∧ ∀ a d', x d = (.ok a, d') → (gf a).Holds d'
  total_iff {d} hinside := by
    rw [total_bind gx gf, gx.total_iff hinside]
    exact and_congr_right fun _ => forall_congr' fun a => forall_congr' fun d' =>
      forall_congr' fun hx => (gf a).total_iff (gx.inside hx hinside)
  grows d := by
    obtain ⟨asked, hasked⟩ := gx.grows d
    cases hx : x d with
    | mk result d' =>
      rw [hx] at hasked
      cases result with
      | error e => exact ⟨asked, by rw [bind_of_error hx, hasked]⟩
      | ok a =>
        obtain ⟨asked', hasked'⟩ := (gf a).grows d'
        exact ⟨asked ++ asked', by rw [bind_of_ok hx, hasked', hasked, List.append_assoc]⟩
  inside h hinside := by
    obtain ⟨a, t, hx, hf⟩ := bind_eq_ok.mp h
    exact (gf a).inside hf (gx.inside hx hinside)

/-! ## Bytes -/

def get : Guard Exec.get :=
  quiet (fun _ => nofun) (fun _ => rfl) fun h hinside => by
    obtain ⟨-, rfl⟩ := get_eq_ok.mp h
    exact hinside

def peekByte : Guard peekByte :=
  bind get fun _ => fromOption (by decide) _

def popByte : Guard popByte :=
  quiet (fun d => by rw [popByte_eq]; split <;> nofun) (fun d => by rw [popByte_eq]; split <;> rfl)
    fun {d a d'} h hinside => by
      rw [popByte_eq] at h
      split at h
      · cases h
      · obtain ⟨-, rfl⟩ := Prod.mk.inj h
        refine hinside.advance ?_
        have hrest : d.rest ≠ [] := fun hnil => by simp_all
        have hpos := List.length_pos_of_ne_nil hrest
        rw [rest, List.length_drop] at hpos
        omega

/-- The end of the bytes is a machine word. -/
def loadRawBytes (len : ℕ) : Guard (loadRawBytes len) where
  Holds d := d.pos + len < usizeLimit
  total_iff {d} _ := by
    have hasked : (MerkleDeserializer.loadRawBytes len d).2.requests = d.requests ++ [] := by
      rw [loadRawBytes_eq, List.append_nil]
      split_ifs <;> rfl
    rw [total_iff_asked hasked, loadRawBytes_eq]
    split_ifs <;> simp [*]
  grows d := ⟨[], by
    rw [loadRawBytes_eq, List.append_nil]
    split_ifs <;> rfl⟩
  inside {d a d'} h hinside := by
    rw [loadRawBytes_eq] at h
    split_ifs at h with hlt hle
    · obtain ⟨-, rfl⟩ := Prod.mk.inj h
      exact hinside.advance hle
    · cases h
    · cases h

/-- A few bytes that are always asked for have an end that is a machine word. -/
def loadArray {len : ℕ} (hlen : len ≤ 32) : Guard (MerkleDeserializer.loadRawBytes len) where
  Holds _ := True
  total_iff {d} hinside := by
    refine (loadRawBytes len).total_iff hinside |>.trans (iff_of_true ?_ trivial)
    have hle := hinside.le
    have hsmall := hinside.small _ (.refl _)
    change d.pos + len < 2 ^ 64
    change _ < 2 ^ 63 at hsmall
    omega
  grows := (loadRawBytes len).grows
  inside := (loadRawBytes len).inside

def loadUsize : Guard loadUsize :=
  quiet
    (fun d => by
      rw [loadUsize_eq]
      split
      · nofun
      · rename_i e he
        rintro ⟨⟩
        exact readUsize_ne_panic _ _ _ he)
    (fun d => by rw [loadUsize_eq]; split <;> rfl)
    fun {d a d'} h hinside => by
      rw [loadUsize_eq] at h
      split at h
      · rename_i value read hread
        obtain ⟨-, rfl⟩ := Prod.mk.inj h
        refine hinside.advance ?_
        have hle := readUsize_le hread
        rw [rest, List.length_drop] at hle
        have := hinside.le
        omega
      · cases h

def loadBytes : Guard loadBytes := bind loadUsize loadRawBytes

def loadHash : Guard loadHash := bind (loadArray le_rfl) fun _ => pure _

theorem total_withCapacity {len : ℕ} {d : MerkleDeserializer} (hinside : d.Inside) :
    Total (MerkleDeserializer.withCapacity len) d ↔ len ≤ d.rest.length := by
  have hlength := hinside.length_rest
  by_cases hlen : len < memoryLimit
  · have hrun : MerkleDeserializer.withCapacity len d =
        (.ok (), { d with requests := d.requests ++ [(len, d.rest.length)] }) := by
      rw [MerkleDeserializer.withCapacity]
      simp only [Exec.ensure, Except.ensure_of hlen]
      rfl
    have hasked : (MerkleDeserializer.withCapacity len d).2.requests =
        d.requests ++ [(len, d.rest.length)] := by rw [hrun]
    rw [total_iff_asked hasked, hrun]
    simp
  · have hrun : MerkleDeserializer.withCapacity len d = (.error .panic, d) := by
      rw [MerkleDeserializer.withCapacity]
      simp only [Exec.ensure, Except.ensure_of_not hlen]
      rfl
    refine iff_of_false (fun h => h.1 (by rw [hrun])) ?_
    omega

/-- A vector has room for no more elements than there are bytes left. -/
def withCapacity (len : ℕ) : Guard (withCapacity len) where
  Holds d := len ≤ d.rest.length
  total_iff hinside := total_withCapacity hinside
  grows d := by
    rw [MerkleDeserializer.withCapacity]
    by_cases hlen : len < memoryLimit
    · simp only [Exec.ensure, Except.ensure_of hlen]
      exact ⟨_, rfl⟩
    · simp only [Exec.ensure, Except.ensure_of_not hlen]
      exact ⟨[], (List.append_nil _).symm⟩
  inside {d a d'} h hinside := by
    rw [MerkleDeserializer.withCapacity, bind_eq_ok] at h
    obtain ⟨_, t, hensure, hmodify⟩ := h
    obtain ⟨-, rfl⟩ := ensure_eq_ok.mp hensure
    obtain rfl := modify_eq_ok.mp hmodify
    exact ⟨hinside.le, hinside.small⟩

def ignoreRemaining : Guard ignoreRemaining :=
  quiet (fun _ => nofun) (fun _ => rfl) fun h hinside => by
    obtain rfl := modify_eq_ok.mp h
    exact ⟨le_rfl, hinside.small⟩

def finish : Guard finish := bind get fun _ => ensure (by decide)

/-! ## Values one after another, and below -/

def loadMany {x : Load α} (g : Guard x) : (len : ℕ) → Guard (loadMany x len)
  | 0 => pure []
  | len + 1 => bind g fun _ => bind (loadMany g len) fun _ => pure _

def loadWhole {x : Load α} (g : Guard x) : Guard (loadWhole x) :=
  bind g fun _ => bind finish fun _ => pure _

/-- Below a layer, the guard is about the layer with the hash. -/
def loadByGivenHash [Sha256] {x : Load α} (g : Guard x) (hash : Sha256Hash) :
    Guard (loadByGivenHash x hash) where
  Holds d := ∀ child, d.contents.children.find? (·.hash = hash) = some child →
    (loadWhole g).Holds ⟨child, 0, d.requests⟩
  total_iff {d} hinside := by
    cases hfind : d.contents.children.find? (·.hash = hash) with
    | none => simp [Total, loadByGivenHash_of_none x hfind]
    | some child =>
      have hchild := List.mem_of_find?_eq_some hfind
      have hbelow : Inside ⟨child, 0, d.requests⟩ :=
        ⟨Nat.zero_le _, fun within hwithin => hinside.small within (.child hchild hwithin)⟩
      have htotal : Total (MerkleDeserializer.loadByGivenHash x hash) d ↔
          Total (MerkleDeserializer.loadWhole x) ⟨child, 0, d.requests⟩ := by
        rw [Total, loadByGivenHash_of_some x hfind]
        rfl
      rw [htotal, (loadWhole g).total_iff hbelow]
      simp
  grows d := by
    cases hfind : d.contents.children.find? (·.hash = hash) with
    | none => exact ⟨[], by rw [loadByGivenHash_of_none x hfind, List.append_nil]⟩
    | some child =>
      obtain ⟨asked, hasked⟩ := (loadWhole g).grows ⟨child, 0, d.requests⟩
      exact ⟨asked, by rw [loadByGivenHash_of_some x hfind, hasked]⟩
  inside {d a d'} h hinside := by
    cases hfind : d.contents.children.find? (·.hash = hash) with
    | none =>
      rw [loadByGivenHash_of_none x hfind] at h
      cases h
    | some child =>
      rw [loadByGivenHash_of_some x hfind] at h
      obtain ⟨-, rfl⟩ := Prod.mk.inj h
      exact ⟨hinside.le, hinside.small⟩

end Guard

/-! ## Types -/

/-- A type whose values are read with a guard. -/
class Guarded (α : Type) [MerkleDeserializeRaw α] where
  guard : Guard (load : Load α)

open Guarded (guard)

variable [MerkleDeserializeRaw α] [MerkleDeserializeRaw β]

theorem fromUtf8_ne_panic (bytes : Bytes) : fromUtf8 bytes ≠ .error .panic := by
  rw [fromUtf8]
  cases String.fromUTF8? ⟨bytes.toArray⟩ <;> simp [Except.fromOption]

def Guard.loadLE {len : ℕ} (hlen : len ≤ 32) : Guard (loadLE len) :=
  (Guard.loadArray hlen).bind fun _ => .pure _

instance : Guarded UInt8 := ⟨.popByte⟩
instance : Guarded U16 := ⟨(Guard.loadLE (by decide)).bind fun _ => .pure _⟩
instance : Guarded U32 := ⟨(Guard.loadLE (by decide)).bind fun _ => .pure _⟩
instance : Guarded U64 := ⟨(Guard.loadLE (by decide)).bind fun _ => .pure _⟩
instance : Guarded U128 := ⟨(Guard.loadLE (by decide)).bind fun _ => .pure _⟩
instance : Guarded ℕ := ⟨.loadLE (by decide)⟩
instance : Guarded Bool := ⟨Guard.popByte.bind fun _ => .pure _⟩
instance : Guarded String := ⟨Guard.loadBytes.bind fun bytes => .lift (fromUtf8_ne_panic bytes)⟩
instance : Guarded Sha256Hash := ⟨.loadHash⟩

section

variable [ByteFormats]

instance : Guarded Decimal := ⟨(Guard.loadArray (by decide)).bind fun _ => .pure _⟩
instance : Guarded PublicKey := ⟨Guard.loadBytes.bind fun _ => .fromOption (by decide) _⟩
instance : Guarded Signature := ⟨Guard.loadBytes.bind fun _ => .fromOption (by decide) _⟩

def Guard.loadRecoveryId : Guard loadRecoveryId :=
  Guard.popByte.bind fun _ => (Guard.ensure (by decide)).bind fun _ => .pure _

instance : Guarded SignatureWithRecovery :=
  ⟨Guard.loadRecoveryId.bind fun _ => guard.bind fun _ => .pure _⟩

end

instance [Guarded α] : Guarded (Option α) :=
  ⟨Guard.popByte.bind fun _ => .ite (.pure _) (.ite (guard.bind fun _ => .pure _)
    (.throw (by simp)))⟩

instance [Guarded α] [Guarded β] : Guarded (α × β) :=
  ⟨guard.bind fun _ => guard.bind fun _ => .pure _⟩

/-- A vector that declares a length asks for as much room. -/
instance [Guarded α] : Guarded (List α) :=
  ⟨Guard.loadUsize.bind fun len => (Guard.withCapacity len).bind fun _ => .loadMany guard len⟩

instance [LinearOrder α] [Guarded α] : Guarded (Finset α) :=
  ⟨Guard.loadUsize.bind fun len => (Guard.loadMany guard len).bind fun _ => .pure _⟩

instance [LinearOrder α] [Guarded α] [Guarded β] : Guarded (SortedMap α β) :=
  ⟨Guard.loadUsize.bind fun len => (Guard.loadMany guard len).bind fun _ => .pure _⟩

/-- Values with a version number. -/
def Guard.versioned {α : Type} [MerkleSerialize α] [MerkleDeserialize α]
    (g : ∀ version, Guard (MerkleDeserialize.merkleDeserialize version : Load α)) :
    Guard (load : Load α) :=
  Guard.loadUsize.bind fun version => .ite (Guard.get.bind fun _ => .throw (by simp)) (g version)

/-! ## Merkle maps -/

/-- Keys that are parsed without panics. -/
class TotalKey (K : Type) [FromMerkleKey K] : Prop where
  ne_panic : ∀ bytes, (FromMerkleKey.fromMerkleKey bytes : Except _ K) ≠ .error .panic

section

variable [FromMerkleKey K] [TotalKey K] [MerkleDeserializeRaw V] [Guarded V]

instance : Guarded (LeafEntry K V) :=
  ⟨Guard.loadBytes.bind fun bytes => (Guard.lift (TotalKey.ne_panic bytes)).bind fun _ =>
    guard.bind fun _ => .pure _⟩

namespace Guard

theorem unexpectedMagicByte_ne_panic (byte : UInt8) :
    MerkleSerialError.unexpectedMagicByte byte ≠ .panic := by simp

def popMagicByte (expected : UInt8) : Guard (popMagicByte expected) :=
  popByte.bind fun _ => ensure (unexpectedMagicByte_ne_panic _)

def loadLeafContents : Guard (LeafContents.merkleDeserialize : Load (List (LeafEntry K V))) :=
  (popMagicByte 42).bind fun _ => loadUsize.bind fun len => (ensure (by simp)).bind fun _ =>
    loadMany guard len

omit [FromMerkleKey K] [TotalKey K] [MerkleDeserializeRaw V] [Guarded V] in
/-- A tree among the branches does not say that it has no entries. -/
def checkEmpty : (node : Node K V) → Guard node.checkEmpty
  | .leaf _ => pure _
  | .tree len _ _ =>
    have ensured : Guard (Exec.ensure (len ≠ 0) .panic : Load Unit) :=
      { Holds := fun _ => len ≠ 0
        total_iff := fun {d} _ => by
          by_cases hlen : len = 0 <;>
            simp [Total, Exec.ensure, Except.ensure, hlen, Exec.lift]
        grows := fun d => ⟨[], (List.append_nil _).symm⟩
        inside := fun h hinside => by
          obtain ⟨-, rfl⟩ := ensure_eq_ok.mp h
          exact hinside }
    ensured.bind fun _ => pure _

def loadLeaf : Guard (TreeContents.loadLeaf : Load (Option (LeafEntry K V))) :=
  popByte.bind fun _ => .ite (pure _) (.ite (guard.bind fun _ => pure _) (throw (by simp)))

def loadBranches {x : Load (Node K V)} (g : Guard x) : (is : List Nibble) →
    (branches : Nibble → Option (Node K V)) → Guard (TreeContents.loadBranches x is branches)
  | [], _ => pure _
  | _ :: is, _ => g.bind fun node => (checkEmpty node).bind fun _ => loadBranches g is _

def loadTreeContents {x : Load (Node K V)} (g : Guard x) : Guard (TreeContents.merkleDeserialize x) :=
  (popMagicByte 43).bind fun _ => loadUsize.bind fun _ => loadLeaf.bind fun _ =>
    (loadBranches g _ _).bind fun _ => pure _

/-- A node is guarded like its entries, and so are the nodes below. -/
def loadNode [Sha256] : (levels : ℕ) → Guard (Node.merkleDeserialize levels : Load (Node K V))
  | 0 => throw (by simp)
  | levels + 1 => peekByte.bind fun _ => .ite (loadLeafContents.bind fun _ => pure _)
      (.ite ((loadTreeContents (loadHash.bind (loadByGivenHash (loadNode levels)))).bind fun _ =>
        pure _) (throw (unexpectedMagicByte_ne_panic _)))

end Guard

instance [Sha256] : Guarded (MerkleMap K V) :=
  ⟨Guard.get.bind fun d => (Guard.loadNode d.contents.levels).bind fun _ => .pure _⟩

end

end Kolme.Merkle
