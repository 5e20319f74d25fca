import Kolme.Contracts.Solana.Solbox

/-!
# When a value stored on Solana survives its updates

An account that `initPda` created holds the encoding of one value and nothing else. Overwriting
it with a value of the same size keeps it so. A smaller value leaves bytes of the old one behind
it, and the account can no longer be loaded. A larger value is never stored: in place it does not
fit, and the growing path still holds the guard of the data when it moves lamports and resizes.

## Main results

* `survives_iff`: a sequence of updates survives exactly when all values have one size.
-/

namespace Kolme.Solana

open Except

/-- The two ways to store a value. -/
inductive StorePath
  | inPlace
  | growable
deriving DecidableEq

section

variable {α : Type} (rt : Runtime) (c : Codec α) (discriminant : UInt8) (programId : Pubkey)
  (seeds : List Bytes)

def PdaData.store (path : StorePath) (self : PdaData α) (payer acc : AccountInfo) :
    Except ProgramError (AccountInfo × AccountInfo) :=
  match path with
  | .inPlace => do
    let acc ← self.serializeInto c discriminant acc
    return (payer, acc)
  | .growable => self.serializeIntoGrowable rt c discriminant payer acc

/-- What has to hold after a store: the account is rent-exempt at its length, and loading it
returns the value that was stored. -/
structure StoredSafely (acc : AccountInfo) (pda : PdaData α) : Prop where
  rentExempt : rt.minimumBalance acc.data.length ≤ acc.lamports
  load : loadPda rt c discriminant programId acc seeds = .ok pda

/-- Every store of the sequence succeeds and is safe. Each store names its path, who pays and the
value. -/
def Survives (bump : UInt8) : AccountInfo → List (StorePath × AccountInfo × α) → Prop
  | _, [] => True
  | acc, (path, payer, v) :: steps =>
    ∃ payer' acc', PdaData.store rt c discriminant path ⟨bump, v⟩ payer acc = .ok (payer', acc') ∧
      StoredSafely rt c discriminant programId seeds acc' ⟨bump, v⟩ ∧ Survives bump acc' steps

/-- The sequence of updates survives, from the creation of the account with the value `v` on. -/
def SurvivesInit (payer pda : AccountInfo) (v : α) (steps : List (StorePath × AccountInfo × α)) :
    Prop :=
  ∃ d payer' created acc,
    initPda rt c programId payer pda ⟨seeds, none⟩ v = .ok (d, payer', created) ∧
    d.serializeInto c discriminant created = .ok acc ∧
    StoredSafely rt c discriminant programId seeds acc d ∧ d.data = v ∧
    Survives rt c discriminant programId seeds d.bump acc steps

/-- The account holds the encoding of one value and nothing else. -/
structure Holds (acc : AccountInfo) (bump : UInt8) (body : Bytes) : Prop where
  owner : acc.owner = programId
  free : acc.borrowed = false
  funded : acc.lamports ≠ 0
  rentExempt : rt.minimumBalance acc.data.length ≤ acc.lamports
  address : rt.createProgramAddress (seeds ++ [[bump]]) programId = .ok acc.key
  data : acc.data = discriminant :: bump :: body

variable {rt c discriminant programId seeds} {acc payer : AccountInfo} {bump : UInt8}
  {body bs : Bytes} {v : α}

/-! ## Loading -/

/-- Loading reads the header and then a value that has to take up the rest of the account. -/
theorem Holds.loadPda_eq (h : Holds rt discriminant programId seeds acc bump body) :
    loadPda rt c discriminant programId acc seeds =
      (deserialize c body).map fun v => ⟨bump, v⟩ := by
  cases hd : deserialize c body with
  | error e =>
    simp [loadPda, PdaData.deserializeFrom, AccountInfo.tryBorrowData, ensure, h.owner, h.funded,
      h.free, h.data, hd, Except.map]
  | ok v =>
    simp [loadPda, PdaData.deserializeFrom, AccountInfo.tryBorrowData, ensure, h.owner, h.funded,
      h.free, h.data, hd, Except.map, h.address]

theorem Holds.load (h : Holds rt discriminant programId seeds acc bump bs)
    (hv : c.encode v = some bs) :
    loadPda rt c discriminant programId acc seeds = .ok ⟨bump, v⟩ := by
  simp [h.loadPda_eq, deserialize, c.decodeAll_encode hv, Except.map]

/-- Bytes left behind the value make the account unreadable. -/
theorem Holds.load_trailing {rest : Bytes}
    (h : Holds rt discriminant programId seeds acc bump (bs ++ rest)) (hv : c.encode v = some bs)
    (hrest : rest ≠ []) :
    loadPda rt c discriminant programId acc seeds = .error .borshIoError := by
  simp [h.loadPda_eq, deserialize, c.decodeAll_encode_append hv hrest, Except.map]

/-- Writing other bytes of the same length keeps everything but the body. -/
theorem Holds.overwrite (h : Holds rt discriminant programId seeds acc bump body) (body' : Bytes)
    (hlen : body'.length = body.length) :
    Holds rt discriminant programId seeds (acc.release (discriminant :: bump :: body')) bump
      body' where
  owner := h.owner
  free := rfl
  funded := h.funded
  rentExempt := by
    have hd : (discriminant :: bump :: body').length = acc.data.length := by simp [h.data, hlen]
    simpa [AccountInfo.release, hd] using h.rentExempt
  address := h.address
  data := rfl

/-! ## Storing -/

/-- A value that fits is written over the old one, and what lies behind it stays. -/
theorem Holds.store_of_le (h : Holds rt discriminant programId seeds acc bump body)
    (hv : c.encode v = some bs) (hle : bs.length ≤ body.length) (path : StorePath) :
    PdaData.store rt c discriminant path ⟨bump, v⟩ payer acc =
      .ok (payer, acc.release (discriminant :: bump :: (bs ++ body.drop bs.length))) := by
  have hwrite : PdaData.write c discriminant ⟨bump, v⟩ acc.data =
      .ok (discriminant :: bump :: (bs ++ body.drop bs.length)) := by
    simp [PdaData.write, serialize, hv, h.data, ensure, hle]
  cases path with
  | inPlace =>
    simp [PdaData.store, PdaData.serializeInto, AccountInfo.tryBorrowMutData, ensure_of h.free,
      hwrite]
    simp [h.data, ensure, AccountInfo.release]
  | growable =>
    have hne : acc.data ≠ [] := by simp [h.data]
    have hfits : bs.length + 2 ≤ acc.data.length := by simp [h.data, hle]
    simp [PdaData.store, PdaData.serializeIntoGrowable, AccountInfo.tryBorrowMutData,
      ensure_of h.free, serializedSize, hv, ensure_of hne, hfits, hwrite, AccountInfo.release]

/-- A value that does not fit is never stored. In place it overruns the account; the growing path
fails because the data is still borrowed when lamports are moved or the account is resized. -/
theorem Holds.store_of_lt (laws : rt.Lawful programId)
    (h : Holds rt discriminant programId seeds acc bump body) (hv : c.encode v = some bs)
    (hlt : body.length < bs.length) (path : StorePath) :
    PdaData.store rt c discriminant path ⟨bump, v⟩ payer acc =
      .error (match path with | .inPlace => .borshIoError | .growable => .accountBorrowFailed) := by
  cases path with
  | inPlace =>
    have hwrite : PdaData.write c discriminant ⟨bump, v⟩ acc.data = .error .borshIoError := by
      have hno : ¬bs.length ≤ body.length := by omega
      simp [PdaData.write, serialize, hv, h.data, ensure, hno]
    simp [PdaData.store, PdaData.serializeInto, AccountInfo.tryBorrowMutData, ensure, h.free,
      hwrite]
    simp [h.data]
  | growable =>
    have hne : acc.data ≠ [] := by simp [h.data]
    have hno : ¬bs.length + 2 ≤ acc.data.length := by simp [h.data, hlt]
    simp only [PdaData.store, PdaData.serializeIntoGrowable, AccountInfo.tryBorrowMutData,
      ensure_of h.free, serializedSize, hv, ok_bind, pure_eq_ok, ensure_of hne, if_neg hno]
    unfold Runtime.transferIfRequired
    split
    · rw [laws.transfer_borrowed rfl, error_bind]
    · rw [ok_bind, laws.resize_borrowed rfl, error_bind]

/-- A value without an encoding is never stored. -/
theorem Holds.store_of_none (h : Holds rt discriminant programId seeds acc bump body)
    (hv : c.encode v = none) (path : StorePath) (r : AccountInfo × AccountInfo) :
    PdaData.store rt c discriminant path ⟨bump, v⟩ payer acc ≠ .ok r := by
  cases path with
  | inPlace =>
    have hheader : 2 ≤ acc.data.length := by simp [h.data]
    simp [PdaData.store, PdaData.serializeInto, AccountInfo.tryBorrowMutData, ensure_of h.free,
      ensure_of hheader, PdaData.write, serialize, hv]
  | growable => simp [PdaData.store, PdaData.serializeIntoGrowable, serializedSize, hv]

/-- The size of a value that has one. -/
theorem serializedSize_eq_ok {n : Nat} :
    serializedSize c v = .ok n ↔ ∃ bs, c.encode v = some bs ∧ bs.length = n := by
  unfold serializedSize
  split <;> simp_all

/-- One store is safe exactly when the new value has the size of the stored one. -/
theorem Holds.step_iff (laws : rt.Lawful programId)
    (h : Holds rt discriminant programId seeds acc bump body) (path : StorePath) :
    (∃ payer' acc', PdaData.store rt c discriminant path ⟨bump, v⟩ payer acc =
        .ok (payer', acc') ∧ StoredSafely rt c discriminant programId seeds acc' ⟨bump, v⟩) ↔
      serializedSize c v = .ok body.length := by
  rw [serializedSize_eq_ok]
  constructor
  · rintro ⟨payer', acc', hstore, safe⟩
    cases hv : c.encode v with
    | none => exact absurd hstore (h.store_of_none hv path _)
    | some bs =>
      refine ⟨bs, rfl, ?_⟩
      rcases Nat.lt_trichotomy bs.length body.length with hlt | heq | hgt
      · rw [h.store_of_le hv hlt.le path] at hstore
        obtain ⟨rfl, rfl⟩ := Prod.mk.inj (Except.ok.inj hstore)
        have hlen : (bs ++ body.drop bs.length).length = body.length := by simp; omega
        have hrest : body.drop bs.length ≠ [] := by simpa using hlt
        have hload := safe.load
        rw [(h.overwrite _ hlen).load_trailing hv hrest] at hload
        cases hload
      · exact heq
      · rw [h.store_of_lt laws hv hgt path] at hstore
        cases hstore
  · rintro ⟨bs, hv, hlen⟩
    have hover := h.overwrite bs hlen
    refine ⟨payer, _, h.store_of_le hv hlen.le path, ?_⟩
    rw [hlen, List.drop_length, List.append_nil]
    exact ⟨hover.rentExempt, hover.load hv⟩

/-! ## Creating -/

/-- The account right after its creation: owned by the program, rent-exempt, and all zero. -/
def createdAccount (rt : Runtime) (programId : Pubkey) (pda : AccountInfo) (space : Nat) :
    AccountInfo :=
  { pda with
    lamports := max pda.lamports (max (rt.minimumBalance space) 1)
    data := List.replicate space 0
    owner := programId }

/-- What `initPda` is called with: a wallet that can pay the rent of the value `v`, and the unused
account at the address the seeds lead to. -/
structure CanInit (rt : Runtime) (c : Codec α) (programId : Pubkey) (seeds : List Bytes)
    (payer pda : AccountInfo) (v : α) : Prop where
  isPayer : payer.IsPayer
  fresh : pda.IsFresh
  distinct : payer.key ≠ pda.key
  notSystem : programId ≠ systemId
  address : pda.key = (rt.findProgramAddress seeds programId).1
  affordable : ∀ n, serializedSize c v = .ok n →
    max (rt.minimumBalance (n + 2)) 1 ≤ payer.lamports ∧ n + 2 ≤ maxPermittedDataIncrease

theorem AccountInfo.IsFresh.withLamports {pda : AccountInfo} (h : pda.IsFresh) (n : Nat) :
    AccountInfo.IsFresh { pda with lamports := n } :=
  ⟨h.writable, h.owner, h.data, h.free⟩

/-- The transfer to an address that already holds lamports tops them up to what is required. -/
theorem topUp_ok (laws : rt.Lawful programId) {pda : AccountInfo} {required : Nat}
    (hpayer : payer.IsPayer) (hfresh : pda.IsFresh) (hne : payer.key ≠ pda.key)
    (hpay : required ≤ payer.lamports) :
    ∃ payer', rt.transferIfRequired payer pda (required - pda.lamports) =
      .ok (payer', { pda with lamports := max pda.lamports required }) := by
  unfold Runtime.transferIfRequired
  split
  · rename_i hpos
    have hle : required - pda.lamports ≤ payer.lamports := by omega
    have hsum : pda.lamports + (required - pda.lamports) = max pda.lamports required := by omega
    refine ⟨{ payer with lamports := payer.lamports - (required - pda.lamports) }, ?_⟩
    rw [laws.transfer_ok hpayer hfresh.writable hfresh.free hne hle, hsum]
  · rename_i hpos
    have hmax : max pda.lamports required = pda.lamports := by omega
    exact ⟨payer, by rw [hmax]⟩

theorem initPda_eq (laws : rt.Lawful programId) {pda : AccountInfo}
    (h : CanInit rt c programId seeds payer pda v) (hv : c.encode v = some bs) :
    ∃ payer', initPda rt c programId payer pda ⟨seeds, none⟩ v =
      .ok (⟨(rt.findProgramAddress seeds programId).2, v⟩, payer',
        createdAccount rt programId pda (bs.length + 2)) := by
  obtain ⟨hpay, hspace⟩ := h.affordable bs.length (serializedSize_eq_ok.mpr ⟨bs, hv, rfl⟩)
  have howner : pda.owner ≠ programId := h.fresh.owner ▸ h.notSystem.symm
  have hsigner := laws.create_find seeds
  rw [← h.address] at hsigner
  simp only [initPda, ensure_of howner, ok_bind, pure_eq_ok, ensure_of h.address, serializedSize,
    hv]
  split
  · rename_i hzero
    have hcreate := laws.createAccount_ok h.isPayer h.fresh h.distinct hzero hpay hspace hsigner
    rw [hcreate, ok_bind]
    exact ⟨_, by simp [createdAccount, hzero]; rfl⟩
  · obtain ⟨payer', htop⟩ := topUp_ok laws h.isPayer h.fresh h.distinct hpay
    have hf := h.fresh.withLamports (max pda.lamports (max (rt.minimumBalance (bs.length + 2)) 1))
    have halloc := laws.allocate_ok hf hspace hsigner
    have hassign : rt.assign (seeds ++ [[(rt.findProgramAddress seeds programId).2]])
        { createdAccount rt programId pda (bs.length + 2) with owner := pda.owner } programId =
          .ok (createdAccount rt programId pda (bs.length + 2)) :=
      laws.assign_ok hf.writable hf.owner hf.free hsigner
    refine ⟨payer', ?_⟩
    rw [htop, ok_bind, halloc, ok_bind]
    exact (congrArg (· >>= _) hassign).trans rfl

/-- The first store fills the new account exactly. -/
theorem createdAccount_holds (discriminant : UInt8) (laws : rt.Lawful programId) {pda : AccountInfo}
    (h : CanInit rt c programId seeds payer pda v) (hv : c.encode v = some bs) :
    ∃ acc, PdaData.serializeInto c discriminant ⟨(rt.findProgramAddress seeds programId).2, v⟩
        (createdAccount rt programId pda (bs.length + 2)) = .ok acc ∧
      Holds rt discriminant programId seeds acc (rt.findProgramAddress seeds programId).2 bs := by
  have hfree := h.fresh.free
  refine ⟨(createdAccount rt programId pda (bs.length + 2)).release
    (discriminant :: (rt.findProgramAddress seeds programId).2 :: bs), ?_, ?_⟩
  · simp [PdaData.serializeInto, AccountInfo.tryBorrowMutData, createdAccount, ensure, hfree,
      PdaData.write, serialize, hv, AccountInfo.release]
    omega
  · refine ⟨rfl, rfl, ?_, ?_, ?_, rfl⟩
    · simp only [AccountInfo.release, createdAccount]
      omega
    · simp [AccountInfo.release, createdAccount]
    · simpa [AccountInfo.release, createdAccount, h.address] using laws.create_find seeds

/-! ## Sequences of updates -/

/-- From an account that holds one value, a sequence of stores survives exactly when every value
has the size of that one. -/
theorem Holds.survives_iff (laws : rt.Lawful programId)
    (h : Holds rt discriminant programId seeds acc bump body)
    (steps : List (StorePath × AccountInfo × α)) :
    Survives rt c discriminant programId seeds bump acc steps ↔
      ∀ step ∈ steps, serializedSize c step.2.2 = .ok body.length := by
  induction steps generalizing acc body with
  | nil => simp [Survives]
  | cons step steps ih =>
    obtain ⟨path, payer, v⟩ := step
    rw [List.forall_mem_cons]
    constructor
    · rintro ⟨payer', acc', hstore, safe, hrest⟩
      have hsize := (h.step_iff laws path).mp ⟨payer', acc', hstore, safe⟩
      obtain ⟨bs, hv, hlen⟩ := serializedSize_eq_ok.mp hsize
      rw [h.store_of_le hv hlen.le path, hlen, List.drop_length, List.append_nil] at hstore
      obtain ⟨rfl, rfl⟩ := Prod.mk.inj (Except.ok.inj hstore)
      refine ⟨hsize, ?_⟩
      have hih := (ih (h.overwrite bs hlen)).mp hrest
      rwa [hlen] at hih
    · rintro ⟨hsize, hrest⟩
      obtain ⟨bs, hv, hlen⟩ := serializedSize_eq_ok.mp hsize
      have hover := h.overwrite bs hlen
      refine ⟨payer, acc.release (discriminant :: bump :: bs), ?_,
        ⟨hover.rentExempt, hover.load hv⟩, ?_⟩
      · rw [h.store_of_le hv hlen.le path, hlen, List.drop_length, List.append_nil]
      · rw [ih hover, hlen]
        exact hrest

/-- A sequence of updates survives from the creation of the account on exactly when all its
values have one serialized size. -/
theorem survives_iff (laws : rt.Lawful programId) {pda : AccountInfo}
    (h : CanInit rt c programId seeds payer pda v) (steps : List (StorePath × AccountInfo × α)) :
    SurvivesInit rt c discriminant programId seeds payer pda v steps ↔
      ∃ n, serializedSize c v = .ok n ∧ ∀ step ∈ steps, serializedSize c step.2.2 = .ok n := by
  constructor
  · rintro ⟨d, payer', created, acc, hinit, hfirst, safe, rfl, hrest⟩
    cases hv : c.encode d.data with
    | none =>
      exfalso
      obtain ⟨bytes, hwrite⟩ : ∃ bytes, d.write c discriminant created.data = .ok bytes := by
        simp only [PdaData.serializeInto, bind_eq_ok] at hfirst
        obtain ⟨guarded, hguard, -, -, bytes, hwrite, -⟩ := hfirst
        simp only [AccountInfo.tryBorrowMutData, bind_eq_ok, pure_eq_ok, ok.injEq] at hguard
        obtain ⟨-, -, rfl⟩ := hguard
        exact ⟨bytes, hwrite⟩
      simp [PdaData.write, serialize, hv] at hwrite
    | some bs =>
      refine ⟨bs.length, serializedSize_eq_ok.mpr ⟨bs, hv, rfl⟩, ?_⟩
      obtain ⟨payer'', heq⟩ := initPda_eq laws h hv
      rw [heq] at hinit
      obtain ⟨hd, -, rfl⟩ : _ ∧ _ ∧ _ := by simpa using hinit
      obtain ⟨acc', hstore, holds⟩ := createdAccount_holds discriminant laws h hv
      rw [hd, hfirst] at hstore
      obtain rfl := Except.ok.inj hstore
      rw [← hd] at hrest
      exact (holds.survives_iff laws steps).mp hrest
  · rintro ⟨n, hsize, hrest⟩
    obtain ⟨bs, hv, rfl⟩ := serializedSize_eq_ok.mp hsize
    obtain ⟨payer', hinit⟩ := initPda_eq laws h hv
    obtain ⟨acc, hstore, holds⟩ := createdAccount_holds discriminant laws h hv
    exact ⟨_, payer', _, acc, hinit, hstore, ⟨holds.rentExempt, holds.load hv⟩, rfl,
      (holds.survives_iff laws steps).mpr hrest⟩

end

/-! ## The state of the bridge -/

theorem serializedSize_state {s : State} (hl : s.set.listeners.card < 256 ^ 4)
    (ha : s.set.approvers.card < 256 ^ 4) :
    serializedSize stateCodec s = .ok (validatorSetSize s.set + 16) := by
  obtain ⟨bs, hbs⟩ := exists_encode_state hl ha
  exact serializedSize_eq_ok.mpr ⟨bs, hbs, length_state hbs⟩

/-- A sequence of bridge states, stored one after the other in the account that was created for
the first, survives exactly when all of them have the serialized size of the first. No bound on
the growth and no wealth of the later payers changes this. -/
theorem bridgeState_survives_iff (rt : Runtime) (programId : Pubkey) (laws : rt.Lawful programId)
    (payer pda : AccountInfo) (s : State)
    (h : CanInit rt stateCodec programId [stateSeed] payer pda s)
    (steps : List (StorePath × AccountInfo × State)) :
    SurvivesInit rt stateCodec 0 programId [stateSeed] payer pda s steps ↔
      ∃ n, serializedSize stateCodec s = .ok n ∧
        ∀ step ∈ steps, serializedSize stateCodec step.2.2 = .ok n :=
  survives_iff laws h steps

/-! ### A concrete runtime -/

/-- The address found for the program `7` and the seed of the state; its bump seed is `253`. -/
def sampleAddress : Pubkey :=
  0xf2e8860f419c690029e1135315ca7240219ec4af7b635f56b81d846d29769762

def sampleCreateProgramAddress (seeds : List Bytes) : Except ProgramError Pubkey :=
  if seeds = [stateSeed] ++ [[253]] then .ok sampleAddress
  else if seeds.getLast? = some [0] then .ok 0
  else .error .invalidSeeds

/-- A runtime with the rent of the live network, in which only the address of the bridge state of
the program `7` is spelled out. -/
def sampleRuntime : Runtime where
  createProgramAddress seeds _ := sampleCreateProgramAddress seeds
  findProgramAddress seeds _ := if seeds = [stateSeed] then (sampleAddress, 253) else (0, 0)
  minimumBalance size := 6960 * (128 + size)
  createAccount signer payer acc lamports space owner := do
    ensure (acc.borrowed = false) .accountBorrowFailed
    ensure (sampleCreateProgramAddress signer = .ok acc.key) .invalidSeeds
    ensure (acc.lamports = 0) .accountAlreadyInitialized
    ensure (lamports ≤ payer.lamports) .insufficientFunds
    return ({ payer with lamports := payer.lamports - lamports },
      { acc with lamports := lamports, data := List.replicate space 0, owner := owner })
  transfer payer acc lamports := do
    ensure (acc.borrowed = false) .accountBorrowFailed
    ensure (lamports ≤ payer.lamports) .insufficientFunds
    return ({ payer with lamports := payer.lamports - lamports },
      { acc with lamports := acc.lamports + lamports })
  allocate signer acc space := do
    ensure (acc.borrowed = false) .accountBorrowFailed
    ensure (sampleCreateProgramAddress signer = .ok acc.key) .invalidSeeds
    return { acc with data := List.replicate space 0 }
  assign signer acc owner := do
    ensure (acc.borrowed = false) .accountBorrowFailed
    ensure (sampleCreateProgramAddress signer = .ok acc.key) .invalidSeeds
    return { acc with owner := owner }
  resize acc size := do
    ensure (acc.borrowed = false) .accountBorrowFailed
    return { acc with data := acc.data.take size ++ List.replicate (size - acc.data.length) 0 }

theorem sampleRuntime_lawful : sampleRuntime.Lawful 7 where
  create_find seeds := by
    by_cases h : seeds = [stateSeed]
    · simp [sampleRuntime, sampleCreateProgramAddress, h]
    · have hne : seeds ++ [[0]] ≠ [stateSeed] ++ [[253]] := fun e =>
        absurd (List.append_inj_right' e rfl) (by decide)
      simp only [sampleRuntime, if_neg h, sampleCreateProgramAddress, if_neg hne]
      simp
  createAccount_ok hpayer hfresh _ hzero hpay _ hsigner := by
    simp only [sampleRuntime] at hsigner ⊢
    simp [ensure, hfresh.free, hsigner, hzero, hpay]
  transfer_ok _ _ hfree _ hpay := by simp [sampleRuntime, ensure, hfree, hpay]
  allocate_ok hfresh _ hsigner := by
    simp only [sampleRuntime] at hsigner ⊢
    simp [ensure, hfresh.free, hsigner]
  assign_ok _ _ hfree hsigner := by
    simp only [sampleRuntime] at hsigner ⊢
    simp [ensure, hfree, hsigner]
  transfer_borrowed h := by simp [sampleRuntime, ensure, h]
  resize_borrowed h := by simp [sampleRuntime, ensure, h]

/-- A wallet with a hundred thousand SOL. -/
def samplePayer : AccountInfo where
  key := 1
  owner := systemId
  lamports := 10 ^ 14
  data := []
  isSigner := true
  isWritable := true
  borrowed := false

def samplePda : AccountInfo where
  key := sampleAddress
  owner := systemId
  lamports := 0
  data := []
  isSigner := false
  isWritable := true
  borrowed := false

/-- The state of a bridge with the given listeners and one approver. -/
def sampleState (listeners : Finset PublicKey) : State where
  set :=
    { processor := 1, listeners := listeners, neededListeners := 1, approvers := {4},
      neededApprovers := 1 }
  nextEventId := 1
  nextActionId := 0

theorem sampleSize (listeners : Finset PublicKey) (h : listeners.card < 256 ^ 4) :
    serializedSize stateCodec (sampleState listeners) = .ok (33 * listeners.card + 94) := by
  have happrovers : (sampleState listeners).set.approvers.card = 1 := rfl
  have hsize : validatorSetSize (sampleState listeners).set + 16 = 33 * listeners.card + 94 := by
    simp only [validatorSetSize, happrovers]
    simp only [sampleState]
    omega
  rw [serializedSize_state h (by omega), hsize]

theorem sample_canInit (listeners : Finset PublicKey) (h : listeners.card ≤ 3) :
    CanInit sampleRuntime stateCodec 7 [stateSeed] samplePayer samplePda
      (sampleState listeners) where
  isPayer := ⟨rfl, rfl, rfl, rfl, rfl⟩
  fresh := ⟨rfl, rfl, rfl, rfl⟩
  distinct := by decide
  notSystem := by decide
  address := rfl
  affordable n hn := by
    rw [sampleSize listeners (by omega)] at hn
    obtain rfl := Except.ok.inj hn
    simp only [sampleRuntime, samplePayer, maxPermittedDataIncrease]
    omega

/-- Rotations that keep the number of keys leave the bridge able to load and store its state. -/
theorem bridgeState_survives_example :
    SurvivesInit sampleRuntime stateCodec 0 7 [stateSeed] samplePayer samplePda
      (sampleState {2, 3}) [(.inPlace, samplePayer, sampleState {2, 5}),
        (.growable, samplePayer, sampleState {6, 7})] := by
  refine (bridgeState_survives_iff sampleRuntime 7 sampleRuntime_lawful samplePayer samplePda
    (sampleState {2, 3}) (sample_canInit {2, 3} (by decide)) _).mpr ⟨160, ?_, ?_⟩
  · exact sampleSize {2, 3} (by decide)
  · simp only [List.forall_mem_cons, List.not_mem_nil, false_implies, implies_true, and_true]
    exact ⟨sampleSize {2, 5} (by decide), sampleSize {6, 7} (by decide)⟩

/-- One rotation to a set with a listener less, or with a listener more, breaks the state of the
bridge, whichever way it is stored. -/
theorem bridgeState_not_survives (path : StorePath) (listeners : Finset PublicKey)
    (h : listeners.card < 256 ^ 4) (hne : listeners.card ≠ 2) :
    ¬SurvivesInit sampleRuntime stateCodec 0 7 [stateSeed] samplePayer samplePda
      (sampleState {2, 3}) [(path, samplePayer, sampleState listeners)] := by
  rw [survives_iff sampleRuntime_lawful (sample_canInit {2, 3} (by decide))]
  rintro ⟨n, hn, hsteps⟩
  rw [sampleSize {2, 3} (by decide)] at hn
  obtain rfl := Except.ok.inj hn
  have hsize := hsteps _ (List.mem_singleton.mpr rfl)
  rw [sampleSize listeners h] at hsize
  have hcard : ({2, 3} : Finset PublicKey).card = 2 := by decide
  have heq := Except.ok.inj hsize
  omega

/-- After a growing store of a set with one listener less the state cannot be loaded, and a set
with one listener more cannot be stored by the growing path, although the payer could pay for it
and the growth is within the limit. -/
theorem bridgeState_survives_counterexample :
    CanInit sampleRuntime stateCodec 7 [stateSeed] samplePayer samplePda (sampleState {2, 3}) ∧
    ¬SurvivesInit sampleRuntime stateCodec 0 7 [stateSeed] samplePayer samplePda
      (sampleState {2, 3}) [(.growable, samplePayer, sampleState {2})] ∧
    ¬SurvivesInit sampleRuntime stateCodec 0 7 [stateSeed] samplePayer samplePda
      (sampleState {2, 3}) [(.growable, samplePayer, sampleState {2, 3, 5})] :=
  ⟨sample_canInit _ (by decide), bridgeState_not_survives _ _ (by decide) (by decide),
    bridgeState_not_survives _ _ (by decide) (by decide)⟩

end Kolme.Solana
