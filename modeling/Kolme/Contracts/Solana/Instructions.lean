import Kolme.Contracts.Solana.Onchain

/-!
# What an instruction of the Solana bridge does to the ledger

One specification for each step of the program: the accounts it loads, creates and overwrites, the
transfers of a deposit, and what a successful instruction leaves behind.
-/

namespace Kolme.Solana

open Exec

variable {α : Type} {sys : Platform} {programId : Pubkey} {c : Codec α} {discriminant : UInt8}

namespace Program

@[simp] theorem run_eq_ok {x : Except ProgramError α} {w w' : Onchain} {a : α} :
    run x w = (.ok a, w') ↔ x = .ok a ∧ w = w' := by
  cases x <;> simp [run, Except.mapError]

@[simp] theorem require_eq_ok {p : Prop} [Decidable p] {e : ProgramError} {w w' : Onchain}
    {u : Unit} : require p e w = (.ok u, w') ↔ p ∧ w = w' := by
  simp [require]

@[simp] theorem info_eq_ok {a : AccountMeta} {w w' : Onchain} {acc : AccountInfo} :
    info a w = (.ok acc, w') ↔ w.ledger.info a = acc ∧ w = w' := by
  simp [info]

@[simp] theorem store_eq_ok {acc : AccountInfo} {w w' : Onchain} {u : Unit} :
    store acc w = (.ok u, w') ↔ { w with ledger := w.ledger.store acc } = w' := by
  simp [store]

theorem account_eq_ok {accounts : List AccountMeta} {index : Nat} {req : AccountReq} {w w' : Onchain}
    {a : AccountMeta} :
    account accounts index req w = (.ok a, w') ↔
      accounts[index]? = some a ∧ req.met a = true ∧ w = w' := by
  simp only [account, bind_eq_ok, fromOption_eq_ok, require_eq_ok, pure_eq_ok]
  constructor
  · rintro ⟨_, _, ⟨ha, rfl⟩, _, _, ⟨hmet, rfl⟩, rfl, rfl⟩
    exact ⟨ha, hmet, rfl⟩
  · rintro ⟨ha, hmet, rfl⟩
    exact ⟨a, w, ⟨ha, rfl⟩, (), w, ⟨hmet, rfl⟩, rfl, rfl⟩

/-! Programs that leave the world alone hand it on to what follows. -/

section

variable {β : Type} {w w' : Onchain} {b : β}

theorem run_bind {x : Except ProgramError α} {f : α → Exec Abort Onchain β} :
    (run x >>= f) w = (.ok b, w') ↔ ∃ a, x = .ok a ∧ f a w = (.ok b, w') := by
  simp only [bind_eq_ok, run_eq_ok]
  exact ⟨fun ⟨a, _, ⟨hx, hw⟩, h⟩ => ⟨a, hx, hw ▸ h⟩, fun ⟨a, hx, h⟩ => ⟨a, w, ⟨hx, rfl⟩, h⟩⟩

theorem require_bind {p : Prop} [Decidable p] {e : ProgramError} {f : Unit → Exec Abort Onchain β} :
    (require p e >>= f) w = (.ok b, w') ↔ p ∧ f () w = (.ok b, w') := by
  simp only [bind_eq_ok, require_eq_ok]
  exact ⟨fun ⟨_, _, ⟨hp, hw⟩, h⟩ => ⟨hp, hw ▸ h⟩, fun ⟨hp, h⟩ => ⟨(), w, ⟨hp, rfl⟩, h⟩⟩

theorem info_bind {a : AccountMeta} {f : AccountInfo → Exec Abort Onchain β} :
    (info a >>= f) w = (.ok b, w') ↔ f (w.ledger.info a) w = (.ok b, w') := by
  simp only [bind_eq_ok, info_eq_ok]
  exact ⟨fun ⟨_, _, ⟨ha, hw⟩, h⟩ => ha ▸ hw ▸ h, fun h => ⟨_, w, ⟨rfl, rfl⟩, h⟩⟩

theorem account_bind {accounts : List AccountMeta} {index : Nat} {req : AccountReq}
    {f : AccountMeta → Exec Abort Onchain β} :
    (account accounts index req >>= f) w = (.ok b, w') ↔
      ∃ a, accounts[index]? = some a ∧ req.met a = true ∧ f a w = (.ok b, w') := by
  simp only [bind_eq_ok, account_eq_ok]
  exact ⟨fun ⟨a, _, ⟨ha, hmet, hw⟩, h⟩ => ⟨a, ha, hmet, hw ▸ h⟩,
    fun ⟨a, ha, hmet, h⟩ => ⟨a, w, ⟨ha, hmet, rfl⟩, h⟩⟩

theorem store_bind {acc : AccountInfo} {f : Unit → Exec Abort Onchain β} :
    (store acc >>= f) w = (.ok b, w') ↔
      f () { w with ledger := w.ledger.store acc } = (.ok b, w') := by
  simp only [bind_eq_ok, store_eq_ok]
  exact ⟨fun ⟨_, _, hw, h⟩ => hw ▸ h, fun h => ⟨(), _, rfl, h⟩⟩

end

theorem assertIsSystemProgram_ok {accounts : List AccountMeta} {index : Nat} {w w' : Onchain}
    {u : Unit} (h : assertIsSystemProgram accounts index w = (.ok u, w')) : w = w' := by
  simp only [assertIsSystemProgram, bind_eq_ok, account_eq_ok, require_eq_ok] at h
  obtain ⟨_, _, ⟨-, -, rfl⟩, -, rfl⟩ := h
  rfl

theorem assertIsTokenProgram_ok {accounts : List AccountMeta} {index : Nat} {w w' : Onchain}
    {u : Unit} (h : assertIsTokenProgram accounts index w = (.ok u, w')) : w = w' := by
  simp only [assertIsTokenProgram, bind_eq_ok, account_eq_ok, require_eq_ok] at h
  obtain ⟨_, _, ⟨-, -, rfl⟩, -, rfl⟩ := h
  rfl

/-! ## Storing values in accounts -/

/-- The account at `key` now has this owner and this data; elsewhere only balances differ. -/
structure Puts (ledger ledger' : Ledger) (key owner : Pubkey) (data : Bytes) : Prop where
  owner : (ledger' key).owner = owner
  data : (ledger' key).data = data
  others : ∀ k, k ≠ key → (ledger' k).owner = (ledger k).owner ∧ (ledger' k).data = (ledger k).data

theorem Puts.store (ledger : Ledger) (acc : AccountInfo) :
    Puts ledger (ledger.store acc) acc.key acc.owner acc.data where
  owner := by simp [Ledger.store]
  data := by simp [Ledger.store]
  others k hk := by simp [Ledger.store, hk]

/-- What is put there last counts. -/
theorem Puts.again {l₁ l₂ l₃ : Ledger} {key owner owner' : Pubkey} {data data' : Bytes}
    (h : Puts l₁ l₂ key owner data) (h' : Puts l₂ l₃ key owner' data') :
    Puts l₁ l₃ key owner' data' where
  owner := h'.owner
  data := h'.data
  others k hk := ⟨(h'.others k hk).1.trans (h.others k hk).1,
    (h'.others k hk).2.trans (h.others k hk).2⟩

/-- An account that is put back as it was. -/
theorem Puts.after {l₁ l₂ l₃ : Ledger} {key key' owner : Pubkey} {data : Bytes}
    (h : Puts l₁ l₂ key' (l₁ key').owner (l₁ key').data) (h' : Puts l₂ l₃ key owner data) :
    Puts l₁ l₃ key owner data where
  owner := h'.owner
  data := h'.data
  others k hk := by
    obtain ⟨howner, hdata⟩ := h'.others k hk
    rw [howner, hdata]
    by_cases hkey : k = key'
    · subst hkey
      exact ⟨h.owner, h.data⟩
    · exact h.others k hkey

/-- The bytes of a stored value: a header, the value, and what is left of an older one. -/
def IsStored (c : Codec α) (discriminant : UInt8) (stored : PdaData α) (bytes : Bytes) : Prop :=
  ∃ bs rest, c.encode stored.data = some bs ∧ bytes = discriminant :: stored.bump :: (bs ++ rest)

theorem write_ok {stored : PdaData α} {old bytes : Bytes}
    (h : stored.write c discriminant old = .ok bytes) : IsStored c discriminant stored bytes := by
  simp only [PdaData.write, Solana.serialize, Except.bind_eq_ok, Except.fromOption_eq_ok,
    Except.ensure_eq_ok, Except.exists_unit, Except.pure_eq_ok, Except.ok.injEq] at h
  obtain ⟨_, ⟨bs, hbs, -, rfl⟩, rfl⟩ := h
  exact ⟨bs, _, hbs, rfl⟩

theorem serializeInto_ok {stored : PdaData α} {pda : AccountMeta} {w w' : Onchain} {u : Unit}
    (h : serializeInto c discriminant stored pda w = (.ok u, w')) :
    ∃ ledger bytes, w' = { w with ledger } ∧ IsStored c discriminant stored bytes ∧
      Puts w.ledger ledger pda.pubkey (w.ledger pda.pubkey).owner bytes := by
  simp only [serializeInto, bind_eq_ok, info_eq_ok, run_eq_ok, store_eq_ok] at h
  obtain ⟨_, _, ⟨rfl, rfl⟩, acc, _, ⟨hacc, rfl⟩, rfl⟩ := h
  simp only [PdaData.serializeInto, AccountInfo.tryBorrowMutData, Except.bind_eq_ok,
    Except.ensure_eq_ok, Except.exists_unit, Except.pure_eq_ok, Except.ok.injEq] at hacc
  obtain ⟨_, ⟨-, rfl⟩, -, bytes, hwrite, rfl⟩ := hacc
  exact ⟨_, bytes, rfl, write_ok hwrite, Puts.store _ _⟩

theorem transferIfRequired_ok (documented : sys.Documented programId)
    {payer acc payer' acc' : AccountInfo} {lamports : Nat}
    (h : sys.transferIfRequired payer acc lamports = .ok (payer', acc')) :
    ∃ n m, payer' = { payer with lamports := n } ∧ acc' = { acc with lamports := m } := by
  unfold Runtime.transferIfRequired at h
  split at h
  · obtain ⟨⟨n, hpayer⟩, m, hacc⟩ := documented.transfer_ok h
    exact ⟨n, m, hpayer, hacc⟩
  · obtain ⟨rfl, rfl⟩ := Prod.mk.inj (Except.ok.inj h)
    exact ⟨payer.lamports, acc.lamports, rfl, rfl⟩

theorem serializeIntoGrowable_ok (documented : sys.Documented programId) {stored : PdaData α}
    {pda payer : AccountMeta} {w w' : Onchain} {u : Unit}
    (h : serializeIntoGrowable sys c discriminant stored pda payer w = (.ok u, w')) :
    ∃ ledger bytes, w' = { w with ledger } ∧ IsStored c discriminant stored bytes ∧
      Puts w.ledger ledger pda.pubkey (w.ledger pda.pubkey).owner bytes := by
  simp only [serializeIntoGrowable, bind_eq_ok, info_eq_ok, run_eq_ok, store_eq_ok] at h
  obtain ⟨_, _, ⟨rfl, rfl⟩, _, _, ⟨rfl, rfl⟩, ⟨payer', acc⟩, _, ⟨hacc, rfl⟩, _, _, rfl, rfl⟩ := h
  simp only [PdaData.serializeIntoGrowable, AccountInfo.tryBorrowMutData, Except.bind_eq_ok,
    Except.ensure_eq_ok, Except.exists_unit, Except.pure_eq_ok, Except.ok.injEq] at hacc
  obtain ⟨size, -, _, ⟨-, rfl⟩, -, hacc⟩ := hacc
  split at hacc
  · simp only [Except.bind_eq_ok, Except.ok.injEq, Prod.mk.injEq] at hacc
    obtain ⟨bytes, hwrite, rfl, rfl⟩ := hacc
    exact ⟨_, bytes, rfl, write_ok hwrite, (Puts.store _ _).after (Puts.store _ _)⟩
  -- The guard of the data is still alive when the account is resized.
  · simp only [Except.bind_eq_ok] at hacc
    obtain ⟨⟨payer₁, acc₁⟩, htransfer, hacc⟩ := hacc
    obtain ⟨n, m, rfl, rfl⟩ := transferIfRequired_ok documented htransfer
    simp [documented.resize_borrowed] at hacc

/-- An account is created at the address of its seeds, where there was none. -/
theorem initPda_ok (documented : sys.Documented programId) {payer pda : AccountMeta}
    {seeds : List Bytes} {data : α} {w w' : Onchain} {stored : PdaData α}
    (h : initPda sys programId c payer pda ⟨seeds, none⟩ data w = (.ok stored, w')) :
    ∃ ledger bytes, w' = { w with ledger } ∧
      stored = ⟨(sys.findProgramAddress seeds programId).2, data⟩ ∧
      pda.pubkey = (sys.findProgramAddress seeds programId).1 ∧
      (w.ledger pda.pubkey).owner = systemId ∧ (w.ledger pda.pubkey).owner ≠ programId ∧
      Puts w.ledger ledger pda.pubkey programId bytes := by
  simp only [initPda, bind_eq_ok, info_eq_ok, run_eq_ok, store_eq_ok, pure_eq_ok] at h
  obtain ⟨_, _, ⟨rfl, rfl⟩, _, _, ⟨rfl, rfl⟩, ⟨_, payer', created⟩, _, ⟨hinit, rfl⟩, _, _, rfl, _, _,
    rfl, rfl, rfl⟩ := h
  simp only [Solana.initPda, Except.bind_eq_ok, Except.ensure_eq_ok, Except.exists_unit,
    Except.pure_eq_ok, Except.ok_bind] at hinit
  obtain ⟨howner, haddress, size, -, hinit⟩ := hinit
  split at hinit
  · simp only [Except.bind_eq_ok, Except.ok.injEq, Prod.mk.injEq] at hinit
    obtain ⟨⟨_, _⟩, hcreate, rfl, rfl, rfl⟩ := hinit
    obtain ⟨hsystem, ⟨n, rfl⟩, m, rfl⟩ := documented.createAccount_ok hcreate
    exact ⟨_, _, rfl, rfl, haddress, hsystem, howner, (Puts.store _ _).after (Puts.store _ _)⟩
  · simp only [Except.bind_eq_ok, Except.ok.injEq, Prod.mk.injEq] at hinit
    obtain ⟨⟨payer₁, acc₁⟩, htransfer, acc₂, hallocate, acc₃, hassign, rfl, rfl, rfl⟩ := hinit
    obtain ⟨n, m, rfl, rfl⟩ := transferIfRequired_ok documented htransfer
    obtain ⟨hsystem, rfl⟩ := documented.allocate_ok hallocate
    obtain rfl := documented.assign_ok hassign
    exact ⟨_, _, rfl, rfl, haddress, hsystem, howner, (Puts.store _ _).after (Puts.store _ _)⟩

/-- A new account is created and its value stored. -/
theorem create_ok (documented : sys.Documented programId) {payer pda : AccountMeta}
    {seeds : List Bytes} {data : α} {w w₁ w' : Onchain} {stored : PdaData α} {u : Unit}
    (hinit : initPda sys programId c payer pda ⟨seeds, none⟩ data w = (.ok stored, w₁))
    (hstore : serializeInto c discriminant stored pda w₁ = (.ok u, w')) :
    ∃ ledger bytes, w' = { w with ledger } ∧
      pda.pubkey = (sys.findProgramAddress seeds programId).1 ∧
      (w.ledger pda.pubkey).owner = systemId ∧ (w.ledger pda.pubkey).owner ≠ programId ∧
      IsStored c discriminant ⟨(sys.findProgramAddress seeds programId).2, data⟩ bytes ∧
      Puts w.ledger ledger pda.pubkey programId bytes := by
  obtain ⟨ledger, _, rfl, rfl, haddress, hsystem, howner, hput⟩ := initPda_ok documented hinit
  obtain ⟨ledger', bytes, rfl, hstored, hput'⟩ := serializeInto_ok hstore
  rw [hput.owner] at hput'
  exact ⟨ledger', bytes, rfl, haddress, hsystem, howner, hstored, hput.again hput'⟩

/-! ## Loading values -/

/-- The account at `key` holds a value that the program loads. -/
structure Reads (sys : Platform) (programId : Pubkey) (c : Codec α) (discriminant : UInt8)
    (seeds : List Bytes) (ledger : Ledger) (key : Pubkey) (stored : PdaData α) : Prop where
  owner : (ledger key).owner = programId
  data : ∃ body, (ledger key).data = discriminant :: stored.bump :: body ∧
    c.decodeAll body = some stored.data
  address : sys.createProgramAddress (seeds ++ [[stored.bump]]) programId = .ok key

theorem loadPda_ok {pda : AccountMeta} {seeds : List Bytes} {w w' : Onchain} {stored : PdaData α}
    (h : loadPda sys programId c discriminant pda seeds w = (.ok stored, w')) :
    w = w' ∧ Reads sys programId c discriminant seeds w.ledger pda.pubkey stored := by
  simp only [loadPda, bind_eq_ok, info_eq_ok, run_eq_ok] at h
  obtain ⟨_, _, ⟨rfl, rfl⟩, h, rfl⟩ := h
  simp only [Solana.loadPda, PdaData.deserializeFrom, AccountInfo.tryBorrowData, Solana.deserialize,
    Except.bind_eq_ok, Except.ensure_eq_ok, Except.exists_unit, Except.pure_eq_ok, Except.ok.injEq,
    Except.fromOption_eq_ok, not_or, not_not] at h
  obtain ⟨⟨howner, -⟩, -, _, ⟨_, ⟨-, rfl⟩, hlength, hdiscriminant, data, hdata, rfl⟩, _, haddress,
    rfl, rfl⟩ := h
  refine ⟨rfl, howner, ⟨((w.ledger.info pda).data).drop 2, ?_, hdata⟩, haddress⟩
  change (w.ledger.info pda).data = _
  generalize (w.ledger.info pda).data = bytes at hlength hdiscriminant
  rcases bytes with _ | ⟨_, _ | ⟨_, _⟩⟩
  · simp at hlength
  · simp at hlength
  · subst hdiscriminant
    rfl

/-- What was stored is what is loaded. -/
theorem Reads.eq_of_stored {seeds : List Bytes} {ledger : Ledger} {key : Pubkey}
    {stored stored' : PdaData α} {bytes : Bytes}
    (h : Reads sys programId c discriminant seeds ledger key stored)
    (hdata : (ledger key).data = bytes) (hstored : IsStored c discriminant stored' bytes) :
    stored = stored' := by
  obtain ⟨body, hbody, hdecode⟩ := h.data
  obtain ⟨bs, rest, hencode, rfl⟩ := hstored
  rw [hbody] at hdata
  simp only [List.cons.injEq, true_and] at hdata
  obtain ⟨hbump, rfl⟩ := hdata
  rcases eq_or_ne rest [] with rfl | hrest
  · rw [List.append_nil, c.decodeAll_encode hencode] at hdecode
    cases stored
    cases stored'
    obtain rfl := Option.some.inj hdecode
    cases hbump
    rfl
  · rw [c.decodeAll_encode_append hencode hrest] at hdecode
    cases hdecode

theorem Reads.of_same {seeds : List Bytes} {ledger ledger' : Ledger} {key : Pubkey}
    {stored : PdaData α} (h : Reads sys programId c discriminant seeds ledger' key stored)
    (same : (ledger' key).owner = (ledger key).owner ∧ (ledger' key).data = (ledger key).data) :
    Reads sys programId c discriminant seeds ledger key stored where
  owner := same.1.symm.trans h.owner
  data := same.2 ▸ h.data
  address := h.address

/-- The address of the account that stores the state of the bridge. -/
def stateAddress (sys : Platform) (programId : Pubkey) : Pubkey :=
  (sys.findProgramAddress stateDerivation.seeds programId).1

/-- The account at `key` holds a state of the bridge. -/
abbrev ReadsState (sys : Platform) (programId : Pubkey) (ledger : Ledger) (key : Pubkey)
    (stored : PdaData State) : Prop :=
  Reads sys programId stateCodec statePda stateDerivation.seeds ledger key stored

/-- No state of the bridge has appeared, and its account has not been given away. -/
structure Frame (sys : Platform) (programId : Pubkey) (ledger ledger' : Ledger) : Prop where
  reads : ∀ k stored, ReadsState sys programId ledger' k stored →
    ReadsState sys programId ledger k stored
  owned : (ledger (stateAddress sys programId)).owner = programId →
    (ledger' (stateAddress sys programId)).owner = programId

theorem Frame.refl (ledger : Ledger) : Frame sys programId ledger ledger :=
  ⟨fun _ _ h => h, fun h => h⟩

theorem Frame.trans {l₁ l₂ l₃ : Ledger} (h : Frame sys programId l₁ l₂)
    (h' : Frame sys programId l₂ l₃) : Frame sys programId l₁ l₃ :=
  ⟨fun k stored hr => h.reads k stored (h'.reads k stored hr), fun ho => h'.owned (h.owned ho)⟩

/-- Another kind of account is created. -/
theorem Puts.frame {ledger ledger' : Ledger} {key : Pubkey} {bytes : Bytes} {stored : PdaData α}
    (h : Puts ledger ledger' key programId bytes) (hstored : IsStored c discriminant stored bytes)
    (hne : discriminant ≠ statePda) : Frame sys programId ledger ledger' where
  reads k r hr := by
    by_cases hk : k = key
    · subst hk
      obtain ⟨body, hbody, -⟩ := hr.data
      obtain ⟨bs, rest, -, rfl⟩ := hstored
      rw [h.data] at hbody
      exact absurd (List.cons.inj hbody).1 hne
    · exact hr.of_same (h.others k hk)
  owned ho := by
    by_cases hk : stateAddress sys programId = key
    · rw [hk]
      exact h.owner
    · rw [(h.others _ hk).1]
      exact ho

/-- Another program makes no state of the bridge, unless the address of a second one signs. -/
theorem invokeOther_frame (documented : sys.Documented programId) {ix : Instruction}
    {signers : List Pubkey} {ledger ledger' : Ledger}
    (h : sys.invokeOther ix signers ledger = .ok ledger')
    (hsigners : ∀ k ∈ signers,
      sys.createProgramAddress (stateDerivation.seeds ++ [[0]]) programId = .ok k →
      (ledger k).owner = programId) : Frame sys programId ledger ledger' where
  reads k stored hr := by
    by_cases howner : (ledger k).owner = programId
    · obtain ⟨howner', hdata⟩ := documented.invokeOther_keeps h k howner
      exact hr.of_same ⟨howner'.trans howner.symm, hdata⟩
    · obtain ⟨hzero, hsigned⟩ := documented.invokeOther_gives h k howner hr.owner
      obtain ⟨body, hbody, -⟩ := hr.data
      have hbump : stored.bump = 0 := hzero _ (by simp [hbody])
      have haddress := hr.address
      rw [hbump] at haddress
      exact absurd (hsigners k (hsigned _ haddress) haddress) howner
  owned ho := (documented.invokeOther_keeps h _ ho).1

/-! ## Deposits -/

end Program

def Ledger.tokenAccount (sys : Platform) (ledger : Ledger) (key : Pubkey) : TokenAccount :=
  sys.tokenAccount ((ledger key).data.take Program.tokenAccountLen)

/-- The account holds tokens of a mint for an owner. -/
structure HoldsTokens (sys : Platform) (ledger : Ledger) (tokenProgram mint owner key : Pubkey) :
    Prop where
  program : (ledger key).owner = tokenProgram
  mint : (ledger.tokenAccount sys key).mint = mint
  owner : (ledger.tokenAccount sys key).owner = owner

/-- The address is that of the account of the program that holds the tokens of the mint. -/
structure IsHolder (sys : Platform) (programId : Pubkey) (ledger : Ledger) (mint holder : Pubkey) :
    Prop where
  owner : (ledger holder).owner = programId
  address : ∃ bump : UInt8, sys.createProgramAddress
    [tokenHolderSeed, Bytes.toBE 32 mint, [bump]] programId = .ok holder

/-- The transfer is made for a signer, from tokens that the signer owns to an account that only the
holder of the bridge controls. -/
structure Deposit.Proper (sys : Platform) (programId : Pubkey) (d : Deposit) : Prop where
  signer : d.senderAcc.isSigner = true
  authority : d.transfer.authority = d.senderAcc.pubkey
  tokenProgram : Program.isTokenProgram d.transfer.tokenProgram
  mint : (d.ledger d.transfer.mint).owner = d.transfer.tokenProgram
  source : HoldsTokens sys d.ledger d.transfer.tokenProgram d.transfer.mint d.senderAcc.pubkey
    d.transfer.source
  destination : ∃ holder, IsHolder sys programId d.ledger d.transfer.mint holder ∧
    HoldsTokens sys d.ledger d.transfer.tokenProgram d.transfer.mint holder d.transfer.destination ∧
    (d.ledger.tokenAccount sys d.transfer.destination).hasDelegate = false ∧
    (d.ledger.tokenAccount sys d.transfer.destination).hasCloseAuthority = false

/-- What a deposit brings in, and for whom. -/
def Deposit.fund (d : Deposit) : Pubkey × Token :=
  (d.transfer.authority, ⟨d.transfer.mint, d.transfer.amount⟩)

namespace Program

theorem isTokenProgram.ne_system {owner : Pubkey} (h : isTokenProgram owner) : owner ≠ systemId := by
  rintro rfl
  exact absurd h (by decide)

/-- The holder of a mint exists, and only an account of the system program has changed. -/
theorem loadOrInitPda_ok (documented : sys.Documented programId) {payer pda : AccountMeta}
    {mint : Pubkey} {w w' : Onchain} {u : Unit}
    (h : loadOrInitPda sys programId Codec.unit tokenHolderPda payer pda
      ⟨[tokenHolderSeed, Bytes.toBE 32 mint], none⟩ () w = (.ok u, w')) :
    ∃ ledger, w' = { w with ledger } ∧ IsHolder sys programId ledger mint pda.pubkey ∧
      Frame sys programId w.ledger ledger ∧
      ∀ k, (w.ledger k).owner ≠ systemId →
        (ledger k).owner = (w.ledger k).owner ∧ (ledger k).data = (w.ledger k).data := by
  simp only [loadOrInitPda, bind_eq_ok, info_eq_ok] at h
  obtain ⟨_, _, ⟨rfl, rfl⟩, h⟩ := h
  split at h
  · simp only [bind_eq_ok, pure_eq_ok] at h
    obtain ⟨stored, w₁, hload, -, rfl⟩ := h
    obtain ⟨rfl, hreads⟩ := loadPda_ok hload
    exact ⟨_, rfl, ⟨hreads.owner, stored.bump, hreads.address⟩, .refl _, fun k _ => ⟨rfl, rfl⟩⟩
  · simp only [bind_eq_ok] at h
    obtain ⟨stored, w₁, hinit, hstore⟩ := h
    obtain ⟨ledger, bytes, rfl, haddress, hsystem, -, hstored, hput⟩ :=
      create_ok documented hinit hstore
    refine ⟨ledger, rfl, ⟨hput.owner, (sys.findProgramAddress [tokenHolderSeed, Bytes.toBE 32 mint]
      programId).2, ?_⟩, hput.frame hstored (by decide), fun k hk => ?_⟩
    · rw [haddress]
      exact documented.create_find [tokenHolderSeed, Bytes.toBE 32 mint]
    · exact hput.others k fun hkey => hk (hkey ▸ hsystem)

theorem ataData_ok {ledger : Ledger} {a : AccountMeta} {t : TokenAccount}
    (h : ataData sys (ledger.info a) = .ok t) : ledger.tokenAccount sys a.pubkey = t := by
  simp only [ataData, Except.bind_eq_ok, Except.ensure_eq_ok, Except.exists_unit, Except.pure_eq_ok,
    Except.ok.injEq] at h
  exact h.2.2

theorem takeToken_ok (documented : sys.Documented programId) {accounts : List AccountMeta}
    {senderAcc : AccountMeta} {index : Nat} {amount : U64} {w w' : Onchain} {token : Token}
    (hsigner : senderAcc.isSigner = true)
    (h : takeToken sys programId accounts senderAcc index amount w = (.ok token, w')) :
    ∃ ledger d, w' = { w with ledger, deposits := w.deposits ++ [d] } ∧
      d.Proper sys programId ∧ d.fund = (senderAcc.pubkey, token) ∧
      Frame sys programId w.ledger ledger := by
  simp only [takeToken, account_bind, info_bind, require_bind, run_bind] at h
  obtain ⟨mintAcc, -, -, senderAta, -, -, holderAcc, -, -, holderAta, -, -, hprogram, haddress,
    hholderOwner, hsenderOwner, sender, hsender, hmatches, h⟩ := h
  obtain ⟨_, w₁, hinit, h⟩ := bind_eq_ok.mp h
  obtain ⟨l₁, rfl, hholder, hframe, hsame⟩ := loadOrInitPda_ok documented hinit
  simp only [info_bind, require_bind, run_bind] at h
  obtain ⟨holder, hholderAta, hfree, hcontrols, decimals, -, h⟩ := h
  simp only [executeTransfer, bind_eq_ok, get_eq_ok, run_eq_ok, modify_eq_ok, pure_eq_ok] at h
  obtain ⟨_, _, ⟨_, _, ⟨rfl, rfl⟩, ledger, _, ⟨hinvoke, rfl⟩, rfl⟩, rfl, rfl⟩ := h
  refine ⟨ledger, _, rfl, ?_, rfl, hframe.trans (invokeOther_frame documented hinvoke (by simp))⟩
  -- The accounts of the token program are the same after the holder was created.
  have hmint := (hsame mintAcc.pubkey hprogram.ne_system).1
  have hsource := hsame senderAta.pubkey (hsenderOwner.trans_ne hprogram.ne_system)
  have hdestination := hsame holderAta.pubkey (hholderOwner.trans_ne hprogram.ne_system)
  obtain rfl := ataData_ok hsender
  obtain rfl := ataData_ok hholderAta
  simp only [not_or, not_not, Bool.not_eq_true] at hmatches hfree hcontrols
  have hsourceAccount : l₁.tokenAccount sys senderAta.pubkey =
      w.ledger.tokenAccount sys senderAta.pubkey := by
    rw [Ledger.tokenAccount, hsource.2, Ledger.tokenAccount]
  exact
    { signer := hsigner
      authority := rfl
      tokenProgram := hprogram
      mint := hmint
      source :=
        { program := hsource.1.trans hsenderOwner
          mint := by rw [hsourceAccount, hmatches.1]
          owner := by rw [hsourceAccount, hmatches.2] }
      destination := ⟨holderAcc.pubkey, hholder,
        ⟨hdestination.1.trans hholderOwner, hcontrols.1, hcontrols.2⟩, hfree.2, hfree.1⟩ }

/-- The deposits that a loop has made. -/
structure Deposited (sys : Platform) (programId : Pubkey) (senderAcc : AccountMeta)
    (funds : List Token) (w w' : Onchain) (new : List Deposit) : Prop where
  world : ∃ ledger, w' = { w with ledger, deposits := w.deposits ++ new } ∧
    Frame sys programId w.ledger ledger
  proper : ∀ d ∈ new, d.Proper sys programId
  funds : new.map Deposit.fund = funds.map (senderAcc.pubkey, ·)

theorem Deposited.nil (senderAcc : AccountMeta) (w : Onchain) :
    Deposited sys programId senderAcc [] w w [] where
  world := ⟨w.ledger, by simp, .refl _⟩
  proper := by simp
  funds := rfl

theorem takeTokens_ok (documented : sys.Documented programId) {accounts : List AccountMeta}
    {senderAcc : AccountMeta} {index : Nat} {amounts : List U64} {w w' : Onchain}
    {funds : List Token} (hsigner : senderAcc.isSigner = true)
    (h : takeTokens sys programId accounts senderAcc index amounts w = (.ok funds, w')) :
    ∃ new, Deposited sys programId senderAcc funds w w' new := by
  induction amounts generalizing index w funds with
  | nil =>
    obtain ⟨rfl, rfl⟩ := pure_eq_ok.mp h
    exact ⟨[], .nil senderAcc w⟩
  | cons amount amounts ih =>
    simp only [takeTokens, bind_eq_ok, pure_eq_ok] at h
    obtain ⟨token, w₁, htoken, rest, w₂, hrest, rfl, rfl⟩ := h
    obtain ⟨l₁, d, rfl, hproper, hfund, hframe⟩ := takeToken_ok documented hsigner htoken
    obtain ⟨new, ⟨l₂, rfl, hframe'⟩, hall, hfunds⟩ := ih hrest
    refine ⟨d :: new, ⟨l₂, by simp, hframe.trans hframe'⟩, List.forall_mem_cons.mpr ⟨hproper, hall⟩,
      ?_⟩
    rw [List.map_cons, hfund, hfunds, List.map_cons]

theorem takeFunds_ok (documented : sys.Documented programId) {accounts : List AccountMeta}
    {amounts : List U64} {w w' : Onchain} {senderAcc stateAcc : AccountMeta} {funds : List Token}
    (h : takeFunds sys programId accounts amounts w = (.ok (senderAcc, stateAcc, funds), w')) :
    ∃ new, Deposited sys programId senderAcc funds w w' new := by
  unfold takeFunds at h
  split at h
  · simp only [account_bind, pure_eq_ok, Prod.mk.injEq] at h
    obtain ⟨_, -, -, _, -, -, ⟨rfl, rfl, rfl⟩, rfl⟩ := h
    exact ⟨[], .nil _ w⟩
  · simp only [account_bind, require_bind] at h
    obtain ⟨-, sender, -, hsigner, state, -, -, h⟩ := h
    simp only [bind_eq_ok, require_eq_ok, pure_eq_ok, Prod.mk.injEq] at h
    obtain ⟨_, _, hsystem, _, _, htoken, _, _, ⟨-, rfl⟩, _, _, ⟨-, rfl⟩, _, _, htake,
      ⟨rfl, rfl, rfl⟩, rfl⟩ := h
    obtain rfl := assertIsSystemProgram_ok hsystem
    obtain rfl := assertIsTokenProgram_ok htoken
    exact takeTokens_ok documented hsigner htake

end Program

/-! ## What one instruction does -/

namespace BridgeMessage

def eventId (msg : BridgeMessage) : Nat := msg.id.val

def actionId? (msg : BridgeMessage) : Option Nat :=
  match msg.ty with
  | .regular .. => none
  | .signed actionId => some actionId.val

/-- What the message reports as received, and from whom. -/
def funds (msg : BridgeMessage) : List (Pubkey × Token) :=
  match msg.ty with
  | .regular funds _ => funds.map (msg.wallet, ·)
  | .signed _ => []

end BridgeMessage

theorem increment_ok {n m : U64} (h : increment n = .ok m) : m.val = n.val + 1 := by
  unfold increment at h
  split at h
  · obtain rfl := Except.ok.inj h
    rfl
  · cases h

namespace Program

/-- The account with the state in it has been overwritten. -/
def Rewrites (ledger ledger' : Ledger) (stored : PdaData State) (key : Pubkey) (data : State) :
    Prop :=
  ∃ bytes, IsStored stateCodec statePda { stored with data } bytes ∧
    Puts ledger ledger' key (ledger key).owner bytes

theorem regular_ok (documented : sys.Documented programId) {accounts : List AccountMeta}
    {instructionData : Bytes} {w w' : Onchain} {u : Unit}
    (h : regular sys programId accounts instructionData w = (.ok u, w')) :
    ∃ senderAcc funds keys new w₁ key stored nextEventId ledger,
      Deposited sys programId senderAcc funds w w₁ new ∧
      ReadsState sys programId w₁.ledger key stored ∧
      increment stored.data.nextEventId = .ok nextEventId ∧
      Rewrites w₁.ledger ledger stored key { stored.data with nextEventId } ∧
      w' = { w₁ with
        ledger
        log := w₁.log ++ [⟨stored.data.nextEventId, senderAcc.pubkey, .regular funds keys⟩] } := by
  simp only [regular, run_bind] at h
  obtain ⟨data, -, h⟩ := h
  obtain ⟨⟨senderAcc, stateAcc, funds⟩, w₁, htake, h⟩ := bind_eq_ok.mp h
  dsimp only at h
  simp only [run_bind] at h
  obtain ⟨-, -, h⟩ := h
  obtain ⟨stored, w₂, hload, h⟩ := bind_eq_ok.mp h
  obtain ⟨rfl, hreads⟩ := loadPda_ok hload
  simp only [run_bind] at h
  obtain ⟨nextEventId, hnext, h⟩ := h
  obtain ⟨_, w₃, hstore, h⟩ := bind_eq_ok.mp h
  obtain ⟨ledger, bytes, rfl, hstored, hput⟩ := serializeInto_ok hstore
  obtain ⟨new, hdeposited⟩ := takeFunds_ok documented htake
  obtain rfl := modify_eq_ok.mp h
  exact ⟨senderAcc, funds, _, new, w₁, stateAcc.pubkey, stored, nextEventId, ledger, hdeposited, hreads,
    hnext, ⟨bytes, hstored, hput⟩, rfl⟩

variable {self : List AccountMeta → Bytes → Exec Abort Onchain Unit}

/-- The instruction carries the action and has it executed. -/
def Executes (sys : Platform) (instructionData : Bytes) (action : ExecuteAction) : Prop :=
  ∃ data bytes payload, signedMsgIxDataCodec.decodeAll instructionData = some data ∧
    sys.base64Decode data.payload = some bytes ∧ payloadCodec.decodeAll bytes = some payload ∧
    payload.action = .execute action

/-- The invocation that executes an action. -/
inductive Invokes (sys : Platform) (programId : Pubkey)
    (self : List AccountMeta → Bytes → Exec Abort Onchain Unit) (action : ExecuteAction)
    (w : Onchain) : Onchain → Prop
  /-- The bridge itself is invoked. -/
  | back {accounts : List AccountMeta} {w' : Onchain} (hprogram : action.programId = programId)
    (hself : self accounts action.instructionData w = (.ok (), w')) :
    Invokes sys programId self action w w'
  | other {ix : Instruction} {signers : List Pubkey} {ledger : Ledger}
    (hsigners : ∀ k ∈ signers, ∃ signer, action.signer = some signer ∧
      sys.createProgramAddress signer.seeds programId = .ok k)
    (hinvoke : sys.invokeOther ix signers w.ledger = .ok ledger) :
    Invokes sys programId self action w { w with ledger }

theorem invoke_ok {accounts metas : List AccountMeta} {signers : List Pubkey}
    {action : ExecuteAction} {w w' : Onchain} {u : Unit}
    (hsigners : ∀ k ∈ signers, ∃ signer, action.signer = some signer ∧
      sys.createProgramAddress signer.seeds programId = .ok k)
    (h : invoke sys programId self accounts signers ⟨action.programId, metas, action.instructionData⟩
      w = (.ok u, w')) : Invokes sys programId self action w w' := by
  simp only [invoke, bind_eq_ok, ensure_eq_ok] at h
  obtain ⟨_, _, ⟨-, rfl⟩, h⟩ := h
  split at h
  · exact .back ‹_› h
  · simp only [bind_eq_ok, get_eq_ok, run_eq_ok, modify_eq_ok] at h
    obtain ⟨_, _, ⟨rfl, rfl⟩, ledger, _, ⟨hinvoke, rfl⟩, rfl⟩ := h
    exact .other hsigners hinvoke

theorem executeAction_ok {accounts ixAccounts : List AccountMeta} {action : ExecuteAction}
    {w w' : Onchain} {u : Unit}
    (h : executeAction sys programId self accounts action ixAccounts w = (.ok u, w')) :
    Invokes sys programId self action w w' := by
  simp only [executeAction, require_bind] at h
  obtain ⟨-, -, h⟩ := h
  cases hsigner : action.signer with
  | none =>
    rw [hsigner] at h
    simp only [bind_eq_ok, pure_eq_ok] at h
    obtain ⟨_, _, ⟨rfl, rfl⟩, h⟩ := h
    exact invoke_ok (by simp) h
  | some signer =>
    rw [hsigner] at h
    simp only [run_bind] at h
    obtain ⟨address, haddress, h⟩ := h
    simp only [bind_eq_ok, pure_eq_ok] at h
    obtain ⟨_, _, ⟨rfl, rfl⟩, h⟩ := h
    refine invoke_ok (fun k hk => ⟨signer, hsigner, ?_⟩) h
    rw [List.mem_singleton.mp hk]
    exact haddress

/-- An action that is applied is executed, or it only changes the set. -/
theorem applyAction_ok {accounts : List AccountMeta} {set set' : ValidatorSet} {hash : Hash}
    {data : SignedMsgIxData} {action : SignedAction} {w w' : Onchain}
    (h : applyAction sys programId self accounts set hash data action w = (.ok set', w')) :
    w' = w ∨ ∃ executed, action = .execute executed ∧
      Invokes sys programId self executed w w' := by
  cases action with
  | execute action =>
    simp only [applyAction, run_bind, require_bind] at h
    obtain ⟨-, -, -, h⟩ := h
    obtain ⟨_, w₁, hexecute, h⟩ := bind_eq_ok.mp h
    obtain ⟨-, rfl⟩ := pure_eq_ok.mp h
    exact .inr ⟨action, rfl, executeAction_ok hexecute⟩
  | selfReplace rendered signature =>
    obtain ⟨-, rfl⟩ := run_eq_ok.mp h
    exact .inl rfl
  | newSet rendered approvals =>
    obtain ⟨-, rfl⟩ := run_eq_ok.mp h
    exact .inl rfl

theorem signed_ok (documented : sys.Documented programId) {accounts : List AccountMeta}
    {instructionData : Bytes} {w w' : Onchain} {u : Unit}
    (h : signed sys programId self accounts instructionData w = (.ok u, w')) :
    ∃ wallet w₁ key stored nextEventId nextActionId set ledger,
      ReadsState sys programId w.ledger key stored ∧
      increment stored.data.nextEventId = .ok nextEventId ∧
      increment stored.data.nextActionId = .ok nextActionId ∧
      (w₁ = w ∨ ∃ action, Executes sys instructionData action ∧
        Invokes sys programId self action w w₁) ∧
      Rewrites w₁.ledger ledger stored key ⟨set, nextEventId, nextActionId⟩ ∧
      w' = { w₁ with
        ledger
        log := w₁.log ++
          [⟨stored.data.nextEventId, wallet, .signed stored.data.nextActionId⟩] } := by
  simp only [signed, require_bind, account_bind] at h
  obtain ⟨-, senderAcc, -, -, stateAcc, -, -, h⟩ := h
  obtain ⟨_, w₁, hsystem, h⟩ := bind_eq_ok.mp h
  obtain rfl := assertIsSystemProgram_ok hsystem
  simp only [run_bind] at h
  obtain ⟨data, hdata, h⟩ := h
  obtain ⟨stored, w₂, hload, h⟩ := bind_eq_ok.mp h
  obtain ⟨rfl, hreads⟩ := loadPda_ok hload
  simp only [run_bind, require_bind] at h
  obtain ⟨bytes, hbytes, payload, hpayload, hid, nextActionId, hnextAction, nextEventId, hnextEvent,
    h⟩ := h
  obtain ⟨set, w₃, happly, h⟩ := bind_eq_ok.mp h
  obtain ⟨_, w₄, hstore, h⟩ := bind_eq_ok.mp h
  obtain ⟨ledger, bytes', rfl, hstored, hput⟩ := serializeIntoGrowable_ok documented hstore
  obtain rfl := modify_eq_ok.mp h
  refine ⟨senderAcc.pubkey, w₃, stateAcc.pubkey, stored, nextEventId, nextActionId, set, ledger, hreads,
    hnextEvent, hnextAction, ?_, ⟨bytes', hstored, hput⟩, by rw [hid]⟩
  refine (applyAction_ok happly).imp_right fun ⟨action, haction, hinvokes⟩ => ⟨action, ?_, hinvokes⟩
  exact ⟨data, bytes, payload, Except.fromOption_eq_ok.mp hdata, Except.fromOption_eq_ok.mp hbytes,
    Except.fromOption_eq_ok.mp hpayload, haction⟩

/-- The state is created where it was not, and with it two accounts of other kinds. -/
theorem initializeBridge_ok (documented : sys.Documented programId) {accounts : List AccountMeta}
    {instructionData : Bytes} {w w' : Onchain} {u : Unit}
    (h : initializeBridge sys programId accounts instructionData w = (.ok u, w')) :
    ∃ ledger ledger₁ set bump bytes, w' = { w with ledger, initialized := w.initialized + 1 } ∧
      (w.ledger (stateAddress sys programId)).owner ≠ programId ∧
      IsStored stateCodec statePda ⟨bump, { set, nextEventId := 1, nextActionId := 0 }⟩ bytes ∧
      Puts w.ledger ledger₁ (stateAddress sys programId) programId bytes ∧
      Frame sys programId ledger₁ ledger := by
  simp only [initializeBridge, require_bind, account_bind] at h
  obtain ⟨-, payerAcc, -, -, h⟩ := h
  obtain ⟨_, w₁, hsystem, h⟩ := bind_eq_ok.mp h
  obtain rfl := assertIsSystemProgram_ok hsystem
  simp only [account_bind, run_bind] at h
  obtain ⟨stateAcc, -, -, gitRevAcc, -, -, upgradeAuthorityAcc, -, -, programDataAcc, -, -, set, -,
    -, -, h⟩ := h
  obtain ⟨stored, w₂, hinit, h⟩ := bind_eq_ok.mp h
  obtain ⟨_, w₃, hstore, h⟩ := bind_eq_ok.mp h
  obtain ⟨ledger₁, bytes, rfl, haddress, -, howner, hstored, hput⟩ := create_ok documented hinit hstore
  obtain ⟨gitRev, w₄, hinitGit, h⟩ := bind_eq_ok.mp h
  obtain ⟨_, w₅, hstoreGit, h⟩ := bind_eq_ok.mp h
  obtain ⟨ledger₂, _, rfl, -, -, -, hstoredGit, hputGit⟩ := create_ok documented hinitGit hstoreGit
  simp only [require_bind, info_bind, run_bind] at h
  obtain ⟨-, loader, -, h⟩ := h
  split at h
  · obtain ⟨_, w₆, hpure, h⟩ := bind_eq_ok.mp h
    obtain ⟨-, rfl⟩ := pure_eq_ok.mp hpure
    obtain ⟨authority, w₇, hinitAuthority, h⟩ := bind_eq_ok.mp h
    obtain ⟨_, w₈, hstoreAuthority, h⟩ := bind_eq_ok.mp h
    obtain ⟨ledger₃, _, rfl, -, -, -, hstoredAuthority, hputAuthority⟩ :=
      create_ok documented hinitAuthority hstoreAuthority
    simp only [require_bind] at h
    obtain rfl := modify_eq_ok.mp h.2
    rw [haddress] at hput howner
    exact ⟨ledger₃, ledger₁, set, _, bytes, rfl, howner, hstored, hput,
      (hputGit.frame hstoredGit (by decide)).trans
        (hputAuthority.frame hstoredAuthority (by decide))⟩
  · obtain ⟨_, w₆, hthrow, -⟩ := bind_eq_ok.mp h
    exact absurd hthrow throw_ne_ok

theorem Rewrites.owner {ledger ledger' : Ledger} {stored : PdaData State} {key : Pubkey}
    {data : State} (h : Rewrites ledger ledger' stored key data) (k : Pubkey) :
    (ledger' k).owner = (ledger k).owner := by
  obtain ⟨bytes, -, hput⟩ := h
  by_cases hk : k = key
  · rw [hk, hput.owner]
  · exact (hput.others k hk).1

end Program

end Kolme.Solana
