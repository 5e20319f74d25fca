import Kolme.Lib.Bytes
import Mathlib.Data.List.Lex
import Mathlib.Order.Fin.Basic

/-!
# The order of byte strings

Byte strings are compared from the left. Strings of one length are ordered as the numbers that they
spell, whatever comes after them in the smaller one.
-/

/-- A byte string as a key of an ordered store. -/
@[ext] structure ByteKey where
  bytes : Bytes
deriving DecidableEq

namespace ByteKey

instance : LinearOrder ByteKey :=
  LinearOrder.lift' (fun key => key.bytes.map UInt8.toFin) fun _ _ h =>
    ByteKey.ext (List.map_injective_iff.mpr (fun _ _ => UInt8.toFin_inj.mp) h)

theorem ofLE_append (as bs : Bytes) :
    Bytes.ofLE (as ++ bs) = Bytes.ofLE as + 256 ^ as.length * Bytes.ofLE bs := by
  induction as with
  | nil => simp [Bytes.ofLE]
  | cons a as ih =>
    rw [List.cons_append, Bytes.ofLE, ih, Bytes.ofLE, List.length_cons]
    ring

theorem ofBE_cons (b : UInt8) (bs : Bytes) :
    Bytes.ofBE (b :: bs) = b.toNat * 256 ^ bs.length + Bytes.ofBE bs := by
  rw [Bytes.ofBE, List.reverse_cons, ofLE_append, List.length_reverse]
  simp only [Bytes.ofLE, Bytes.ofBE]
  ring

theorem nil_lt (b : UInt8) (bs : Bytes) : (⟨[]⟩ : ByteKey) < ⟨b :: bs⟩ := List.nil_lt_cons _ _

theorem cons_lt_cons (a b : UInt8) (as bs : Bytes) :
    (⟨a :: as⟩ : ByteKey) < ⟨b :: bs⟩ ↔
      a.toNat < b.toNat ∨ a = b ∧ (⟨as⟩ : ByteKey) < ⟨bs⟩ := by
  refine List.cons_lt_cons_iff.trans ?_
  rw [UInt8.toFin_inj]
  rfl

/-- A string is before a shorter one if the number in its first bytes is smaller. -/
theorem append_lt {as bs : Bytes} (cs : Bytes) (h : as.length = bs.length) :
    (⟨as ++ cs⟩ : ByteKey) < ⟨bs⟩ ↔ Bytes.ofBE as < Bytes.ofBE bs := by
  induction as generalizing bs with
  | nil =>
    obtain rfl := List.length_eq_zero_iff.mp h.symm
    simp only [List.nil_append, lt_self_iff_false, iff_false]
    exact List.not_lt_nil _
  | cons a as ih =>
    cases bs with
    | nil => nomatch h
    | cons b bs =>
      have hlength : as.length = bs.length := Nat.succ.inj h
      rw [List.cons_append, cons_lt_cons, ih hlength, ofBE_cons, ofBE_cons, hlength]
      have has := hlength ▸ Bytes.ofBE_lt as
      have hbs := Bytes.ofBE_lt bs
      constructor
      · rintro (hlt | ⟨rfl, hlt⟩)
        · have hmul := Nat.mul_le_mul_right (256 ^ bs.length) hlt
          rw [Nat.succ_mul] at hmul
          omega
        · omega
      · intro hlt
        rcases lt_trichotomy a.toNat b.toNat with hab | hab | hab
        · exact .inl hab
        · rw [hab] at hlt
          exact .inr ⟨UInt8.toNat_inj.mp hab, Nat.lt_of_add_lt_add_left hlt⟩
        · have hmul := Nat.mul_le_mul_right (256 ^ bs.length) hab
          rw [Nat.succ_mul] at hmul
          omega

theorem append_lt_append (start as bs : Bytes) :
    (⟨start ++ as⟩ : ByteKey) < ⟨start ++ bs⟩ ↔ (⟨as⟩ : ByteKey) < ⟨bs⟩ := by
  induction start with
  | nil => rfl
  | cons a start ih => simp [List.cons_append, cons_lt_cons, ih]

end ByteKey
