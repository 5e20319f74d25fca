import Kolme.Lib.Bytes
import Mathlib.Data.List.Nodup

/-!
# Texts in base 64

Three bytes are written as four characters, and what is left over at the end is padded. The reader
accepts only what the writer produces: whole groups, padding at the end and no stray bits.
-/

namespace Base64

def alphabet : List Char :=
  "ABCDEFGHIJKLMNOPQRSTUVWXYZabcdefghijklmnopqrstuvwxyz0123456789+/".toList

theorem length_alphabet : alphabet.length = 64 := by decide

theorem alphabet_nodup : alphabet.Nodup := by decide

/-- The character of a digit. -/
def char (n : Nat) : Char := alphabet[n]?.getD '='

/-- The digit of a character. -/
def digit? (c : Char) : Option Nat := alphabet.idxOf? c

theorem digit?_char {n : Nat} (h : n < 64) : digit? (char n) = some n := by
  have hn : n < alphabet.length := h.trans_eq length_alphabet.symm
  rw [digit?, char, List.getElem?_eq_getElem hn, Option.getD_some, List.idxOf?_eq_some_iff]
  refine ⟨hn, rfl, fun j hj heq => ?_⟩
  exact hj.ne ((alphabet_nodup.getElem_inj_iff).mp heq)

theorem char_ne_pad {n : Nat} (h : n < 64) : char n ≠ '=' := by
  have hn : n < alphabet.length := h.trans_eq length_alphabet.symm
  rw [char, List.getElem?_eq_getElem hn, Option.getD_some]
  intro heq
  have hmem : '=' ∈ alphabet := heq ▸ List.getElem_mem hn
  exact absurd hmem (by decide)

/-! ## Writing -/

def encodeChars : Bytes → List Char
  | a :: b :: c :: rest =>
    let n := a.toNat * 65536 + b.toNat * 256 + c.toNat
    char (n / 262144) :: char (n / 4096 % 64) :: char (n / 64 % 64) :: char (n % 64) ::
      encodeChars rest
  | [a, b] =>
    let n := a.toNat * 1024 + b.toNat * 4
    [char (n / 4096), char (n / 64 % 64), char (n % 64), '=']
  | [a] =>
    let n := a.toNat * 16
    [char (n / 64), char (n % 64), '=', '=']
  | [] => []

def encode (bs : Bytes) : String := String.ofList (encodeChars bs)

/-! ## Reading -/

def decodeChars : List Char → Option Bytes
  | [] => some []
  | a :: b :: c :: d :: rest => do
    let a ← digit? a
    let b ← digit? b
    if d = '=' then
      if rest ≠ [] then none
      else if c = '=' then
        let n := a * 64 + b
        if n % 16 = 0 then some [UInt8.ofNat (n / 16)] else none
      else do
        let c ← digit? c
        let n := a * 4096 + b * 64 + c
        if n % 4 = 0 then some [UInt8.ofNat (n / 1024), UInt8.ofNat (n / 4)] else none
    else do
      let c ← digit? c
      let d ← digit? d
      let n := a * 262144 + b * 4096 + c * 64 + d
      let bs ← decodeChars rest
      some (UInt8.ofNat (n / 65536) :: UInt8.ofNat (n / 256) :: UInt8.ofNat n :: bs)
  | _ => none

def decode (text : String) : Option Bytes := decodeChars text.toList

/-! ## Round trip -/

section

variable {n : Nat}

theorem digits_eq (n : Nat) :
    n / 262144 * 262144 + n / 4096 % 64 * 4096 + n / 64 % 64 * 64 + n % 64 = n := by omega

/-- A whole group. -/
theorem decodeChars_three (h : n < 256 ^ 3) (rest : List Char) :
    decodeChars (char (n / 262144) :: char (n / 4096 % 64) :: char (n / 64 % 64) ::
      char (n % 64) :: rest) = (decodeChars rest).map fun bs =>
        UInt8.ofNat (n / 65536) :: UInt8.ofNat (n / 256) :: UInt8.ofNat n :: bs := by
  have h1 : n / 262144 < 64 := by omega
  have h2 : n / 4096 % 64 < 64 := Nat.mod_lt _ (by decide)
  have h3 : n / 64 % 64 < 64 := Nat.mod_lt _ (by decide)
  have h4 : n % 64 < 64 := Nat.mod_lt _ (by decide)
  simp only [decodeChars, if_neg (char_ne_pad h4), digit?_char h1, digit?_char h2, digit?_char h3,
    digit?_char h4, Option.bind_eq_bind, Option.bind_some, digits_eq]
  cases decodeChars rest <;> rfl

/-- A group of two bytes. -/
theorem decodeChars_two (h : n < 64 ^ 3) (hn : n % 4 = 0) :
    decodeChars [char (n / 4096), char (n / 64 % 64), char (n % 64), '='] =
      some [UInt8.ofNat (n / 1024), UInt8.ofNat (n / 4)] := by
  have h1 : n / 4096 < 64 := by omega
  have h2 : n / 64 % 64 < 64 := Nat.mod_lt _ (by decide)
  have h3 : n % 64 < 64 := Nat.mod_lt _ (by decide)
  have hdigits : n / 4096 * 4096 + n / 64 % 64 * 64 + n % 64 = n := by omega
  simp only [decodeChars, if_neg (char_ne_pad h3), digit?_char h1, digit?_char h2, digit?_char h3,
    Option.bind_eq_bind, Option.bind_some, hdigits, ne_eq, not_true_eq_false, if_false, if_true,
    if_pos hn]

/-- A group of one byte. -/
theorem decodeChars_one (h : n < 64 ^ 2) (hn : n % 16 = 0) :
    decodeChars [char (n / 64), char (n % 64), '=', '='] = some [UInt8.ofNat (n / 16)] := by
  have h1 : n / 64 < 64 := by omega
  have h2 : n % 64 < 64 := Nat.mod_lt _ (by decide)
  have hdigits : n / 64 * 64 + n % 64 = n := by omega
  simp only [decodeChars, digit?_char h1, digit?_char h2, Option.bind_eq_bind, Option.bind_some,
    hdigits, ne_eq, not_true_eq_false, if_false, if_true, if_pos hn]

end

theorem ofNat_eq {n : Nat} {b : UInt8} (h : n % 256 = b.toNat) : UInt8.ofNat n = b := by
  apply UInt8.toNat_inj.mp
  rw [UInt8.toNat_ofNat', h]

theorem decodeChars_encodeChars (bs : Bytes) : decodeChars (encodeChars bs) = some bs := by
  induction bs using encodeChars.induct with
  | case1 a b c rest ih =>
    have ha := a.toNat_lt
    have hb := b.toNat_lt
    have hc := c.toNat_lt
    rw [encodeChars, decodeChars_three (by omega), ih, Option.map_some,
      ofNat_eq (b := a) (by omega), ofNat_eq (b := b) (by omega), ofNat_eq (b := c) (by omega)]
  | case2 a b =>
    have ha := a.toNat_lt
    have hb := b.toNat_lt
    rw [encodeChars, decodeChars_two (by omega) (by omega), ofNat_eq (b := a) (by omega),
      ofNat_eq (b := b) (by omega)]
  | case3 a =>
    have ha := a.toNat_lt
    rw [encodeChars, decodeChars_one (by omega) (by omega), ofNat_eq (b := a) (by omega)]
  | case4 => rfl

theorem decode_encode (bs : Bytes) : decode (encode bs) = some bs := by
  rw [decode, encode, String.toList_ofList, decodeChars_encodeChars]

end Base64
