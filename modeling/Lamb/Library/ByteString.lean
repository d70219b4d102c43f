import Mathlib.Data.List.Basic
import Mathlib.Tactic.Common
import Mathlib.Tactic.Ring

/-!
# Byte strings and positional representations

A byte string is a finite list. Machine words enter and leave memory through
their little-endian digits in base 256; a byte swap is the reversal of these
digits.
-/

set_option autoImplicit false

namespace Lamb.ByteString

abbrev Bytes := List UInt8

def leBytes : ℕ → ℕ → Bytes
  | 0, _ => []
  | n+1, v => UInt8.ofNat (v % 256)::leBytes n (v / 256)

def leValue : Bytes → ℕ
  | [] => 0
  | b::bs => b.toNat+256*leValue bs

@[simp] theorem leBytes_length (n v : ℕ) : (leBytes n v).length = n := by
  induction n generalizing v with
  | zero => rfl
  | succ n ih => simp [leBytes, ih]

theorem leValue_lt (bs : Bytes) : leValue bs < 256^bs.length := by
  induction bs with
  | nil => simp [leValue]
  | cons b bs ih =>
    have hb := b.toNat_lt
    simp only [leValue, List.length_cons, pow_succ]
    omega

theorem leValue_leBytes (n v : ℕ) : leValue (leBytes n v) = v % 256^n := by
  induction n generalizing v with
  | zero => simp [leBytes, leValue, Nat.mod_one]
  | succ n ih =>
    have hb : v % 256 % 2^8 = v % 256 := Nat.mod_eq_of_lt (Nat.mod_lt v (by decide))
    rw [leBytes, leValue, ih, UInt8.toNat_ofNat', hb, pow_succ', Nat.mod_mul]

theorem leBytes_leValue (bs : Bytes) : leBytes bs.length (leValue bs) = bs := by
  induction bs with
  | nil => rfl
  | cons b bs ih =>
    have hb := b.toNat_lt
    have hm : (b.toNat+256*leValue bs) % 256 = b.toNat := by omega
    have hd : (b.toNat+256*leValue bs) / 256 = leValue bs := by omega
    simp only [List.length_cons, leValue, leBytes, hm, hd, ih]
    simp

def byteswap (n v : ℕ) : ℕ := leValue (leBytes n v).reverse

theorem byteswap_lt (n v : ℕ) : byteswap n v < 256^n := by
  simpa [byteswap] using leValue_lt (leBytes n v).reverse

theorem leBytes_byteswap (n v : ℕ) : leBytes n (byteswap n v) = (leBytes n v).reverse := by
  simpa [byteswap] using leBytes_leValue (leBytes n v).reverse

theorem byteswap_byteswap (n v : ℕ) (h : v < 256^n) : byteswap n (byteswap n v) = v := by
  rw [byteswap, leBytes_byteswap, List.reverse_reverse, leValue_leBytes, Nat.mod_eq_of_lt h]

end Lamb.ByteString
