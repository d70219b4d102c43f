import Mathlib.Data.List.OfFn
import Mathlib.Tactic.Common

/-!
# Prefixes of bit vectors

A mask of leading bits splits a vector in a prefix that is kept and a suffix that is
cleared or filled. Reversing the bytes of a vector moves bits and commutes with all
operations that treat the bits one by one.
-/

set_option autoImplicit false

namespace Lamb.BitMask

variable {w : ℕ}

def leading (w n : ℕ) : BitVec w := ~~~(BitVec.allOnes w >>> n)

theorem getMsbD_leading (n i : ℕ) :
    (leading w n).getMsbD i = (decide (i < w) && decide (i < n)) := by
  simp only [leading, BitVec.getMsbD_not, BitVec.getMsbD_ushiftRight]
  by_cases hw : i < w
  · by_cases hn : i < n
    · simp [hw, hn]
    · have hsub : i-n < w := by omega
      simp [hw, hn, BitVec.getMsbD_eq_getLsbD, hsub]
      omega
  · simp [hw]

theorem getLsbD_not_leading (n i : ℕ) (hn : n ≤ w) :
    (~~~leading w n).getLsbD i = decide (i < w-n) := by
  simp only [leading, BitVec.not_not, BitVec.getLsbD_ushiftRight, BitVec.getLsbD_allOnes]
  exact decide_eq_decide.mpr (by omega)

theorem getLsbD_shiftLeft_sub_one {k : ℕ} (hk : k < w) (i : ℕ) :
    ((1#w <<< k) - 1#w).getLsbD i = decide (i < k) := by
  have hpow : 2^k < 2^w := Nat.pow_lt_pow_right (by decide) hk
  have hpos : 0 < 2^k := Nat.two_pow_pos k
  have hone : 1 < 2^w := by omega
  have hvalue : (1#w <<< k) - 1#w = BitVec.ofNat w (2^k-1) := by
    apply BitVec.eq_of_toNat_eq
    rw [BitVec.toNat_sub, BitVec.toNat_shiftLeft, BitVec.toNat_ofNat, BitVec.toNat_ofNat,
      Nat.mod_eq_of_lt hone, Nat.shiftLeft_eq, Nat.one_mul, Nat.mod_eq_of_lt hpow,
      Nat.mod_eq_of_lt (by omega : 2^k-1 < 2^w),
      show 2^w-1+2^k = 2^k-1+2^w by omega, Nat.add_mod_right, Nat.mod_eq_of_lt (by omega)]
  rw [hvalue, BitVec.getLsbD_ofNat, Nat.testBit_two_pow_sub_one]
  by_cases hi : i < k
  · simp [hi, show i < w by omega]
  · simp [hi]

def keep (n : ℕ) (a : BitVec w) : BitVec w := a &&& leading w n

def fill (n : ℕ) (a : BitVec w) : BitVec w := a ||| ~~~leading w n

theorem getMsbD_keep (n i : ℕ) (a : BitVec w) :
    (keep n a).getMsbD i = (a.getMsbD i && decide (i < n)) := by
  rw [keep, BitVec.getMsbD_and, getMsbD_leading]
  by_cases hw : i < w
  · simp [hw]
  · simp [BitVec.getMsbD_of_ge a i (by omega)]

theorem getMsbD_fill (n i : ℕ) (a : BitVec w) :
    (fill n a).getMsbD i = (decide (i < w) && (a.getMsbD i || !decide (i < n))) := by
  rw [fill, BitVec.getMsbD_or, BitVec.getMsbD_not, getMsbD_leading]
  by_cases hw : i < w
  · simp [hw]
  · simp [hw, BitVec.getMsbD_of_ge a i (by omega)]

theorem keep_keep (n : ℕ) (a : BitVec w) : keep n (keep n a) = keep n a := by
  rw [keep, keep, BitVec.and_assoc, BitVec.and_self]

theorem fill_fill (n : ℕ) (a : BitVec w) : fill n (fill n a) = fill n a := by
  rw [fill, fill, BitVec.or_assoc, BitVec.or_self]

def swapBytes (v : BitVec w) : BitVec w :=
  (BitVec.ofBoolListLE (List.ofFn fun i : Fin w => v.getLsbD (w-8*(i/8+1)+i%8))).cast (by simp)

theorem getLsbD_swapBytes (v : BitVec w) {i : ℕ} (hi : i < w) :
    (swapBytes v).getLsbD i = v.getLsbD (w-8*(i/8+1)+i%8) := by
  rw [swapBytes, BitVec.getLsbD_cast, BitVec.getLsbD_ofBoolListLE, List.getD_eq_getElem?_getD,
    List.getElem?_ofFn]
  simp [hi]

theorem swapBytes_swapBytes (v : BitVec w) (hw : w % 8 = 0) : swapBytes (swapBytes v) = v := by
  apply BitVec.eq_of_getLsbD_eq
  intro i hi
  rw [getLsbD_swapBytes _ hi, getLsbD_swapBytes _ (by omega)]
  congr 1
  omega

theorem swapBytes_and (a b : BitVec w) :
    swapBytes (a &&& b) = swapBytes a &&& swapBytes b := by
  apply BitVec.eq_of_getLsbD_eq
  intro i hi
  rw [getLsbD_swapBytes _ hi, BitVec.getLsbD_and, BitVec.getLsbD_and, getLsbD_swapBytes _ hi,
    getLsbD_swapBytes _ hi]

theorem swapBytes_or (a b : BitVec w) : swapBytes (a ||| b) = swapBytes a ||| swapBytes b := by
  apply BitVec.eq_of_getLsbD_eq
  intro i hi
  rw [getLsbD_swapBytes _ hi, BitVec.getLsbD_or, BitVec.getLsbD_or, getLsbD_swapBytes _ hi,
    getLsbD_swapBytes _ hi]

theorem swapBytes_not (v : BitVec w) (hw : w % 8 = 0) : swapBytes (~~~v) = ~~~swapBytes v := by
  apply BitVec.eq_of_getLsbD_eq
  intro i hi
  have hsource : w-8*(i/8+1)+i%8 < w := by omega
  rw [getLsbD_swapBytes _ hi, BitVec.getLsbD_not, BitVec.getLsbD_not, getLsbD_swapBytes _ hi]
  simp [hi, hsource]

theorem swapBytes_append (a b : BitVec 8) : swapBytes (a ++ b) = b ++ a := by
  apply BitVec.eq_of_getLsbD_eq
  intro i hi
  rw [getLsbD_swapBytes _ hi, BitVec.getLsbD_append, BitVec.getLsbD_append]
  by_cases hlow : i < 8
  · rw [if_neg (by omega), if_pos hlow]
    congr 1
    omega
  · rw [if_pos (by omega), if_neg hlow]
    congr 1
    omega

theorem toNat_append (a b : BitVec 8) : (a ++ b).toNat = a.toNat*256+b.toNat := by
  rw [BitVec.toNat_append, ← Nat.shiftLeft_add_eq_or_of_lt b.isLt, Nat.shiftLeft_eq]

end Lamb.BitMask
