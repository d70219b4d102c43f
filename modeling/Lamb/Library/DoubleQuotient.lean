import Mathlib.Data.Nat.Log
import Mathlib.Tactic.Common
import Mathlib.Tactic.Linarith
import Mathlib.Tactic.Ring

/-!
# The ceiling of a double-precision quotient

The quotient of two naturals below `2^53` is computed in binary floating point
with a 53-bit significand, rounded to nearest with ties to even, and then
rounded up to an integer. The rounding error is smaller than the distance of a
proper fraction to the integers around it, so the result is the exact ceiling.
-/

set_option autoImplicit false

namespace Lamb.DoubleQuotient

def roundEven (n d : ℕ) : ℕ :=
  if 2*(n % d) < d then n / d
  else if d < 2*(n % d) then n / d+1
  else if n / d % 2 = 0 then n / d else n / d+1

def exponent (a b : ℕ) : ℕ :=
  if 2^52*b ≤ a*2^(52+Nat.log 2 b-Nat.log 2 a) then 52+Nat.log 2 b-Nat.log 2 a
  else 52+Nat.log 2 b-Nat.log 2 a+1

def significand (a b : ℕ) : ℕ := roundEven (a*2^exponent a b) b

/-- `ceil((double)a / (double)b)` for `a` below `2^53`. -/
def ceilQuotient (a b : ℕ) : ℕ :=
  if a = 0 then 0 else (significand a b+2^exponent a b-1) / 2^exponent a b

theorem roundEven_error (n d : ℕ) (hd : 0 < d) :
    2*(roundEven n d*d) ≤ 2*n+d ∧ 2*n ≤ 2*(roundEven n d*d)+d := by
  have hn := Nat.div_add_mod n d
  have hr := Nat.mod_lt n hd
  have hs : (n / d+1)*d = d*(n / d)+d := by ring
  have hm : n / d*d = d*(n / d) := Nat.mul_comm _ _
  unfold roundEven
  split_ifs <;> omega

theorem roundEven_exact (n d : ℕ) (hd : 0 < d) (h : d ∣ n) : roundEven n d*d = n := by
  have hr : n % d = 0 := Nat.mod_eq_zero_of_dvd h
  rw [roundEven, if_pos (by omega), Nat.div_mul_cancel h]

theorem exponent_lower (a b : ℕ) (ha : 0 < a) (h : a < 2^53) :
    2^52*b ≤ a*2^exponent a b := by
  unfold exponent
  split_ifs with hc
  · exact hc
  · have hla : 2^Nat.log 2 a ≤ a := Nat.pow_log_le_self 2 (by omega)
    have hlb : b < 2^(Nat.log 2 b+1) := Nat.lt_pow_succ_log_self (by decide) b
    have hle : Nat.log 2 a ≤ 52 := Nat.lt_succ_iff.mp (Nat.log_lt_of_lt_pow (by omega) h)
    calc 2^52*b ≤ 2^52*2^(Nat.log 2 b+1) := Nat.mul_le_mul_left _ (le_of_lt hlb)
      _ = 2^Nat.log 2 a*2^(52+Nat.log 2 b-Nat.log 2 a+1) := by
        rw [← pow_add, ← pow_add]
        congr 1
        omega
      _ ≤ a*2^(52+Nat.log 2 b-Nat.log 2 a+1) := Nat.mul_le_mul_right _ hla

/-- One unit of the scaled quotient is worth more than half a divisor. -/
theorem exponent_unit (a b : ℕ) (ha : 0 < a) (h : a < 2^53) :
    b < 2*2^exponent a b := by
  have hl := exponent_lower a b ha h
  have hu : a*2^exponent a b < 2^53*2^exponent a b :=
    Nat.mul_lt_mul_of_pos_right h (Nat.two_pow_pos _)
  omega

theorem ceil_between (m p n : ℕ) (hp : 0 < p) (hl : n*p < m) (hu : m ≤ (n+1)*p) :
    (m+p-1) / p = n+1 := by
  have hs : (n+1)*p = n*p+p := Nat.succ_mul n p
  have hss : (n+1+1)*p = (n+1)*p+p := Nat.succ_mul (n+1) p
  apply Nat.div_eq_of_lt_le <;> omega

theorem ceil_whole (p n : ℕ) (hp : 0 < p) : (n*p+p-1) / p = n := by
  apply Nat.div_eq_of_lt_le
  · omega
  · rw [Nat.succ_mul]
    omega

theorem ceilQuotient_eq (a b : ℕ) (hb : 0 < b) (h : a < 2^53) :
    ceilQuotient a b = (a+b-1) / b := by
  unfold ceilQuotient
  split_ifs with h0
  · subst h0
    exact (Nat.div_eq_of_lt (by omega)).symm
  have ha : 0 < a := by omega
  have hpow : 0 < 2^exponent a b := Nat.two_pow_pos _
  by_cases hdvd : b ∣ a
  · obtain ⟨n, rfl⟩ := hdvd
    have hs : significand (b*n) b = n*2^exponent (b*n) b := by
      have he := roundEven_exact (b*n*2^exponent (b*n) b) b hb
        (Dvd.dvd.mul_right (Dvd.intro n rfl) _)
      apply Nat.eq_of_mul_eq_mul_right hb
      rw [significand, he]
      ring
    rw [hs, ceil_whole _ _ hpow, Nat.mul_comm b n, ceil_whole _ _ hb]
  · have hr : 0 < a % b := Nat.pos_of_ne_zero fun he => hdvd (Nat.dvd_of_mod_eq_zero he)
    have hrb := Nat.mod_lt a hb
    have hdm := Nat.div_add_mod a b
    have hunit := exponent_unit a b ha h
    obtain ⟨hlo, hhi⟩ := roundEven_error (a*2^exponent a b) b hb
    change 2*(significand a b*b) ≤ _ at hlo
    change _ ≤ 2*(significand a b*b)+b at hhi
    generalize significand a b = m at *
    generalize 2^exponent a b = p at *
    have hap : a*p = a / b*p*b+a % b*p := by
      conv_lhs => rw [← hdm]
      ring
    have hrp : p ≤ a % b*p := Nat.le_mul_of_pos_left p hr
    have hrp' : a % b*p+p ≤ b*p := by
      have := Nat.mul_le_mul_right p (Nat.succ_le_of_lt hrb)
      rwa [Nat.succ_mul] at this
    have hl : a / b*p < m := by
      apply Nat.lt_of_mul_lt_mul_right (a := b)
      omega
    have hu : m ≤ (a / b+1)*p := by
      apply Nat.le_of_mul_le_mul_right _ hb
      have : (a / b+1)*p*b = a / b*p*b+b*p := by ring
      omega
    rw [ceil_between m p _ hpow hl hu, ceil_between a b _ hb]
    · rw [Nat.mul_comm]
      omega
    · rw [Nat.succ_mul, Nat.mul_comm (a / b) b]
      omega

end Lamb.DoubleQuotient
