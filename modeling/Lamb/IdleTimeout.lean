import Lamb.TimerExpiry
import Lamb.TimerWakeup

/-!
# How long an idle thread sleeps

`idle` asks for the time to the next timer once and passes a timeout made of it to
`epoll_wait`, again and again while the call is interrupted. The value goes through an
`int` and back into the variable it came from. A timer that is far away can make the
timeout negative, and an interrupted wait starts over with all of its time.
-/

set_option autoImplicit false

namespace Lamb.TimerWakeup
open Lamb.TimerManager

variable {κ : Type} {armed : Prop}

/-- The conversion of an `int` to `uint64_t`. -/
def toUint64 (v : ℤ) : UInt64 := UInt64.ofNat (v % 2^64).toNat

/-- `next_timeout` after one round of the loop around `epoll_wait`. -/
def clamp (next_timeout : UInt64) : UInt64 := toUint64 (epollTimeout next_timeout)

/-- The last argument of `epoll_wait`. -/
def waitArgument (next_timeout : UInt64) : ℤ := (next_timeout.toNat : ℤ).bmod (2^32)

/-- The timeouts that are passed to `epoll_wait` when that many calls are interrupted. -/
def waits : ℕ → UInt64 → List ℤ
  | 0, next_timeout => [waitArgument (clamp next_timeout)]
  | retries+1, next_timeout =>
    waitArgument (clamp next_timeout)::waits retries (clamp next_timeout)

theorem epollTimeout_range (next : UInt64) :
    -2^31 ≤ epollTimeout next ∧ epollTimeout next ≤ 5000 := by
  have hlow := Int.le_bmod (x := (next.toNat : ℤ)) (m := 4294967296) (by omega)
  unfold epollTimeout
  split_ifs
  · decide
  · omega

theorem toUint64_toNat (v : ℤ) : ((toUint64 v).toNat : ℤ) = v % 2^64 := by
  have hlt : (v % 2^64).toNat < 2^64 := by omega
  rw [toUint64, UInt64.toNat_ofNat', Nat.mod_eq_of_lt hlt]
  exact Int.toNat_of_nonneg (by omega)

theorem bmod_wrapped (v : ℤ) : (v % 2^64).bmod (2^32) = v.bmod (2^32) := by
  rw [Int.bmod_def, Int.bmod_def]
  omega

theorem bmod_timeout (v : ℤ) (hlow : -2^31 ≤ v) (hhigh : v ≤ 5000) : v.bmod (2^32) = v :=
  Int.bmod_eq_of_le (by omega) (by omega)

theorem waitArgument_clamp (next : UInt64) : waitArgument (clamp next) = epollTimeout next := by
  obtain ⟨hlow, hhigh⟩ := epollTimeout_range next
  unfold waitArgument clamp
  rw [toUint64_toNat, bmod_wrapped]
  exact bmod_timeout _ hlow hhigh

/-- A timeout that is not negative is passed again at every retry. -/
theorem epollTimeout_clamp (next : UInt64) (h : 0 ≤ epollTimeout next) :
    epollTimeout (clamp next) = epollTimeout next := by
  obtain ⟨-, hhigh⟩ := epollTimeout_range next
  generalize hv : epollTimeout next = v at *
  obtain ⟨n, rfl⟩ := Int.eq_ofNat_of_zero_le h
  have hn : (clamp next).toNat = n := by
    have hnat := toUint64_toNat (epollTimeout next)
    rw [hv] at hnat
    rw [clamp, hv]
    omega
  have hne : clamp next ≠ ~~~0 := by
    intro he
    rw [he] at hn
    have hmax : (~~~(0 : UInt64)).toNat = 2^64-1 := by decide
    omega
  rw [epollTimeout, if_neg hne, hn, Int.bmod_eq_of_le (by omega) (by omega)]
  omega

theorem waits_head (retries : ℕ) (next : UInt64) :
    ∃ rest, waits retries next = epollTimeout next::rest := by
  cases retries with
  | zero => exact ⟨[], by rw [waits, waitArgument_clamp]⟩
  | succ retries => exact ⟨_, by rw [waits, waitArgument_clamp]⟩

theorem waits_replicate (retries : ℕ) (next : UInt64) (h : 0 ≤ epollTimeout next) :
    waits retries next = List.replicate (retries+1) (epollTimeout next) := by
  induction retries generalizing next with
  | zero => rw [waits, waitArgument_clamp]; rfl
  | succ retries ih =>
    have hc := epollTimeout_clamp next h
    rw [waits, waitArgument_clamp, ih (clamp next) (by rw [hc]; exact h), hc]
    rfl

theorem sentinel_iff (next : UInt64) : next = ~~~0 ↔ next.toNat = 2^64-1 := by
  have hmax : (~~~(0 : UInt64)).toNat = 2^64-1 := by decide
  rw [← UInt64.toNat_inj, hmax]

theorem bmod_low (n : ℕ) (h : n % 2^32 < 2^31) : (n : ℤ).bmod 4294967296 = (n % 2^32 : ℕ) := by
  rw [Int.bmod_def]
  omega

theorem bmod_high (n : ℕ) (h : ¬ n % 2^32 < 2^31) : (n : ℤ).bmod 4294967296 < 0 := by
  rw [Int.bmod_def]
  omega

theorem epollTimeout_nonneg_iff (next : UInt64) :
    0 ≤ epollTimeout next ↔ next.toNat = 2^64-1 ∨ next.toNat % 2^32 < 2^31 := by
  unfold epollTimeout
  rw [← sentinel_iff]
  by_cases hs : next = ~~~0
  · simp [hs]
  · rw [if_neg hs]
    by_cases hlow : next.toNat % 2^32 < 2^31
    · have hb := bmod_low next.toNat hlow
      exact iff_of_true (by omega) (.inr hlow)
    · have hb := bmod_high next.toNat hlow
      exact iff_of_false (by omega) (not_or.mpr ⟨hs, hlow⟩)

theorem epollTimeout_eq (next : UInt64) (h : 0 ≤ epollTimeout next) :
    epollTimeout next = (min (next.toNat % 2^32) 5000 : ℕ) := by
  rcases (epollTimeout_nonneg_iff next).mp h with hs | hlow
  · rw [epollTimeout, if_pos ((sentinel_iff next).mpr hs), hs]
    decide
  · unfold epollTimeout
    split_ifs with hs
    · rw [hs]
      decide
    · rw [bmod_low next.toNat hlow]
      omega

def remaining (m : Manager κ) (now : UInt64) (elapsed a : ℕ) : ℕ :=
  (m.nextOf a).toNat-(now.toNat+elapsed)

/-- What a timeout passed to `epoll_wait` at `elapsed` after the reading is to be. -/
structure InTime (m : Manager κ) (now : UInt64) (timeout : ℤ) (elapsed : ℕ) : Prop where
  nonneg : 0 ≤ timeout
  le_max : timeout ≤ 5000
  le_remaining : ∀ a ∈ m.timers, timeout ≤ remaining m now elapsed a

/-- Every timeout of an idle round is in time: the first one at the reading of the clock,
the others at the given times after it, when the call before was interrupted. -/
def NeverOversleeps (m : Manager κ) (now : UInt64) (retries : List ℕ) : Prop :=
  ∀ (i : ℕ) (timeout : ℤ) (elapsed : ℕ),
    (waits retries.length (getNextTimer m now).2)[i]? = some timeout →
    (0::retries)[i]? = some elapsed → InTime m now timeout elapsed

/-- There is no timer, or the time that is left until the first one passes through an
`int`, and whenever the call is interrupted there is still as much time left as was
asked for. -/
def Near (m : Manager κ) (now : UInt64) (retries : List ℕ) : Prop :=
  ∀ first, m.timers.head? = some first →
    (remaining m now 0 first = 2^64-1 ∨ remaining m now 0 first % 2^32 < 2^31) ∧
    ∀ elapsed ∈ retries, remaining m now 0 first % 2^32 = 0 ∨
      elapsed+min (remaining m now 0 first % 2^32) 5000 ≤ remaining m now 0 first

theorem near_iff (m : Manager κ) (now : UInt64) (retries : List ℕ) {first : ℕ}
    (hf : m.timers.head? = some first) : Near m now retries ↔
      (remaining m now 0 first = 2^64-1 ∨ remaining m now 0 first % 2^32 < 2^31) ∧
      ∀ elapsed ∈ retries, remaining m now 0 first % 2^32 = 0 ∨
        elapsed+min (remaining m now 0 first % 2^32) 5000 ≤ remaining m now 0 first := by
  constructor
  · intro hn
    exact hn first hf
  · intro hn x hx
    obtain rfl := Option.some.inj (hf.symm.trans hx)
    exact hn

theorem getNextTimer_remaining (m : Manager κ) (now : UInt64) (first : ℕ)
    (hf : m.timers.head? = some first) :
    (getNextTimer m now).2.toNat = remaining m now 0 first := by
  obtain ⟨rest, hm⟩ := List.head?_eq_some_iff.mp hf
  have hget : (getNextTimer m now).2 =
      if m.nextOf first ≤ now then 0 else m.nextOf first-now := by
    simp only [getNextTimer, hm]
    rfl
  rw [hget, remaining, Nat.add_zero]
  split_ifs with hle
  · rw [UInt64.le_iff_toNat_le] at hle
    rw [Nat.sub_eq_zero_of_le hle]
    rfl
  · rw [UInt64.le_iff_toNat_le] at hle
    apply UInt64.toNat_sub_of_le
    rw [UInt64.le_iff_toNat_le]
    omega

theorem getNextTimer_none (m : Manager κ) (now : UInt64) (hf : m.timers = []) :
    (getNextTimer m now).2 = ~~~0 := by
  simp only [getNextTimer, hf]

/-- Without a timer in the set every timeout is the longest one. -/
theorem neverOversleeps_empty (m : Manager κ) (now : UInt64) (retries : List ℕ)
    (hf : m.timers = []) : NeverOversleeps m now retries := by
  have ht : epollTimeout (~~~0) = 5000 := if_pos rfl
  intro i timeout elapsed hi _
  rw [getNextTimer_none m now hf, waits_replicate _ _ (by rw [ht]; decide), ht] at hi
  obtain rfl := List.eq_of_mem_replicate (List.mem_of_getElem? hi)
  exact ⟨by decide, by decide, by simp [hf]⟩

theorem remaining_first_le {m : Manager κ} (h : Inv armed m) (now : UInt64) (elapsed : ℕ)
    {first : ℕ} (hf : m.timers.head? = some first) {a : ℕ} (ha : a ∈ m.timers) :
    remaining m now elapsed first ≤ remaining m now elapsed a := by
  obtain ⟨rest, hm⟩ := List.head?_eq_some_iff.mp hf
  have hle := first_le h hm ha
  rw [UInt64.le_iff_toNat_le] at hle
  unfold remaining
  omega

/-- The timeouts of an idle round are all in time exactly if the first timer is near. -/
theorem idle_in_time_iff (m : Manager κ) (h : Inv armed m) (now : UInt64)
    (retries : List ℕ) : NeverOversleeps m now retries ↔ Near m now retries := by
  cases hf : m.timers.head? with
  | none =>
    have hm := List.head?_eq_none_iff.mp hf
    refine iff_of_true (neverOversleeps_empty m now retries hm) ?_
    intro first he
    rw [hf] at he
    cases he
  | some first =>
    have hfirst : first ∈ m.timers := List.mem_of_mem_head? hf
    have hget := getNextTimer_remaining m now first hf
    rw [near_iff m now retries hf]
    have hiff := epollTimeout_nonneg_iff (getNextTimer m now).2
    have heq := epollTimeout_eq (getNextTimer m now).2
    rw [hget] at hiff heq
    constructor
    · intro hin
      obtain ⟨rest, hhead⟩ := waits_head retries.length (getNextTimer m now).2
      have hpos := (hin 0 _ 0 (by rw [hhead]; rfl) rfl).nonneg
      refine ⟨hiff.mp hpos, ?_⟩
      intro elapsed he
      obtain ⟨i, hi⟩ := List.mem_iff_getElem?.mp he
      have hlt := (List.getElem?_eq_some_iff.mp hi).1
      have hwait : (waits retries.length (getNextTimer m now).2)[i+1]? =
          some (epollTimeout (getNextTimer m now).2) := by
        rw [waits_replicate _ _ hpos]
        exact List.getElem?_replicate_of_lt (by omega)
      have hle := (hin (i+1) _ elapsed hwait hi).le_remaining first hfirst
      rw [heq hpos] at hle
      unfold remaining at hle ⊢
      omega
    · rintro ⟨hfit, hretry⟩ i timeout elapsed hi he
      have hpos := hiff.mpr hfit
      rw [waits_replicate _ _ hpos] at hi
      obtain rfl := List.eq_of_mem_replicate (List.mem_of_getElem? hi)
      refine ⟨hpos, (epollTimeout_range _).2, ?_⟩
      intro a ha
      have hfa := remaining_first_le h now elapsed hf ha
      have hmod := Nat.mod_le (remaining m now 0 first) (2^32)
      rw [heq hpos]
      rcases List.mem_cons.mp (List.mem_of_getElem? he) with rfl | hmem
      · omega
      · have hr := hretry elapsed hmem
        unfold remaining at hfa hr ⊢
        omega

def oneTimer (ms : UInt64) : Manager ℕ :=
  (addTimer (Manager.init 0) 5 ms (some 1) false 0).manager

theorem oneTimer_inv (ms : UInt64) : Inv False (oneTimer ms) :=
  addTimer_inv (init_inv 0) rfl ms (some 1) false 0 False.elim

theorem idle_in_time_interrupted : NeverOversleeps (oneTimer 6000) 0 [400, 1000] := by
  refine (idle_in_time_iff (oneTimer 6000) (oneTimer_inv 6000) 0 [400, 1000]).mpr ?_
  exact (near_iff _ _ _ (show (oneTimer 6000).timers.head? = some 5 from rfl)).mpr (by decide)

/-- A timer that is 25 days away makes `epoll_wait` wait without a deadline. -/
theorem far_timer_negative :
    waits 0 (getNextTimer (oneTimer 2147483648) 0).2 = [-2147483648] ∧
      ¬ NeverOversleeps (oneTimer 2147483648) 0 [] := by
  refine ⟨by decide, ?_⟩
  intro hin
  exact absurd (hin 0 (-2147483648) 0 (by decide) rfl).nonneg (by decide)

end Lamb.TimerWakeup
