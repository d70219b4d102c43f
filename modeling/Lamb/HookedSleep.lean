import Lamb.IdleTimeout

/-!
# The hooked sleeps

`sleep`, `usleep` and `nanosleep` arm a timer that schedules the sleeping fiber, and
yield. The duration becomes milliseconds in a different type in each of them: an
`unsigned int`, an `unsigned int`, and a `long` that is stored in an `int`. Then it is
passed as a `uint64_t`.
-/

set_option autoImplicit false

namespace Lamb.HookedSleep
open Lamb.TimerManager Lamb.TimerWakeup

variable {κ : Type}

/-- A `struct timespec` that is a valid duration. -/
structure Timespec where
  tv_sec : ℕ
  tv_nsec : ℕ
  sec_lt : tv_sec < 2^63
  nsec_lt : tv_nsec < 10^9

def long (v : ℤ) : Option ℤ := if -2^63 ≤ v ∧ v < 2^63 then some v else none

/-- The conversion of a `long` to `int`. -/
def toInt (v : ℤ) : ℤ := v.bmod (2^32)

/-- `addTimer` with `schedule` of the fiber as the callback. Without the hook the call
goes to the system. -/
def armTimer (hook : Bool) (m : Manager κ) (a : ℕ) (fiber : κ) (now : UInt64)
    (ms : Option UInt64) : Option (Manager κ) :=
  if hook then ms.map fun ms => (addTimer m a ms (some fiber) false now).manager else some m

def sleep (hook : Bool) (m : Manager κ) (a : ℕ) (fiber : κ) (now : UInt64) (seconds : UInt32) :
    Option (Manager κ) :=
  armTimer hook m a fiber now (some (seconds*1000).toUInt64)

def usleep (hook : Bool) (m : Manager κ) (a : ℕ) (fiber : κ) (now : UInt64) (usec : UInt32) :
    Option (Manager κ) :=
  armTimer hook m a fiber now (some (usec/1000).toUInt64)

/-- `timeout_ms` of `nanosleep`. -/
def timeoutMs (req : Timespec) : Option ℤ :=
  (long (req.tv_sec*1000)).bind fun product =>
    (long (product+(req.tv_nsec/1000/1000 : ℕ))).map toInt

def nanosleep (hook : Bool) (m : Manager κ) (a : ℕ) (fiber : κ) (now : UInt64)
    (req : Timespec) : Option (Manager κ) :=
  armTimer hook m a fiber now ((timeoutMs req).map toUint64)

inductive Call where
  | sleep (seconds : UInt32)
  | usleep (usec : UInt32)
  | nanosleep (req : Timespec)

def Call.run (hook : Bool) (m : Manager κ) (a : ℕ) (fiber : κ) (now : UInt64) :
    Call → Option (Manager κ)
  | .sleep seconds => HookedSleep.sleep hook m a fiber now seconds
  | .usleep usec => HookedSleep.usleep hook m a fiber now usec
  | .nanosleep req => HookedSleep.nanosleep hook m a fiber now req

def Call.milliseconds : Call → ℕ
  | .sleep seconds => seconds.toNat*1000
  | .usleep usec => usec.toNat/1000
  | .nanosleep req => (req.tv_sec*10^9+req.tv_nsec)/10^6

def Call.Unwrapped (now : UInt64) : Call → Prop
  | .sleep seconds => seconds.toNat*1000 < 2^32 ∧ now.toNat+seconds.toNat*1000 < 2^64
  | .usleep usec => now.toNat+usec.toNat/1000 < 2^64
  | .nanosleep req =>
    req.tv_sec*1000 < 2^63 ∧ req.tv_sec*1000+req.tv_nsec/1000/1000 < 2^31 ∧
      now.toNat+(req.tv_sec*1000+req.tv_nsec/1000/1000) < 2^64

structure Armed (m m' : Manager κ) (a : ℕ) (fiber : κ) (deadline : ℕ) : Prop where
  timers : ∀ x, x ∈ m'.timers ↔ x = a ∨ x ∈ m.timers
  others : ∀ x, x ≠ a → m'.objects x = m.objects x
  timer : ∃ t, m'.objects a = some t ∧ t.cb = some fiber ∧ t.recurring = false ∧
    t.next.toNat = deadline

/-- The call sleeps for all of its time, and computes it without wrapping. -/
def NotShortened (m : Manager κ) (a : ℕ) (fiber : κ) (now : UInt64) (call : Call) : Prop :=
  call.Unwrapped now ∧ ∃ m', call.run true m a fiber now = some m' ∧
    Armed m m' a fiber (now.toNat+call.milliseconds)

/-- Less than 50 days for `sleep`, and less than 25 for `nanosleep`. -/
def Call.Short : Call → Prop
  | .sleep seconds => seconds.toNat ≤ 4294967
  | .usleep _ => True
  | .nanosleep req => req.tv_sec*1000+req.tv_nsec/10^6 < 2^31

/-! ## The timer -/

theorem addTimer_armed_iff {m : Manager κ} (h : Inv False m) {a : ℕ} (ha : m.objects a = none)
    (ms : UInt64) (fiber : κ) (now : UInt64) (deadline : ℕ) :
    Armed m (addTimer m a ms (some fiber) false now).manager a fiber deadline ↔
      (now+ms).toNat = deadline := by
  have hobj : (addTimer m a ms (some fiber) false now).manager.objects a =
      some ⟨false, ms, now+ms, some fiber⟩ := store_objects_self m a _
  constructor
  · rintro ⟨-, -, t, ht, -, -, hnext⟩
    rw [hobj] at ht
    obtain rfl := Option.some.inj ht
    exact hnext
  · intro hnext
    have hcreate : Holds False [a] (m.store a ⟨false, ms, now+ms, some fiber⟩) :=
      Holds.create h ha False.elim
    constructor
    · exact hcreate.mem_insert
    · intro x hx
      exact store_objects_of_ne m _ hx
    · exact ⟨_, hobj, rfl, rfl, hnext⟩

/-- A call with a defined timeout does what the deadline of its timer says. -/
theorem armTimer_iff {m : Manager κ} (h : Inv False m) {a : ℕ} (ha : m.objects a = none)
    (fiber : κ) (now ms : UInt64) (deadline : ℕ) :
    (∃ m', armTimer true m a fiber now (some ms) = some m' ∧ Armed m m' a fiber deadline) ↔
      (now+ms).toNat = deadline := by
  rw [← addTimer_armed_iff h ha ms fiber now deadline]
  constructor
  · rintro ⟨m', hm, harmed⟩
    obtain rfl := Option.some.inj hm
    exact harmed
  · intro harmed
    exact ⟨_, rfl, harmed⟩

/-! ## The conversions -/

theorem deadline_eq (now ms : UInt64) (hnow : now.toNat < 2^63) (hms : ms.toNat < 2^63) :
    (now+ms).toNat = now.toNat+ms.toNat := by
  rw [UInt64.toNat_add, Nat.mod_eq_of_lt (by omega)]

theorem sleep_toNat (seconds : UInt32) :
    (seconds*1000).toUInt64.toNat = seconds.toNat*1000 % 2^32 := by
  rw [UInt32.toNat_toUInt64, UInt32.toNat_mul]
  rfl

theorem usleep_toNat (usec : UInt32) : (usec/1000).toUInt64.toNat = usec.toNat/1000 := by
  rw [UInt32.toNat_toUInt64, UInt32.toNat_div]
  rfl

theorem nanosleep_milliseconds (req : Timespec) :
    (Call.nanosleep req).milliseconds = req.tv_sec*1000+req.tv_nsec/10^6 := by
  change (req.tv_sec*10^9+req.tv_nsec)/10^6 = _
  omega

theorem nsec_milliseconds (req : Timespec) : req.tv_nsec/1000/1000 = req.tv_nsec/10^6 := by
  omega

/-- The timeout of `nanosleep`, where the duration fits a `long`. -/
theorem timeoutMs_eq (req : Timespec) (hfit : req.tv_sec*1000+req.tv_nsec/10^6 < 2^63) :
    timeoutMs req = some (toInt (req.tv_sec*1000+req.tv_nsec/10^6 : ℕ)) := by
  have hproduct : long (req.tv_sec*1000) = some (req.tv_sec*1000 : ℤ) := if_pos (by omega)
  have hsum : long (req.tv_sec*1000+(req.tv_nsec/1000/1000 : ℕ)) =
      some ((req.tv_sec*1000+req.tv_nsec/10^6 : ℕ) : ℤ) := by
    rw [nsec_milliseconds req, long, if_pos (by omega)]
    push_cast
    rfl
  rw [timeoutMs, hproduct, Option.bind_some, hsum, Option.map_some]

theorem timeoutMs_none (req : Timespec) (hfit : ¬ req.tv_sec*1000+req.tv_nsec/10^6 < 2^63) :
    timeoutMs req = none := by
  rw [timeoutMs, Option.bind_eq_none_iff]
  intro product hp
  unfold long at hp
  split_ifs at hp with hlong
  obtain rfl := Option.some.inj hp
  have hsum : long (req.tv_sec*1000+(req.tv_nsec/1000/1000 : ℕ)) = none := if_neg (by omega)
  rw [hsum, Option.map_none]

theorem toInt_range (v : ℤ) : -2^31 ≤ toInt v ∧ toInt v < 2^31 := by
  have hlow := Int.le_bmod (x := v) (m := 4294967296) (by omega)
  have hhigh := Int.bmod_lt (x := v) (m := 4294967296) (by omega)
  change -2^31 ≤ v.bmod 4294967296 ∧ v.bmod 4294967296 < 2^31
  omega

theorem toInt_of_lt (d : ℕ) (h : d < 2^31) : toInt d = d :=
  Int.bmod_eq_of_le (by omega) (by omega)

/-- The deadline of `nanosleep` is right exactly if the milliseconds fit an `int`. -/
theorem nanosleep_deadline_iff (now : UInt64) (d : ℕ) (hnow : now.toNat < 2^63)
    (hd : d < 2^63) : (now+toUint64 (toInt d)).toNat = now.toNat+d ↔ d < 2^31 := by
  have hms := toUint64_toNat (toInt d)
  rw [UInt64.toNat_add]
  constructor
  · intro hdeadline
    by_contra hlong
    have hrange := toInt_range d
    omega
  · intro hshort
    rw [toInt_of_lt d hshort] at hms ⊢
    omega

section Calls

variable {m : Manager κ} {a : ℕ} {now : UInt64}

theorem sleep_armed_iff (h : Inv False m) (ha : m.objects a = none) (fiber : κ)
    (hnow : now.toNat < 2^63) (seconds : UInt32) :
    (∃ m', (Call.sleep seconds).run true m a fiber now = some m' ∧
      Armed m m' a fiber (now.toNat+(Call.sleep seconds).milliseconds)) ↔
      (Call.sleep seconds).Short := by
  have hiff := armTimer_iff h ha fiber now (seconds*1000).toUInt64
    (now.toNat+seconds.toNat*1000)
  have hms := sleep_toNat seconds
  have hlt := seconds.toNat_lt
  rw [deadline_eq now _ hnow (by omega), hms] at hiff
  refine hiff.trans ?_
  change _ ↔ seconds.toNat ≤ 4294967
  omega

theorem usleep_armed (h : Inv False m) (ha : m.objects a = none) (fiber : κ)
    (hnow : now.toNat < 2^63) (usec : UInt32) :
    ∃ m', (Call.usleep usec).run true m a fiber now = some m' ∧
      Armed m m' a fiber (now.toNat+(Call.usleep usec).milliseconds) := by
  apply (armTimer_iff h ha fiber now (usec/1000).toUInt64 (now.toNat+usec.toNat/1000)).mpr
  have hms := usleep_toNat usec
  have hlt := usec.toNat_lt
  rw [deadline_eq now _ hnow (by omega), hms]

theorem nanosleep_armed_iff (h : Inv False m) (ha : m.objects a = none) (fiber : κ)
    (hnow : now.toNat < 2^63) (req : Timespec) :
    (∃ m', (Call.nanosleep req).run true m a fiber now = some m' ∧
      Armed m m' a fiber (now.toNat+(Call.nanosleep req).milliseconds)) ↔
      (Call.nanosleep req).Short := by
  by_cases hfit : req.tv_sec*1000+req.tv_nsec/10^6 < 2^63
  · rw [nanosleep_milliseconds]
    have hms : (timeoutMs req).map toUint64 =
        some (toUint64 (toInt (req.tv_sec*1000+req.tv_nsec/10^6 : ℕ))) := by
      rw [timeoutMs_eq req hfit, Option.map_some]
    have hiff := armTimer_iff h ha fiber now
      (toUint64 (toInt (req.tv_sec*1000+req.tv_nsec/10^6 : ℕ)))
      (now.toNat+(req.tv_sec*1000+req.tv_nsec/10^6))
    rw [← hms] at hiff
    exact hiff.trans (nanosleep_deadline_iff now _ hnow hfit)
  · constructor
    · rintro ⟨m', hm, -⟩
      have hnone : (Call.nanosleep req).run true m a fiber now = none := by
        simp [Call.run, nanosleep, timeoutMs_none req hfit, armTimer]
      rw [hnone] at hm
      cases hm
    · intro hshort
      unfold Call.Short at hshort
      omega

theorem unwrapped_of_short (hnow : now.toNat < 2^63) {call : Call} (hs : call.Short) :
    call.Unwrapped now := by
  cases call with
  | sleep seconds =>
    unfold Call.Short at hs
    unfold Call.Unwrapped
    omega
  | usleep usec =>
    have hlt := usec.toNat_lt
    unfold Call.Unwrapped
    omega
  | nanosleep req =>
    unfold Call.Short at hs
    unfold Call.Unwrapped
    omega

end Calls

/-- A hooked sleep is not shortened exactly if its duration is short. -/
theorem sleep_not_shortened_iff (m : Manager κ) (h : Inv False m) (a : ℕ)
    (ha : m.objects a = none) (fiber : κ) (now : UInt64) (hnow : now.toNat < 2^63) (call : Call) :
    NotShortened m a fiber now call ↔ call.Short := by
  have harmed : (∃ m', call.run true m a fiber now = some m' ∧
      Armed m m' a fiber (now.toNat+call.milliseconds)) ↔ call.Short := by
    cases call with
    | sleep seconds => exact sleep_armed_iff h ha fiber hnow seconds
    | usleep usec => exact iff_of_true (usleep_armed h ha fiber hnow usec) trivial
    | nanosleep req => exact nanosleep_armed_iff h ha fiber hnow req
  constructor
  · intro hn
    exact harmed.mp hn.2
  · intro hs
    exact ⟨unwrapped_of_short hnow hs, harmed.mpr hs⟩

theorem sleep_not_shortened_hour : NotShortened (Manager.init 0) 5 1 7 (.sleep 3600) :=
  (sleep_not_shortened_iff (Manager.init 0) (init_inv 0) 5 rfl 1 7 (by decide) (.sleep 3600)).mpr
    (by decide : (3600 : UInt32).toNat ≤ 4294967)

/-- A sleep of 50 days ends after 704 milliseconds. -/
theorem sleep_shortened_fifty_days :
    (HookedSleep.sleep true (Manager.init 0) 5 1 0 4294968).map (fun m => m.nextOf 5) =
        some 704 ∧
      ¬ NotShortened (Manager.init 0) 5 1 0 (.sleep 4294968) := by
  refine ⟨rfl, ?_⟩
  rintro ⟨-, m', hm, -, -, t, ht, -, -, hnext⟩
  obtain rfl := Option.some.inj hm
  obtain rfl := Option.some.inj ht
  exact absurd hnext (by decide)

end Lamb.HookedSleep
