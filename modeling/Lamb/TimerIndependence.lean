import Lamb.TimerExpiry
import Lamb.TimerRuns
import Lamb.Library.Simulation
import Mathlib.Algebra.GroupWithZero.Nat

/-!
# One timer among others

The manager keeps all timers in one set and expires them together. A timer gets along in it as it
would alone: what becomes of it, and at which readings it is handed out, depends on the calls on
itself and on the readings, and on no other timer.
-/

set_option autoImplicit false

namespace Lamb.TimerManager
open Lamb.Runs

variable {κ : Type} {armed : Prop}

/-! ## A timer on its own -/

def Timer.waiting (t : Timer κ) : Bool := t.cb.isSome

def Timer.refreshed (now : UInt64) (t : Timer κ) : Timer κ :=
  if t.waiting then { t with next := now+t.ms } else t

def Timer.resetAt (ms : UInt64) (fromNow : Bool) (now : UInt64) (t : Timer κ) : Timer κ :=
  if t.waiting then resetTimer t ms fromNow now else t

def Timer.fires (now : UInt64) (t : Timer κ) : Bool := t.waiting && decide (t.next ≤ now)

/-- What a call makes of the timer at `a` when there is no other. -/
def Timer.alone (a : ℕ) (t : Timer κ) : Call κ → Option (Timer κ)
  | .cancel b => some (if b = a then { t with cb := none } else t)
  | .refresh b now => some (if b = a then t.refreshed now else t)
  | .reset b ms fromNow now => some (if b = a then t.resetAt ms fromNow now else t)
  | .listExpiredCb now _ => some (if t.fires now then t.expire now else t)
  | _ => some t

/-- The reading at which the timer is handed out, when there is no other. -/
def Timer.firing (t : Timer κ) : Call κ → List UInt64
  | .listExpiredCb now _ => if t.fires now then [now] else []
  | _ => []

/-- The readings at which a call hands out the callback of the timer at `a`. -/
def firing (a : ℕ) (s : State κ) : Call κ → List UInt64
  | .listExpiredCb now addr =>
    ((listExpiredCb s.manager now addr).2.filter fun h => h.timer == a).map fun _ => now
  | _ => []

/-! ## The same timer in the manager -/

section Operations

variable {m : Manager κ} {a : ℕ} {o : Outcome κ}

theorem cancel_objects (h : Inv armed m) (ho : cancel m a = some o) (x : ℕ) :
    o.manager.objects x =
      if a = x then (m.objects x).map fun t => { t with cb := none } else m.objects x := by
  cases ht : m.objects a with
  | none =>
    rw [cancel, ht] at ho
    cases ho
  | some t =>
    cases hcb : t.cb with
    | none =>
      rw [cancel_spent ht hcb] at ho
      obtain rfl := Option.some.inj ho
      split_ifs with hx
      · obtain rfl := hx
        obtain ⟨recurring, ms, next, cb⟩ := t
        obtain rfl : cb = none := hcb
        rw [ht, Option.map_some]
      · rfl
    | some cb =>
      rw [cancel_armed h ht (by rw [hcb]; rfl)] at ho
      obtain rfl := Option.some.inj ho
      split_ifs with hx
      · obtain rfl := hx
        rw [store_objects_self, ht, Option.map_some]
      · exact store_objects_of_ne (m.erase a) _ (Ne.symm hx)

theorem refresh_objects (h : Inv armed m) {now : UInt64} (ho : refresh m a now = some o) (x : ℕ) :
    o.manager.objects x =
      if a = x then (m.objects x).map (Timer.refreshed now) else m.objects x := by
  cases ht : m.objects a with
  | none =>
    rw [refresh, ht] at ho
    cases ho
  | some t =>
    cases hcb : t.cb with
    | none =>
      rw [refresh_spent ht hcb] at ho
      obtain rfl := Option.some.inj ho
      split_ifs with hx
      · obtain rfl := hx
        simp [ht, Timer.refreshed, Timer.waiting, hcb]
      · rfl
    | some cb =>
      rw [refresh_armed h ht (by rw [hcb]; rfl)] at ho
      obtain rfl := Option.some.inj ho
      split_ifs with hx
      · obtain rfl := hx
        simp [Manager.insert, ht, Timer.refreshed, Timer.waiting, hcb]
      · exact store_objects_of_ne (m.erase a) _ (Ne.symm hx)

theorem reset_objects (h : Inv armed m) {ms : UInt64} {fromNow : Bool} {now : UInt64}
    (ho : reset m a ms fromNow now = some o) (x : ℕ) : o.manager.objects x =
      if a = x then (m.objects x).map (Timer.resetAt ms fromNow now) else m.objects x := by
  cases ht : m.objects a with
  | none =>
    rw [reset, ht] at ho
    cases ho
  | some t =>
    cases hcb : t.cb with
    | none =>
      rw [reset_spent ht hcb] at ho
      obtain rfl := Option.some.inj ho
      split_ifs with hx
      · obtain rfl := hx
        simp [ht, Timer.resetAt, Timer.waiting, hcb]
      · rfl
    | some cb =>
      rw [reset_armed h ht (by rw [hcb]; rfl)] at ho
      obtain rfl := Option.some.inj ho
      split_ifs with hx
      · obtain rfl := hx
        simp [insertTimer, Manager.insert, ht, Timer.resetAt, Timer.waiting, hcb]
      · exact store_objects_of_ne (m.erase a) _ (Ne.symm hx)

/-- An armed timer is in the set, and with callbacks all around no other one is. -/
theorem mem_timers_iff (h : Inv True m) {t : Timer κ} (ht : m.objects a = some t) :
    a ∈ m.timers ↔ t.waiting = true := by
  constructor
  · intro ha
    exact h.callback trivial a t ht (.inl ha)
  · intro hcb
    exact h.mem_of_cb ht hcb

theorem listExpiredCb_objects (h : Inv True m) {now : UInt64} (addr : ℕ)
    (hro : rolledOver m now = false) {t : Timer κ} (ht : m.objects a = some t) :
    (listExpiredCb m now addr).1.objects a = some (if t.fires now then t.expire now else t) ∧
    ((listExpiredCb m now addr).2.filter fun e => e.timer == a).map (fun _ => now) =
      if t.fires now then [now] else [] := by
  obtain ⟨m', out, heq, -, hnodup, hmem, -⟩ := listExpiredCb_spec h now addr
  obtain ⟨previous, hloop⟩ := listExpiredCb_loop h now addr hro
  have hdue : m.due now a = decide (t.next ≤ now) := by rw [Manager.due, Manager.nextOf, ht]
  have hfires : a ∈ out ↔ t.fires now = true := by
    rw [hmem, mem_timers_iff h ht, hro, Timer.fires, Bool.and_eq_true, decide_eq_true_iff,
      Manager.nextOf, ht]
    simp
  have hset : m.timers.Nodup := h.ordered.nodup comparator_order
  have hexpired : a ∈ m.timers.filter (m.due now) ↔ t.fires now = true := by
    rw [List.mem_filter, mem_timers_iff h ht, hdue, ← Bool.and_eq_true]
    rfl
  constructor
  · rw [hloop, expireAll_objects now _ (hset.filter _)]
    by_cases hf : t.fires now = true
    · rw [if_pos (hexpired.mpr hf), if_pos hf, ht]
      rfl
    · rw [if_neg (mt hexpired.mp hf), if_neg hf, ht]
  · rw [heq, List.filter_map, List.map_map]
    have hsame : (fun e : Handed κ => e.timer == a) ∘ handed m = fun x => x == a := rfl
    rw [hsame, List.filter_beq, List.map_replicate, hnodup.count]
    simp only [hfires]
    split_ifs <;> rfl

end Operations

/-- Timers are created with a callback, the clock readings are not taken for a rollover, and a
handle to the timer at `a` is held. -/
def Orderly (a : ℕ) (s : State κ) (c : Call κ) : Prop :=
  WithCallback s c ∧ WithinHour s c ∧ Comparable s c ∧ Held a s c

def Same (a : ℕ) (s : State κ) (t : Timer κ) : Prop :=
  (Inv True s.manager ∧ Ledger s) ∧ s.manager.objects a = some t

theorem next_alone {a : ℕ} (s : State κ) (c : Call κ) (s' : State κ) (t : Timer κ)
    (h : Same a s t) (hg : Orderly a s c) (hn : next s c = some s') :
    ∃ t', t.alone a c = some t' ∧ Same a s' t' ∧ firing a s c = t.firing c := by
  obtain ⟨hok, ht⟩ := h
  have hok' := next_ok hok (fun _ => hg.1) hn
  suffices hobject : ∃ t', t.alone a c = some t' ∧ s'.manager.objects a = some t' ∧
      firing a s c = t.firing c by
    obtain ⟨t', halone, ht', hfiring⟩ := hobject
    exact ⟨t', halone, ⟨hok', ht'⟩, hfiring⟩
  cases c with
  | addTimer b ms cb recurring now =>
    obtain ⟨hnone, rfl⟩ := next_addTimer hn
    have hab : a ≠ b := by
      rintro rfl
      rw [ht] at hnone
      cases hnone
    refine ⟨t, rfl, ?_, rfl⟩
    rw [← ht, ← store_objects_of_ne s.manager ⟨recurring, ms, now+ms, cb⟩ hab]
    rfl
  | cancel b =>
    obtain ⟨o, ho, rfl⟩ := Option.map_eq_some_iff.mp hn
    refine ⟨_, rfl, ?_, rfl⟩
    rw [cancel_objects hok.1 ho a, ht]
    split_ifs <;> rfl
  | refresh b now =>
    obtain ⟨o, ho, rfl⟩ := Option.map_eq_some_iff.mp hn
    refine ⟨_, rfl, ?_, rfl⟩
    rw [refresh_objects hok.1 ho a, ht]
    split_ifs <;> rfl
  | reset b ms fromNow now =>
    obtain ⟨o, ho, rfl⟩ := Option.map_eq_some_iff.mp hn
    refine ⟨_, rfl, ?_, rfl⟩
    rw [reset_objects hok.1 ho a, ht]
    split_ifs <;> rfl
  | resetEarly b ms fromNow =>
    rw [next_resetEarly hn]
    exact ⟨t, rfl, ht, rfl⟩
  | getNextTimer now =>
    obtain rfl := Option.some.inj hn
    refine ⟨t, rfl, ?_, rfl⟩
    rw [getNextTimer_manager]
    exact ht
  | listExpiredCb now addr =>
    obtain rfl := Option.some.inj hn
    have hro : rolledOver s.manager now = false := (rolledOver_iff hg.2.1).mpr hg.2.2.1
    obtain ⟨hobject, hfiring⟩ := listExpiredCb_objects hok.1 addr hro ht
    exact ⟨_, rfl, hobject, hfiring⟩
  | release b =>
    obtain ⟨-, rfl⟩ := next_release hn
    have hab : a ≠ b := by
      rintro rfl
      exact hg.2.2.2 rfl
    refine ⟨t, rfl, ?_, rfl⟩
    exact (Function.update_of_ne hab _ _).trans ht

/-! ## The pace of a recurring timer -/

def readings (cs : List (Call κ)) : List UInt64 :=
  cs.filterMap fun c =>
    match c with
    | .listExpiredCb now _ => some now
    | _ => none

/-- Out of the readings, the first one from `next` on, and from then on each one a period behind
the last at least. -/
def schedule (ms : ℕ) : ℕ → List UInt64 → List UInt64
  | _, [] => []
  | next, now::rest =>
    if next ≤ now.toNat then now::schedule ms (now.toNat+ms) rest else schedule ms next rest

theorem schedule_from (ms next : ℕ) (ns : List UInt64) : ∀ n ∈ schedule ms next ns,
    next ≤ n.toNat := by
  induction ns generalizing next with
  | nil => exact fun _ => nofun
  | cons now rest ih =>
    rw [schedule]
    split_ifs with hdue
    · intro n hn
      rcases List.mem_cons.mp hn with rfl | hn
      · exact hdue
      · have hlater := ih _ n hn
        omega
    · exact ih next

theorem schedule_spaced (ms next : ℕ) (ns : List UInt64) :
    (schedule ms next ns).Pairwise fun m n => m.toNat+ms ≤ n.toNat := by
  induction ns generalizing next with
  | nil => exact .nil
  | cons now rest ih =>
    rw [schedule]
    split_ifs with hdue
    · exact .cons (schedule_from ms _ rest) (ih _)
    · exact ih next

/-- Nobody cancels, refreshes or resets the timer at `a`, and the sum of a reading and the period
does not overflow. -/
def Undisturbed (a : ℕ) (ms : UInt64) : Call κ → Prop
  | .cancel b => b ≠ a
  | .refresh b _ => b ≠ a
  | .reset b _ _ _ => b ≠ a
  | .listExpiredCb now _ => now.toNat+ms.toNat < 2^64
  | _ => True

theorem alone_schedule {a : ℕ} (t : Timer κ) (hr : t.recurring = true) (hw : t.waiting = true)
    (cs : List (Call κ)) (h : ∀ c ∈ cs, Undisturbed a t.ms c) :
    outputs (Timer.alone a) Timer.firing cs t =
      schedule t.ms.toNat t.next.toNat (readings cs) := by
  induction cs generalizing t with
  | nil => rfl
  | cons c cs ih =>
    have hc := h c (.head cs)
    have hrest := fun c' hc' => h c' (.tail c hc')
    have hstay (halone : t.alone a c = some t) (hfiring : t.firing c = []) :
        outputs (Timer.alone a) Timer.firing (c::cs) t =
          schedule t.ms.toNat t.next.toNat (readings cs) := by
      rw [outputs_cons _ halone, hfiring, List.nil_append, ih t hr hw hrest]
    cases c with
    | cancel b => exact hstay (by rw [Timer.alone, if_neg hc]) rfl
    | refresh b now => exact hstay (by rw [Timer.alone, if_neg hc]) rfl
    | reset b ms fromNow now => exact hstay (by rw [Timer.alone, if_neg hc]) rfl
    | addTimer b ms cb recurring now => exact hstay rfl rfl
    | resetEarly b ms fromNow => exact hstay rfl rfl
    | getNextTimer now => exact hstay rfl rfl
    | release b => exact hstay rfl rfl
    | listExpiredCb now addr =>
      have hfires : t.fires now = decide (t.next.toNat ≤ now.toNat) := by
        rw [Timer.fires, hw, Bool.true_and]
        exact decide_eq_decide.mpr UInt64.le_iff_toNat_le
      have hreadings : readings (Call.listExpiredCb (κ := κ) now addr::cs) = now::readings cs := rfl
      rw [hreadings, schedule]
      by_cases hdue : t.next.toNat ≤ now.toNat
      · have hsum : (now+t.ms).toNat = now.toNat+t.ms.toNat := by
          rw [UInt64.toNat_add, Nat.mod_eq_of_lt hc]
        have hexpire : t.expire now = { t with next := now+t.ms } := if_pos hr
        have hstep : t.alone a (.listExpiredCb now addr) = some { t with next := now+t.ms } := by
          rw [Timer.alone, hfires, if_pos (decide_eq_true hdue), hexpire]
        rw [outputs_cons _ hstep, if_pos hdue, Timer.firing, hfires, if_pos (decide_eq_true hdue),
          ih { t with next := now+t.ms } hr hw hrest, hsum]
        rfl
      · have hnot : ¬ decide (t.next.toNat ≤ now.toNat) = true := mt of_decide_eq_true hdue
        rw [if_neg hdue]
        apply hstay
        · rw [Timer.alone, hfires, if_neg hnot]
        · rw [Timer.firing, hfires, if_neg hnot]

/-- In a run of any number of timers each one gets along as it would alone: it is the same object,
it is in the set as long as it has a callback, and it is handed out at the same readings. A
recurring timer that is left alone is handed out at each reading that comes a period behind the
last one, and never earlier. -/
theorem timers_independent (start : UInt64) (s s' : State κ)
    (h : Reaches next WithCallback (State.init start) s) (a : ℕ) (t : Timer κ)
    (ha : s.manager.objects a = some t) (cs : List (Call κ))
    (hrun : Along next (Orderly a) cs s s') :
    (∃ t', after (Timer.alone a) cs t = some t' ∧ s'.manager.objects a = some t' ∧
      (a ∈ s'.manager.timers ↔ t'.waiting = true)) ∧
    outputs next (firing a) cs s = outputs (Timer.alone a) Timer.firing cs t ∧
    (t.recurring = true → t.waiting = true → (∀ c ∈ cs, Undisturbed a t.ms c) →
      outputs next (firing a) cs s = schedule t.ms.toNat t.next.toNat (readings cs) ∧
      (outputs next (firing a) cs s).Pairwise fun m n => m.toNat+t.ms.toNat ≤ n.toNat) := by
  have hok := reaches_ok True (fun _ _ hc _ => hc) h
  obtain ⟨t', hafter, hsame, houtputs⟩ := hrun.projected next_alone ⟨hok, ha⟩
  refine ⟨⟨t', hafter, hsame.2, mem_timers_iff hsame.1.1 hsame.2⟩, houtputs, ?_⟩
  intro hr hw hcs
  have hschedule := houtputs.trans (alone_schedule t hr hw cs hcs)
  refine ⟨hschedule, ?_⟩
  rw [hschedule]
  exact schedule_spaced _ _ _

theorem two_timers_independent : ∃ s s' : State Unit,
    after next [.addTimer 7 20 (some ()) true 5, .addTimer 3 10 (some ()) false 15]
      (State.init 0) = some s ∧
    after next [.listExpiredCb 30 9, .cancel 3, .listExpiredCb 40 9, .listExpiredCb 50 9] s =
      some s' ∧
    outputs next (firing 7)
      [.listExpiredCb 30 9, .cancel 3, .listExpiredCb 40 9, .listExpiredCb 50 9] s = [30, 50] := by
  refine ⟨_, _, rfl, rfl, ?_⟩
  have hfirst : Reaches next WithCallback (State.init 0 : State Unit) _ :=
    Reaches.start.step (a := Call.addTimer 7 20 (some ()) true 5) rfl rfl
  have hsecond := hfirst.step (a := Call.addTimer 3 10 (some ()) false 15) rfl rfl
  have hwithin : (0 : ℕ) ≤ 30+3600000 ∧ 30 ≤ 40+3600000 ∧ 40 ≤ 50+3600000 := by decide
  have hpace := (timers_independent 0 _ _ hsecond 7 ⟨true, 20, 25, some ()⟩ rfl
    [.listExpiredCb 30 9, .cancel 3, .listExpiredCb 40 9, .listExpiredCb 50 9]
    (.cons ⟨trivial, hwithin.1, .inl (by decide), nofun⟩ rfl
      (.cons ⟨trivial, trivial, trivial, nofun⟩ rfl
        (.cons ⟨trivial, hwithin.2.1, .inl (by decide), nofun⟩ rfl
          (.cons ⟨trivial, hwithin.2.2, .inl (by decide), nofun⟩ rfl (.nil _)))))).2.2
  exact (hpace rfl rfl (by simp [Undisturbed])).1

end Lamb.TimerManager
