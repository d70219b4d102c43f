import Lamb.TimerInvariant

/-!
# Which timers expire

`listExpiredCb` cuts the set at a position that a binary search and a loop over equal
times determine, with a temporary timer whose address is arbitrary. The cut always
separates the timers that are due from the later ones, in the order of the set.
-/

set_option autoImplicit false

namespace Lamb.TimerManager
open Lamb.OrderedSet

variable {κ : Type} {armed : Prop}

def Manager.due (m : Manager κ) (now : UInt64) (a : ℕ) : Bool := m.nextOf a ≤ now

def Timer.expire (now : UInt64) (t : Timer κ) : Timer κ :=
  if t.recurring then { t with next := now+t.ms } else { t with cb := none }

theorem expired_eq_filter {m : Manager κ} (h : Inv armed m) (now : UInt64) (addr : ℕ) :
    expired m false now addr = m.timers.filter (m.due now) ∧
      expiredEnd m false now addr = m.timers.filter fun a => !m.due now a := by
  have happ := expired_append m false now addr
  have hfront : ∀ a ∈ expired m false now addr, m.due now a = true := by
    intro a ha
    have hdue := ((mem_expired h false now addr a).mp ha).2
    simpa [Manager.due] using hdue
  have hback : ∀ a ∈ expiredEnd m false now addr, m.due now a = false := by
    intro a ha
    have hlater := later_of_mem_expiredEnd h ha
    rw [Manager.due, decide_eq_false_iff_not, UInt64.le_iff_toNat_le]
    omega
  constructor
  · conv_rhs => rw [← happ]
    rw [List.filter_append, List.filter_eq_self.mpr hfront,
      List.filter_eq_nil_iff.mpr fun a ha => by simp [hback a ha], List.append_nil]
  · conv_rhs => rw [← happ]
    rw [List.filter_append, List.filter_eq_nil_iff.mpr fun a ha => by simp [hfront a ha],
      List.filter_eq_self.mpr fun a ha => by simp [hback a ha], List.nil_append]

theorem listExpiredCb_cons {m : Manager κ} {first : ℕ} {rest : List ℕ}
    (hm : m.timers = first::rest) (now : UInt64) (addr : ℕ) (hro : rolledOver m now = false) :
    listExpiredCb m now addr =
      if now < m.nextOf first then ({ m with previouseTime := now }, [])
      else (expired { m with previouseTime := now } false now addr).foldl (expireOne now)
        ({ m with
          timers := expiredEnd { m with previouseTime := now } false now addr
          previouseTime := now }, []) := by
  obtain ⟨objects, timers, tickled, previous⟩ := m
  obtain rfl : timers = first::rest := hm
  unfold listExpiredCb
  simp only
  rw [show (detectClockRollover _ now).2 = false from hro]
  simp only [Bool.not_false, Bool.true_and, decide_eq_true_eq]
  rfl

/-- The loop of `listExpiredCb` runs over the timers that are due, with the later ones
left in the set. -/
theorem listExpiredCb_loop {m : Manager κ} (h : Inv armed m) (now : UInt64) (addr : ℕ)
    (hro : rolledOver m now = false) :
    ∃ previous, listExpiredCb m now addr =
      (m.timers.filter (m.due now)).foldl (expireOne now)
        ({ m with
          timers := m.timers.filter fun a => !m.due now a
          previouseTime := previous }, []) := by
  cases hm : m.timers with
  | nil =>
    refine ⟨m.previouseTime, ?_⟩
    simp only [listExpiredCb, hm, List.filter_nil, List.foldl_nil]
    rw [← hm]
  | cons first rest =>
    rw [← hm]
    refine ⟨now, ?_⟩
    rw [listExpiredCb_cons hm now addr hro]
    by_cases hlt : now < m.nextOf first
    · -- nothing is due: the first timer is the earliest
      have hnone : ∀ a ∈ m.timers, m.due now a = false := by
        intro a ha
        exact decide_eq_false (later_of_first h hm hlt ha)
      have hfilter : m.timers.filter (m.due now) = [] :=
        List.filter_eq_nil_iff.mpr fun a ha => by simp [hnone a ha]
      have hkeep : (m.timers.filter fun a => !m.due now a) = m.timers :=
        List.filter_eq_self.mpr fun a ha => by simp [hnone a ha]
      rw [if_pos hlt, hfilter, hkeep]
      rfl
    · obtain ⟨hfront, hback⟩ := expired_eq_filter (m := { m with previouseTime := now })
        (h.flags m.tickled now) now addr
      rw [if_neg hlt, hfront, hback]
      rfl

theorem expireOne_objects (now : UInt64) (m : Manager κ) (cbs : List (Handed κ)) (a x : ℕ) :
    (expireOne now (m, cbs) a).1.objects x =
      if x = a then (m.objects x).map (Timer.expire now) else m.objects x := by
  by_cases hx : x = a
  · subst hx
    rw [if_pos rfl]
    cases ht : m.objects x with
    | none => simp [expireOne, ht]
    | some t =>
      by_cases hr : t.recurring = true
      · rw [expireOne_recurring ht hr]
        simp [Timer.expire, hr]
      · rw [expireOne_oneShot ht hr]
        simp [Timer.expire, hr]
  · rw [if_neg hx]
    cases ht : m.objects a with
    | none => simp [expireOne, ht]
    | some t =>
      by_cases hr : t.recurring = true
      · rw [expireOne_recurring ht hr]
        exact store_objects_of_ne m _ hx
      · rw [expireOne_oneShot ht hr]
        exact store_objects_of_ne m _ hx

/-- The loop expires each timer of a list without repetitions once. -/
theorem expireAll_objects (now : UInt64) (out : List ℕ) (hnd : out.Nodup) (m : Manager κ)
    (cbs : List (Handed κ)) (x : ℕ) :
    (out.foldl (expireOne now) (m, cbs)).1.objects x =
      if x ∈ out then (m.objects x).map (Timer.expire now) else m.objects x := by
  induction out generalizing m cbs with
  | nil => rfl
  | cons a out ih =>
    obtain ⟨hao, hnd⟩ := List.nodup_cons.mp hnd
    have hone := expireOne_objects now m cbs a x
    generalize hr : expireOne now (m, cbs) a = r at hone
    obtain ⟨m₁, cbs₁⟩ := r
    rw [List.foldl_cons, hr, ih hnd, hone]
    by_cases hx : x = a
    · subst hx
      rw [if_pos rfl, if_neg hao, if_pos List.mem_cons_self]
    · simp only [hx, if_false, List.mem_cons, false_or]

/-- What `listExpiredCb` does at `now`: the callbacks of the due timers are appended in
the order of the set, the recurring ones among them are back in the set at a period after
`now`, the others have lost their callback, and all else is as it was. -/
structure ExpiresDue (armed : Prop) (now : UInt64) (m : Manager κ)
    (r : Manager κ × List (Handed κ)) : Prop where
  appended : r.2 = (m.timers.filter (m.due now)).map (handed m)
  sorted : (r.2.map Handed.next).Pairwise (· ≤ ·)
  inv : Inv armed r.1
  member : ∀ x, x ∈ r.1.timers ↔ x ∈ m.timers ∧
    (m.due now x = true → (m.objects x).map Timer.recurring = some true)
  objects : ∀ x, r.1.objects x =
    if x ∈ m.timers ∧ m.due now x = true then (m.objects x).map (Timer.expire now)
    else m.objects x

theorem next_sorted {m : Manager κ} (h : Inv armed m) :
    (m.timers.map m.nextOf).Pairwise (· ≤ ·) := by
  rw [List.pairwise_map]
  apply List.Pairwise.imp_of_mem _ h.ordered
  intro a b ha hb hab
  rw [ptr_of_mem h ha, ptr_of_mem h hb, comparator_some] at hab
  rw [UInt64.le_iff_toNat_le]
  simp only at hab
  omega

/-- Exactly the timers that are due expire, wherever the temporary timer lies. -/
theorem expires_exactly_due (m : Manager κ) (h : Inv armed m) (now : UInt64) (addr : ℕ)
    (hro : rolledOver m now = false) : ExpiresDue armed now m (listExpiredCb m now addr) := by
  obtain ⟨previous, hloop⟩ := listExpiredCb_loop h now addr hro
  have hsplit : m.timers.filter (m.due now) ++ (m.timers.filter fun a => !m.due now a) =
      m.timers := by
    obtain ⟨hfront, hback⟩ := expired_eq_filter h now addr
    rw [← hfront, ← hback, expired_append]
  have hcut := Inv.cut (m := { m with previouseTime := previous }) (h.flags m.tickled previous)
    hsplit
  obtain ⟨m', hfold, hinv, hall⟩ := expireAll_spec hcut now []
  have hobj := fun x => expireAll_objects now (m.timers.filter (m.due now)) hcut.nodup
    { m with timers := m.timers.filter fun a => !m.due now a, previouseTime := previous } [] x
  rw [hloop, hfold]
  refine ⟨rfl, ?_, hinv, ?_, ?_⟩
  · have hnext : ((m.timers.filter (m.due now)).map (handed m)).map Handed.next =
        (m.timers.filter (m.due now)).map m.nextOf := List.map_map
    have hsub := (next_sorted h).sublist ((List.filter_sublist (p := m.due now)).map m.nextOf)
    exact hnext ▸ hsub
  · intro x
    rw [(hall x).member]
    simp only [List.mem_filter, Bool.not_eq_true']
    cases m.due now x <;> simp
  · intro x
    have hx := hobj x
    rw [hfold] at hx
    simp only [List.mem_filter] at hx
    exact hx

def threeTimers : Manager ℕ :=
  let m := (addTimer (Manager.init 0) 5 10 (some 1) false 0).manager
  let m := (addTimer m 7 20 (some 2) true 0).manager
  (addTimer m 9 30 (some 3) false 0).manager

theorem expires_exactly_due_tie : threeTimers.timers = [5, 7, 9] ∧
    threeTimers.timers.filter (threeTimers.due 20) = [5, 7] ∧
    ExpiresDue False 20 threeTimers (listExpiredCb threeTimers 20 8) := by
  have hfirst : Inv False (addTimer (Manager.init 0 : Manager ℕ) 5 10 (some 1) false 0).manager :=
    addTimer_inv (init_inv 0) rfl 10 (some 1) false 0 False.elim
  have hsecond := addTimer_inv hfirst (a := 7) rfl 20 (some 2) true 0 False.elim
  have hthird : Inv False threeTimers :=
    addTimer_inv hsecond (a := 9) rfl 30 (some 3) false 0 False.elim
  exact ⟨by decide, by decide, expires_exactly_due _ hthird 20 8 rfl⟩

end Lamb.TimerManager
