import Lamb.TimerInvariant

/-!
# Timers over whole runs

The lock-protected parts in any order. A one-shot timer is accounted for once: it
is in the set, it was handed out, or a `cancel` on it succeeded. A rollover is told
from readings that cross between threads by an unsigned difference, which wraps in
the first hour of the clock.
-/

set_option autoImplicit false

namespace Lamb.TimerManager
open Lamb.Runs Lamb.OrderedSet

variable {κ : Type} {armed : Prop}

/-- Taking an armed timer out, changing it and putting it back. -/
theorem rearm_inv {m : Manager κ} (h : Inv armed m) {a : ℕ} (ha : a ∈ m.timers) {t : Timer κ}
    (ht : armed → t.cb.isSome) :
    Inv armed (((m.erase a).store a t).insert a) ∧
      ∀ x, x ∈ (((m.erase a).store a t).insert a).timers ↔ x ∈ m.timers := by
  have hstore := (h.erase ha).store ht
  refine ⟨hstore.insert, ?_⟩
  intro x
  rw [hstore.mem_insert, store_timers, h.mem_erase ha]
  by_cases hx : x = a
  · simp [hx, ha]
  · simp [hx]

/-- What became of a timer: it is in the set, its callback was handed out, or a
`cancel` on it returned true. -/
def account (s : State κ) (a : ℕ) : ℕ :=
  (if a ∈ s.manager.timers then 1 else 0)+s.appended a+s.cancelled a

/-- Each one-shot timer is accounted for once. -/
def Ledger (s : State κ) : Prop :=
  ∀ a, (s.manager.objects a).map Timer.recurring = some false → account s a = 1

/-- A call that leaves the set and the records as they are keeps the account. -/
theorem Ledger.same {s : State κ} (h : Ledger s) {m : Manager κ}
    (hrec : ∀ x, (m.objects x).map Timer.recurring = (s.manager.objects x).map Timer.recurring)
    (hmem : ∀ x, x ∈ m.timers ↔ x ∈ s.manager.timers) : Ledger { s with manager := m } := by
  intro a ha
  rw [hrec] at ha
  have := h a ha
  simpa only [account, hmem] using this

theorem store_recurring {m : Manager κ} {a : ℕ} {t u : Timer κ} (ha : m.objects a = some t)
    (hr : u.recurring = t.recurring) (x : ℕ) :
    ((m.store a u).objects x).map Timer.recurring = (m.objects x).map Timer.recurring := by
  by_cases hx : x = a
  · subst hx
    simp [ha, hr]
  · rw [store_objects_of_ne m u hx]

theorem next_addTimer {s s' : State κ} {a : ℕ} {ms : UInt64} {cb : Option κ} {recurring : Bool}
    {now : UInt64} (hn : next s (.addTimer a ms cb recurring now) = some s') :
    s.manager.objects a = none ∧
      s' = { s with
        manager := (addTimer s.manager a ms cb recurring now).manager
        appended := Function.update s.appended a 0
        cancelled := Function.update s.cancelled a 0 } := by
  cases hobj : s.manager.objects a with
  | some t => simp [next, hobj] at hn
  | none => exact ⟨rfl, by simpa [next, hobj] using hn.symm⟩

theorem next_resetEarly {s s' : State κ} {a : ℕ} {ms : UInt64} {fromNow : Bool}
    (hn : next s (.resetEarly a ms fromNow) = some s') : s' = s := by
  simp only [next] at hn
  split at hn
  · cases hn
  · split_ifs at hn
    exact (Option.some.inj hn).symm

theorem next_release {s s' : State κ} {a : ℕ} (hn : next s (.release a) = some s') :
    a ∉ s.manager.timers ∧ s' = { s with
      manager := { s.manager with objects := Function.update s.manager.objects a none } } := by
  simp only [next] at hn
  split_ifs at hn with hin
  exact ⟨hin, (Option.some.inj hn).symm⟩

theorem addTimer_ok {s s' : State κ} (h : Inv armed s.manager)
    (hl : Ledger s) {a : ℕ} {ms : UInt64}
    {cb : Option κ} {recurring : Bool} {now : UInt64} (hcb : armed → cb.isSome)
    (hn : next s (.addTimer a ms cb recurring now) = some s') :
    Inv armed s'.manager ∧ Ledger s' := by
  obtain ⟨hobj, rfl⟩ := next_addTimer hn
  refine ⟨addTimer_inv h hobj ms cb recurring now hcb, ?_⟩
  have hcreate : Holds armed [a] (s.manager.store a ⟨recurring, ms, now+ms, cb⟩) :=
    Holds.create h hobj hcb
  have hmem : ∀ x, x ∈ (addTimer s.manager a ms cb recurring now).manager.timers ↔
      x = a ∨ x ∈ s.manager.timers := hcreate.mem_insert
  intro x hx
  by_cases hxa : x = a
  · subst hxa
    simp [account, hmem]
  · have hold : (s.manager.objects x).map Timer.recurring = some false := by
      rw [← store_objects_of_ne s.manager ⟨recurring, ms, now+ms, cb⟩ hxa]
      exact hx
    have := hl x hold
    simpa [account, hmem, hxa] using this

theorem cancel_ok {s s' : State κ} (h : Inv armed s.manager)
    (hl : Ledger s) {a : ℕ}
    (hn : next s (.cancel a) = some s') : Inv armed s'.manager ∧ Ledger s' := by
  cases hobj : s.manager.objects a with
  | none => simp [next, cancel, hobj] at hn
  | some t =>
    cases hcb : t.cb with
    | none =>
      simp only [next, cancel_spent hobj hcb, Option.map_some, Option.some.injEq] at hn
      subst hn
      refine ⟨h, ?_⟩
      intro x hx
      have := hl x hx
      simpa [account] using this
    | some cb =>
      have hsome : t.cb.isSome := by simp [hcb]
      have hin : a ∈ s.manager.timers := h.mem_of_cb hobj hsome
      simp only [next, cancel_armed h hobj hsome, Option.map_some, Option.some.injEq] at hn
      subst hn
      refine ⟨(Holds.erase h hin).disarm rfl, ?_⟩
      intro x hx
      have hold : (s.manager.objects x).map Timer.recurring = some false := by
        rw [← store_recurring (u := { t with cb := none }) hobj rfl x]
        exact hx
      have hacc := hl x hold
      have hmem := Holds.mem_erase h hin x
      by_cases hxa : x = a
      · subst hxa
        simp only [account, store_timers, hmem, hin, ne_eq, not_true_eq_false, and_false,
          if_false, if_true, Function.update_self] at hacc ⊢
        omega
      · simpa [account, hmem, hxa] using hacc

theorem refresh_ok {s s' : State κ} (h : Inv armed s.manager)
    (hl : Ledger s) {a : ℕ} {now : UInt64}
    (hn : next s (.refresh a now) = some s') : Inv armed s'.manager ∧ Ledger s' := by
  cases hobj : s.manager.objects a with
  | none => simp [next, refresh, hobj] at hn
  | some t =>
    cases hcb : t.cb with
    | none =>
      simp only [next, refresh_spent hobj hcb, Option.map_some, Option.some.injEq] at hn
      subst hn
      exact ⟨h, hl⟩
    | some cb =>
      have hsome : t.cb.isSome := by simp [hcb]
      simp only [next, refresh_armed h hobj hsome, Option.map_some, Option.some.injEq] at hn
      subst hn
      obtain ⟨hinv, hmem⟩ := rearm_inv h (t := { t with next := now+t.ms })
        (h.mem_of_cb hobj hsome) fun _ => hsome
      refine ⟨hinv, hl.same ?_ hmem⟩
      intro x
      exact store_recurring (m := s.manager.erase a) (u := { t with next := now+t.ms }) hobj rfl x

theorem reset_ok {s s' : State κ} (h : Inv armed s.manager)
    (hl : Ledger s) {a : ℕ} {ms : UInt64}
    {fromNow : Bool} {now : UInt64} (hn : next s (.reset a ms fromNow now) = some s') :
    Inv armed s'.manager ∧ Ledger s' := by
  cases hobj : s.manager.objects a with
  | none => simp [next, reset, hobj] at hn
  | some t =>
    cases hcb : t.cb with
    | none =>
      simp only [next, reset_spent hobj hcb, Option.map_some, Option.some.injEq] at hn
      subst hn
      exact ⟨h, hl⟩
    | some cb =>
      have hsome : t.cb.isSome := by simp [hcb]
      simp only [next, reset_armed h hobj hsome, Option.map_some, Option.some.injEq] at hn
      subst hn
      obtain ⟨hinv, hmem⟩ := rearm_inv h (t := resetTimer t ms fromNow now)
        (h.mem_of_cb hobj hsome) fun _ => hsome
      refine ⟨hinv.flags _ _, hl.same ?_ hmem⟩
      intro x
      exact store_recurring (m := s.manager.erase a) (u := resetTimer t ms fromNow now) hobj rfl x

theorem countOf_handed (m : Manager κ) (out : List ℕ) (hnd : out.Nodup) (x : ℕ) :
    countOf (out.map (handed m)) x = if x ∈ out then 1 else 0 := by
  have hcount : countOf (out.map (handed m)) x = out.count x := by
    rw [countOf, List.countP_map, List.count]
    rfl
  rw [hcount]
  split_ifs with hx
  · exact List.count_eq_one_of_mem hnd hx
  · exact List.count_eq_zero_of_not_mem hx

theorem listExpiredCb_ok {s s' : State κ} (h : Inv armed s.manager)
    (hl : Ledger s) {now : UInt64}
    {addr : ℕ} (hn : next s (.listExpiredCb now addr) = some s') :
    Inv armed s'.manager ∧ Ledger s' := by
  obtain ⟨m', out, heq, hinv, hnd, hmem, hall⟩ := listExpiredCb_spec h now addr
  simp only [next, heq, Option.some.injEq] at hn
  subst hn
  refine ⟨hinv, ?_⟩
  intro x hx
  have htim := (hall x).member
  have hold : (s.manager.objects x).map Timer.recurring = some false := by
    rw [← (hall x).kind]
    exact hx
  have hacc := hl x hold
  have hsub : x ∈ out → x ∈ s.manager.timers := fun ho => ((hmem x).mp ho).1
  simp only [account, countOf_handed s.manager out hnd x, htim, hold] at hacc ⊢
  by_cases ho : x ∈ out
  · simp only [hsub ho, ho, if_true, true_and, forall_const, Option.some.injEq,
      Bool.false_eq_true, if_false] at hacc ⊢
    omega
  · simp only [ho, if_false, false_implies, and_true] at hacc ⊢
    omega

theorem release_ok {s s' : State κ} (h : Inv armed s.manager)
    (hl : Ledger s) {a : ℕ}
    (hn : next s (.release a) = some s') : Inv armed s'.manager ∧ Ledger s' := by
  obtain ⟨hin, rfl⟩ := next_release hn
  have hobj : ∀ x, x ≠ a →
      Function.update s.manager.objects a none x = s.manager.objects x := fun x hx =>
    Function.update_of_ne hx _ _
  have hne : ∀ x ∈ s.manager.timers, x ≠ a := fun x hx he => hin (he ▸ hx)
  refine ⟨⟨?_, ?_, h.nodup, by simp, ?_, ?_⟩, ?_⟩
  · intro x hx
    have hx : x ∈ s.manager.timers := by simpa using hx
    simp only [hobj x (hne x hx)]
    exact h.live x (Or.inl hx)
  · apply ordered_congr _ h.ordered
    intro x hx
    simp only [Manager.ptr, hobj x (hne x hx)]
  · intro x t hx hcb
    by_cases hxa : x = a
    · simp [hxa] at hx
    · simp only [hobj x hxa] at hx
      exact h.waiting x t hx hcb
  · intro harmed x t hx hin
    simp only [hobj x (hne x (by simpa using hin))] at hx
    exact h.callback harmed x t hx hin
  · intro x hx
    by_cases hxa : x = a
    · simp [hxa] at hx
    · simp only [hobj x hxa] at hx
      exact hl x hx

theorem next_ok {s s' : State κ} {c : Call κ} (h : Inv armed s.manager ∧ Ledger s)
    (hg : armed → WithCallback s c) (hn : next s c = some s') :
    Inv armed s'.manager ∧ Ledger s' := by
  obtain ⟨hi, hl⟩ := h
  cases c with
  | addTimer a ms cb recurring now => exact addTimer_ok hi hl hg hn
  | cancel a => exact cancel_ok hi hl hn
  | refresh a now => exact refresh_ok hi hl hn
  | reset a ms fromNow now => exact reset_ok hi hl hn
  | resetEarly a ms fromNow =>
    rw [next_resetEarly hn]
    exact ⟨hi, hl⟩
  | getNextTimer now =>
    obtain rfl := Option.some.inj hn
    rw [getNextTimer_manager]
    exact ⟨hi.flags _ _, hl.same (fun _ => rfl) (fun _ => Iff.rfl)⟩
  | listExpiredCb now addr => exact listExpiredCb_ok hi hl hn
  | release a => exact release_ok hi hl hn

theorem init_ok (armed : Prop) (now : UInt64) :
    Inv armed (State.init now : State κ).manager ∧ Ledger (State.init now : State κ) := by
  refine ⟨init_inv now, ?_⟩
  intro a ha
  simp [State.init, Manager.init] at ha

theorem reaches_ok (armed : Prop) {guard : State κ → Call κ → Prop} {now : UInt64} {s : State κ}
    (hg : ∀ s c, guard s c → armed → WithCallback s c)
    (h : Reaches next guard (State.init now) s) : Inv armed s.manager ∧ Ledger s :=
  h.invariant (I := fun s => Inv armed s.manager ∧ Ledger s) (init_ok armed now)
    fun s c _ hs hc hn => next_ok hs (hg s c hc) hn

/-- Between the lock-protected parts the set is in order at the current `m_next`,
holds each timer once and holds exactly the timers that have a callback, so that
the `erase` of a `cancel` never gets `end()`. -/
theorem timer_set_invariant (now : UInt64) (s : State κ)
    (h : Reaches next WithCallback (State.init now) s) :
    (s.manager.timers.Pairwise fun a b => comparator (s.manager.ptr a) (s.manager.ptr b) = true) ∧
      s.manager.timers.Nodup ∧
      (∀ a ∈ s.manager.timers, (s.manager.objects a).isSome) ∧
      (∀ a t, s.manager.objects a = some t → (a ∈ s.manager.timers ↔ t.cb ≠ none)) ∧
      ∀ a, (s.manager.objects a).isSome → (cancel s.manager a).isSome := by
  obtain ⟨hinv, -⟩ := reaches_ok True (fun _ _ hc _ => hc) h
  refine ⟨hinv.ordered, hinv.ordered.nodup comparator_order, ?_, ?_, ?_⟩
  · intro a ha
    exact hinv.live a (Or.inl ha)
  · intro a t ha
    rw [Option.ne_none_iff_isSome]
    exact ⟨fun hin => hinv.callback trivial a t ha (Or.inl hin), hinv.mem_of_cb ha⟩
  · intro a ha
    obtain ⟨t, ht⟩ := Option.isSome_iff_exists.mp ha
    cases hcb : t.cb with
    | none => simp [cancel_spent ht hcb]
    | some cb => simp [cancel_armed hinv ht (by simp [hcb])]

theorem timer_set_invariant_two : ∃ s : State Unit,
    after next [.addTimer 7 20 (some ()) true 5, .addTimer 3 10 (some ()) false 15] (State.init 0) =
      some s ∧ s.manager.timers = [3, 7] ∧ (cancel s.manager 7).isSome := by
  refine ⟨_, rfl, by decide, ?_⟩
  have hfirst : Reaches next WithCallback (State.init 0 : State Unit) _ :=
    Reaches.start.step (a := Call.addTimer 7 20 (some ()) true 5) rfl rfl
  have hsecond := hfirst.step (a := Call.addTimer 3 10 (some ()) false 15) rfl rfl
  exact (timer_set_invariant 0 _ hsecond).2.2.2.2 7 (by decide)

/-! ## One-shot timers -/

theorem cancel_recurring {m : Manager κ} {a : ℕ} {o : Outcome κ} (h : cancel m a = some o)
    (x : ℕ) : (o.manager.objects x).map Timer.recurring = (m.objects x).map Timer.recurring := by
  cases ha : m.objects a with
  | none => simp [cancel, ha] at h
  | some t =>
    simp only [cancel, ha] at h
    split_ifs at h
    · split at h
      · cases h
      · obtain rfl := Option.some.inj h
        exact store_recurring (u := { t with cb := none }) ha rfl x
    · obtain rfl := Option.some.inj h
      rfl

theorem refresh_recurring {m : Manager κ} {a : ℕ} {now : UInt64} {o : Outcome κ}
    (h : refresh m a now = some o) (x : ℕ) :
    (o.manager.objects x).map Timer.recurring = (m.objects x).map Timer.recurring := by
  cases ha : m.objects a with
  | none => simp [refresh, ha] at h
  | some t =>
    simp only [refresh, ha] at h
    split_ifs at h
    · obtain rfl := Option.some.inj h
      rfl
    · split at h
      · obtain rfl := Option.some.inj h
        rfl
      · obtain rfl := Option.some.inj h
        exact store_recurring (m := m.erase a) (u := { t with next := now+t.ms }) ha rfl x

theorem reset_recurring {m : Manager κ} {a : ℕ} {ms : UInt64} {fromNow : Bool} {now : UInt64}
    {o : Outcome κ} (h : reset m a ms fromNow now = some o) (x : ℕ) :
    (o.manager.objects x).map Timer.recurring = (m.objects x).map Timer.recurring := by
  cases ha : m.objects a with
  | none => simp [reset, ha] at h
  | some t =>
    simp only [reset, ha] at h
    split_ifs at h
    · obtain rfl := Option.some.inj h
      rfl
    · split at h
      · obtain rfl := Option.some.inj h
        rfl
      · obtain rfl := Option.some.inj h
        exact store_recurring (m := m.erase a) (u := resetTimer t ms fromNow now) ha rfl x

structure Kept (a : ℕ) (s s' : State κ) : Prop where
  oneShot : (s'.manager.objects a).map Timer.recurring = some false
  appended : s.appended a ≤ s'.appended a
  cancelled : s.cancelled a ≤ s'.cancelled a

/-- As long as a handle to it exists, the records of a timer only grow. -/
theorem next_kept {s s' : State κ} {c : Call κ} {a : ℕ} (hi : Inv False s.manager)
    (ha : (s.manager.objects a).map Timer.recurring = some false)
    (hc : c ≠ .release a) (hn : next s c = some s') : Kept a s s' := by
  cases c with
  | addTimer b ms cb recurring now =>
    obtain ⟨hobj, rfl⟩ := next_addTimer hn
    have hab : a ≠ b := by
      rintro rfl
      simp [hobj] at ha
    refine ⟨?_, by simp [hab], by simp [hab]⟩
    rw [← ha, ← store_objects_of_ne s.manager ⟨recurring, ms, now+ms, cb⟩ hab]
    rfl
  | cancel b =>
    obtain ⟨o, ho, rfl⟩ := Option.map_eq_some_iff.mp hn
    refine ⟨(cancel_recurring ho a).trans ha, le_rfl, ?_⟩
    by_cases hab : a = b
    · subst hab
      simp
    · simp [hab]
  | refresh b now =>
    obtain ⟨o, ho, rfl⟩ := Option.map_eq_some_iff.mp hn
    exact ⟨(refresh_recurring ho a).trans ha, le_rfl, le_rfl⟩
  | reset b ms fromNow now =>
    obtain ⟨o, ho, rfl⟩ := Option.map_eq_some_iff.mp hn
    exact ⟨(reset_recurring ho a).trans ha, le_rfl, le_rfl⟩
  | resetEarly b ms fromNow =>
    rw [next_resetEarly hn]
    exact ⟨ha, le_rfl, le_rfl⟩
  | getNextTimer now =>
    obtain rfl := Option.some.inj hn
    refine ⟨?_, le_rfl, le_rfl⟩
    rw [getNextTimer_manager]
    exact ha
  | listExpiredCb now addr =>
    obtain ⟨m', out, heq, -, -, -, hall⟩ := listExpiredCb_spec hi now addr
    simp only [next, heq, Option.some.injEq] at hn
    subst hn
    exact ⟨(hall a).kind.trans ha, Nat.le_add_right _ _, le_rfl⟩
  | release b =>
    have hab : a ≠ b := by
      rintro rfl
      exact hc rfl
    obtain ⟨-, rfl⟩ := next_release hn
    refine ⟨?_, le_rfl, le_rfl⟩
    simp only [Function.update_of_ne hab]
    exact ha

def Held (a : ℕ) (_ : State κ) (c : Call κ) : Prop := c ≠ .release a

theorem run_kept {s s' : State κ} {a : ℕ} (hi : Inv False s.manager ∧ Ledger s)
    (ha : (s.manager.objects a).map Timer.recurring = some false)
    (h : Reaches next (Held a) s s') : Kept a s s' ∧ account s' a = 1 := by
  have hall : (Inv False s'.manager ∧ Ledger s') ∧ Kept a s s' := by
    induction h with
    | start => exact ⟨hi, ha, le_rfl, le_rfl⟩
    | step _ hc hn ih =>
      obtain ⟨hs, hk⟩ := ih
      obtain ⟨ho, happ, hcan⟩ := next_kept hs.1 hk.oneShot hc hn
      exact ⟨next_ok hs False.elim hn, ho, hk.appended.trans happ, hk.cancelled.trans hcan⟩
  exact ⟨hall.2, hall.1.2 a hall.2.oneShot⟩

/-- A one-shot timer is in the set, or its callback was handed out, once, or one
`cancel` on it returned true, and never two of these. While its handle is held, no
call brings it back into the set. -/
theorem one_shot_fires_once (now : UInt64) (s : State κ)
    (h : Reaches next Free (State.init now) s) (a : ℕ) (t : Timer κ)
    (ha : s.manager.objects a = some t) (hr : t.recurring = false) :
    ((a ∈ s.manager.timers ∧ s.appended a = 0 ∧ s.cancelled a = 0) ∨
      (a ∉ s.manager.timers ∧ s.appended a = 1 ∧ s.cancelled a = 0) ∨
      (a ∉ s.manager.timers ∧ s.appended a = 0 ∧ s.cancelled a = 1)) ∧
    (a ∉ s.manager.timers → ∀ s', Reaches next (Held a) s s' →
      a ∉ s'.manager.timers ∧ s'.appended a = s.appended a ∧ s'.cancelled a = s.cancelled a) := by
  have hok := reaches_ok False (fun _ _ _ hf => hf.elim) h
  have hone : (s.manager.objects a).map Timer.recurring = some false := by simp [ha, hr]
  have hacc := hok.2 a hone
  rw [account] at hacc
  refine ⟨?_, ?_⟩
  · by_cases hin : a ∈ s.manager.timers
    · simp only [hin, if_true] at hacc
      exact Or.inl ⟨hin, by omega, by omega⟩
    · simp only [hin, if_false] at hacc
      have hcases : s.appended a = 1 ∧ s.cancelled a = 0 ∨
          s.appended a = 0 ∧ s.cancelled a = 1 := by omega
      exact Or.inr (hcases.imp (fun hc => ⟨hin, hc⟩) fun hc => ⟨hin, hc⟩)
  · intro hout s' hrun
    obtain ⟨hk, hacc'⟩ := run_kept hok hone hrun
    have happ := hk.appended
    have hcan := hk.cancelled
    rw [account] at hacc'
    simp only [hout, if_false] at hacc
    by_cases hin : a ∈ s'.manager.timers
    · simp only [hin, if_true] at hacc'
      omega
    · simp only [hin, if_false] at hacc'
      exact ⟨hin, by omega, by omega⟩

theorem one_shot_fires_once_expired : ∃ s : State Unit,
    after next [.addTimer 7 20 (some ()) false 5, .listExpiredCb 30 9, .cancel 7] (State.init 0) =
      some s ∧ 7 ∉ s.manager.timers ∧ s.appended 7 = 1 ∧ s.cancelled 7 = 0 := by
  refine ⟨_, rfl, ?_⟩
  have hrun : Reaches next Free (State.init 0 : State Unit) _ := Reaches.start.after
    [.addTimer 7 20 (some ()) false 5, .listExpiredCb 30 9, .cancel 7] rfl
  have h := one_shot_fires_once 0 _ hrun 7 ⟨false, 20, 25, none⟩ (by decide) rfl
  exact (h.1.resolve_left (by decide)).resolve_right (by decide)

/-! ## Readings that cross between threads -/

/-- The reading is at most an hour below the one stored before it. -/
def WithinHour (s : State κ) : Call κ → Prop
  | .listExpiredCb now _ => s.manager.previouseTime.toNat ≤ now.toNat+3600000
  | _ => True

/-- The reading is not below the stored one, or the stored one is from after the
first hour of the clock. -/
def Comparable (s : State κ) : Call κ → Prop
  | .listExpiredCb now _ => s.manager.previouseTime ≤ now ∨ 3600000 ≤ s.manager.previouseTime
  | _ => True

/-- Within an hour, a rollover is seen exactly when the reading is below a stored
one from the first hour: there the difference wraps. -/
theorem rolledOver_iff {m : Manager κ} {now : UInt64}
    (h : m.previouseTime.toNat ≤ now.toNat+3600000) :
    rolledOver m now = false ↔ m.previouseTime ≤ now ∨ 3600000 ≤ m.previouseTime := by
  have hnow := now.toNat_lt
  have hprev := m.previouseTime.toNat_lt
  have hhour : (3600000 : UInt64).toNat = 3600000 := rfl
  have hsub : (m.previouseTime-60*60*1000).toNat =
      (2^64-3600000+m.previouseTime.toNat) % 2^64 := UInt64.toNat_sub _ _
  simp only [rolledOver, detectClockRollover, Bool.and_eq_false_iff, decide_eq_false_iff_not,
    UInt64.lt_iff_toNat_lt, UInt64.le_iff_toNat_le, hsub, hhour]
  omega

theorem handed_due_iff {m : Manager κ} (h : Inv armed m) (now : UInt64)
    (addr : ℕ) :
    (∀ e ∈ (listExpiredCb m now addr).2, e.next ≤ now) ↔
      rolledOver m now = false ∨ ∀ a ∈ m.timers, m.nextOf a ≤ now := by
  obtain ⟨m', out, heq, -, -, hmem, -⟩ := listExpiredCb_spec h now addr
  rw [heq, List.forall_mem_map]
  constructor
  · intro hdue
    by_cases hro : rolledOver m now = false
    · exact Or.inl hro
    · right
      intro a ha
      exact hdue a ((hmem a).mpr ⟨ha, Or.inl (by simpa using hro)⟩)
  · rintro (hro | hall) x hx
    · have hdue := ((hmem x).mp hx).2
      rw [hro] at hdue
      exact hdue.resolve_left Bool.false_ne_true
    · exact hall x ((hmem x).mp hx).1

theorem next_expiries {s s' : State κ} {c : Call κ} (hi : Inv False s.manager)
    (hg : WithinHour s c ∧ Comparable s c) (hs : ∀ e ∈ s.expiries, e.next ≤ e.now)
    (hn : next s c = some s') : ∀ e ∈ s'.expiries, e.next ≤ e.now := by
  cases c with
  | listExpiredCb now addr =>
    obtain rfl := Option.some.inj hn
    have hdue := (handed_due_iff hi now addr).mpr (Or.inl ((rolledOver_iff hg.1).mpr hg.2))
    intro e he
    rcases List.mem_append.mp he with he | he
    · exact hs e he
    · obtain ⟨x, hx, rfl⟩ := List.mem_map.mp he
      exact hdue x hx
  | addTimer a ms cb recurring now =>
    obtain ⟨-, rfl⟩ := next_addTimer hn
    exact hs
  | resetEarly a ms fromNow =>
    rw [next_resetEarly hn]
    exact hs
  | release a =>
    obtain ⟨-, rfl⟩ := next_release hn
    exact hs
  | cancel a =>
    obtain ⟨o, -, rfl⟩ := Option.map_eq_some_iff.mp hn
    exact hs
  | refresh a now =>
    obtain ⟨o, -, rfl⟩ := Option.map_eq_some_iff.mp hn
    exact hs
  | reset a ms fromNow now =>
    obtain ⟨o, -, rfl⟩ := Option.map_eq_some_iff.mp hn
    exact hs
  | getNextTimer now =>
    obtain rfl := Option.some.inj hn
    exact hs

/-- In a run whose readings are comparable with the stored one, only timers that
are due are handed out. In any reachable state, a call within the hour hands out a
timer early exactly when its reading is not comparable and some timer is not due. -/
theorem no_premature_expiry (start : UInt64) (s : State κ) :
    (Reaches next (fun s c => WithinHour s c ∧ Comparable s c) (State.init start) s →
      ∀ e ∈ s.expiries, e.next ≤ e.now) ∧
    (Reaches next Free (State.init start) s → ∀ now addr,
      WithinHour s (.listExpiredCb now addr) →
      ((∀ e ∈ (listExpiredCb s.manager now addr).2, e.next ≤ now) ↔
        Comparable s (.listExpiredCb now addr) ∨
          ∀ a ∈ s.manager.timers, s.manager.nextOf a ≤ now)) := by
  constructor
  · intro h
    have hall := h.invariant
      (I := fun s => (Inv False s.manager ∧ Ledger s) ∧ ∀ e ∈ s.expiries, e.next ≤ e.now)
      ⟨init_ok False start, by simp [State.init]⟩
      fun s c s' hs hg hn => ⟨next_ok hs.1 False.elim hn, next_expiries hs.1.1 hg hs.2 hn⟩
    exact hall.2
  · intro h now addr hhour
    obtain ⟨hinv, -⟩ := reaches_ok False (fun _ _ _ hf => hf.elim) h
    rw [handed_due_iff hinv now addr, rolledOver_iff hhour]
    rfl

theorem no_premature_expiry_second_hour : ∃ s : State Unit,
    after next [.addTimer 7 20 (some ()) false 3600050, .listExpiredCb 3600080 9,
      .listExpiredCb 3600060 9] (State.init 3600000) = some s ∧
      s.expiries = [⟨3600070, 3600080⟩] ∧ ∀ e ∈ s.expiries, e.next ≤ e.now := by
  refine ⟨_, rfl, by decide, ?_⟩
  have hadd : Reaches next (fun s c => WithinHour s c ∧ Comparable s c)
      (State.init 3600000 : State Unit) _ :=
    Reaches.start.step (a := Call.addTimer 7 20 (some ()) false 3600050) ⟨trivial, trivial⟩ rfl
  have hlist := hadd.step (a := Call.listExpiredCb 3600080 9)
    ⟨by show (_ : ℕ) ≤ _; decide, Or.inl (by decide)⟩ rfl
  have hcross := hlist.step (a := Call.listExpiredCb 3600060 9)
    ⟨by show (_ : ℕ) ≤ _; decide, Or.inr (by decide)⟩ rfl
  exact (no_premature_expiry 3600000 _).1 hcross

/-- A hundred milliseconds after the clock started, a reading that is one
millisecond late expires a timer of the far future. -/
theorem early_expiry_in_first_hour : ∃ s : State Unit,
    Reaches next WithinHour (State.init 40) s ∧
      s.expiries = [⟨1050, 99⟩] ∧ ¬∀ e ∈ s.expiries, e.next ≤ e.now := by
  have hadd : Reaches next WithinHour (State.init 40 : State Unit) _ :=
    Reaches.start.step (a := Call.addTimer 7 1000 (some ()) false 50) trivial rfl
  have hlist := hadd.step (a := Call.listExpiredCb 100 9) (by show (_ : ℕ) ≤ _; decide) rfl
  have hcross := hlist.step (a := Call.listExpiredCb 99 9) (by show (_ : ℕ) ≤ _; decide) rfl
  exact ⟨_, hcross, by decide, by decide⟩

end Lamb.TimerManager
