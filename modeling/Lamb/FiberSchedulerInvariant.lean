import Lamb.FiberScheduler
import Mathlib.Algebra.Order.BigOperators.Group.List

/-!
# Which fibers may be dequeued

A fiber that waits somewhere is a token: in the queue, in epoll, in a timer, in a
callback or in the hands of a thread. A ledger keeps the tokens apart from the
running fibers, those in their window and the others. Every step of the scheduler
is a step of the ledger, as long as no dequeue takes a fiber in its window.
-/

set_option autoImplicit false

namespace Lamb.FiberScheduler
open Lamb.Runs Lamb.Slots

/-- The abstract accounts: waiting fibers, fibers in their window, other running
fibers, and the waiting ones that a thread holds. -/
@[ext]
structure Ledger where
  state : ℕ → FiberState
  nextFiber : ℕ
  tokens : Multiset ℕ
  window : Multiset ℕ
  plain : Multiset ℕ
  held : Multiset ℕ

structure Ledger.Ok (l : Ledger) : Prop where
  once : l.tokens.Nodup
  apart : (l.window+l.plain).Nodup
  running : ∀ f, l.state f = .RUNNING ↔ f ∈ l.window+l.plain
  ready : ∀ f ∈ l.tokens, l.state f = .READY ∨ f ∈ l.window
  known : ∀ f, f ∈ l.tokens ∨ f ∈ l.window+l.plain → f < l.nextFiber
  held_le : l.held ≤ l.tokens
  held_ready : ∀ f ∈ l.held, l.state f = .READY

def Ledger.setState (l : Ledger) (f : ℕ) (st : FiberState) : Ledger :=
  { l with state := Function.update l.state f st }

theorem Ledger.Ok.not_running {l : Ledger} (h : l.Ok) {f : ℕ} (hf : l.state f = .READY) :
    f ∉ l.window+l.plain := fun hm => by
  rw [(h.running f).mpr hm] at hf
  cases hf

theorem Ledger.Ok.take {l : Ledger} (h : l.Ok) (f : ℕ) (hready : l.state f = .READY)
    (hle : l.held+{f} ≤ l.tokens) : { l with held := l.held+{f} }.Ok where
  once := h.once
  apart := h.apart
  running := h.running
  ready := h.ready
  known := h.known
  held_le := hle
  held_ready := by
    intro g hg
    rcases Multiset.mem_add.mp hg with hg | hg
    · exact h.held_ready g hg
    · obtain rfl := Multiset.mem_singleton.mp hg
      exact hready

theorem Ledger.Ok.create {l : Ledger} (h : l.Ok) :
    { l.setState l.nextFiber .READY with
      nextFiber := l.nextFiber+1
      tokens := l.tokens+{l.nextFiber} }.Ok := by
  have hnew : ∀ f, f ∈ l.tokens ∨ f ∈ l.window+l.plain → f ≠ l.nextFiber :=
    fun f hf => Nat.ne_of_lt (h.known f hf)
  refine ⟨?_, h.apart, ?_, ?_, ?_, ?_, ?_⟩
  · rw [Multiset.nodup_add]
    refine ⟨h.once, Multiset.nodup_singleton _, ?_⟩
    rw [Multiset.disjoint_singleton]
    exact fun hm => hnew _ (.inl hm) rfl
  · intro f
    by_cases hf : f = l.nextFiber
    · subst hf
      have hno : l.nextFiber ∉ l.window+l.plain := fun hm => hnew _ (.inr hm) rfl
      simpa [Ledger.setState] using hno
    · simpa [Ledger.setState, Function.update_of_ne hf] using h.running f
  · intro f hf
    by_cases he : f = l.nextFiber
    · exact .inl (by simp [Ledger.setState, he])
    · have ht : f ∈ l.tokens := by simpa [he] using hf
      simpa [Ledger.setState, Function.update_of_ne he] using h.ready f ht
  · intro f hf
    simp only [Ledger.setState, Multiset.mem_add, Multiset.mem_singleton] at hf ⊢
    rcases hf with (hf | rfl) | hf
    · exact Nat.lt_succ_of_lt (h.known f (.inl hf))
    · exact Nat.lt_succ_self _
    · exact Nat.lt_succ_of_lt (h.known f (.inr (Multiset.mem_add.mpr hf)))
  · exact le_trans h.held_le (Multiset.le_add_right _ _)
  · intro f hf
    have hne := hnew f (.inl (Multiset.mem_of_le h.held_le hf))
    simpa [Ledger.setState, Function.update_of_ne hne] using h.held_ready f hf

theorem Ledger.Ok.resume {l : Ledger} (f : ℕ) (tokens held : Multiset ℕ) (h : l.Ok)
    (ht : l.tokens = tokens+{f}) (hh : l.held = held+{f}) :
    { l.setState f .RUNNING with
      tokens := tokens
      held := held
      plain := l.plain+{f} }.Ok := by
  have hready : l.state f = .READY := h.held_ready f (by simp [hh])
  have hno := h.not_running hready
  have honce := h.once
  rw [ht, Multiset.nodup_add] at honce
  have hout : f ∉ tokens := (Multiset.disjoint_singleton.mp honce.2.2)
  have hle : held ≤ tokens := by
    have hl := h.held_le
    rw [ht, hh] at hl
    exact (add_le_add_iff_right _).mp hl
  have hsum : l.window+(l.plain+{f}) = l.window+l.plain+{f} := (add_assoc _ _ _).symm
  refine ⟨honce.1, ?_, ?_, ?_, ?_, hle, ?_⟩
  · change (l.window+(l.plain+{f})).Nodup
    rw [hsum, Multiset.nodup_add]
    exact ⟨h.apart, Multiset.nodup_singleton _, Multiset.disjoint_singleton.mpr hno⟩
  · intro g
    change Function.update l.state f .RUNNING g = .RUNNING ↔ g ∈ l.window+(l.plain+{f})
    rw [hsum, Multiset.mem_add, Multiset.mem_singleton]
    by_cases hg : g = f
    · simp [hg]
    · rw [Function.update_of_ne hg, h.running g]
      simp [hg]
  · intro g hg
    have hne : g ≠ f := fun he => hout (he ▸ hg)
    simpa [Ledger.setState, Function.update_of_ne hne] using
      h.ready g (by rw [ht]; exact Multiset.mem_add.mpr (.inl hg))
  · intro g hg
    change g ∈ tokens ∨ g ∈ l.window+(l.plain+{f}) at hg
    rw [hsum, Multiset.mem_add (s := l.window+l.plain), Multiset.mem_singleton] at hg
    rcases hg with hg | hg | rfl
    · exact h.known g (.inl (by rw [ht]; exact Multiset.mem_add.mpr (.inl hg)))
    · exact h.known g (.inr hg)
    · exact h.known g (.inl (by simp [ht]))
  · intro g hg
    have hne : g ≠ f := fun he => hout (he ▸ Multiset.mem_of_le hle hg)
    simpa [Ledger.setState, Function.update_of_ne hne] using
      h.held_ready g (by rw [hh]; exact Multiset.mem_add.mpr (.inl hg))

theorem Ledger.Ok.publish {l : Ledger} (f : ℕ) (plain : Multiset ℕ) (h : l.Ok)
    (hp : l.plain = plain+{f}) :
    { l with tokens := l.tokens+{f}, window := l.window+{f}, plain := plain }.Ok := by
  have hsum : l.window+{f}+plain = l.window+l.plain := by
    rw [hp]
    abel
  have hrun : l.state f = .RUNNING := (h.running f).mpr (by simp [hp])
  have hapart := h.apart
  rw [hp, ← add_assoc, Multiset.nodup_add] at hapart
  have hnw : f ∉ l.window := fun hm =>
    Multiset.disjoint_singleton.mp hapart.2.2 (Multiset.mem_add.mpr (.inl hm))
  have hnt : f ∉ l.tokens := fun hm => by
    rcases h.ready f hm with he | he
    · rw [hrun] at he
      cases he
    · exact hnw he
  refine ⟨?_, ?_, ?_, ?_, ?_, ?_, h.held_ready⟩
  · rw [Multiset.nodup_add]
    exact ⟨h.once, Multiset.nodup_singleton _, Multiset.disjoint_singleton.mpr hnt⟩
  · change (l.window+{f}+plain).Nodup
    rw [hsum]
    exact h.apart
  · intro g
    change l.state g = .RUNNING ↔ g ∈ l.window+{f}+plain
    rw [hsum]
    exact h.running g
  · intro g hg
    rcases Multiset.mem_add.mp hg with hg | hg
    · rcases h.ready g hg with he | he
      · exact .inl he
      · exact .inr (Multiset.mem_add.mpr (.inl he))
    · exact .inr (Multiset.mem_add.mpr (.inr hg))
  · intro g hg
    change g ∈ l.tokens+{f} ∨ g ∈ l.window+{f}+plain at hg
    rw [hsum, Multiset.mem_add, Multiset.mem_singleton] at hg
    rcases hg with (hg | rfl) | hg
    · exact h.known g (.inl hg)
    · exact h.known g (.inr ((h.running g).mp hrun))
    · exact h.known g (.inr hg)
  · exact le_trans h.held_le (Multiset.le_add_right _ _)

/-- A running fiber leaves its thread, to be ready again or to end. A fiber that
ends has not published itself. -/
theorem Ledger.Ok.leave {l : Ledger} (f : ℕ) (window plain : Multiset ℕ) (st : FiberState)
    (h : l.Ok) (hr : l.window+l.plain = window+plain+{f})
    (hkeep : ∀ g, g ≠ f → g ∈ l.window → g ∈ window) (hst : st ≠ .RUNNING)
    (hend : st = .READY ∨ f ∉ l.tokens) :
    { l.setState f st with window := window, plain := plain }.Ok := by
  have hapart := h.apart
  rw [hr, Multiset.nodup_add] at hapart
  have hout : f ∉ window+plain := Multiset.disjoint_singleton.mp hapart.2.2
  have hrun : l.state f = .RUNNING := (h.running f).mpr (by rw [hr]; simp)
  refine ⟨h.once, hapart.1, ?_, ?_, ?_, h.held_le, ?_⟩
  · intro g
    change Function.update l.state f st g = .RUNNING ↔ g ∈ window+plain
    by_cases hg : g = f
    · subst hg
      rw [Function.update_self]
      exact iff_of_false hst hout
    · rw [Function.update_of_ne hg, h.running g, hr, Multiset.mem_add (t := {f}),
        Multiset.mem_singleton]
      simp [hg]
  · intro g hg
    change Function.update l.state f st g = .READY ∨ g ∈ window
    by_cases he : g = f
    · subst he
      rw [Function.update_self]
      exact hend.elim .inl fun hn => absurd hg hn
    · rw [Function.update_of_ne he]
      exact (h.ready g hg).imp_right (hkeep g he)
  · intro g hg
    rcases hg with hg | hg
    · exact h.known g (.inl hg)
    · exact h.known g (.inr (by rw [hr]; exact Multiset.mem_add.mpr (.inl hg)))
  · intro g hg
    change Function.update l.state f st g = .READY
    have hne : g ≠ f := fun he => by
      have hrg := h.held_ready g hg
      rw [he, hrun] at hrg
      cases hrg
    rw [Function.update_of_ne hne]
    exact h.held_ready g hg

def taskToken (task : ScheduleTask) : Multiset ℕ :=
  match task.work with
  | .fiber f => {f}
  | .wake f => {f}
  | .cb => 0

def threadToken : Thread → Multiset ℕ
  | .scanning => 0
  | .taken f w => {f}+(w.toList : Multiset ℕ)
  | .running _ _ w => (w.toList : Multiset ℕ)

def windowOf : Thread → Multiset ℕ
  | .running f true _ => {f}
  | _ => 0

def plainOf : Thread → Multiset ℕ
  | .running f false _ => {f}
  | _ => 0

def heldOf : Thread → Multiset ℕ
  | .taken f _ => {f}
  | _ => 0

def ledger (s : Scheduler) : Ledger where
  state := s.state
  nextFiber := s.nextFiber
  tokens := (s.tasks.map taskToken).sum+(s.epoll : Multiset ℕ)+(s.timers : Multiset ℕ)+
    (s.threads.map threadToken).sum
  window := (s.threads.map windowOf).sum
  plain := (s.threads.map plainOf).sum
  held := (s.threads.map heldOf).sum

theorem pick_sum {M : Type} [AddCommMonoid M] (g : ScheduleTask → M) (t : ℕ)
    (tasks rest : List ScheduleTask) (task : ScheduleTask)
    (h : pick t tasks = some (task, rest)) :
    (tasks.map g).sum = (rest.map g).sum+g task := by
  induction tasks generalizing rest with
  | nil => cases h
  | cons x tasks ih =>
    unfold pick at h
    split_ifs at h with he
    · obtain ⟨rfl, rfl⟩ := Prod.mk.inj (Option.some.inj h)
      rw [List.map_cons, List.sum_cons, add_comm]
    · obtain ⟨y, hy, hxy⟩ := Option.map_eq_some_iff.mp h
      obtain ⟨rfl, rfl⟩ := Prod.mk.inj hxy
      rw [List.map_cons, List.sum_cons, ih y.2 hy, List.map_cons, List.sum_cons, add_assoc]

theorem mem_sum_map {α : Type} (g : α → Multiset ℕ) (l : List α) (f : ℕ) :
    f ∈ (l.map g).sum ↔ ∃ x ∈ l, f ∈ g x := by
  induction l with
  | nil => simp
  | cons x l ih => simp [ih]

theorem mem_window_iff (s : Scheduler) (f : ℕ) : f ∈ (ledger s).window ↔ InWindow s f := by
  rw [ledger, mem_sum_map]
  constructor
  · rintro ⟨th, hm, hf⟩
    cases th with
    | scanning => simp [windowOf] at hf
    | taken g w => simp [windowOf] at hf
    | running g p w =>
      cases p with
      | false => simp [windowOf] at hf
      | true =>
        obtain rfl : f = g := by simpa [windowOf] using hf
        exact ⟨w, hm⟩
  · rintro ⟨w, hm⟩
    exact ⟨_, hm, by simp [windowOf]⟩

theorem goto_sum {M : Type} [AddCommMonoid M] (g : Thread → M) (s : Scheduler) (t : ℕ)
    (th th' : Thread) (h : s.threads[t]? = some th) :
    ((s.threads.set t th').map g).sum+g th = (s.threads.map g).sum+g th' :=
  sum_set g s.threads t th th' h

theorem coe_eraseIdx (l : List ℕ) (i f : ℕ) (h : l[i]? = some f) :
    (l : Multiset ℕ) = (l.eraseIdx i : Multiset ℕ)+{f} := by
  obtain ⟨hi, rfl⟩ := List.getElem?_eq_some_iff.mp h
  have hp := List.getElem_cons_eraseIdx_perm hi
  rw [← Multiset.coe_eq_coe.mpr hp, add_comm]
  rfl

theorem held_le_tokens (s : Scheduler) : (ledger s).held ≤ (ledger s).tokens := by
  have hth : (s.threads.map heldOf).sum ≤ (s.threads.map threadToken).sum := by
    apply List.sum_le_sum
    intro th _
    cases th with
    | scanning => exact le_refl _
    | taken f w => exact Multiset.le_add_right _ _
    | running f p w => exact Multiset.zero_le _
  exact le_trans hth (Multiset.le_add_left _ _)

theorem push_tokens (s : Scheduler) (work : Work) (thread : Option ℕ) :
    ledger (s.push work thread) =
      { ledger s with tokens := (ledger s).tokens+taskToken ⟨work, thread⟩ } := by
  ext1 <;> try rfl
  simp only [ledger, Scheduler.push, List.map_append, List.sum_append, List.map_singleton,
    List.sum_singleton]
  abel

/-- The ledger after thread `t` has moved from `th` to `th'`, in terms that cancel. -/
theorem goto_ledger (s : Scheduler) (t : ℕ) (th th' : Thread) (h : s.threads[t]? = some th) :
    (ledger (s.goto t th')).tokens+threadToken th = (ledger s).tokens+threadToken th' ∧
    (ledger (s.goto t th')).window+windowOf th = (ledger s).window+windowOf th' ∧
    (ledger (s.goto t th')).plain+plainOf th = (ledger s).plain+plainOf th' ∧
    (ledger (s.goto t th')).held+heldOf th = (ledger s).held+heldOf th' := by
  refine ⟨?_, goto_sum _ s t th th' h, goto_sum _ s t th th' h, goto_sum _ s t th th' h⟩
  have hs := goto_sum threadToken s t th th' h
  simp only [ledger, Scheduler.goto]
  rw [add_assoc, hs]
  abel

theorem spawnFiber_ok (s : Scheduler) (h : (ledger s).Ok) (thread : Option ℕ) :
    (ledger (s.newFiber.push (.fiber s.nextFiber) thread)).Ok := by
  rw [push_tokens]
  exact h.create

theorem dequeue_fiber_ok (s : Scheduler) (h : (ledger s).Ok) (t f : ℕ) (task : ScheduleTask)
    (rest : List ScheduleTask) (ht : s.threads[t]? = some .scanning)
    (hp : pick t s.tasks = some (task, rest)) (hw : task.work = .fiber f)
    (hready : s.state f = .READY) :
    (ledger ({ s with tasks := rest }.goto t (.taken f none))).Ok := by
  obtain ⟨h1, h2, h3, h4⟩ := goto_ledger { s with tasks := rest } t _ (.taken f none) ht
  have hsum := pick_sum taskToken t s.tasks rest task hp
  have htok : taskToken task = {f} := by rw [taskToken, hw]
  have hle := held_le_tokens ({ s with tasks := rest }.goto t (.taken f none))
  have heq : ledger ({ s with tasks := rest }.goto t (.taken f none)) =
      { ledger s with held := (ledger s).held+{f} } := by
    ext1
    · rfl
    · rfl
    · rw [(add_zero _).symm.trans h1]
      simp only [ledger, hsum, htok, threadToken, Option.toList_none, Multiset.coe_nil]
      abel
    · exact add_right_cancel h2
    · exact add_right_cancel h3
    · exact (add_zero _).symm.trans h4
  rw [heq] at hle ⊢
  exact h.take f hready hle

theorem dequeue_cb_ok (s : Scheduler) (h : (ledger s).Ok) (t : ℕ) (task : ScheduleTask)
    (rest : List ScheduleTask) (w : Option ℕ) (ht : s.threads[t]? = some .scanning)
    (hp : pick t s.tasks = some (task, rest)) (hw : taskToken task = (w.toList : Multiset ℕ)) :
    (ledger ({ s with tasks := rest }.newFiber.goto t (.taken s.nextFiber w))).Ok := by
  obtain ⟨h1, h2, h3, h4⟩ := goto_ledger ({ s with tasks := rest }.newFiber) t _
    (.taken s.nextFiber w) ht
  have hsum := pick_sum taskToken t s.tasks rest task hp
  have hle := held_le_tokens ({ s with tasks := rest }.newFiber.goto t (.taken s.nextFiber w))
  have heq : ledger ({ s with tasks := rest }.newFiber.goto t (.taken s.nextFiber w)) =
      { ledger s with
        state := Function.update s.state s.nextFiber .READY
        nextFiber := s.nextFiber+1
        tokens := (ledger s).tokens+{s.nextFiber}
        held := (ledger s).held+{s.nextFiber} } := by
    ext1
    · rfl
    · rfl
    · rw [(add_zero _).symm.trans h1]
      simp only [ledger, Scheduler.newFiber, Scheduler.setState, hsum, threadToken, hw]
      abel
    · exact add_right_cancel h2
    · exact add_right_cancel h3
    · exact (add_zero _).symm.trans h4
  rw [heq] at hle ⊢
  exact h.create.take s.nextFiber (Function.update_self _ _ _) hle

theorem resume_ok (s : Scheduler) (h : (ledger s).Ok) (t f : ℕ) (w : Option ℕ)
    (ht : s.threads[t]? = some (.taken f w)) :
    s.state f = .READY ∧ (ledger ((s.setState f .RUNNING).goto t (.running f false w))).Ok := by
  obtain ⟨h1, h2, h3, h4⟩ := goto_ledger (s.setState f .RUNNING) t _ (.running f false w) ht
  have htok : (ledger s).tokens =
      (ledger ((s.setState f .RUNNING).goto t (.running f false w))).tokens+{f} := by
    simp only [threadToken, ← add_assoc] at h1
    exact (add_right_cancel h1).symm
  have hheld : (ledger s).held =
      (ledger ((s.setState f .RUNNING).goto t (.running f false w))).held+{f} := by
    exact (add_zero _).symm.trans h4.symm
  have hready : s.state f = .READY := h.held_ready f (by rw [hheld]; simp)
  refine ⟨hready, ?_⟩
  have heq : ledger ((s.setState f .RUNNING).goto t (.running f false w)) =
      { (ledger s).setState f .RUNNING with
        tokens := (ledger ((s.setState f .RUNNING).goto t (.running f false w))).tokens
        held := (ledger ((s.setState f .RUNNING).goto t (.running f false w))).held
        plain := (ledger s).plain+{f} } := by
    ext1
    · rfl
    · rfl
    · rfl
    · exact add_right_cancel h2
    · exact (add_zero _).symm.trans h3
    · rfl
  rw [heq]
  exact Ledger.Ok.resume f _ _ h htok hheld

/-- Publishing through any place that adds the fiber to the tokens. -/
theorem publish_ok (s : Scheduler) (h : (ledger s).Ok) (t f : ℕ) (w : Option ℕ)
    (r : Scheduler) (ht : r.threads[t]? = some (.running f false w))
    (hr : ledger r = { ledger s with tokens := (ledger s).tokens+{f} }) :
    (ledger (r.goto t (.running f true w))).Ok := by
  obtain ⟨h1, h2, h3, h4⟩ := goto_ledger r t _ (.running f true w) ht
  have hstate : (ledger r).state = (ledger s).state := by rw [hr]
  have hnext : (ledger r).nextFiber = (ledger s).nextFiber := by rw [hr]
  have hplain : (ledger s).plain = (ledger (r.goto t (.running f true w))).plain+{f} := by
    rw [hr] at h3
    exact (add_zero _).symm.trans h3.symm
  have heq : ledger (r.goto t (.running f true w)) =
      { ledger s with
        tokens := (ledger s).tokens+{f}
        window := (ledger s).window+{f}
        plain := (ledger (r.goto t (.running f true w))).plain } := by
    ext1
    · exact hstate
    · exact hnext
    · rw [hr] at h1
      exact add_right_cancel h1
    · rw [hr] at h2
      exact (add_zero _).symm.trans h2
    · rfl
    · rw [hr] at h4
      exact add_right_cancel h4
  rw [heq]
  exact Ledger.Ok.publish f _ h hplain

theorem leave_ok (s : Scheduler) (h : (ledger s).Ok) (t f : ℕ) (p : Bool) (st : FiberState)
    (ht : s.threads[t]? = some (.running f p none)) (hst : st ≠ .RUNNING)
    (hend : st = .READY ∨ p = false) :
    (ledger ((s.setState f st).goto t .scanning)).Ok := by
  obtain ⟨h1, h2, h3, h4⟩ := goto_ledger (s.setState f st) t _ .scanning ht
  replace h2 := h2.trans (add_zero _)
  replace h3 := h3.trans (add_zero _)
  have heq : ledger ((s.setState f st).goto t .scanning) =
      { (ledger s).setState f st with
        window := (ledger ((s.setState f st).goto t .scanning)).window
        plain := (ledger ((s.setState f st).goto t .scanning)).plain } := by
    ext1
    · rfl
    · rfl
    · exact add_right_cancel h1
    · rfl
    · rfl
    · exact add_right_cancel h4
  generalize (ledger ((s.setState f st).goto t .scanning)).window = window at h2 heq
  generalize (ledger ((s.setState f st).goto t .scanning)).plain = plain at h3 heq
  change _ = (ledger s).window at h2
  change _ = (ledger s).plain at h3
  rw [heq]
  cases p with
  | true =>
    simp only [windowOf, plainOf, add_zero] at h2 h3
    refine Ledger.Ok.leave f window plain st h ?_ ?_ hst (.inl (by simpa using hend))
    · rw [← h2, ← h3]
      abel
    · intro g hg hm
      rw [← h2] at hm
      simpa [hg] using hm
  | false =>
    simp only [windowOf, plainOf, add_zero] at h2 h3
    have hapart := h.apart
    rw [← h2, ← h3, ← add_assoc, Multiset.nodup_add] at hapart
    refine Ledger.Ok.leave f window plain st h ?_ ?_ hst (.inr ?_)
    · rw [← h2, ← h3]
      abel
    · intro g _ hm
      rwa [← h2] at hm
    · intro hm
      rcases h.ready f hm with he | he
      · exact h.not_running he (by rw [← h3]; simp)
      · rw [← h2] at he
        exact Multiset.disjoint_singleton.mp hapart.2.2 (Multiset.mem_add.mpr (.inl he))

theorem wake_ok (s : Scheduler) (h : (ledger s).Ok) (t f g : ℕ) (p : Bool)
    (ht : s.threads[t]? = some (.running f p (some g))) :
    (ledger ((s.push (.fiber g) none).goto t (.running f p none))).Ok := by
  obtain ⟨h1, h2, h3, h4⟩ := goto_ledger (s.push (.fiber g) none) t _ (.running f p none) ht
  rw [push_tokens] at h1 h2 h3 h4
  have heq : ledger ((s.push (.fiber g) none).goto t (.running f p none)) = ledger s := by
    ext1
    · rfl
    · rfl
    · exact add_right_cancel (b := {g}) (h1.trans (add_zero _))
    · cases p <;> exact add_right_cancel h2
    · cases p <;> exact add_right_cancel h3
    · exact add_right_cancel h4
  rw [heq]
  exact h

theorem triggerEvent_ok (s : Scheduler) (h : (ledger s).Ok) (i f : ℕ) (hi : s.epoll[i]? = some f) :
    (ledger ({ s with epoll := s.epoll.eraseIdx i }.push (.fiber f) none)).Ok := by
  have heq : ledger ({ s with epoll := s.epoll.eraseIdx i }.push (.fiber f) none) = ledger s := by
    rw [push_tokens]
    ext1 <;> try rfl
    simp only [ledger, taskToken, coe_eraseIdx s.epoll i f hi]
    abel
  rw [heq]
  exact h

theorem expire_ok (s : Scheduler) (h : (ledger s).Ok) (i f : ℕ) (hi : s.timers[i]? = some f) :
    (ledger ({ s with timers := s.timers.eraseIdx i }.push (.wake f) none)).Ok := by
  have heq : ledger ({ s with timers := s.timers.eraseIdx i }.push (.wake f) none) = ledger s := by
    rw [push_tokens]
    ext1 <;> try rfl
    simp only [ledger, taskToken, coe_eraseIdx s.timers i f hi]
    abel
  rw [heq]
  exact h

theorem queued_ready (s : Scheduler) (h : (ledger s).Ok) (t f : ℕ) (task : ScheduleTask)
    (rest : List ScheduleTask) (hp : pick t s.tasks = some (task, rest))
    (hw : task.work = .fiber f) : s.state f = .READY ∨ InWindow s f := by
  have hsum := pick_sum taskToken t s.tasks rest task hp
  have hm : f ∈ (ledger s).tokens := by
    simp [ledger, hsum, taskToken, hw]
  exact (h.ready f hm).imp_right (mem_window_iff s f).mp

theorem window_running (s : Scheduler) (h : (ledger s).Ok) (f : ℕ) (hw : InWindow s f) :
    s.state f = .RUNNING :=
  (h.running f).mpr (Multiset.mem_add.mpr (.inl ((mem_window_iff s f).mpr hw)))

theorem dequeue_ok (s : Scheduler) (h : (ledger s).Ok) (hf : s.assertFailed = false) (t : ℕ)
    (ht : s.threads[t]? = some .scanning) (hg : Settled s (.dequeue t)) (s' : Scheduler)
    (hn : s.dequeue t = some s') : (ledger s').Ok ∧ s'.assertFailed = false := by
  unfold Scheduler.dequeue at hn
  cases hp : pick t s.tasks with
  | none =>
    rw [hp] at hn
    cases hn
  | some x =>
    obtain ⟨task, rest⟩ := x
    rw [hp] at hn
    cases hw : task.work with
    | fiber f =>
      have hready : s.state f = .READY :=
        (queued_ready s h t f task rest hp hw).resolve_right (hg task rest f hp hw)
      simp only [hw, hready, if_true, Option.some.injEq] at hn
      subst hn
      exact ⟨dequeue_fiber_ok s h t f task rest ht hp hw hready, hf⟩
    | wake f =>
      simp only [hw, Option.some.injEq] at hn
      subst hn
      exact ⟨dequeue_cb_ok s h t task rest (some f) ht hp (by simp [taskToken, hw]), hf⟩
    | cb =>
      simp only [hw, Option.some.injEq] at hn
      subst hn
      exact ⟨dequeue_cb_ok s h t task rest none ht hp (by simp [taskToken, hw]), hf⟩

theorem publish_step (s : Scheduler) (h : (ledger s).Ok) (hf : s.assertFailed = false) (t : ℕ)
    (place : ℕ → Scheduler) (hth : ∀ f, (place f).threads = s.threads)
    (hpl : ∀ f, ledger (place f) = { ledger s with tokens := (ledger s).tokens+{f} })
    (haf : ∀ f, (place f).assertFailed = s.assertFailed) (s' : Scheduler)
    (hn : s.publish t place = some s') : (ledger s').Ok ∧ s'.assertFailed = false := by
  unfold Scheduler.publish at hn
  split at hn
  · rename_i f w ht
    obtain rfl := Option.some.inj hn
    exact ⟨publish_ok s h t f w (place f) (by rw [hth]; exact ht) (hpl f), (haf f).trans hf⟩
  · cases hn

theorem step_ok (s : Scheduler) (h : (ledger s).Ok) (hf : s.assertFailed = false) (a : Action)
    (hg : Settled s a) (s' : Scheduler) (hn : s.step a = some s') :
    (ledger s').Ok ∧ s'.assertFailed = false := by
  cases a with
  | spawnFiber thread =>
    obtain rfl := Option.some.inj hn
    exact ⟨spawnFiber_ok s h thread, hf⟩
  | spawnCb thread =>
    obtain rfl := Option.some.inj hn
    refine ⟨?_, hf⟩
    rw [push_tokens]
    simpa [taskToken] using h
  | dequeue t =>
    simp only [Scheduler.step] at hn
    split at hn
    · rename_i ht
      exact dequeue_ok s h hf t ht hg s' hn
    · cases hn
  | resume t =>
    simp only [Scheduler.step] at hn
    split at hn
    · rename_i f w ht
      obtain ⟨hready, hok⟩ := resume_ok s h t f w ht
      simp only [hready, ne_eq, reduceCtorEq, not_false_eq_true, and_self, if_true,
        Option.some.injEq] at hn
      subst hn
      exact ⟨hok, hf⟩
    · cases hn
  | schedule t =>
    exact publish_step s h hf t (fun f => s.push (.fiber f) none) (fun _ => rfl)
      (fun f => push_tokens s (.fiber f) none) (fun _ => rfl) s' hn
  | addEvent t =>
    refine publish_step s h hf t (fun f => { s with epoll := s.epoll ++ [f] }) (fun _ => rfl)
      (fun f => ?_) (fun _ => rfl) s' hn
    ext1 <;> try rfl
    simp only [ledger, ← Multiset.coe_add, Multiset.coe_singleton]
    abel
  | addTimer t =>
    refine publish_step s h hf t (fun f => { s with timers := s.timers ++ [f] }) (fun _ => rfl)
      (fun f => ?_) (fun _ => rfl) s' hn
    ext1 <;> try rfl
    simp only [ledger, ← Multiset.coe_add, Multiset.coe_singleton]
    abel
  | yield t =>
    simp only [Scheduler.step] at hn
    split at hn
    · rename_i f p ht
      obtain rfl := Option.some.inj hn
      exact ⟨leave_ok s h t f p .READY ht (by decide) (.inl rfl), hf⟩
    · cases hn
  | wake t =>
    simp only [Scheduler.step] at hn
    split at hn
    · rename_i f p g ht
      obtain rfl := Option.some.inj hn
      exact ⟨wake_ok s h t f g p ht, hf⟩
    · cases hn
  | finish t =>
    simp only [Scheduler.step] at hn
    split at hn
    · rename_i f ht
      obtain rfl := Option.some.inj hn
      exact ⟨leave_ok s h t f false .TERM ht (by decide) (.inr rfl), hf⟩
    · cases hn
  | triggerEvent i =>
    simp only [Scheduler.step] at hn
    split at hn
    · rename_i f hi
      obtain rfl := Option.some.inj hn
      exact ⟨triggerEvent_ok s h i f hi, hf⟩
    · cases hn
  | expire i =>
    simp only [Scheduler.step] at hn
    split at hn
    · rename_i f hi
      obtain rfl := Option.some.inj hn
      exact ⟨expire_ok s h i f hi, hf⟩
    · cases hn

theorem init_ok (n : ℕ) : (ledger (Scheduler.init n)).Ok := by
  have hz : ∀ g : Thread → Multiset ℕ, g .scanning = 0 →
      ((List.replicate n Thread.scanning).map g).sum = 0 := by
    intro g hg
    rw [List.map_replicate, hg]
    simp
  have hl : ledger (Scheduler.init n) = ⟨fun _ => .TERM, 0, 0, 0, 0, 0⟩ := by
    refine Ledger.ext rfl rfl ?_ (hz windowOf rfl) (hz plainOf rfl) (hz heldOf rfl)
    change 0+0+0+((List.replicate n Thread.scanning).map threadToken).sum = 0
    rw [hz threadToken rfl]
    rfl
  rw [hl]
  exact ⟨Multiset.nodup_zero, by simp, by simp, by simp, by simp, le_refl _, by simp⟩

theorem reaches_ok (n : ℕ) {s : Scheduler} (h : Reaches next Settled (Scheduler.init n) s) :
    (ledger s).Ok ∧ s.assertFailed = false := by
  refine h.invariant (I := fun s => (ledger s).Ok ∧ s.assertFailed = false) ⟨init_ok n, rfl⟩ ?_
  rintro s a t ⟨hok, hf⟩ hg hn
  rw [next, hf] at hn
  exact step_ok s hok hf a hg t hn

/-- In every run in which no thread dequeues a fiber between that fiber's own
publishing step and its yield, no assertion of `run` or `resume` fails; and in
each state reached, a dequeue would fail only by taking such a fiber. -/
theorem dequeued_fibers_ready (n : ℕ) (s : Scheduler)
    (h : Reaches next Settled (Scheduler.init n) s) :
    s.assertFailed = false ∧ ∀ t s', next s (.dequeue t) = some s' →
      (s'.assertFailed = true ↔ ¬Settled s (.dequeue t)) := by
  obtain ⟨hok, hf⟩ := reaches_ok n h
  refine ⟨hf, fun t s' hn => ?_⟩
  rw [next, hf] at hn
  constructor
  · intro he hg
    rw [(step_ok s hok hf _ hg s' hn).2] at he
    cases he
  · intro hg
    simp only [Settled, not_forall, not_not] at hg
    obtain ⟨task, rest, f, hp, hw, hwin⟩ := hg
    have hrun := window_running s hok f hwin
    simp only [Scheduler.step, Bool.false_eq_true, if_false] at hn
    split at hn
    · simp only [Scheduler.dequeue, hp, hw, hrun, reduceCtorEq, if_false,
        Option.some.injEq] at hn
      rw [← hn]
    · cases hn

theorem settled_of_scanning (s : Scheduler) (t : ℕ) (h : ∀ th ∈ s.threads, th = .scanning) :
    Settled s (.dequeue t) := by
  rintro task rest f - - ⟨w, hm⟩
  cases h _ hm

theorem dequeued_fibers_ready_handover :
    ∃ s, Runs.after next
      [.spawnFiber none, .dequeue 0, .resume 0, .schedule 0, .yield 0, .dequeue 1]
        (Scheduler.init 2) = some s ∧ s.threads = [.scanning, .taken 0 none] ∧
      s.assertFailed = false := by
  refine ⟨_, rfl, rfl, ?_⟩
  exact (dequeued_fibers_ready 2 _
    ((((((Reaches.start.step (a := .spawnFiber none) trivial rfl).step
      (a := .dequeue 0) (settled_of_scanning _ _ (by decide)) rfl).step
      (a := .resume 0) trivial rfl).step
      (a := .schedule 0) trivial rfl).step
      (a := .yield 0) trivial rfl).step
      (a := .dequeue 1) (settled_of_scanning _ _ (by decide)) rfl)).1

/-- A fiber that has scheduled itself is dequeued by the other thread before it
yields. -/
theorem published_fiber_dequeued :
    ∃ s, Reaches next Free (Scheduler.init 2) s ∧ s.state 0 = .RUNNING ∧
      s.assertFailed = true :=
  ⟨_, Reaches.start.after [.spawnFiber none, .dequeue 0, .resume 0, .schedule 0, .dequeue 1] rfl,
    rfl, rfl⟩

end Lamb.FiberScheduler
