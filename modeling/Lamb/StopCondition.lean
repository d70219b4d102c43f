import Lamb.FiberScheduler
import Lamb.Library.Slots

/-!
# The stop condition of the IO manager

`IOManager::stopping` looks at the timers, then at the count of pending events,
then at the scheduler, each under its own lock, while tasks on other threads add
timers, register events and schedule tasks, and while idle threads turn expired
timers and ready events into tasks.
-/

set_option autoImplicit false

namespace Lamb.StopCondition
open Lamb.Runs Lamb.FiberScheduler

/-- A thread is `loading` after it saw no timer and `asking` after it also saw no
pending event. It is `holding` callbacks that `listExpiredCb` gave it and that it
has not scheduled, and `lowering` after it scheduled for an event that it has not
yet taken off the count. -/
inductive Pc where
  | top
  | running
  | loading
  | asking
  | idling
  | holding (cbs : ℕ)
  | dispatching
  | lowering
  | exited
  deriving DecidableEq, Repr

/-- `timers` is the size of `m_timers`, `registered` the number of event bits that
are set. -/
structure Pool where
  threads : List Pc
  timers : ℕ
  registered : ℕ
  pendingEventCount : ℕ
  tasks : List ScheduleTask
  activeThreadCount : ℤ
  stopping : Bool
  deriving DecidableEq, Repr

def Pool.init (threads : ℕ) : Pool where
  threads := List.replicate threads .top
  timers := 0
  registered := 0
  pendingEventCount := 0
  tasks := []
  activeThreadCount := 0
  stopping := false

/-- Who adds work: a running task, or a caller from outside before `stop`. -/
inductive Source where
  | task (t : ℕ)
  | outside
  deriving DecidableEq, Repr

inductive Action where
  | addTimer (source : Source)
  | cancelTimer (source : Source)
  | addEvent (source : Source)
  | delEvent (source : Source)
  | cancelEvent (source : Source) (task : ScheduleTask)
  | schedule (source : Source) (task : ScheduleTask)
  | stop
  | dequeue (t : ℕ)
  | finish (t : ℕ)
  | getNextTimer (t : ℕ)
  | loadPending (t : ℕ)
  | askScheduler (t : ℕ)
  | listExpiredCb (t oneShot recurring : ℕ)
  | scheduleCb (t : ℕ)
  | dispatch (t : ℕ) (task : ScheduleTask)
  | lower (t : ℕ)
  | yield (t : ℕ)
  deriving DecidableEq, Repr

def Pool.goto (s : Pool) (t : ℕ) (p : Pc) : Pool := { s with threads := s.threads.set t p }

def Pool.mayAct (s : Pool) : Source → Bool
  | .task t => s.threads[t]? == some .running
  | .outside => !s.stopping

/-- `Scheduler::stopping()`. -/
def Pool.stops (s : Pool) : Bool := s.stopping && s.tasks.isEmpty && s.activeThreadCount == 0

def next (s : Pool) : Action → Option Pool
  | .addTimer source => if s.mayAct source then some { s with timers := s.timers+1 } else none
  | .cancelTimer source =>
    if s.mayAct source && s.timers != 0 then some { s with timers := s.timers-1 } else none
  | .addEvent source =>
    if s.mayAct source then some { s with
      registered := s.registered+1
      pendingEventCount := s.pendingEventCount+1 }
    else none
  | .delEvent source =>
    if s.mayAct source && s.registered != 0 then some { s with
      registered := s.registered-1
      pendingEventCount := s.pendingEventCount-1 }
    else none
  | .cancelEvent source task =>
    if s.mayAct source && s.registered != 0 then some { s with
      registered := s.registered-1
      pendingEventCount := s.pendingEventCount-1
      tasks := s.tasks ++ [task] }
    else none
  | .schedule source task =>
    if s.mayAct source then some { s with tasks := s.tasks ++ [task] } else none
  | .stop => some { s with stopping := true }
  | .dequeue t =>
    match s.threads[t]?, pick t s.tasks with
    | some .top, some (_, rest) => some ({ s with
        tasks := rest
        activeThreadCount := s.activeThreadCount+1 }.goto t .running)
    | _, _ => none
  | .finish t =>
    match s.threads[t]? with
    | some .running =>
      some ({ s with activeThreadCount := s.activeThreadCount-1 }.goto t .top)
    | _ => none
  | .getNextTimer t =>
    match s.threads[t]? with
    | some .top => some (s.goto t (if s.timers = 0 then .loading else .idling))
    | _ => none
  | .loadPending t =>
    match s.threads[t]? with
    | some .loading => some (s.goto t (if s.pendingEventCount = 0 then .asking else .idling))
    | _ => none
  | .askScheduler t =>
    match s.threads[t]? with
    | some .asking => some (s.goto t (if s.stops then .exited else .idling))
    | _ => none
  | .listExpiredCb t oneShot recurring =>
    match s.threads[t]? with
    | some .idling =>
      if oneShot+recurring ≤ s.timers then
        some ({ s with timers := s.timers-oneShot }.goto t (.holding (oneShot+recurring)))
      else none
    | _ => none
  | .scheduleCb t =>
    match s.threads[t]? with
    | some (.holding (n+1)) =>
      some ({ s with tasks := s.tasks ++ [(⟨.cb, none⟩ : ScheduleTask)] }.goto t (.holding n))
    | some (.holding 0) => some (s.goto t .dispatching)
    | _ => none
  | .dispatch t task =>
    match s.threads[t]? with
    | some .dispatching =>
      if s.registered = 0 then none
      else some ({ s with
        registered := s.registered-1
        tasks := s.tasks ++ [task] }.goto t .lowering)
    | _ => none
  | .lower t =>
    match s.threads[t]? with
    | some .lowering =>
      some ({ s with pendingEventCount := s.pendingEventCount-1 }.goto t .dispatching)
    | _ => none
  | .yield t =>
    match s.threads[t]? with
    | some .dispatching => some (s.goto t .top)
    | _ => none

/-- No timer is added while a thread has seen that there is none and has not yet
asked the scheduler, and likewise for events. -/
def Undisturbed (s : Pool) : Action → Prop
  | .addTimer _ => .loading ∉ s.threads ∧ .asking ∉ s.threads
  | .addEvent _ => .asking ∉ s.threads
  | _ => True

def Clean (s : Pool) : Prop :=
  s.timers = 0 ∧ s.registered = 0 ∧ s.tasks = [] ∧ .running ∉ s.threads

structure Inv (s : Pool) : Prop where
  active : s.activeThreadCount = s.threads.count .running
  counted : s.pendingEventCount = s.registered+s.threads.count .lowering
  noTimer : .loading ∈ s.threads ∨ .asking ∈ s.threads → s.timers = 0
  noEvent : .asking ∈ s.threads → s.pendingEventCount = 0

attribute [local simp] next

theorem init_inv (threads : ℕ) : Inv (Pool.init threads) := by
  constructor <;> simp [Pool.init, List.count_replicate]

/-- How often a point occurs among the threads after one of them has moved. -/
theorem count_goto {threads : List Pc} {t : ℕ} {p : Pc} (h : threads[t]? = some p) (q r : Pc) :
    (threads.set t q).count r+(if p = r then 1 else 0) =
      threads.count r+(if q = r then 1 else 0) := by
  have hsum := Slots.sum_set (fun x => if x = r then 1 else 0) threads t p q h
  have hcount : ∀ l : List Pc, l.count r = (l.map fun x => if x = r then 1 else 0).sum := by
    intro l
    induction l with
    | nil => rfl
    | cons x l ih =>
      rw [List.count_cons, List.map_cons, List.sum_cons, ih, add_comm]
      simp
  rw [hcount, hcount]
  exact hsum

/-- A thread moves to a point where it has seen nothing new. -/
theorem Inv.goto {s : Pool} (h : Inv s) {t : ℕ} {p : Pc} (ht : s.threads[t]? = some p) (q : Pc)
    {timers registered pending : ℕ} {tasks : List ScheduleTask} {active : ℤ}
    (hactive : active+(if p = .running then 1 else 0) =
      s.activeThreadCount+(if q = .running then 1 else 0))
    (hcounted : pending+s.registered+(if p = .lowering then 1 else 0) =
      s.pendingEventCount+registered+(if q = .lowering then 1 else 0))
    (htimers : s.timers = 0 → timers = 0) (hpending : s.pendingEventCount = 0 → pending = 0)
    (hq : q = .loading ∨ q = .asking → timers = 0) (hqe : q = .asking → pending = 0) :
    Inv { s with
      threads := s.threads.set t q
      timers := timers
      registered := registered
      pendingEventCount := pending
      tasks := tasks
      activeThreadCount := active } := by
  have hrunning := count_goto ht q .running
  have hlowering := count_goto ht q .lowering
  have hact := h.active
  have hcount := h.counted
  constructor
  · simp only
    split_ifs at hrunning hactive <;> omega
  · simp only
    split_ifs at hlowering hcounted <;> omega
  · rintro (hin | hin)
    · rcases List.mem_or_eq_of_mem_set hin with hin | hin
      · exact htimers (h.noTimer (Or.inl hin))
      · exact hq (Or.inl hin.symm)
    · rcases List.mem_or_eq_of_mem_set hin with hin | hin
      · exact htimers (h.noTimer (Or.inr hin))
      · exact hq (Or.inr hin.symm)
  · intro hin
    rcases List.mem_or_eq_of_mem_set hin with hin | hin
    · exact hpending (h.noEvent hin)
    · exact hqe hin.symm

/-! ## Steps of tasks and of outside callers -/

/-- Work that the stop condition does not see yet, or less work than before. -/
theorem Inv.work {s : Pool} (h : Inv s) {timers registered pending : ℕ}
    {tasks : List ScheduleTask}
    (hcounted : pending+s.registered = s.pendingEventCount+registered)
    (htimers : .loading ∈ s.threads ∨ .asking ∈ s.threads → s.timers = 0 → timers = 0)
    (hpending : .asking ∈ s.threads → s.pendingEventCount = 0 → pending = 0) :
    Inv { s with
      timers := timers
      registered := registered
      pendingEventCount := pending
      tasks := tasks } := by
  refine ⟨h.active, ?_, fun hin => htimers hin (h.noTimer hin),
    fun hin => hpending hin (h.noEvent hin)⟩
  have hcount := h.counted
  simp only
  omega

theorem addTimer_inv {s s' : Pool} {source : Source} (h : Inv s)
    (hg : Undisturbed s (.addTimer source)) (hn : next s (.addTimer source) = some s') :
    Inv s' := by
  simp only [next] at hn
  split_ifs at hn
  obtain rfl := Option.some.inj hn
  apply h.work rfl _ fun _ hp => hp
  rintro (hin | hin)
  · exact absurd hin hg.1
  · exact absurd hin hg.2

theorem cancelTimer_inv {s s' : Pool} {source : Source} (h : Inv s)
    (hn : next s (.cancelTimer source) = some s') : Inv s' := by
  simp only [next] at hn
  split_ifs at hn
  obtain rfl := Option.some.inj hn
  exact h.work rfl (fun _ ht => by omega) fun _ hp => hp

theorem addEvent_inv {s s' : Pool} {source : Source} (h : Inv s)
    (hg : Undisturbed s (.addEvent source)) (hn : next s (.addEvent source) = some s') :
    Inv s' := by
  simp only [next] at hn
  split_ifs at hn
  obtain rfl := Option.some.inj hn
  exact h.work (by omega) (fun _ ht => ht) fun hin => absurd hin hg

/-- An event is taken out, with or without a task for its waiter. -/
theorem Inv.unregister {s : Pool} (h : Inv s) (hne : s.registered ≠ 0)
    (tasks : List ScheduleTask) :
    Inv { s with
      registered := s.registered-1
      pendingEventCount := s.pendingEventCount-1
      tasks := tasks } := by
  have hcount := h.counted
  exact h.work (by omega) (fun _ ht => ht) fun _ hp => by omega

theorem delEvent_inv {s s' : Pool} {source : Source} (h : Inv s)
    (hn : next s (.delEvent source) = some s') : Inv s' := by
  simp only [next] at hn
  split_ifs at hn with hact
  obtain rfl := Option.some.inj hn
  rw [Bool.and_eq_true, bne_iff_ne] at hact
  exact h.unregister hact.2 _

theorem cancelEvent_inv {s s' : Pool} {source : Source} {task : ScheduleTask} (h : Inv s)
    (hn : next s (.cancelEvent source task) = some s') : Inv s' := by
  simp only [next] at hn
  split_ifs at hn with hact
  obtain rfl := Option.some.inj hn
  rw [Bool.and_eq_true, bne_iff_ne] at hact
  exact h.unregister hact.2 _

theorem schedule_inv {s s' : Pool} {source : Source} {task : ScheduleTask} (h : Inv s)
    (hn : next s (.schedule source task) = some s') : Inv s' := by
  simp only [next] at hn
  split_ifs at hn
  obtain rfl := Option.some.inj hn
  exact h.work rfl (fun _ ht => ht) fun _ hp => hp

/-! ## Steps of the scheduler threads -/

theorem dequeue_inv {s s' : Pool} {t : ℕ} (h : Inv s) (hn : next s (.dequeue t) = some s') :
    Inv s' := by
  simp only [next] at hn
  split at hn
  · rename_i ht _
    obtain rfl := Option.some.inj hn
    exact h.goto ht .running (by simp) (by simp) id id (by simp) (by simp)
  · cases hn

theorem finish_inv {s s' : Pool} {t : ℕ} (h : Inv s) (hn : next s (.finish t) = some s') :
    Inv s' := by
  simp only [next] at hn
  split at hn
  · rename_i ht
    obtain rfl := Option.some.inj hn
    exact h.goto ht .top (by simp) (by simp) id id (by simp) (by simp)
  · cases hn

theorem getNextTimer_inv {s s' : Pool} {t : ℕ} (h : Inv s)
    (hn : next s (.getNextTimer t) = some s') : Inv s' := by
  simp only [next] at hn
  split at hn
  · rename_i ht
    obtain rfl := Option.some.inj hn
    split_ifs with hz
    · exact h.goto ht .loading (by simp) (by simp) id id (fun _ => hz) (by simp)
    · exact h.goto ht .idling (by simp) (by simp) id id (by simp) (by simp)
  · cases hn

theorem loadPending_inv {s s' : Pool} {t : ℕ} (h : Inv s)
    (hn : next s (.loadPending t) = some s') : Inv s' := by
  simp only [next] at hn
  split at hn
  · rename_i ht
    obtain rfl := Option.some.inj hn
    have hzero : s.timers = 0 := h.noTimer (Or.inl (List.mem_of_getElem? ht))
    split_ifs with hz
    · exact h.goto ht .asking (by simp) (by simp) id id (fun _ => hzero) fun _ => hz
    · exact h.goto ht .idling (by simp) (by simp) id id (by simp) (by simp)
  · cases hn

theorem askScheduler_inv {s s' : Pool} {t : ℕ} (h : Inv s)
    (hn : next s (.askScheduler t) = some s') : Inv s' := by
  simp only [next] at hn
  split at hn
  · rename_i ht
    obtain rfl := Option.some.inj hn
    split_ifs
    · exact h.goto ht .exited (by simp) (by simp) id id (by simp) (by simp)
    · exact h.goto ht .idling (by simp) (by simp) id id (by simp) (by simp)
  · cases hn

theorem listExpiredCb_inv {s s' : Pool} {t oneShot recurring : ℕ} (h : Inv s)
    (hn : next s (.listExpiredCb t oneShot recurring) = some s') : Inv s' := by
  simp only [next] at hn
  split at hn
  · rename_i ht
    split_ifs at hn
    obtain rfl := Option.some.inj hn
    have htimers : s.timers = 0 → s.timers-oneShot = 0 := by omega
    exact h.goto ht _ (by simp) (by simp) htimers id (by simp) (by simp)
  · cases hn

theorem scheduleCb_inv {s s' : Pool} {t : ℕ} (h : Inv s)
    (hn : next s (.scheduleCb t) = some s') : Inv s' := by
  simp only [next] at hn
  split at hn
  · rename_i ht
    obtain rfl := Option.some.inj hn
    exact h.goto ht _ (by simp) (by simp) id id (by simp) (by simp)
  · rename_i ht
    obtain rfl := Option.some.inj hn
    exact h.goto ht _ (by simp) (by simp) id id (by simp) (by simp)
  · cases hn

theorem dispatch_inv {s s' : Pool} {t : ℕ} {task : ScheduleTask} (h : Inv s)
    (hn : next s (.dispatch t task) = some s') : Inv s' := by
  simp only [next] at hn
  split at hn
  · rename_i ht
    split_ifs at hn with hz
    obtain rfl := Option.some.inj hn
    apply h.goto ht .lowering (by simp) _ id id (by simp) (by simp)
    simp only [reduceCtorEq, if_false, if_true]
    omega
  · cases hn

theorem lower_inv {s s' : Pool} {t : ℕ} (h : Inv s) (hn : next s (.lower t) = some s') :
    Inv s' := by
  simp only [next] at hn
  split at hn
  · rename_i ht
    obtain rfl := Option.some.inj hn
    have hpos : 0 < s.threads.count .lowering :=
      List.count_pos_iff.mpr (List.mem_of_getElem? ht)
    have hcount := h.counted
    apply h.goto ht .dispatching (by simp) _ id (fun hz => by omega) (by simp) (by simp)
    simp only [reduceCtorEq, if_false, if_true]
    omega
  · cases hn

theorem yield_inv {s s' : Pool} {t : ℕ} (h : Inv s) (hn : next s (.yield t) = some s') :
    Inv s' := by
  simp only [next] at hn
  split at hn
  · rename_i ht
    obtain rfl := Option.some.inj hn
    exact h.goto ht .top (by simp) (by simp) id id (by simp) (by simp)
  · cases hn

theorem next_inv {s s' : Pool} {a : Action} (h : Inv s) (hg : Undisturbed s a)
    (hn : next s a = some s') : Inv s' := by
  cases a with
  | addTimer source => exact addTimer_inv h hg hn
  | cancelTimer source => exact cancelTimer_inv h hn
  | addEvent source => exact addEvent_inv h hg hn
  | delEvent source => exact delEvent_inv h hn
  | cancelEvent source task => exact cancelEvent_inv h hn
  | schedule source task => exact schedule_inv h hn
  | stop =>
    obtain rfl := Option.some.inj hn
    exact ⟨h.active, h.counted, h.noTimer, h.noEvent⟩
  | dequeue t => exact dequeue_inv h hn
  | finish t => exact finish_inv h hn
  | getNextTimer t => exact getNextTimer_inv h hn
  | loadPending t => exact loadPending_inv h hn
  | askScheduler t => exact askScheduler_inv h hn
  | listExpiredCb t oneShot recurring => exact listExpiredCb_inv h hn
  | scheduleCb t => exact scheduleCb_inv h hn
  | dispatch t task => exact dispatch_inv h hn
  | lower t => exact lower_inv h hn
  | yield t => exact yield_inv h hn

theorem stops_iff (s : Pool) :
    s.stops = true ↔ s.stopping = true ∧ s.tasks = [] ∧ s.activeThreadCount = 0 := by
  simp [Pool.stops, and_assoc]

/-- Where no timer and no event is added behind the back of a thread that evaluates
the stop condition, `stopping` returns true only when nothing is left. -/
theorem stop_condition_sound (threads : ℕ) (s : Pool)
    (h : Reaches next Undisturbed (Pool.init threads) s) (t : ℕ) (s' : Pool)
    (hn : next s (.askScheduler t) = some s') (ht : s'.threads[t]? = some .exited) : Clean s' := by
  have hi : Inv s := h.invariant (init_inv threads) fun _ _ _ hs hg hn => next_inv hs hg hn
  simp only [next] at hn
  split at hn
  · rename_i hask
    obtain rfl := Option.some.inj hn
    have hin : .asking ∈ s.threads := List.mem_of_getElem? hask
    have hlt : t < s.threads.length := (List.getElem?_eq_some_iff.mp hask).1
    have hstops : s.stops = true := by
      by_contra hfalse
      simp [Pool.goto, hfalse, List.getElem?_set_self hlt] at ht
    obtain ⟨-, htasks, hactive⟩ := (stops_iff s).mp hstops
    have hpending := hi.noEvent hin
    have hcounted := hi.counted
    refine ⟨hi.noTimer (Or.inr hin), ?_, htasks, ?_⟩
    · simp only [Pool.goto]
      omega
    · intro hrun
      rcases List.mem_or_eq_of_mem_set hrun with hrun | hrun
      · have hpos : 0 < s.threads.count .running := List.count_pos_iff.mpr hrun
        have := hi.active
        omega
      · simp [hstops] at hrun
  · cases hn

theorem stop_condition_sound_idle : ∃ s s',
    after next [.schedule .outside ⟨.cb, none⟩, .dequeue 0, .stop, .finish 0, .getNextTimer 0,
      .loadPending 0] (Pool.init 1) = some s ∧ next s (.askScheduler 0) = some s' ∧
      Clean s' := by
  refine ⟨_, _, rfl, rfl, ?_⟩
  have htask : Reaches next Undisturbed (Pool.init 1) _ :=
    Reaches.start.step (a := Action.schedule .outside ⟨.cb, none⟩) trivial rfl
  have hrun := (htask.step (a := Action.dequeue 0) trivial rfl).step (a := Action.stop) trivial rfl
  have hidle := (hrun.step (a := Action.finish 0) trivial rfl).step
    (a := Action.getNextTimer 0) trivial rfl
  have hload := hidle.step (a := Action.loadPending 0) trivial rfl
  exact stop_condition_sound 1 _ hload 0 _ rfl rfl

/-- A task adds a timer and ends after another thread has seen that there is none. -/
theorem timer_left_behind : ∃ s s',
    after next [.schedule .outside ⟨.cb, none⟩, .dequeue 0, .stop, .getNextTimer 1,
      .addTimer (.task 0), .finish 0, .loadPending 1] (Pool.init 2) = some s ∧
      next s (.askScheduler 1) = some s' ∧ s'.threads[1]? = some .exited ∧ s'.timers = 1 ∧
      ¬Clean s' := by
  refine ⟨_, _, rfl, rfl, rfl, rfl, ?_⟩
  rintro ⟨htimers, -⟩
  cases htimers

end Lamb.StopCondition
