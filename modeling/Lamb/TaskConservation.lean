import Lamb.FiberScheduler
import Lamb.Library.Runs
import Mathlib.Data.List.Perm.Basic

/-!
# Tasks between `schedule` and the end of `run`

The loops of `Scheduler::run` on any number of threads, with `schedule` and
`stop` calls in between. Tasks are numbered in the order in which they enter the
queue; what was accepted and what was dequeued is recorded. An idle fiber ends
when `stopping` holds, and the loop of its thread ends when it next finds nothing
to do.
-/

set_option autoImplicit false

namespace Lamb.TaskConservation
open Lamb.Runs Lamb.FiberScheduler

structure Ticket where
  id : ℕ
  task : ScheduleTask
  deriving DecidableEq, Repr

/-- Where a thread is in `run`; `term` says that its idle fiber has ended. A task
is `working` until its `resume` returns, and the thread is `finishing` until it has
lowered the active count. The caller's thread is `outside` until `stop`. -/
inductive Pc where
  | outside
  | top (term : Bool)
  | working (id : ℕ) (term : Bool)
  | finishing (term : Bool)
  | resting (term : Bool)
  | idling
  | left
  deriving DecidableEq, Repr

structure Dequeue where
  thread : ℕ
  id : ℕ
  deriving DecidableEq, Repr

/-- `accepted` and `dequeued` are records: the tasks put into the queue, in order,
and the dequeues, in order. -/
structure Pool where
  threads : List Pc
  tasks : List Ticket
  activeThreadCount : ℤ
  stopping : Bool
  accepted : List ScheduleTask
  dequeued : List Dequeue
  deriving DecidableEq, Repr

/-- After `start`. With `useCaller` the first thread is the caller's. -/
def Pool.init (useCaller : Bool) (workers : ℕ) : Pool where
  threads := (if useCaller then [.outside] else []) ++ List.replicate workers (.top false)
  tasks := []
  activeThreadCount := 0
  stopping := false
  accepted := []
  dequeued := []

def MayRun (t : ℕ) (task : ScheduleTask) : Prop := task.thread = none ∨ task.thread = some t

instance (t : ℕ) (task : ScheduleTask) : Decidable (MayRun t task) :=
  inferInstanceAs (Decidable (_ ∨ _))

/-- The scan under the lock by thread `t`: the task it takes and the queue after. -/
def scan (t : ℕ) : List Ticket → Option (Ticket × List Ticket)
  | [] => none
  | k::rest =>
    if MayRun t k.task then some (k, rest) else (scan t rest).map fun r => (r.1, k::r.2)

inductive Action where
  | schedule (caller : Option ℕ) (task : Option ScheduleTask)
  | scan (t : ℕ)
  | resumed (t : ℕ)
  | finish (t : ℕ)
  | rest (t : ℕ)
  | check (t : ℕ)
  | stop
  | enter (t : ℕ)
  deriving DecidableEq, Repr

def Pool.goto (s : Pool) (t : ℕ) (p : Pc) : Pool := { s with threads := s.threads.set t p }

/-- `scheduleNoLock`: a task without fiber and callback is dropped. -/
def Pool.push (s : Pool) (task : Option ScheduleTask) : Pool :=
  match task with
  | none => s
  | some task => { s with
      tasks := s.tasks ++ [⟨s.accepted.length, task⟩]
      accepted := s.accepted ++ [task] }

/-- `Scheduler::stopping()`. -/
def Pool.stops (s : Pool) : Bool := s.stopping && s.tasks.isEmpty && s.activeThreadCount == 0

/-- `schedule` is called from outside, or by the task that a thread is running. -/
def next (s : Pool) : Action → Option Pool
  | .schedule none task => some (s.push task)
  | .schedule (some t) task =>
    match s.threads[t]? with
    | some (.working _ _) => some (s.push task)
    | _ => none
  | .scan t =>
    match s.threads[t]? with
    | some (.top term) =>
      match scan t s.tasks with
      | some (k, rest) => some ({ s with
          tasks := rest
          activeThreadCount := s.activeThreadCount+1
          dequeued := s.dequeued ++ [(⟨t, k.id⟩ : Dequeue)] }.goto t (.working k.id term))
      | none => some (s.goto t (.resting term))
    | _ => none
  | .resumed t =>
    match s.threads[t]? with
    | some (.working _ term) => some (s.goto t (.finishing term))
    | _ => none
  | .finish t =>
    match s.threads[t]? with
    | some (.finishing term) =>
      some ({ s with activeThreadCount := s.activeThreadCount-1 }.goto t (.top term))
    | _ => none
  | .rest t =>
    match s.threads[t]? with
    | some (.resting term) => some (s.goto t (if term then .left else .idling))
    | _ => none
  | .check t =>
    match s.threads[t]? with
    | some .idling => some (s.goto t (.top s.stops))
    | _ => none
  | .stop => some { s with stopping := true }
  | .enter t =>
    match s.threads[t]? with
    | some .outside => if s.stopping then some (s.goto t (.top false)) else none
    | _ => none

/-- After `stop` only running tasks call `schedule`. -/
def Internal (s : Pool) : Action → Prop
  | .schedule none _ => s.stopping = false
  | _ => True

/-- The thread is between a dequeue and the decrement after the `resume`. -/
def Busy : Pc → Bool
  | .working _ _ => true
  | .finishing _ => true
  | _ => false

inductive Moves (s : Pool) : Action → Pool → Prop where
  | outer (task : Option ScheduleTask) : Moves s (.schedule none task) (s.push task)
  | inner {t id : ℕ} {term : Bool} (ht : s.threads[t]? = some (.working id term))
      (task : Option ScheduleTask) : Moves s (.schedule (some t) task) (s.push task)
  | dequeue {t : ℕ} {term : Bool} (ht : s.threads[t]? = some (.top term)) {k : Ticket}
      {rest : List Ticket} (hscan : scan t s.tasks = some (k, rest)) :
      Moves s (.scan t) ({ s with
        tasks := rest
        activeThreadCount := s.activeThreadCount+1
        dequeued := s.dequeued ++ [(⟨t, k.id⟩ : Dequeue)] }.goto t (.working k.id term))
  | nothing {t : ℕ} {term : Bool} (ht : s.threads[t]? = some (.top term)) :
      Moves s (.scan t) (s.goto t (.resting term))
  | resumed {t id : ℕ} {term : Bool} (ht : s.threads[t]? = some (.working id term)) :
      Moves s (.resumed t) (s.goto t (.finishing term))
  | finish {t : ℕ} {term : Bool} (ht : s.threads[t]? = some (.finishing term)) :
      Moves s (.finish t)
        ({ s with activeThreadCount := s.activeThreadCount-1 }.goto t (.top term))
  | rest {t : ℕ} {term : Bool} (ht : s.threads[t]? = some (.resting term)) :
      Moves s (.rest t) (s.goto t (if term then .left else .idling))
  | check {t : ℕ} (ht : s.threads[t]? = some .idling) :
      Moves s (.check t) (s.goto t (.top s.stops))
  | stop : Moves s .stop { s with stopping := true }
  | enter {t : ℕ} (ht : s.threads[t]? = some .outside) (hstop : s.stopping = true) :
      Moves s (.enter t) (s.goto t (.top false))

theorem next_moves {s s' : Pool} {a : Action} (hn : next s a = some s') : Moves s a s' := by
  cases a with
  | schedule caller task =>
    cases caller with
    | none => exact Option.some.inj hn ▸ .outer task
    | some t =>
      simp only [next] at hn
      split at hn
      · next ht => exact Option.some.inj hn ▸ .inner ht task
      · cases hn
  | scan t =>
    simp only [next] at hn
    split at hn
    · next ht =>
      split at hn
      · next hscan => exact Option.some.inj hn ▸ .dequeue ht hscan
      · exact Option.some.inj hn ▸ .nothing ht
    · cases hn
  | resumed t =>
    simp only [next] at hn
    split at hn
    · next ht => exact Option.some.inj hn ▸ .resumed ht
    · cases hn
  | finish t =>
    simp only [next] at hn
    split at hn
    · next ht => exact Option.some.inj hn ▸ .finish ht
    · cases hn
  | rest t =>
    simp only [next] at hn
    split at hn
    · next ht => exact Option.some.inj hn ▸ .rest ht
    · cases hn
  | check t =>
    simp only [next] at hn
    split at hn
    · next ht => exact Option.some.inj hn ▸ .check ht
    · cases hn
  | stop => exact Option.some.inj hn ▸ .stop
  | enter t =>
    simp only [next] at hn
    split at hn
    · next ht =>
      split_ifs at hn with hstop
      exact Option.some.inj hn ▸ .enter ht hstop
    · cases hn

/-! ## The scan -/

theorem pick_map (t : ℕ) (tasks : List Ticket) :
    pick t (tasks.map Ticket.task) =
      (scan t tasks).map fun r => (r.1.task, r.2.map Ticket.task) := by
  induction tasks with
  | nil => rfl
  | cons k rest ih =>
    rw [List.map_cons, pick, scan]
    by_cases hk : MayRun t k.task
    · have hraw : k.task.thread = none ∨ k.task.thread = some t := hk
      rw [if_pos hk, if_pos hraw]
      rfl
    · have hraw : ¬(k.task.thread = none ∨ k.task.thread = some t) := hk
      rw [if_neg hk, if_neg hraw, ih, Option.map_map, Option.map_map]
      rfl

theorem scan_some {t : ℕ} {tasks rest : List Ticket} {k : Ticket}
    (h : scan t tasks = some (k, rest)) :
    ∃ before behind, tasks = before ++ k::behind ∧ rest = before ++ behind ∧
      MayRun t k.task ∧ ∀ x ∈ before, ¬MayRun t x.task := by
  induction tasks generalizing rest with
  | nil => cases h
  | cons x tasks ih =>
    rw [scan] at h
    by_cases hx : MayRun t x.task
    · rw [if_pos hx] at h
      cases h
      exact ⟨[], tasks, rfl, rfl, hx, by simp⟩
    · rw [if_neg hx] at h
      obtain ⟨⟨k', rest'⟩, hscan, he⟩ := Option.map_eq_some_iff.mp h
      cases he
      obtain ⟨before, behind, rfl, hrest, hk, hnot⟩ := ih hscan
      refine ⟨x::before, behind, rfl, by rw [hrest]; rfl, hk, ?_⟩
      intro y hy
      rcases List.mem_cons.mp hy with rfl | hy
      · exact hx
      · exact hnot y hy

/-! ## What every run keeps -/

structure Inv (s : Pool) : Prop where
  conserved : (s.dequeued.map Dequeue.id ++ s.tasks.map Ticket.id).Perm
    (List.range s.accepted.length)
  genuine : ∀ k ∈ s.tasks, s.accepted[k.id]? = some k.task
  ordered : (s.tasks.map Ticket.id).Pairwise (· < ·)
  allowed : ∀ d ∈ s.dequeued, ∃ task, s.accepted[d.id]? = some task ∧ MayRun d.thread task
  inOrder : ∀ (i : ℕ) d, s.dequeued[i]? = some d → ∀ j < d.id, ∀ task,
    s.accepted[j]? = some task → MayRun d.thread task → j ∈ (s.dequeued.take i).map Dequeue.id
  active : s.activeThreadCount = s.threads.countP Busy

theorem init_inv (useCaller : Bool) (workers : ℕ) : Inv (Pool.init useCaller workers) := by
  constructor
  · exact List.Perm.refl _
  · simp [Pool.init]
  · exact List.Pairwise.nil
  · simp [Pool.init]
  · simp [Pool.init]
  · cases useCaller <;> simp [Pool.init, Busy, List.countP_replicate]

theorem Inv.id_lt {s : Pool} (h : Inv s) {j : ℕ}
    (hj : j ∈ s.dequeued.map Dequeue.id ∨ j ∈ s.tasks.map Ticket.id) : j < s.accepted.length := by
  rw [← List.mem_append, h.conserved.mem_iff, List.mem_range] at hj
  exact hj

theorem push_inv {s : Pool} (h : Inv s) (task : Option ScheduleTask) : Inv (s.push task) := by
  cases task with
  | none => exact h
  | some task =>
    have hold : ∀ j < s.accepted.length, (s.accepted ++ [task])[j]? = s.accepted[j]? := by
      intro j hj
      exact List.getElem?_append_left hj
    constructor
    · simp only [Pool.push, List.map_append, List.length_append, List.length_singleton,
        List.range_succ, ← List.append_assoc]
      exact h.conserved.append_right _
    · intro k hk
      rcases List.mem_append.mp hk with hk | hk
      · rw [Pool.push, hold k.id (h.id_lt (Or.inr (List.mem_map_of_mem hk)))]
        exact h.genuine k hk
      · obtain rfl := List.mem_singleton.mp hk
        simp [Pool.push]
    · simp only [Pool.push, List.map_append, List.map_singleton]
      apply List.pairwise_append.mpr
      refine ⟨h.ordered, List.pairwise_singleton _ _, ?_⟩
      intro i hi j hj
      obtain rfl := List.mem_singleton.mp hj
      exact h.id_lt (Or.inr hi)
    · intro d hd
      obtain ⟨task', htask, hmay⟩ := h.allowed d hd
      refine ⟨task', ?_, hmay⟩
      rw [Pool.push, hold d.id (List.getElem?_eq_some_iff.mp htask).1]
      exact htask
    · intro i d hd j hj task' htask hmay
      have hlt := h.id_lt (Or.inl (List.mem_map_of_mem (List.mem_of_getElem? hd)))
      rw [Pool.push, hold j (by omega)] at htask
      exact h.inOrder i d hd j hj task' htask hmay
    · exact h.active

theorem busy_goto {threads : List Pc} {t : ℕ} {p : Pc} (h : threads[t]? = some p) (q : Pc) :
    (threads.set t q).countP Busy+(Busy p).toNat = threads.countP Busy+(Busy q).toNat := by
  obtain ⟨hlt, rfl⟩ := List.getElem?_eq_some_iff.mp h
  have hpos : Busy threads[t] = true → 0 < threads.countP Busy := fun hb =>
    List.countP_pos_iff.mpr ⟨_, List.getElem_mem hlt, hb⟩
  rw [List.countP_set hlt]
  cases hp : Busy threads[t] with
  | false => cases Busy q <;> simp
  | true =>
    have := hpos hp
    cases Busy q <;> simp <;> omega

/-- A thread moves between two points that are both busy or both not. -/
theorem Inv.goto {s : Pool} (h : Inv s) {t : ℕ} {p q : Pc} (ht : s.threads[t]? = some p)
    (hpq : Busy q = Busy p) : Inv (s.goto t q) := by
  refine ⟨h.conserved, h.genuine, h.ordered, h.allowed, h.inOrder, ?_⟩
  have hcount := busy_goto ht q
  rw [hpq] at hcount
  have hactive := h.active
  simp only [Pool.goto]
  omega

/-- What was accepted before a queued task and may run on a thread that may run none of the
tasks in front of it is dequeued already. -/
theorem Inv.dequeued_before {s : Pool} (h : Inv s) {t : ℕ} {k : Ticket}
    {before behind : List Ticket} (htasks : s.tasks = before ++ k::behind)
    (hnot : ∀ x ∈ before, ¬MayRun t x.task) {j : ℕ} {task : ScheduleTask} (hj : j < k.id)
    (htask : s.accepted[j]? = some task) (hmay : MayRun t task) :
    j ∈ s.dequeued.map Dequeue.id := by
  have hin : j ∈ s.dequeued.map Dequeue.id ++ s.tasks.map Ticket.id := by
    rw [h.conserved.mem_iff, List.mem_range]
    exact (List.getElem?_eq_some_iff.mp htask).1
  rcases List.mem_append.mp hin with hin | hin
  · exact hin
  · -- a task still in the queue with a smaller number stands before `k`
    exfalso
    obtain ⟨x, hx, rfl⟩ := List.mem_map.mp hin
    have hxt : x.task = task := Option.some.inj ((h.genuine x hx).symm.trans htask)
    have hord := h.ordered
    rw [htasks, List.map_append, List.map_cons] at hord
    rw [htasks] at hx
    rcases List.mem_append.mp hx with hx | hx
    · exact hnot x hx (hxt ▸ hmay)
    · rcases List.mem_cons.mp hx with rfl | hx
      · exact lt_irrefl _ hj
      · have := (List.pairwise_cons.mp (List.pairwise_append.mp hord).2.1).1 x.id
          (List.mem_map_of_mem hx)
        omega

/-- A dequeue: the task is the first that the thread may run, so whatever else it
may run and was accepted before is dequeued already. -/
theorem dequeue_inv {s : Pool} (h : Inv s) {t : ℕ} {term : Bool}
    (ht : s.threads[t]? = some (.top term)) {k : Ticket} {rest : List Ticket}
    (hscan : scan t s.tasks = some (k, rest)) :
    Inv ({ s with
      tasks := rest
      activeThreadCount := s.activeThreadCount+1
      dequeued := s.dequeued ++ [(⟨t, k.id⟩ : Dequeue)] }.goto t (.working k.id term)) := by
  obtain ⟨before, behind, htasks, rfl, hmay, hnot⟩ := scan_some hscan
  have hk : k ∈ s.tasks := by
    rw [htasks]
    simp
  have hsub : ∀ x ∈ before ++ behind, x ∈ s.tasks := by
    intro x hx
    rw [htasks]
    rcases List.mem_append.mp hx with hx | hx
    · exact List.mem_append_left _ hx
    · exact List.mem_append_right _ (List.mem_cons_of_mem _ hx)
  constructor
  · apply List.Perm.trans _ h.conserved
    rw [htasks]
    simp only [Pool.goto, List.map_append, List.map_cons, List.map_nil, List.append_assoc,
      List.singleton_append]
    exact (List.perm_middle.symm).append_left _
  · intro x hx
    exact h.genuine x (hsub x hx)
  · have hord := h.ordered
    rw [htasks, List.map_append, List.map_cons] at hord
    simp only [Pool.goto, List.map_append]
    exact hord.sublist ((List.sublist_cons_self _ _).append_left _)
  · intro d hd
    rcases List.mem_append.mp hd with hd | hd
    · exact h.allowed d hd
    · obtain rfl := List.mem_singleton.mp hd
      exact ⟨k.task, h.genuine k hk, hmay⟩
  · intro i d hd j hj task htask hmayj
    simp only [Pool.goto] at hd htask ⊢
    by_cases hi : i < s.dequeued.length
    · rw [List.getElem?_append_left hi] at hd
      rw [List.take_append_of_le_length hi.le]
      exact h.inOrder i d hd j hj task htask hmayj
    · rw [List.getElem?_append_right (by omega)] at hd
      obtain ⟨hz, hd⟩ := List.getElem?_eq_some_iff.mp hd
      have hi : i = s.dequeued.length := by
        simp only [List.length_singleton] at hz
        omega
      obtain rfl : (⟨t, k.id⟩ : Dequeue) = d := by simpa using hd
      subst hi
      rw [List.take_left' rfl]
      exact h.dequeued_before htasks hnot hj htask hmayj
  · have hcount := busy_goto ht (.working k.id term)
    have hactive := h.active
    simp only [Busy, Bool.toNat_false, Bool.toNat_true] at hcount
    simp only [Pool.goto]
    omega

theorem next_inv {s s' : Pool} {a : Action} (h : Inv s) (hn : next s a = some s') : Inv s' := by
  cases next_moves hn with
  | outer task => exact push_inv h task
  | inner ht task => exact push_inv h task
  | dequeue ht hscan => exact dequeue_inv h ht hscan
  | nothing ht => exact h.goto ht rfl
  | resumed ht => exact h.goto ht rfl
  | @finish t term ht =>
    refine ⟨h.conserved, h.genuine, h.ordered, h.allowed, h.inOrder, ?_⟩
    have hcount := busy_goto ht (.top term)
    have hactive := h.active
    simp only [Busy, Bool.toNat_false, Bool.toNat_true] at hcount
    simp only [Pool.goto]
    omega
  | @rest t term ht =>
    apply h.goto ht
    cases term <;> rfl
  | check ht => exact h.goto ht rfl
  | stop => exact ⟨h.conserved, h.genuine, h.ordered, h.allowed, h.inOrder, h.active⟩
  | enter ht hstop => exact h.goto ht rfl

/-! ## Shutdown -/

def Ended : Pc → Bool
  | .outside => false
  | .top term => term
  | .working _ term => term
  | .finishing term => term
  | .resting term => term
  | .idling => false
  | .left => true

def Still (s : Pool) : Prop := s.stopping = true ∧ s.tasks = [] ∧ s.activeThreadCount = 0

def Quiet (s : Pool) : Prop := ∀ p ∈ s.threads, Ended p = true → Still s

theorem Inv.no_busy {s : Pool} (h : Inv s) (hs : Still s) {p : Pc} (hp : p ∈ s.threads) :
    Busy p = false := by
  by_contra hb
  have hpos : 0 < s.threads.countP Busy :=
    List.countP_pos_iff.mpr ⟨p, hp, by simpa using hb⟩
  have hactive := h.active
  rw [hs.2.2] at hactive
  omega

theorem Quiet.goto {s : Pool} (h : Quiet s) {t : ℕ} {p q : Pc} (ht : s.threads[t]? = some p)
    (hq : Ended q = true → Ended p = true ∨ Still s) : Quiet (s.goto t q) := by
  intro r hr he
  rcases List.mem_or_eq_of_mem_set hr with hr | rfl
  · exact h r hr he
  · rcases hq he with hp | hs
    · exact h p (List.mem_of_getElem? ht) hp
    · exact hs

theorem stops_iff (s : Pool) : s.stops = true ↔ Still s := by
  simp [Pool.stops, Still, and_assoc]

theorem Quiet.goto_restless {s r : Pool} (h : Quiet s) {t : ℕ} {p q : Pc}
    (ht : s.threads[t]? = some p) (hq : Ended q = Ended p) (hr : r.threads = s.threads)
    (hne : ¬ Still s) : Quiet (r.goto t q) := by
  intro x hx he
  simp only [Pool.goto, hr] at hx
  rcases List.mem_or_eq_of_mem_set hx with hx | rfl
  · exact absurd (h x hx he) hne
  · rw [hq] at he
    exact absurd (h p (List.mem_of_getElem? ht) he) hne

theorem push_threads (s : Pool) (task : Option ScheduleTask) :
    (s.push task).threads = s.threads := by
  cases task <;> rfl

theorem next_quiet {s s' : Pool} {a : Action} (hi : Inv s) (h : Quiet s) (hg : Internal s a)
    (hn : next s a = some s') : Quiet s' := by
  cases next_moves hn with
  | outer task =>
    intro p hp he
    rw [push_threads] at hp
    have hstop := (h p hp he).1
    rw [show s.stopping = false from hg] at hstop
    cases hstop
  | inner ht task =>
    intro p hp he
    rw [push_threads] at hp
    have hbusy := hi.no_busy (h p hp he) (List.mem_of_getElem? ht)
    cases hbusy
  | dequeue ht hscan =>
    have hne : ¬ Still s := by
      intro hs
      rw [hs.2.1] at hscan
      cases hscan
    exact h.goto_restless ht rfl rfl hne
  | nothing ht => exact h.goto ht fun he => Or.inl he
  | resumed ht => exact h.goto ht fun he => Or.inl he
  | finish ht =>
    have hne : ¬ Still s := by
      intro hs
      have hbusy := hi.no_busy hs (List.mem_of_getElem? ht)
      cases hbusy
    exact h.goto_restless ht rfl rfl hne
  | @rest t term ht =>
    apply h.goto ht
    intro he
    cases term with
    | true => exact Or.inl rfl
    | false => cases he
  | check ht => exact h.goto ht fun he => Or.inr ((stops_iff s).mp he)
  | stop =>
    intro p hp he
    exact ⟨rfl, (h p hp he).2⟩
  | enter ht hstop => exact h.goto ht fun he => by cases he

theorem init_quiet (useCaller : Bool) (workers : ℕ) : Quiet (Pool.init useCaller workers) := by
  intro p hp he
  have hp : p = .outside ∨ p = .top false := by
    rcases List.mem_append.mp hp with hp | hp
    · cases useCaller with
      | true => exact Or.inl (by simpa using hp)
      | false => cases hp
    · exact Or.inr (List.eq_of_mem_replicate hp)
  rcases hp with rfl | rfl
  · cases he
  · cases he

/-- Every accepted task is in the queue or was dequeued, once, by a thread that may
run it and after everything accepted before it that this thread may run. The active
count is the number of busy threads. Where after `stop` only running tasks call
`schedule`, a thread that has left `run` leaves no task behind, in the queue or on
another thread. -/
theorem tasks_conserved (useCaller : Bool) (workers : ℕ) (s : Pool) :
    (Reaches next Free (Pool.init useCaller workers) s →
      (s.dequeued.map Dequeue.id ++ s.tasks.map Ticket.id).Perm (List.range s.accepted.length) ∧
      (s.dequeued.map Dequeue.id ++ s.tasks.map Ticket.id).Nodup ∧
      (∀ k ∈ s.tasks, s.accepted[k.id]? = some k.task) ∧
      (∀ d ∈ s.dequeued, ∃ task, s.accepted[d.id]? = some task ∧ MayRun d.thread task) ∧
      (∀ (i : ℕ) d, s.dequeued[i]? = some d → ∀ j < d.id, ∀ task, s.accepted[j]? = some task →
        MayRun d.thread task → j ∈ (s.dequeued.take i).map Dequeue.id) ∧
      s.activeThreadCount = s.threads.countP Busy) ∧
    (Reaches next Internal (Pool.init useCaller workers) s → Pc.left ∈ s.threads →
      s.tasks = [] ∧ ∀ p ∈ s.threads, Busy p = false) := by
  constructor
  · intro h
    have hi : Inv s := h.invariant (init_inv useCaller workers) fun _ _ _ hs _ hn => next_inv hs hn
    refine ⟨hi.conserved, ?_, hi.genuine, hi.allowed, hi.inOrder, hi.active⟩
    exact hi.conserved.symm.nodup List.nodup_range
  · intro h hleft
    have hboth : Inv s ∧ Quiet s := h.invariant (I := fun s => Inv s ∧ Quiet s)
      ⟨init_inv useCaller workers, init_quiet useCaller workers⟩
      fun _ _ _ hs hg hn => ⟨next_inv hs.1 hn, next_quiet hs.1 hs.2 hg hn⟩
    obtain ⟨hi, hq⟩ := hboth
    have hstill := hq .left hleft rfl
    exact ⟨hstill.2.1, fun p hp => hi.no_busy hstill hp⟩

/-- One worker takes a task, which schedules another one while `stop` is called. -/
theorem tasks_conserved_two : ∃ s,
    after next [.schedule none (some ⟨.cb, none⟩), .scan 0, .stop,
      .schedule (some 0) (some ⟨.cb, some 0⟩), .resumed 0, .finish 0, .scan 0, .resumed 0,
      .finish 0, .scan 0, .rest 0, .check 0, .scan 0, .rest 0] (Pool.init false 1) = some s ∧
      s.dequeued = [⟨0, 0⟩, ⟨0, 1⟩] ∧ s.activeThreadCount = s.threads.countP Busy ∧
      s.tasks = [] := by
  refine ⟨_, rfl, rfl, ?_, ?_⟩
  · have hrun : Reaches next Free (Pool.init false 1) _ := Reaches.start.after
      [.schedule none (some ⟨.cb, none⟩), .scan 0, .stop,
        .schedule (some 0) (some ⟨.cb, some 0⟩), .resumed 0, .finish 0, .scan 0, .resumed 0,
        .finish 0, .scan 0, .rest 0, .check 0, .scan 0, .rest 0] rfl
    exact ((tasks_conserved false 1 _).1 hrun).2.2.2.2.2
  · have htask : Reaches next Internal (Pool.init false 1) _ :=
      Reaches.start.step (a := Action.schedule none (some ⟨.cb, none⟩)) rfl rfl
    have hwork := htask.step (a := Action.scan 0) trivial rfl
    have hstop := (hwork.step (a := Action.stop) trivial rfl).step
      (a := Action.schedule (some 0) (some ⟨.cb, some 0⟩)) trivial rfl
    have hfirst := (hstop.step (a := Action.resumed 0) trivial rfl).step
      (a := Action.finish 0) trivial rfl
    have hsecond := ((hfirst.step (a := Action.scan 0) trivial rfl).step
      (a := Action.resumed 0) trivial rfl).step (a := Action.finish 0) trivial rfl
    have hidle := ((hsecond.step (a := Action.scan 0) trivial rfl).step
      (a := Action.rest 0) trivial rfl).step (a := Action.check 0) trivial rfl
    have hleft := (hidle.step (a := Action.scan 0) trivial rfl).step
      (a := Action.rest 0) trivial rfl
    exact ((tasks_conserved false 1 _).2 hleft (by decide)).1

end Lamb.TaskConservation
