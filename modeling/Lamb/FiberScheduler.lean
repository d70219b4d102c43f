import Lamb.Library.Runs
import Lamb.Library.Slots
import Mathlib.Algebra.Order.Group.Multiset
import Mathlib.Data.Multiset.Basic
import Mathlib.Logic.Function.Basic

/-!
# Scheduler threads and the fibers they run

Any number of threads share a task queue. A thread dequeues under the lock,
resumes the fiber, and returns to the queue when the fiber yields or ends. A
running fiber publishes itself, through the queue, epoll or a timer, and yields
afterwards; between these two steps it is visible to the other threads while its
state is still `RUNNING`.
-/

set_option autoImplicit false

namespace Lamb.FiberScheduler
open Lamb.Runs

inductive FiberState where
  | READY
  | RUNNING
  | TERM
  deriving DecidableEq, Repr

/-- A task holds a fiber or a callback. The callback that a hooked sleep gives to
its timer schedules one fiber; nothing else is known of the others. -/
inductive Work where
  | fiber (id : ℕ)
  | wake (id : ℕ)
  | cb
  deriving DecidableEq, Repr

/-- `thread` is `none` for `-1`. -/
structure ScheduleTask where
  work : Work
  thread : Option ℕ
  deriving DecidableEq, Repr

/-- Where a thread is in `Scheduler::run`. `wakes` is the fiber that the callback
being run is still to schedule, `published` says that the running fiber has made
itself visible and not yet yielded. -/
inductive Thread where
  | scanning
  | taken (fiber : ℕ) (wakes : Option ℕ)
  | running (fiber : ℕ) (published : Bool) (wakes : Option ℕ)
  deriving DecidableEq, Repr

structure Scheduler where
  state : ℕ → FiberState
  nextFiber : ℕ
  tasks : List ScheduleTask
  epoll : List ℕ
  timers : List ℕ
  threads : List Thread
  assertFailed : Bool

def Scheduler.init (threads : ℕ) : Scheduler where
  state := fun _ => .TERM
  nextFiber := 0
  tasks := []
  epoll := []
  timers := []
  threads := List.replicate threads .scanning
  assertFailed := false

def pick (t : ℕ) : List ScheduleTask → Option (ScheduleTask × List ScheduleTask)
  | [] => none
  | task::rest =>
    if task.thread = none ∨ task.thread = some t then some (task, rest)
    else (pick t rest).map fun x => (x.1, task::x.2)

inductive Action where
  | spawnFiber (thread : Option ℕ)
  | spawnCb (thread : Option ℕ)
  | dequeue (t : ℕ)
  | resume (t : ℕ)
  | schedule (t : ℕ)
  | addEvent (t : ℕ)
  | addTimer (t : ℕ)
  | yield (t : ℕ)
  | wake (t : ℕ)
  | finish (t : ℕ)
  | triggerEvent (i : ℕ)
  | expire (i : ℕ)
  deriving DecidableEq, Repr

def Scheduler.push (s : Scheduler) (work : Work) (thread : Option ℕ) : Scheduler :=
  { s with tasks := s.tasks ++ [⟨work, thread⟩] }

def Scheduler.goto (s : Scheduler) (t : ℕ) (th : Thread) : Scheduler :=
  { s with threads := s.threads.set t th }

def Scheduler.setState (s : Scheduler) (f : ℕ) (st : FiberState) : Scheduler :=
  { s with state := Function.update s.state f st }

def Scheduler.newFiber (s : Scheduler) : Scheduler :=
  { s.setState s.nextFiber .READY with nextFiber := s.nextFiber+1 }

/-- The scan under the lock with its assertion, up to the choice of the fiber to
resume: the task's own, or a new one for a callback. -/
def Scheduler.dequeue (s : Scheduler) (t : ℕ) : Option Scheduler :=
  match pick t s.tasks with
  | none => none
  | some (task, rest) =>
    match task.work with
    | .fiber f =>
      if s.state f = .READY then some ({ s with tasks := rest }.goto t (.taken f none))
      else some { s with assertFailed := true }
    | .wake f => some ({ s with tasks := rest }.newFiber.goto t (.taken s.nextFiber (some f)))
    | .cb => some ({ s with tasks := rest }.newFiber.goto t (.taken s.nextFiber none))

/-- Publishing, by whichever of the three ways `place` stands for. -/
def Scheduler.publish (s : Scheduler) (t : ℕ) (place : ℕ → Scheduler) : Option Scheduler :=
  match s.threads[t]? with
  | some (.running f false w) => some ((place f).goto t (.running f true w))
  | _ => none

def Scheduler.step (s : Scheduler) : Action → Option Scheduler
  | .spawnFiber thread => some (s.newFiber.push (.fiber s.nextFiber) thread)
  | .spawnCb thread => some (s.push .cb thread)
  | .dequeue t =>
    match s.threads[t]? with
    | some .scanning => s.dequeue t
    | _ => none
  | .resume t =>
    match s.threads[t]? with
    | some (.taken f w) =>
      if s.state f ≠ .TERM ∧ s.state f ≠ .RUNNING then
        some ((s.setState f .RUNNING).goto t (.running f false w))
      else some { s with assertFailed := true }
    | _ => none
  | .schedule t => s.publish t fun f => s.push (.fiber f) none
  | .addEvent t => s.publish t fun f => { s with epoll := s.epoll ++ [f] }
  | .addTimer t => s.publish t fun f => { s with timers := s.timers ++ [f] }
  | .yield t =>
    match s.threads[t]? with
    | some (.running f _ none) => some ((s.setState f .READY).goto t .scanning)
    | _ => none
  | .wake t =>
    match s.threads[t]? with
    | some (.running f p (some g)) => some ((s.push (.fiber g) none).goto t (.running f p none))
    | _ => none
  | .finish t =>
    match s.threads[t]? with
    | some (.running f false none) => some ((s.setState f .TERM).goto t .scanning)
    | _ => none
  | .triggerEvent i =>
    match s.epoll[i]? with
    | some f => some ({ s with epoll := s.epoll.eraseIdx i }.push (.fiber f) none)
    | none => none
  | .expire i =>
    match s.timers[i]? with
    | some f => some ({ s with timers := s.timers.eraseIdx i }.push (.wake f) none)
    | none => none

def next (s : Scheduler) (a : Action) : Option Scheduler :=
  if s.assertFailed then none else s.step a

def InWindow (s : Scheduler) (f : ℕ) : Prop :=
  ∃ w, Thread.running f true w ∈ s.threads

def Settled (s : Scheduler) : Action → Prop
  | .dequeue t => ∀ task rest f, pick t s.tasks = some (task, rest) → task.work = .fiber f →
      ¬InWindow s f
  | _ => True

end Lamb.FiberScheduler
