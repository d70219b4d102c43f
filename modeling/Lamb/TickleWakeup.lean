import Lamb.FiberScheduler
import Lamb.Library.Slots

/-!
# Waking idle scheduler threads

The loop of `Scheduler::run` on an IO manager, thread by thread, with `schedule`
calls from anywhere. A call that finds the queue empty tickles after it has
released the lock; a tickle reads the idle count and writes a byte to the pipe
only when the count is positive. A thread that found nothing to do raises the
count later, so a tickle in between is dropped.
-/

set_option autoImplicit false

namespace Lamb.TickleWakeup
open Lamb.Runs Lamb.FiberScheduler

/-- The points of the loop between which other threads may run. -/
inductive Pc where
  | top
  | tickling (task : Option ScheduleTask)
  | writing (task : Option ScheduleTask)
  | running
  | preIdle
  | entering
  | blocked
  | woken (pipe : Bool)
  | leaving
  deriving DecidableEq, Repr

/-- `calls` and `writers` count the `schedule` calls that are about to read the
idle count and to write to the pipe. -/
structure Pool where
  threads : List Pc
  tasks : List ScheduleTask
  idleThreadCount : ℤ
  pipe : ℕ
  calls : ℕ
  writers : ℕ
  deriving DecidableEq, Repr

def Pool.init (threads : ℕ) : Pool where
  threads := List.replicate threads .top
  tasks := []
  idleThreadCount := 0
  pipe := 0
  calls := 0
  writers := 0

/-- The scan under the lock by thread `t`: the task it takes, the queue after it
and `tickle_me`. -/
def scan (t : ℕ) : List ScheduleTask → Option ScheduleTask × List ScheduleTask × Bool
  | [] => (none, [], false)
  | task::rest =>
    if task.thread ≠ none ∧ task.thread ≠ some t then
      ((scan t rest).1, task::(scan t rest).2.1, true)
    else (some task, rest, !rest.isEmpty)

inductive Action where
  | scan (t : ℕ)
  | check (t : ℕ)
  | write (t : ℕ)
  | finish (t : ℕ)
  | enterIdle (t : ℕ)
  | block (t : ℕ)
  | wake (t : ℕ) (pipe : Bool)
  | drain (t : ℕ)
  | leave (t : ℕ)
  | schedule (task : Option ScheduleTask)
  | checkCall
  | writeCall
  deriving DecidableEq, Repr

def Pool.goto (s : Pool) (t : ℕ) (p : Pc) : Pool := { s with threads := s.threads.set t p }

def resumeWith : Option ScheduleTask → Pc
  | some _ => .running
  | none => .preIdle

def next (s : Pool) : Action → Option Pool
  | .scan t =>
    match s.threads[t]? with
    | some .top =>
      let r := scan t s.tasks
      some ({ s with tasks := r.2.1 }.goto t (if r.2.2 then .tickling r.1 else resumeWith r.1))
    | _ => none
  | .check t =>
    match s.threads[t]? with
    | some (.tickling task) =>
      some (s.goto t (if 0 < s.idleThreadCount then .writing task else resumeWith task))
    | _ => none
  | .write t =>
    match s.threads[t]? with
    | some (.writing task) => some ({ s with pipe := s.pipe+1 }.goto t (resumeWith task))
    | _ => none
  | .finish t =>
    match s.threads[t]? with
    | some .running => some (s.goto t .top)
    | _ => none
  | .enterIdle t =>
    match s.threads[t]? with
    | some .preIdle =>
      some ({ s with idleThreadCount := s.idleThreadCount+1 }.goto t .entering)
    | _ => none
  | .block t =>
    match s.threads[t]? with
    | some .entering => some (s.goto t .blocked)
    | _ => none
  | .wake t pipe =>
    match s.threads[t]? with
    | some .blocked => if pipe && s.pipe = 0 then none else some (s.goto t (.woken pipe))
    | _ => none
  | .drain t =>
    match s.threads[t]? with
    | some (.woken pipe) => some ({ s with pipe := if pipe then 0 else s.pipe }.goto t .leaving)
    | _ => none
  | .leave t =>
    match s.threads[t]? with
    | some .leaving => some ({ s with idleThreadCount := s.idleThreadCount-1 }.goto t .top)
    | _ => none
  | .schedule task =>
    some { s with
      tasks := s.tasks ++ task.toList
      calls := if s.tasks.isEmpty then s.calls+1 else s.calls }
  | .checkCall =>
    if s.calls = 0 then none
    else if 0 < s.idleThreadCount then
      some { s with calls := s.calls-1, writers := s.writers+1 }
    else some { s with calls := s.calls-1 }
  | .writeCall =>
    if s.writers = 0 then none
    else some { s with writers := s.writers-1, pipe := s.pipe+1 }

/-- Every thread is blocked, the pipe is empty and no `schedule` call is about to
write to it, although one of the threads may run a queued task. -/
def LostWakeup (s : Pool) : Prop :=
  (∀ p ∈ s.threads, p = .blocked) ∧ s.pipe = 0 ∧ s.writers = 0 ∧
    (s.calls = 0 ∨ s.idleThreadCount ≤ 0) ∧
    ∃ t < s.threads.length, ∃ task ∈ s.tasks, task.thread = none ∨ task.thread = some t

def WillScan : Pc → Prop
  | .top => True
  | .tickling task => task.isSome
  | .writing task => task.isSome
  | .running => True
  | .preIdle => False
  | .entering => False
  | .blocked => False
  | .woken _ => True
  | .leaving => True

/-- A tickle that is dropped while a task is queued leaves a thread that will
still scan. -/
def Attended (s : Pool) : Action → Prop
  | .check _ => s.idleThreadCount ≤ 0 → s.tasks ≠ [] → ∃ p ∈ s.threads, WillScan p
  | .checkCall => s.idleThreadCount ≤ 0 → s.tasks ≠ [] → ∃ p ∈ s.threads, WillScan p
  | _ => True

def Active : Pc → Prop
  | .tickling _ => True
  | .writing _ => True
  | p => WillScan p

/-- A queued task is attended to: by a byte in the pipe, by a `schedule` call that
is still to tickle, or by a thread. -/
def Covered (s : Pool) : Prop :=
  s.tasks ≠ [] → 0 < s.pipe ∨ 0 < s.calls ∨ 0 < s.writers ∨ ∃ p ∈ s.threads, Active p

attribute [local simp] next

theorem WillScan.active {p : Pc} (h : WillScan p) : Active p := by
  cases p <;> trivial

theorem scan_tickles (t : ℕ) (tasks : List ScheduleTask) :
    (scan t tasks).2.2 = !(scan t tasks).2.1.isEmpty := by
  cases tasks with
  | nil => rfl
  | cons task rest =>
    unfold scan
    split_ifs <;> rfl

theorem mem_goto_self (s : Pool) (t : ℕ) (p q : Pc) (h : s.threads[t]? = some p) :
    q ∈ (s.goto t q).threads :=
  Slots.mem_set_self h q

/-- A thread other than `t` keeps its place when `t` moves. -/
theorem mem_goto (s : Pool) (t : ℕ) (p q r : Pc) (h : s.threads[t]? = some p)
    (hr : r ∈ s.threads) (hne : r ≠ p) : r ∈ (s.goto t q).threads :=
  Slots.mem_set_of_ne h hr hne

/-- A thread that moves to an active point covers the queue. -/
theorem covered_goto_active (s : Pool) (t : ℕ) (p q : Pc) (h : s.threads[t]? = some p)
    (hq : Active q) : Covered (s.goto t q) := by
  intro _
  exact .inr (.inr (.inr ⟨q, mem_goto_self s t p q h, hq⟩))

/-- A thread that was not active takes no cover away when it moves. -/
theorem covered_goto_idle (s : Pool) (t : ℕ) (p q : Pc) (h : s.threads[t]? = some p)
    (hp : ¬Active p) (hc : Covered s) : Covered (s.goto t q) := by
  intro htasks
  rcases hc htasks with hpipe | hcalls | hwriters | ⟨r, hr, hact⟩
  · exact .inl hpipe
  · exact .inr (.inl hcalls)
  · exact .inr (.inr (.inl hwriters))
  · have hne : r ≠ p := by
      rintro rfl
      exact hp hact
    exact .inr (.inr (.inr ⟨r, mem_goto s t p q r h hr hne, hact⟩))

theorem scan_covered (s : Pool) (t : ℕ) (h : s.threads[t]? = some .top) :
    Covered ({ s with tasks := (scan t s.tasks).2.1 }.goto t
      (if (scan t s.tasks).2.2 then .tickling (scan t s.tasks).1
        else resumeWith (scan t s.tasks).1)) := by
  by_cases ht : (scan t s.tasks).2.2 = true
  · rw [if_pos ht]
    exact covered_goto_active _ t .top _ h trivial
  · -- no tickle: the scan left the queue empty
    rw [if_neg ht]
    intro htasks
    have hempty : (scan t s.tasks).2.1 = [] := by
      rw [scan_tickles] at ht
      simpa using ht
    exact absurd hempty htasks

/-- A dropped tickle: the thread that will scan is another one, or this one runs
its task first. -/
theorem check_covered (s : Pool) (t : ℕ) (task : Option ScheduleTask)
    (h : s.threads[t]? = some (.tickling task))
    (hscan : s.tasks ≠ [] → ∃ p ∈ s.threads, WillScan p) :
    Covered (s.goto t (resumeWith task)) := by
  cases task with
  | some task => exact covered_goto_active s t _ _ h trivial
  | none =>
    intro htasks
    obtain ⟨p, hp, hwill⟩ := hscan htasks
    have hne : p ≠ .tickling none := by
      rintro rfl
      exact Bool.false_ne_true hwill
    exact .inr (.inr (.inr ⟨p, mem_goto s t _ _ p h hp hne, hwill.active⟩))

theorem schedule_covered (s : Pool) (task : Option ScheduleTask) (hc : Covered s) :
    Covered { s with
      tasks := s.tasks ++ task.toList
      calls := if s.tasks.isEmpty then s.calls+1 else s.calls } := by
  intro _
  by_cases he : s.tasks = []
  · right; left
    simp [he]
  · rcases hc he with hpipe | hcalls | hwriters | hthread
    · exact .inl hpipe
    · right; left
      simpa [he] using hcalls
    · exact .inr (.inr (.inl hwriters))
    · exact .inr (.inr (.inr hthread))

def idleShare : Pc → ℤ
  | .entering => 1
  | .blocked => 1
  | .woken _ => 1
  | .leaving => 1
  | _ => 0

attribute [local simp] idleShare

theorem idleShare_resumeWith (task : Option ScheduleTask) : idleShare (resumeWith task) = 0 := by
  cases task <;> rfl

/-- The invariant of attended runs: the idle count is the number of threads that
have raised it, and a queued task is attended to. -/
structure Watched (s : Pool) : Prop where
  counted : s.idleThreadCount = (s.threads.map idleShare).sum
  covered : Covered s

theorem goto_counted (s : Pool) (t : ℕ) (p q : Pc) (h : s.threads[t]? = some p) :
    ((s.goto t q).threads.map idleShare).sum =
      (s.threads.map idleShare).sum+idleShare q-idleShare p := by
  have hsum := Slots.sum_set idleShare s.threads t p q h
  simp only [Pool.goto]
  omega

theorem init_watched (n : ℕ) : Watched (Pool.init n) where
  counted := by simp [Pool.init, idleShare]
  covered := fun h => absurd rfl h

/-- A step that leaves the idle count alone moves a thread between points with
the same share. -/
theorem watched_goto (s s' : Pool) (t : ℕ) (p q : Pc) (hw : Watched s)
    (h : s.threads[t]? = some p) (hthreads : s'.threads = s.threads)
    (hcount : s'.idleThreadCount = s.idleThreadCount+idleShare q-idleShare p)
    (hc : Covered (s'.goto t q)) : Watched (s'.goto t q) where
  counted := by
    have hsum := goto_counted s' t p q (hthreads ▸ h)
    have hold := hw.counted
    rw [hthreads] at hsum
    rw [hsum, ← hold]
    exact hcount
  covered := hc

theorem scan_watched {s u : Pool} {t : ℕ} (hw : Watched s) (h : next s (.scan t) = some u) :
    Watched u := by
  simp only [next] at h
  split at h
  case h_1 ht =>
    obtain rfl := Option.some.inj h
    refine watched_goto s _ t .top _ hw ht rfl ?_ (scan_covered s t ht)
    split_ifs
    · simp [idleShare]
    · rw [idleShare_resumeWith]
      simp [idleShare]
  case h_2 => cases h

theorem check_watched {s u : Pool} {t : ℕ} (hw : Watched s) (hg : Attended s (.check t))
    (h : next s (.check t) = some u) : Watched u := by
  simp only [next] at h
  split at h
  case h_1 task ht =>
    obtain rfl := Option.some.inj h
    by_cases hi : 0 < s.idleThreadCount
    · rw [if_pos hi]
      exact watched_goto s s t _ _ hw ht rfl (by simp [idleShare])
        (covered_goto_active s t _ _ ht trivial)
    · rw [if_neg hi]
      refine watched_goto s s t _ _ hw ht rfl ?_ (check_covered s t task ht (hg (not_lt.mp hi)))
      rw [idleShare_resumeWith]
      simp [idleShare]
  case h_2 => cases h

theorem write_watched {s u : Pool} {t : ℕ} (hw : Watched s) (h : next s (.write t) = some u) :
    Watched u := by
  simp only [next] at h
  split at h
  case h_1 ht =>
    obtain rfl := Option.some.inj h
    refine watched_goto s _ t _ _ hw ht rfl ?_ (fun _ => .inl (Nat.succ_pos s.pipe))
    rw [idleShare_resumeWith]
    simp [idleShare]
  case h_2 => cases h

theorem wake_watched {s u : Pool} {t : ℕ} {pipe : Bool} (hw : Watched s)
    (h : next s (.wake t pipe) = some u) : Watched u := by
  simp only [next] at h
  split at h
  case h_1 ht =>
    split at h
    · cases h
    · obtain rfl := Option.some.inj h
      exact watched_goto s s t _ _ hw ht rfl (by simp [idleShare])
        (covered_goto_active s t _ _ ht trivial)
  case h_2 => cases h

theorem checkCall_watched {s u : Pool} (hw : Watched s) (hg : Attended s .checkCall)
    (h : next s .checkCall = some u) : Watched u := by
  simp only [next] at h
  split_ifs at h with h0 hi
  · obtain rfl := Option.some.inj h
    exact ⟨hw.counted, fun _ => .inr (.inr (.inl (Nat.succ_pos s.writers)))⟩
  · obtain rfl := Option.some.inj h
    refine ⟨hw.counted, ?_⟩
    intro htasks
    obtain ⟨p, hp, hwill⟩ := hg (not_lt.mp hi) htasks
    exact .inr (.inr (.inr ⟨p, hp, hwill.active⟩))

theorem next_watched (s : Pool) (a : Action) (u : Pool) (hw : Watched s) (hg : Attended s a)
    (h : next s a = some u) : Watched u := by
  cases a with
  | scan t => exact scan_watched hw h
  | check t => exact check_watched hw hg h
  | write t => exact write_watched hw h
  | finish t =>
    simp only [next] at h
    split at h
    case h_1 ht =>
      obtain rfl := Option.some.inj h
      exact watched_goto s s t _ _ hw ht rfl (by simp [idleShare])
        (covered_goto_active s t _ _ ht trivial)
    case h_2 => cases h
  | enterIdle t =>
    simp only [next] at h
    split at h
    case h_1 ht =>
      obtain rfl := Option.some.inj h
      exact watched_goto s _ t _ _ hw ht rfl (by simp [idleShare])
        (covered_goto_idle _ t .preIdle _ ht not_false hw.covered)
    case h_2 => cases h
  | block t =>
    simp only [next] at h
    split at h
    case h_1 ht =>
      obtain rfl := Option.some.inj h
      exact watched_goto s s t _ _ hw ht rfl (by simp [idleShare])
        (covered_goto_idle s t .entering _ ht not_false hw.covered)
    case h_2 => cases h
  | wake t pipe => exact wake_watched hw h
  | drain t =>
    simp only [next] at h
    split at h
    case h_1 pipe ht =>
      obtain rfl := Option.some.inj h
      exact watched_goto s _ t _ _ hw ht rfl (by simp [idleShare])
        (covered_goto_active _ t (.woken pipe) _ ht trivial)
    case h_2 => cases h
  | leave t =>
    simp only [next] at h
    split at h
    case h_1 ht =>
      obtain rfl := Option.some.inj h
      exact watched_goto s _ t _ _ hw ht rfl (by simp [idleShare])
        (covered_goto_active _ t .leaving _ ht trivial)
    case h_2 => cases h
  | schedule task =>
    obtain rfl := Option.some.inj h
    exact ⟨hw.counted, schedule_covered s task hw.covered⟩
  | checkCall => exact checkCall_watched hw hg h
  | writeCall =>
    simp only [next] at h
    split_ifs at h with h0
    obtain rfl := Option.some.inj h
    exact ⟨hw.counted, fun _ => .inl (Nat.succ_pos s.pipe)⟩

theorem blocked_share (l : List Pc) (h : ∀ p ∈ l, p = .blocked) :
    (l.map idleShare).sum = l.length := by
  induction l with
  | nil => rfl
  | cons p l ih =>
    have hp : p = .blocked := h p List.mem_cons_self
    have hl := ih (fun q hq => h q (List.mem_cons_of_mem p hq))
    simp only [List.map_cons, List.sum_cons, List.length_cons, hl, hp, idleShare]
    push_cast
    omega

theorem Watched.no_lost_wakeup {s : Pool} (hw : Watched s) : ¬LostWakeup s := by
  rintro ⟨hblocked, hpipe, hwriters, hcalls, t, ht, task, htask, -⟩
  have htasks : s.tasks ≠ [] := List.ne_nil_of_mem htask
  have hidle : 0 < s.idleThreadCount := by
    rw [hw.counted, blocked_share s.threads hblocked]
    omega
  rcases hw.covered htasks with h | h | h | ⟨p, hp, hact⟩
  · omega
  · omega
  · omega
  · rw [hblocked p hp] at hact
    exact hact

theorem queued_tasks_attended (n : ℕ) (s : Pool) (h : Reaches next Attended (Pool.init n) s) :
    ¬LostWakeup s :=
  (h.invariant (init_watched n) (fun s a u => next_watched s a u)).no_lost_wakeup

theorem queued_tasks_attended_busy :
    ∃ s, Reaches next Attended (Pool.init 1) s ∧ s.tasks ≠ [] ∧ ¬LostWakeup s := by
  have hschedule : Reaches next Attended (Pool.init 1)
      ⟨[.top], [⟨.cb, none⟩], 0, 0, 1, 0⟩ :=
    Reaches.step (a := .schedule (some ⟨.cb, none⟩)) .start trivial rfl
  have hcheck : Reaches next Attended (Pool.init 1) ⟨[.top], [⟨.cb, none⟩], 0, 0, 0, 0⟩ :=
    hschedule.step (a := .checkCall) (fun _ _ => ⟨.top, List.mem_cons_self, trivial⟩) rfl
  exact ⟨_, hcheck, List.cons_ne_nil _ _, queued_tasks_attended 1 _ hcheck⟩

/-- The thread has scanned the empty queue when the task arrives, and raises the
idle count only after the tickle has read it. -/
theorem tickle_dropped : ∃ s, Reaches next Free (Pool.init 1) s ∧ LostWakeup s := by
  have h : after next
      [.scan 0, .schedule (some ⟨.cb, none⟩), .checkCall, .enterIdle 0, .block 0]
      (Pool.init 1) = some ⟨[.blocked], [⟨.cb, none⟩], 1, 0, 0, 0⟩ := by decide
  refine ⟨_, Reaches.after _ .start h, ?_⟩
  refine ⟨?_, rfl, rfl, .inl rfl, 0, Nat.zero_lt_one, _, List.mem_cons_self, .inl rfl⟩
  intro p hp
  exact List.mem_singleton.mp hp

end Lamb.TickleWakeup
