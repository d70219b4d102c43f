import Lamb.FiberScheduler

/-!
# Switching fibers on one thread

`resume` and `yield` swap contexts with the scheduling fiber or the main fiber of the thread,
by the flag of the fiber, and set `t_fiber`. A swap saves the code that is executing in the
context of one fiber and goes on with what the context of another one holds, so it may put the
code of a fiber into the context of another.
-/

set_option autoImplicit false

namespace Lamb.FiberSwitch
open Lamb.Runs
open Lamb.FiberScheduler (FiberState)

/-- `executing` is the fiber whose code is on the processor, `saved` tells whose code a context
holds, and `switched` is the fiber whose context was switched to last. -/
structure Local where
  tFiber : ℕ
  threadFiber : ℕ
  schedulerFiber : ℕ
  executing : ℕ
  saved : ℕ → ℕ
  switched : ℕ
  state : ℕ → FiberState
  runInScheduler : ℕ → Bool
  nextFiber : ℕ

/-- A thread in `Scheduler::run`, called on its main fiber. The flag of a main fiber is not set
by its constructor. -/
def initWorker (flag : Bool) : Local where
  tFiber := 0
  threadFiber := 0
  schedulerFiber := 0
  executing := 0
  saved := id
  switched := 0
  state := Function.update (fun _ => .READY) 0 .RUNNING
  runInScheduler := fun _ => flag
  nextFiber := 1

/-- The thread that made a scheduler with `use_caller`; the fiber 1 is `m_rootFiber`. -/
def initCaller (flag : Bool) : Local :=
  { initWorker flag with
    schedulerFiber := 1
    runInScheduler := Function.update (fun _ => flag) 1 false
    nextFiber := 2 }

/-- `swapcontext`. -/
def Local.swap (s : Local) (oucp ucp : ℕ) : Local :=
  let saved := Function.update s.saved oucp s.executing
  { s with saved := saved, executing := saved ucp, switched := ucp }

def Local.partner (s : Local) (f : ℕ) : ℕ :=
  if s.runInScheduler f then s.schedulerFiber else s.threadFiber

def Local.setState (s : Local) (f : ℕ) (st : FiberState) : Local :=
  { s with state := Function.update s.state f st }

/-- `resume` after its assertion. -/
def Local.resume (s : Local) (f : ℕ) : Local :=
  ({ s with tFiber := f }.setState f .RUNNING).swap (s.partner f) f

/-- `yield` after its assertion. -/
def Local.yield (s : Local) (f : ℕ) : Local :=
  let s' := { s with tFiber := s.threadFiber }
  (if s.state f = .TERM then s' else s'.setState f .READY).swap f (s.partner f)

inductive Action where
  | newFiber (runInScheduler : Bool)
  | resume (f : ℕ)
  | yield
  | finish
  | reset (f : ℕ)

/-- One action of the executing code. It yields by `Fiber::GetThis()->yield()`, and when its
`MainFunc` ends by the pointer that it took at the start. A failed assertion ends the program. -/
def next (s : Local) : Action → Option Local
  | .newFiber flag =>
    some { s with
      saved := Function.update s.saved s.nextFiber s.nextFiber
      state := Function.update s.state s.nextFiber .READY
      runInScheduler := Function.update s.runInScheduler s.nextFiber flag
      nextFiber := s.nextFiber+1 }
  | .resume f =>
    if f < s.nextFiber ∧ s.state f ≠ .TERM ∧ s.state f ≠ .RUNNING then some (s.resume f) else none
  | .yield =>
    if s.state s.tFiber = .RUNNING ∨ s.state s.tFiber = .TERM then some (s.yield s.tFiber)
    else none
  | .finish =>
    if s.executing = s.threadFiber then none
    else some ((s.setState s.executing .TERM).yield s.executing)
  | .reset f =>
    if f < s.nextFiber ∧ s.state f = .TERM then
      some { s.setState f .READY with saved := Function.update s.saved f f }
    else none

/-- Only the main fiber and the scheduling fiber resume others. -/
def Allowed (s : Local) : Action → Prop
  | .resume _ => s.executing = s.threadFiber ∨ s.executing = s.schedulerFiber
  | _ => True

/-- `t_fiber` is the fiber whose context was switched to, and its own code executes. -/
def Current (s : Local) : Prop := s.tFiber = s.switched ∧ s.executing = s.switched

/-- A fiber is resumed by the one that it switches back to, and a fiber of the scheduler switches
back only where the scheduling fiber is the main fiber. -/
def Paired (s : Local) : Action → Prop
  | .resume f => s.executing = s.partner f
  | .yield => s.runInScheduler s.tFiber = true → s.schedulerFiber = s.threadFiber
  | .finish => s.runInScheduler s.executing = true → s.schedulerFiber = s.threadFiber
  | _ => True

structure Own (s : Local) : Prop where
  current : Current s
  saved : ∀ f, f ≠ s.executing → s.saved f = f

section Steps

variable {s s' : Local} {f : ℕ}

theorem swap_own (hsaved : ∀ g, g ≠ s.executing → s.saved g = g) (f : ℕ)
    (hf : s.tFiber = f) : Own (s.swap s.executing f) := by
  have hown : ∀ g, Function.update s.saved s.executing s.executing g = g := by
    intro g
    by_cases hg : g = s.executing
    · rw [hg, Function.update_self]
    · rw [Function.update_of_ne hg, hsaved g hg]
  exact ⟨⟨hf, hown f⟩, fun g _ => hown g⟩

theorem resume_own (h : Own s) (hpaired : s.executing = s.partner f) : Own (s.resume f) := by
  rw [Local.resume, ← hpaired]
  exact swap_own (s := { s with tFiber := f }.setState f .RUNNING) h.saved f rfl

theorem yield_own (h : Own s) (hpaired : s.runInScheduler s.executing = true →
    s.schedulerFiber = s.threadFiber) : Own (s.yield s.executing) := by
  have hpartner : s.partner s.executing = s.threadFiber := by
    rw [Local.partner]
    split_ifs with hflag
    · exact hpaired hflag
    · rfl
  rw [Local.yield, hpartner]
  split_ifs
  · exact swap_own (s := { s with tFiber := s.threadFiber }) h.saved s.threadFiber rfl
  · exact swap_own (s := { s with tFiber := s.threadFiber }.setState s.executing .READY) h.saved
      s.threadFiber rfl

/-- A fiber of the scheduler that switches back to a scheduling fiber other than the main one. -/
theorem yield_apart (hflag : s.runInScheduler f = true) (hne : s.schedulerFiber ≠ s.threadFiber) :
    ¬Current (s.yield f) := by
  have hfields : (s.yield f).tFiber = s.threadFiber ∧ (s.yield f).switched = s.partner f := by
    rw [Local.yield]
    split_ifs <;> exact ⟨rfl, rfl⟩
  rintro ⟨hcurrent, -⟩
  rw [hfields.1, hfields.2, Local.partner, if_pos hflag] at hcurrent
  exact hne hcurrent.symm

/-- A context that is made afresh holds the code of its fiber. -/
theorem fresh_saved (hsaved : ∀ g, g ≠ s.executing → s.saved g = g) (f g : ℕ)
    (hg : g ≠ s.executing) : Function.update s.saved f f g = g := by
  by_cases hgf : g = f
  · rw [hgf, Function.update_self]
  · rw [Function.update_of_ne hgf, hsaved g hg]

theorem step_own (h : Own s) (a : Action) (ha : Paired s a) (hn : next s a = some s') :
    Own s' := by
  have htf : s.tFiber = s.executing := h.current.1.trans h.current.2.symm
  cases a with
  | newFiber flag =>
    cases hn
    exact ⟨h.current, fresh_saved h.saved s.nextFiber⟩
  | resume f =>
    rw [next] at hn
    split_ifs at hn
    cases hn
    exact resume_own h ha
  | yield =>
    rw [next] at hn
    split_ifs at hn
    cases hn
    rw [Paired, htf] at ha
    rw [htf]
    exact yield_own h ha
  | finish =>
    rw [next] at hn
    split_ifs at hn
    cases hn
    exact yield_own (s := s.setState s.executing .TERM) ⟨h.current, h.saved⟩ ha
  | reset f =>
    rw [next] at hn
    split_ifs at hn
    cases hn
    exact ⟨h.current, fresh_saved h.saved f⟩

/-- The fibers of the thread and of the scheduler stay what they are. -/
theorem step_fibers (a : Action) (hn : next s a = some s') :
    s'.threadFiber = s.threadFiber ∧ s'.schedulerFiber = s.schedulerFiber := by
  have hyield : ∀ (s : Local) (f : ℕ), (s.yield f).threadFiber = s.threadFiber ∧
      (s.yield f).schedulerFiber = s.schedulerFiber := by
    intro s f
    rw [Local.yield]
    split_ifs <;> exact ⟨rfl, rfl⟩
  cases a with
  | newFiber flag =>
    cases hn
    exact ⟨rfl, rfl⟩
  | resume f =>
    rw [next] at hn
    split_ifs at hn
    cases hn
    exact ⟨rfl, rfl⟩
  | yield =>
    rw [next] at hn
    split_ifs at hn
    cases hn
    exact hyield s s.tFiber
  | finish =>
    rw [next] at hn
    split_ifs at hn
    cases hn
    exact hyield (s.setState s.executing .TERM) s.executing
  | reset f =>
    rw [next] at hn
    split_ifs at hn
    cases hn
    exact ⟨rfl, rfl⟩

/-- Where the scheduling fiber is the main fiber, no step is unpaired. -/
theorem paired_of_main (hmain : s.schedulerFiber = s.threadFiber) (a : Action)
    (ha : Allowed s a) : Paired s a := by
  cases a with
  | resume f =>
    rw [Allowed, hmain, or_self] at ha
    rw [Paired, Local.partner, hmain, ite_self]
    exact ha
  | newFiber flag => trivial
  | reset f => trivial
  | yield => exact fun _ => hmain
  | finish => exact fun _ => hmain

end Steps

theorem initWorker_own (flag : Bool) : Own (initWorker flag) := ⟨⟨rfl, rfl⟩, fun _ _ => rfl⟩

theorem initCaller_own (flag : Bool) : Own (initCaller flag) := ⟨⟨rfl, rfl⟩, fun _ _ => rfl⟩

/-- On a worker thread `t_fiber` is always the executing fiber. On the thread that made the
scheduler it is so in the runs all of whose steps are paired. -/
theorem getThis_current (flag : Bool) :
    (∀ s, Reaches next Allowed (initWorker flag) s → Current s) ∧
    ∀ s, Reaches next (fun s a => Allowed s a ∧ Paired s a) (initCaller flag) s → Current s := by
  constructor
  · intro s h
    have hinv : Own s ∧ s.schedulerFiber = s.threadFiber := by
      refine h.invariant (I := fun s => Own s ∧ s.schedulerFiber = s.threadFiber)
        ⟨initWorker_own flag, rfl⟩ ?_
      rintro s a s' ⟨hown, hmain⟩ hallowed hn
      obtain ⟨hthread, hscheduler⟩ := step_fibers a hn
      refine ⟨step_own hown a (paired_of_main hmain a hallowed) hn, ?_⟩
      rw [hthread, hscheduler, hmain]
    exact hinv.1.current
  · intro s h
    refine (h.invariant (initCaller_own flag) ?_).current
    rintro s a s' hown ⟨-, hpaired⟩ hn
    exact step_own hown a hpaired hn

/-- A task of a worker and a fiber of the caller's main fiber yield once and end. The main fiber
goes on to resume the root fiber. -/
theorem getThis_current_ended :
    (∃ s, after next [.newFiber true, .resume 1, .yield, .resume 1, .finish] (initWorker false) =
      some s ∧ s.state 1 = .TERM ∧ Current s) ∧
    ∃ s, after next [.newFiber false, .resume 2, .yield, .resume 2, .finish, .resume 1]
      (initCaller false) = some s ∧ s.executing = 1 ∧ Current s := by
  constructor
  · have hnew : Reaches next Allowed (initWorker false) _ :=
      Reaches.start.step (a := Action.newFiber true) trivial rfl
    have hyield := (hnew.step (a := Action.resume 1) (Or.inl rfl) rfl).step
      (a := Action.yield) trivial rfl
    have hend := (hyield.step (a := Action.resume 1) (Or.inl rfl) rfl).step
      (a := Action.finish) trivial rfl
    exact ⟨_, rfl, rfl, (getThis_current false).1 _ hend⟩
  · have hnew : Reaches next (fun s a => Allowed s a ∧ Paired s a) (initCaller false) _ :=
      Reaches.start.step (a := Action.newFiber false) ⟨trivial, trivial⟩ rfl
    have hyield := (hnew.step (a := Action.resume 2) ⟨Or.inl rfl, rfl⟩ rfl).step
      (a := Action.yield) ⟨trivial, fun hflag => by cases hflag⟩ rfl
    have hend := (hyield.step (a := Action.resume 2) ⟨Or.inl rfl, rfl⟩ rfl).step
      (a := Action.finish) ⟨trivial, fun hflag => by cases hflag⟩ rfl
    have hroot := hend.step (a := Action.resume 1) ⟨Or.inl rfl, rfl⟩ rfl
    exact ⟨_, rfl, rfl, (getThis_current false).2 _ hroot⟩

/-- The root fiber resumes a task, which yields: the root fiber goes on, and `t_fiber` is the
main fiber. -/
theorem yield_to_root_fiber : ∃ s, Reaches next Allowed (initCaller false) s ∧
    s.executing = 1 ∧ s.switched = 1 ∧ s.tFiber = 0 ∧ ¬Current s := by
  refine ⟨_, (((Reaches.start.step (a := Action.newFiber true) trivial rfl).step
    (a := Action.resume 1) (Or.inl rfl) rfl).step (a := Action.resume 2) (Or.inr rfl) rfl).step
    (a := Action.yield) trivial rfl, rfl, rfl, rfl, ?_⟩
  rintro ⟨h, -⟩
  exact absurd h (by decide)

end Lamb.FiberSwitch
