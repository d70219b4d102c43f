import Mathlib.Data.List.Basic
import Mathlib.Data.Multiset.Basic
import Mathlib.Tactic.Common
import Lamb.Library.Runs

/-!
# The event table of the IO manager

Each file descriptor has a context with two event bits and, for each bit, the
scheduler and the fiber or callback to run. The functions of the source are steps
on the table; every `epoll_ctl` call may fail. A failed assertion and a null
scheduler end the program. The history is a ghost record: it numbers the
registrations and notes how each of them ends.
-/

set_option autoImplicit false

namespace Lamb.IoEvents

inductive Event where
  | READ
  | WRITE
  deriving DecidableEq, Repr

inductive Target where
  | fiber (id : ℕ)
  | cb (id : ℕ)
  deriving DecidableEq, Repr

/-- `reg` is ghost: the number of the registration the context belongs to. -/
structure EventContext where
  scheduler : Option ℕ
  fiber : Option ℕ
  cb : Option ℕ
  reg : Option ℕ
  deriving DecidableEq, Repr

/-- `resetEventContext` leaves this. -/
def EventContext.empty : EventContext := ⟨none, none, none, none⟩

/-- What `triggerEvent` passes to `schedule`, which ignores a null fiber. -/
def EventContext.target (e : EventContext) : Option Target :=
  match e.cb with
  | some c => some (.cb c)
  | none => e.fiber.map .fiber

structure FdContext where
  fd : ℕ
  events : Event → Bool
  context : Event → EventContext

def FdContext.fresh (fd : ℕ) : FdContext where
  fd := fd
  events := fun _ => false
  context := fun _ => EventContext.empty

def FdContext.isNone (c : FdContext) : Bool := !c.events .READ && !c.events .WRITE

inductive Record where
  | added (reg fd : ℕ) (event : Event) (scheduler : Option ℕ) (target : Option Target)
  | removed (reg : Option ℕ)
  | scheduled (reg : Option ℕ) (scheduler : ℕ) (target : Option Target)
  deriving DecidableEq, Repr

structure Manager where
  fdContexts : List FdContext
  pendingEventCount : ℤ
  history : List Record
  nextReg : ℕ

def Manager.init : Manager where
  fdContexts := (List.range 32).map FdContext.fresh
  pendingEventCount := 0
  history := []
  nextReg := 0

/-- The thread that calls: `Scheduler::GetThis()` and `Fiber::GetThis()`. -/
structure Caller where
  scheduler : Option ℕ
  fiber : ℕ

def Manager.contextResize (m : Manager) (size : ℕ) : Manager :=
  { m with fdContexts := m.fdContexts.take size ++
      (List.range (size-m.fdContexts.length)).map fun i => FdContext.fresh (m.fdContexts.length+i) }

def Manager.setContext (m : Manager) (c : FdContext) (fd : ℕ) : Manager :=
  { m with fdContexts := m.fdContexts.set fd c }

def FdContext.clear (c : FdContext) (event : Event) : FdContext :=
  { c with
    events := Function.update c.events event false
    context := Function.update c.context event EventContext.empty }

/-- The context after the event was triggered and the `schedule` call made. -/
def FdContext.triggerEvent (c : FdContext) (event : Event) : Option (FdContext × Record) :=
  if c.events event then
    match (c.context event).scheduler with
    | none => none
    | some s => some (c.clear event,
        .scheduled (c.context event).reg s (c.context event).target)
  else none

/-- `ctl` says whether `epoll_ctl` succeeds. -/
def Manager.addEvent (m : Manager) (fd : ℕ) (event : Event) (cb : Option ℕ) (self : Caller)
    (ctl : Bool) : Option (ℤ × Manager) :=
  let m := if fd < m.fdContexts.length then m else m.contextResize (fd*3 / 2)
  match m.fdContexts[fd]? with
  | none => none
  | some c =>
    if c.events event then none
    else if !ctl then some (-1, m)
    else
      let e := c.context event
      if e.scheduler.isSome || e.fiber.isSome || e.cb.isSome then none
      else
        let e' : EventContext :=
          { scheduler := self.scheduler
            fiber := if cb.isSome then none else some self.fiber
            cb := cb
            reg := some m.nextReg }
        let c' := { c with
          events := Function.update c.events event true
          context := Function.update c.context event e' }
        some (0, { m.setContext c' fd with
          pendingEventCount := m.pendingEventCount+1
          history := m.history ++ [.added m.nextReg fd event e'.scheduler e'.target]
          nextReg := m.nextReg+1 })

def Manager.delEvent (m : Manager) (fd : ℕ) (event : Event) (ctl : Bool) :
    Option (Bool × Manager) :=
  match m.fdContexts[fd]? with
  | none => some (false, m)
  | some c =>
    if !c.events event then some (false, m)
    else if !ctl then some (false, m)
    else some (true, { m.setContext (c.clear event) fd with
      pendingEventCount := m.pendingEventCount-1
      history := m.history ++ [.removed (c.context event).reg] })

/-- `triggerEvent(event); --m_pendingEventCount` on the context of `fd`. -/
def Manager.fire (m : Manager) (fd : ℕ) (event : Event) : Option Manager :=
  match m.fdContexts[fd]? with
  | none => none
  | some c =>
    match c.triggerEvent event with
    | none => none
    | some (c', r) => some { m.setContext c' fd with
        pendingEventCount := m.pendingEventCount-1
        history := m.history ++ [r] }

def Manager.cancelEvent (m : Manager) (fd : ℕ) (event : Event) (ctl : Bool) :
    Option (Bool × Manager) :=
  match m.fdContexts[fd]? with
  | none => some (false, m)
  | some c =>
    if !c.events event then some (false, m)
    else if !ctl then some (false, m)
    else (m.fire fd event).map fun m' => (true, m')

def Manager.fireIf (m : Manager) (fd : ℕ) (event : Event) (set : Bool) : Option Manager :=
  if set then m.fire fd event else some m

def Manager.cancelAll (m : Manager) (fd : ℕ) (ctl : Bool) : Option (Bool × Manager) :=
  match m.fdContexts[fd]? with
  | none => some (false, m)
  | some c =>
    if c.isNone then some (false, m)
    else if !ctl then some (false, m)
    else do
      let m' ← m.fireIf fd .READ (c.events .READ)
      let c' ← m'.fdContexts[fd]?
      let m'' ← m'.fireIf fd .WRITE (c'.events .WRITE)
      let c'' ← m''.fdContexts[fd]?
      if c''.isNone then some (true, m'') else none

/-- The flags of one `epoll_event`. -/
structure Report where
  epollin : Bool
  epollout : Bool
  epollerr : Bool
  epollhup : Bool

/-- One turn of the dispatch loop of `idle`. -/
def Manager.dispatch (m : Manager) (fd : ℕ) (event : Report) (ctl : Bool) : Option Manager :=
  match m.fdContexts[fd]? with
  | none => none
  | some c =>
    let broken := event.epollerr || event.epollhup
    let real_read := event.epollin || (broken && c.events .READ)
    let real_write := event.epollout || (broken && c.events .WRITE)
    if !(c.events .READ && real_read) && !(c.events .WRITE && real_write) then some m
    else if !ctl then some m
    else do
      let m' ← m.fireIf fd .WRITE real_write
      m'.fireIf fd .READ real_read

inductive Call where
  | addEvent (fd : ℕ) (event : Event) (cb : Option ℕ) (self : Caller) (ctl : Bool)
  | delEvent (fd : ℕ) (event : Event) (ctl : Bool)
  | cancelEvent (fd : ℕ) (event : Event) (ctl : Bool)
  | cancelAll (fd : ℕ) (ctl : Bool)
  | dispatch (fd : ℕ) (event : Report) (ctl : Bool)

def next (m : Manager) : Call → Option Manager
  | .addEvent fd event cb self ctl => (m.addEvent fd event cb self ctl).map Prod.snd
  | .delEvent fd event ctl => (m.delEvent fd event ctl).map Prod.snd
  | .cancelEvent fd event ctl => (m.cancelEvent fd event ctl).map Prod.snd
  | .cancelAll fd ctl => (m.cancelAll fd ctl).map Prod.snd
  | .dispatch fd event ctl => m.dispatch fd event ctl

def Call.ctl : Call → Bool
  | .addEvent _ _ _ _ ctl => ctl
  | .delEvent _ _ ctl => ctl
  | .cancelEvent _ _ ctl => ctl
  | .cancelAll _ ctl => ctl
  | .dispatch _ _ ctl => ctl

def Manager.contextOf (m : Manager) (fd : ℕ) : FdContext :=
  m.fdContexts[fd]?.getD (FdContext.fresh fd)

/-- Events are added once, from a scheduler thread, and reported events are still
registered. -/
def Allowed (m : Manager) : Call → Prop
  | .addEvent fd event _ self _ => (m.contextOf fd).events event = false ∧ self.scheduler.isSome
  | .dispatch fd event _ => fd < m.fdContexts.length ∧
      (event.epollin = true → (m.contextOf fd).events .READ = true) ∧
      (event.epollout = true → (m.contextOf fd).events .WRITE = true)
  | _ => True

end Lamb.IoEvents
