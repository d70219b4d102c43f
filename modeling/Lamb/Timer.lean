import Lamb.Library.OrderedSet
import Lamb.Library.Runs

/-!
# Timers

`Timer` and `TimerManager`. A timer is an object at an address that its handles
share; `m_timers` holds the addresses, in the order of `Timer::Comparator` at the
current `m_next` of the objects. Readings of the clock are arguments, because
every caller takes its own reading, some of them before the lock. Each operation
below is the part that runs under the write lock.
-/

set_option autoImplicit false

namespace Lamb.TimerManager
open Lamb.Runs

variable {κ : Type}

structure Timer (κ : Type) where
  recurring : Bool
  ms : UInt64
  next : UInt64
  cb : Option κ
  deriving DecidableEq, Repr

/-- What the comparator reads of a `Timer::ptr`: nothing of a null one, else the
address and the `m_next` there. -/
abbrev Ptr := Option (ℕ × UInt64)

def comparator : Ptr → Ptr → Bool
  | none, none => false
  | none, some _ => true
  | some _, none => false
  | some lhs, some rhs =>
    if lhs.2 < rhs.2 then true
    else if rhs.2 < lhs.2 then false
    else lhs.1 < rhs.1

structure Manager (κ : Type) where
  objects : ℕ → Option (Timer κ)
  timers : List ℕ
  tickled : Bool
  previouseTime : UInt64

def Manager.init (now : UInt64) : Manager κ where
  objects := fun _ => none
  timers := []
  tickled := false
  previouseTime := now

def Manager.ptr (m : Manager κ) (a : ℕ) : Ptr :=
  (m.objects a).map fun t => (a, t.next)

def Manager.nextOf (m : Manager κ) (a : ℕ) : UInt64 :=
  match m.objects a with
  | some t => t.next
  | none => 0

def Manager.store (m : Manager κ) (a : ℕ) (t : Timer κ) : Manager κ :=
  { m with objects := Function.update m.objects a (some t) }

def Manager.find (m : Manager κ) (a : ℕ) : Option ℕ :=
  OrderedSet.find comparator m.ptr (m.ptr a) m.timers

def Manager.erase (m : Manager κ) (a : ℕ) : Manager κ :=
  { m with timers := OrderedSet.eraseAt comparator m.ptr (m.ptr a) m.timers }

def Manager.insert (m : Manager κ) (a : ℕ) : Manager κ :=
  { m with timers := OrderedSet.insert comparator m.ptr a m.timers }

/-- What an operation leaves behind: the manager, the value returned and whether
`onTimerInsertedAtFront` is called after the unlock. -/
structure Outcome (κ : Type) where
  manager : Manager κ
  result : Bool
  atFront : Bool

/-- `addTimer(val, lock)`. -/
def insertTimer (m : Manager κ) (a : ℕ) : Outcome κ :=
  let m := m.insert a
  let atFront := (m.find a == m.timers.head?) && !m.tickled
  { manager := { m with tickled := m.tickled || atFront }, result := true, atFront := atFront }

def addTimer (m : Manager κ) (a : ℕ) (ms : UInt64) (cb : Option κ) (recurring : Bool)
    (now : UInt64) : Outcome κ :=
  insertTimer (m.store a { recurring := recurring, ms := ms, next := now+ms, cb := cb }) a

/-- No outcome when `erase` is given `end()`. -/
def cancel (m : Manager κ) (a : ℕ) : Option (Outcome κ) :=
  match m.objects a with
  | none => none
  | some t =>
    if t.cb.isSome then
      let m := m.store a { t with cb := none }
      match m.find a with
      | none => none
      | some _ => some { manager := m.erase a, result := true, atFront := false }
    else some { manager := m, result := false, atFront := false }

def refresh (m : Manager κ) (a : ℕ) (now : UInt64) : Option (Outcome κ) :=
  match m.objects a with
  | none => none
  | some t =>
    if t.cb.isNone then some { manager := m, result := false, atFront := false }
    else
      match m.find a with
      | none => some { manager := m, result := false, atFront := false }
      | some _ =>
        let m := ((m.erase a).store a { t with next := now+t.ms }).insert a
        some { manager := m, result := true, atFront := false }

/-- `reset` returns true before the lock when this holds. -/
def resetIdle (t : Timer κ) (ms : UInt64) (fromNow : Bool) : Bool := ms == t.ms && !fromNow

def resetTimer (t : Timer κ) (ms : UInt64) (fromNow : Bool) (now : UInt64) : Timer κ :=
  { t with ms := ms, next := ms+(if fromNow then now else t.next-t.ms) }

/-- The locked part of `reset`: `m_ms` may have changed since the test before it. -/
def reset (m : Manager κ) (a : ℕ) (ms : UInt64) (fromNow : Bool) (now : UInt64) :
    Option (Outcome κ) :=
  match m.objects a with
  | none => none
  | some t =>
    if t.cb.isNone then some { manager := m, result := false, atFront := false }
    else
      match m.find a with
      | none => some { manager := m, result := false, atFront := false }
      | some _ => some (insertTimer ((m.erase a).store a (resetTimer t ms fromNow now)) a)

def getNextTimer (m : Manager κ) (now : UInt64) : Manager κ × UInt64 :=
  let m := { m with tickled := false }
  match m.timers with
  | [] => (m, ~~~0)
  | a::_ => (m, if m.nextOf a ≤ now then 0 else m.nextOf a-now)

def hasTimer (m : Manager κ) : Bool := !m.timers.isEmpty

def detectClockRollover (m : Manager κ) (now : UInt64) : Manager κ × Bool :=
  ({ m with previouseTime := now },
    now < m.previouseTime && now < m.previouseTime-60*60*1000)

/-- A callback appended to `cbs`, with the timer it belongs to and the `m_next`
that timer had. -/
structure Handed (κ : Type) where
  timer : ℕ
  next : UInt64
  cb : Option κ
  deriving DecidableEq, Repr

/-- The iterator `it` up to which the timers expire, as the elements from it on.
`now_timer` is allocated at `addr`. -/
def expiredEnd (m : Manager κ) (rollover : Bool) (now : UInt64) (addr : ℕ) : List ℕ :=
  let nowTimer : Ptr := some (addr, now)
  let it := if rollover then [] else OrderedSet.lowerBound comparator m.ptr nowTimer m.timers
  it.dropWhile fun a => m.nextOf a == now

def expireOne (now : UInt64) (r : Manager κ × List (Handed κ)) (a : ℕ) :
    Manager κ × List (Handed κ) :=
  match r.1.objects a with
  | none => r
  | some t =>
    let cbs := r.2 ++ [{ timer := a, next := t.next, cb := t.cb }]
    if t.recurring then ((r.1.store a { t with next := now+t.ms }).insert a, cbs)
    else (r.1.store a { t with cb := none }, cbs)

def listExpiredCb (m : Manager κ) (now : UInt64) (addr : ℕ) : Manager κ × List (Handed κ) :=
  match m.timers with
  | [] => (m, [])
  | first::_ =>
    let r := detectClockRollover m now
    let m := r.1
    if !r.2 && now < m.nextOf first then (m, [])
    else
      let it := expiredEnd m r.2 now addr
      let expired := m.timers.take (m.timers.length-it.length)
      expired.foldl (expireOne now) ({ m with timers := it }, [])

/-! ## Interleavings -/

/-- The lock-protected parts, in any order by any thread. `resetEarly` is a `reset`
that returns before the lock; `release` is the end of a timer whose last handle is
gone. -/
inductive Call (κ : Type) where
  | addTimer (a : ℕ) (ms : UInt64) (cb : Option κ) (recurring : Bool) (now : UInt64)
  | cancel (a : ℕ)
  | refresh (a : ℕ) (now : UInt64)
  | reset (a : ℕ) (ms : UInt64) (fromNow : Bool) (now : UInt64)
  | resetEarly (a : ℕ) (ms : UInt64) (fromNow : Bool)
  | getNextTimer (now : UInt64)
  | listExpiredCb (now : UInt64) (addr : ℕ)
  | release (a : ℕ)

structure Expiry where
  next : UInt64
  now : UInt64
  deriving DecidableEq, Repr

structure State (κ : Type) where
  manager : Manager κ
  appended : ℕ → ℕ
  cancelled : ℕ → ℕ
  expiries : List Expiry

def State.init (now : UInt64) : State κ where
  manager := Manager.init now
  appended := fun _ => 0
  cancelled := fun _ => 0
  expiries := []

def countOf (cbs : List (Handed κ)) (a : ℕ) : ℕ := cbs.countP fun h => h.timer == a

def next (s : State κ) : Call κ → Option (State κ)
  | .addTimer a ms cb recurring now =>
    match s.manager.objects a with
    | some _ => none
    | none => some { s with
        manager := (addTimer s.manager a ms cb recurring now).manager
        appended := Function.update s.appended a 0
        cancelled := Function.update s.cancelled a 0 }
  | .cancel a => (cancel s.manager a).map fun o => { s with
      manager := o.manager
      cancelled := Function.update s.cancelled a (s.cancelled a+if o.result then 1 else 0) }
  | .refresh a now => (refresh s.manager a now).map fun o => { s with manager := o.manager }
  | .reset a ms fromNow now =>
    (reset s.manager a ms fromNow now).map fun o => { s with manager := o.manager }
  | .resetEarly a ms fromNow =>
    match s.manager.objects a with
    | none => none
    | some t => if resetIdle t ms fromNow then some s else none
  | .getNextTimer now => some { s with manager := (getNextTimer s.manager now).1 }
  | .listExpiredCb now addr =>
    let r := listExpiredCb s.manager now addr
    some { s with
      manager := r.1
      appended := fun a => s.appended a+countOf r.2 a
      expiries := s.expiries ++ r.2.map fun h => { next := h.next, now := now } }
  | .release a =>
    if a ∈ s.manager.timers then none
    else some { s with
      manager := { s.manager with objects := Function.update s.manager.objects a none } }

def WithCallback (_ : State κ) : Call κ → Prop
  | .addTimer _ _ cb _ _ => cb.isSome
  | _ => True

end Lamb.TimerManager
