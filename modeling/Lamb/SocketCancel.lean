import Lamb.IoEvents
import Lamb.Sockets

/-!
# Cancelling the events of a socket

`cancelRead` and its siblings pass the descriptor on to the IO manager, which compares it with
the size of its table, as an `int`, and looks up the context. A socket without a descriptor
passes `-1`.
-/

set_option autoImplicit false

namespace Lamb.SocketCancel
open Lamb.IoEvents Lamb.Sockets

/-- A size as an `int`. -/
def toInt (n : ℕ) : ℤ :=
  if n % 4294967296 < 2147483648 then n % 4294967296 else (n : ℤ) % 4294967296-4294967296

/-- How a call on the table ends. `outside` is a lookup of `m_fdContexts` at an index that it
does not have. -/
inductive Outcome where
  | returns (result : Bool) (manager : Manager)
  | stops
  | outside (index : ℤ)

/-- The check of the descriptor and the lookup, with which `cancelEvent` and `cancelAll` begin,
and the rest of the function. -/
def lookup (m : Manager) (fd : ℤ) (rest : ℕ → Option (Bool × Manager)) : Outcome :=
  if toInt m.fdContexts.length ≤ fd then .returns false m
  else if 0 ≤ fd ∧ fd < m.fdContexts.length then
    match rest fd.toNat with
    | some (result, m') => .returns result m'
    | none => .stops
  else .outside fd

def cancelEvent (m : Manager) (fd : ℤ) (event : Event) (ctl : Bool) : Outcome :=
  lookup m fd fun i => m.cancelEvent i event ctl

def cancelAll (m : Manager) (fd : ℤ) (ctl : Bool) : Outcome :=
  lookup m fd fun i => m.cancelAll i ctl

inductive Cancel where
  | cancelRead
  | cancelWrite
  | cancelAccept
  | cancelAll

def Cancel.call (c : Cancel) (s : Socket) (m : Manager) (ctl : Bool) : Outcome :=
  match c with
  | cancelRead => cancelEvent m s.sock .READ ctl
  | cancelWrite => cancelEvent m s.sock .WRITE ctl
  | cancelAccept => cancelEvent m s.sock .READ ctl
  | cancelAll => SocketCancel.cancelAll m s.sock ctl

/-- Where sockets come from: the constructor, `CreateUDP` and its siblings, and `accept`. -/
inductive Made : Socket → Prop where
  | create (family type protocol : ℤ) : Made (create family type protocol)
  | createUDP (family : ℤ) (a : Answers) : Made (createUDP family a)
  | accept (s sock : Socket) (fd : Option ℕ) (tracked : Bool) (a : Answers)
      (h : s.accept fd tracked a = some sock) : Made sock

inductive Op where
  | bind (addr : Address) (a : Answers)
  | connect (addr : Address) (a : Answers)
  | reconnect (a : Answers)
  | listen (a : Answers)
  | close

def step (s : Socket) : Op → Socket
  | .bind addr a => (s.bind addr a).2
  | .connect addr a => (s.connect addr a).2
  | .reconnect a => (s.reconnect a).2
  | .listen _ => s
  | .close => s.close.2

def run (s : Socket) (ops : List Op) : Socket := ops.foldl step s

section Runs

variable {s : Socket} {m : Manager}

theorem made_regular (h : Made s) : s.Regular := by
  cases h with
  | create family type protocol => exact create_regular family type protocol
  | createUDP family a =>
    have hnew : ((Sockets.create family UDP 0).newSock a).Regular := newSock_regular
    exact (regular_congr rfl).mpr hnew
  | accept s₀ _ fd tracked a h =>
    cases fd with
    | none => cases h
    | some fd =>
      have hinit : ((Sockets.create s₀.family s₀.type s₀.protocol).init fd tracked a).2.Regular :=
        init_regular (create_regular s₀.family s₀.type s₀.protocol)
      rw [Socket.accept] at h
      split at h
      · rename_i hsock
        rw [hsock] at hinit
        cases h
        exact hinit
      · cases h

theorem step_regular (h : s.Regular) (op : Op) : (step s op).Regular := by
  cases op with
  | bind addr a => exact bind_regular h
  | connect addr a => exact connect_regular h
  | reconnect a => exact reconnect_regular h
  | listen a => exact h
  | close => exact close_regular

theorem run_regular (h : s.Regular) (ops : List Op) : (run s ops).Regular := by
  induction ops generalizing s with
  | nil => exact h
  | cons op ops ih => exact ih (step_regular h op)

theorem toInt_le (n : ℕ) : toInt n ≤ n := by
  rw [toInt]
  split_ifs <;> omega

theorem lookup_outside_iff (fd : ℤ) (hfd : fd = -1 ∨ 0 ≤ fd)
    (rest : ℕ → Option (Bool × Manager)) :
    (∃ i, lookup m fd rest = .outside i) ↔ fd = -1 ∧ 0 ≤ toInt m.fdContexts.length := by
  have hle := toInt_le m.fdContexts.length
  rw [lookup]
  split_ifs with hsize hinside
  · simp only [exists_false, false_iff]
    omega
  · constructor
    · rintro ⟨i, h⟩
      split at h <;> cases h
    · omega
  · constructor
    · intro _
      omega
    · intro _
      exact ⟨fd, rfl⟩

/-- Every call that cancels begins with a lookup of the socket's descriptor. -/
theorem call_lookup (c : Cancel) (s : Socket) (m : Manager) (ctl : Bool) :
    ∃ rest, c.call s m ctl = lookup m s.sock rest := by
  cases c with
  | cancelRead => exact ⟨fun i => m.cancelEvent i .READ ctl, rfl⟩
  | cancelWrite => exact ⟨fun i => m.cancelEvent i .WRITE ctl, rfl⟩
  | cancelAccept => exact ⟨fun i => m.cancelEvent i .READ ctl, rfl⟩
  | cancelAll => exact ⟨fun i => m.cancelAll i ctl, rfl⟩

end Runs

/-- After any operations, a call that cancels stays within the table if and only if the socket
has a descriptor, or the table is so large that its size is negative as an `int`. -/
theorem cancel_inside_iff (s : Socket) (hs : Made s) (ops : List Op) (m : Manager) (c : Cancel)
    (ctl : Bool) : (∀ i, c.call (run s ops) m ctl ≠ .outside i) ↔
      (run s ops).isValid = true ∨ toInt m.fdContexts.length < 0 := by
  have hregular := run_regular (made_regular hs) ops
  have hfd : (run s ops).sock = -1 ∨ 0 ≤ (run s ops).sock := by
    by_cases hsock : (run s ops).sock = -1
    · exact Or.inl hsock
    · exact Or.inr (hregular (decide_eq_true hsock))
  have hlookup := fun rest => lookup_outside_iff (m := m) (run s ops).sock hfd rest
  obtain ⟨rest, hrest⟩ := call_lookup c (run s ops) m ctl
  rw [hrest, ← not_exists, hlookup rest, not_and_or, not_le, Socket.isValid, decide_eq_true_iff]

def answers : Answers where
  socket := some 5
  probe := false
  bind := true
  connect := false
  listen := true
  sockname := none
  peername := none

def address : Address where
  family := 2
  isUnix := false
  sockaddr := []

theorem bound_socket_inside :
    (run (create 2 TCP 0) [.bind address answers]).sock = 5 ∧
      ∀ i, Cancel.cancelAll.call (run (create 2 TCP 0) [.bind address answers]) Manager.init true ≠
        .outside i :=
  ⟨rfl, (cancel_inside_iff _ (.create 2 TCP 0) [.bind address answers] Manager.init .cancelAll
    true).mpr (Or.inl (by decide))⟩

/-- A socket that never had a descriptor, and one whose connect failed. -/
theorem missing_descriptor_outside :
    Cancel.cancelRead.call (run (create 2 TCP 0) []) Manager.init true = .outside (-1) ∧
      Cancel.cancelAll.call (run (create 2 TCP 0) [.connect address answers]) Manager.init true =
        .outside (-1) :=
  ⟨rfl, rfl⟩

end Lamb.SocketCancel
