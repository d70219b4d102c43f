import Lamb.Library.ByteString

/-!
# Socket

A socket gets its descriptor when it first needs one, and loses it when it is closed, also by a
connect that failed. The answers of the kernel are parameters of each operation.
-/

set_option autoImplicit false

namespace Lamb.Sockets
open Lamb.ByteString

structure Address where
  family : ℤ
  isUnix : Bool
  sockaddr : Bytes

structure Socket where
  sock : ℤ
  family : ℤ
  type : ℤ
  protocol : ℤ
  isConnected : Bool
  localAddress : Option Address
  remoteAddress : Option Address

/-- `SOCK_STREAM`. -/
def TCP : ℤ := 1

/-- `SOCK_DGRAM`. -/
def UDP : ℤ := 2

/-- What the system calls in one operation return. `probe` is the connect to the path of a Unix
address, by a socket of its own; a missing descriptor is `-1`. -/
structure Answers where
  socket : Option ℕ
  probe : Bool
  bind : Bool
  connect : Bool
  listen : Bool
  sockname : Option Address
  peername : Option Address

def descriptor : Option ℕ → ℤ
  | none => -1
  | some fd => fd

/-- The constructor `Socket`. -/
def create (family type protocol : ℤ) : Socket where
  sock := -1
  family := family
  type := type
  protocol := protocol
  isConnected := false
  localAddress := none
  remoteAddress := none

def Socket.isValid (s : Socket) : Bool := s.sock ≠ -1

def Socket.newSock (s : Socket) (a : Answers) : Socket := { s with sock := descriptor a.socket }

def createTCP (address : Address) : Socket := create address.family TCP 0

/-- `CreateUDP`, and the functions for IPv4 and IPv6 that do the same. -/
def createUDP (family : ℤ) (a : Answers) : Socket :=
  { (create family UDP 0).newSock a with isConnected := true }

def Socket.getLocalAddress (s : Socket) (a : Answers) : Socket :=
  if s.localAddress.isSome then s else { s with localAddress := a.sockname }

def Socket.getRemoteAddress (s : Socket) (a : Answers) : Socket :=
  if s.remoteAddress.isSome then s else { s with remoteAddress := a.peername }

/-- `init` on a descriptor that `accept` returned; `tracked` says that the descriptor manager has
it as an open socket. -/
def Socket.init (s : Socket) (sock : ℕ) (tracked : Bool) (a : Answers) : Bool × Socket :=
  if tracked then
    (true, ({ s with sock := sock, isConnected := true }.getLocalAddress a).getRemoteAddress a)
  else (false, s)

/-- `accept` on the listening socket `s`. -/
def Socket.accept (s : Socket) (newsock : Option ℕ) (tracked : Bool) (a : Answers) :
    Option Socket :=
  match newsock with
  | none => none
  | some fd =>
    match (create s.family s.type s.protocol).init fd tracked a with
    | (true, sock) => some sock
    | (false, _) => none

def Socket.ensure (s : Socket) (a : Answers) : Socket := if s.isValid then s else s.newSock a

def Socket.close (s : Socket) : Bool × Socket :=
  if !s.isConnected && s.sock = -1 then (true, s)
  else (false, { s with isConnected := false, sock := -1 })

def Socket.bind (s : Socket) (addr : Address) (a : Answers) : Bool × Socket :=
  let s := { s with localAddress := some addr }.ensure a
  if !s.isValid then (false, s)
  else if addr.family ≠ s.family then (false, s)
  else if addr.isUnix && a.probe then (false, s)
  else if !a.bind then (false, s)
  else (true, s.getLocalAddress a)

def Socket.connect (s : Socket) (addr : Address) (a : Answers) : Bool × Socket :=
  let s := { s with remoteAddress := some addr }.ensure a
  if !s.isValid then (false, s)
  else if addr.family ≠ s.family then (false, s)
  else if !a.connect then (false, s.close.2)
  else (true, ({ s with isConnected := true }.getRemoteAddress a).getLocalAddress a)

def Socket.reconnect (s : Socket) (a : Answers) : Bool × Socket :=
  match s.remoteAddress with
  | none => (false, s)
  | some addr => { s with localAddress := none }.connect addr a

def Socket.listen (s : Socket) (a : Answers) : Bool := s.isValid && a.listen

section Descriptors

variable {s : Socket} {a : Answers} {addr : Address}

/-- The descriptor is one of the kernel's or `-1`. -/
def Socket.Regular (s : Socket) : Prop := s.isValid = true → 0 ≤ s.sock

theorem create_regular (family type protocol : ℤ) : (create family type protocol).Regular := by
  intro h
  cases h

theorem newSock_regular : (s.newSock a).Regular := by
  intro h
  rw [Socket.newSock] at h ⊢
  cases hfd : a.socket with
  | none => simp [hfd, descriptor, Socket.isValid] at h
  | some fd => exact Int.natCast_nonneg fd

theorem ensure_regular (h : s.Regular) : (s.ensure a).Regular := by
  rw [Socket.ensure]
  split_ifs
  · exact h
  · exact newSock_regular

theorem getLocalAddress_sock : (s.getLocalAddress a).sock = s.sock := by
  rw [Socket.getLocalAddress]
  split_ifs <;> rfl

theorem getRemoteAddress_sock : (s.getRemoteAddress a).sock = s.sock := by
  rw [Socket.getRemoteAddress]
  split_ifs <;> rfl

theorem regular_congr {s s' : Socket} (h : s.sock = s'.sock) : s.Regular ↔ s'.Regular := by
  rw [Socket.Regular, Socket.Regular, Socket.isValid, Socket.isValid, h]

theorem close_regular : s.close.2.Regular := by
  intro h
  rw [Socket.close] at h ⊢
  split_ifs at h with hclosed
  · rw [Bool.and_eq_true, decide_eq_true_iff] at hclosed
    simp [Socket.isValid, hclosed.2] at h
  · simp [Socket.isValid] at h

theorem init_regular {fd : ℕ} {tracked : Bool} (h : s.Regular) :
    (s.init fd tracked a).2.Regular := by
  rw [Socket.init]
  split_ifs
  · intro _
    rw [getRemoteAddress_sock, getLocalAddress_sock]
    exact Int.natCast_nonneg fd
  · exact h

theorem bind_regular (h : s.Regular) : (s.bind addr a).2.Regular := by
  have hensure : ({ s with localAddress := some addr }.ensure a).Regular := ensure_regular h
  rw [Socket.bind]
  split_ifs
  · exact hensure
  · exact hensure
  · exact hensure
  · exact hensure
  · exact (regular_congr getLocalAddress_sock).mpr hensure

theorem connect_regular (h : s.Regular) : (s.connect addr a).2.Regular := by
  have hensure : ({ s with remoteAddress := some addr }.ensure a).Regular := ensure_regular h
  rw [Socket.connect]
  split_ifs
  · exact hensure
  · exact hensure
  · exact close_regular
  · refine (regular_congr ?_).mpr hensure
    rw [getLocalAddress_sock, getRemoteAddress_sock]

theorem reconnect_regular (h : s.Regular) : (s.reconnect a).2.Regular := by
  rw [Socket.reconnect]
  cases s.remoteAddress with
  | none => exact h
  | some addr => exact connect_regular h

end Descriptors

end Lamb.Sockets
