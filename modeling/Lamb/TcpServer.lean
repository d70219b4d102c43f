import Lamb.Sockets
import Mathlib.Data.List.Forall2

/-!
# TcpServer::bind

Each address gets a socket of its own, which is bound and listens, or the address is put on the
list of failures. If there are any, all sockets are given up, those of earlier calls included.
-/

set_option autoImplicit false

namespace Lamb.TcpServer
open Lamb.Sockets

structure Server where
  socks : List Socket

/-- An address of the call, and what the kernel answers to its socket. -/
structure Attempt where
  addr : Address
  answers : Answers

/-- The loop of `bind`. -/
def bindLoop : List Attempt → List Socket → List Address → List Socket × List Address
  | [], socks, fails => (socks, fails)
  | x::rest, socks, fails =>
    match (createTCP x.addr).bind x.addr x.answers with
    | (false, _) => bindLoop rest socks (fails ++ [x.addr])
    | (true, sock) =>
      if !sock.listen x.answers then bindLoop rest socks (fails ++ [x.addr])
      else bindLoop rest (socks ++ [sock]) fails

/-- `bind`, with `fails` as it is passed in and as it is left. -/
def bind (server : Server) (addrs : List Attempt) (fails : List Address) :
    Bool × Server × List Address :=
  let out := bindLoop addrs server.socks fails
  if out.2 ≠ [] then (false, { server with socks := [] }, out.2)
  else (true, { server with socks := out.1 }, out.2)

/-- Neither `bind` nor `listen` fails for this address. -/
def Attempt.Opens (x : Attempt) : Prop :=
  x.answers.socket ≠ none ∧ ¬(x.addr.isUnix = true ∧ x.answers.probe = true) ∧
    x.answers.bind = true ∧ x.answers.listen = true

def Attempt.bound (x : Attempt) : Socket :=
  { createTCP x.addr with
    sock := descriptor x.answers.socket
    localAddress := some x.addr }

def Attempt.Listening (x : Attempt) (sock : Socket) : Prop := x.Opens ∧ sock = x.bound

instance (x : Attempt) : Decidable x.Opens := inferInstanceAs (Decidable (_ ∧ _))

/-- The addresses of the call whose `bind` or `listen` fails. -/
def failing (addrs : List Attempt) : List Address :=
  (addrs.filter fun x => ¬x.Opens).map Attempt.addr

/-- The call returns true with one listening socket more for each address, or false with the
failing addresses and the sockets there were before. -/
def Restores (server : Server) (addrs : List Attempt) : Prop :=
  (∃ new, bind server addrs [] = (true, { server with socks := server.socks ++ new }, []) ∧
    List.Forall₂ Attempt.Listening addrs new) ∨
  bind server addrs [] = (false, server, failing addrs)

attribute [local simp] bindLoop

section Attempts

variable {x : Attempt}

theorem bound_valid (x : Attempt) : x.bound.isValid = decide (x.answers.socket ≠ none) := by
  rw [Socket.isValid, Attempt.bound]
  cases x.answers.socket with
  | none => rfl
  | some fd =>
    have hne : (fd : ℤ) ≠ -1 := by omega
    rw [decide_eq_true (Option.some_ne_none fd)]
    exact decide_eq_true hne

theorem bind_bound (x : Attempt) : (createTCP x.addr).bind x.addr x.answers =
    (x.bound.isValid && !(x.addr.isUnix && x.answers.probe) && x.answers.bind, x.bound) := by
  have hensure : { createTCP x.addr with localAddress := some x.addr }.ensure x.answers =
      x.bound := rfl
  have hfamily : ¬x.addr.family ≠ x.bound.family := fun h => h rfl
  have hlocal : x.bound.getLocalAddress x.answers = x.bound := rfl
  simp only [Socket.bind, hensure, if_neg hfamily, hlocal]
  cases x.bound.isValid <;> cases x.addr.isUnix && x.answers.probe <;> cases x.answers.bind <;> rfl

theorem opens_iff (x : Attempt) : x.Opens ↔
    ((createTCP x.addr).bind x.addr x.answers).1 = true ∧ x.bound.listen x.answers = true := by
  rw [bind_bound, Socket.listen, bound_valid, Attempt.Opens]
  simp only [Bool.and_eq_true, decide_eq_true_iff, Bool.not_eq_true', ← Bool.not_eq_true]
  tauto

theorem bindLoop_adds (addrs : List Attempt) (socks : List Socket) (fails : List Address) :
    bindLoop addrs socks fails =
      (socks ++ (addrs.filter fun x => x.Opens).map Attempt.bound, fails ++ failing addrs) := by
  induction addrs generalizing socks fails with
  | nil => simp [failing]
  | cons x rest ih =>
    have hsock : ((createTCP x.addr).bind x.addr x.answers).2 = x.bound := by rw [bind_bound]
    obtain ⟨⟨ok, sock⟩, hbind⟩ : ∃ out, (createTCP x.addr).bind x.addr x.answers = out := ⟨_, rfl⟩
    have hopens := opens_iff x
    rw [hbind] at hopens hsock
    obtain rfl : sock = x.bound := hsock
    rw [bindLoop, hbind]
    cases ok with
    | false =>
      have hnot : ¬x.Opens := fun h => Bool.false_ne_true (hopens.mp h).1
      simp [ih, failing, hnot]
    | true =>
      cases hlisten : x.bound.listen x.answers with
      | false =>
        have hnot : ¬x.Opens := fun h => Bool.false_ne_true (hlisten.symm.trans (hopens.mp h).2)
        simp [ih, failing, hnot, hlisten]
      | true =>
        have hyes : x.Opens := hopens.mpr ⟨rfl, hlisten⟩
        simp [ih, failing, hyes, hlisten]

theorem failing_nil (addrs : List Attempt) : failing addrs = [] ↔ ∀ x ∈ addrs, x.Opens := by
  simp [failing, List.filter_eq_nil_iff]

theorem listening_all (addrs : List Attempt) (h : ∀ x ∈ addrs, x.Opens) :
    List.Forall₂ Attempt.Listening addrs (addrs.map Attempt.bound) := by
  rw [List.forall₂_map_right_iff, List.forall₂_same]
  exact fun x hx => ⟨h x hx, rfl⟩

end Attempts

/-- A call keeps its promise if and only if no address fails, or the server had no sockets. -/
theorem restores_iff (server : Server) (addrs : List Attempt) : Restores server addrs ↔
    (∀ x ∈ addrs, x.Opens) ∨ server.socks = [] := by
  rw [Restores, bind, bindLoop_adds, List.nil_append]
  by_cases hall : ∀ x ∈ addrs, x.Opens
  · have hnil := (failing_nil addrs).mpr hall
    have hfilter : addrs.filter (fun x => x.Opens) = addrs := by
      rw [List.filter_eq_self]
      exact fun x hx => decide_eq_true (hall x hx)
    simp only [hnil, ne_eq, not_true_eq_false, if_false, hfilter]
    exact iff_of_true (Or.inl ⟨_, rfl, listening_all addrs hall⟩) (Or.inl hall)
  · have hne : failing addrs ≠ [] := fun h => hall ((failing_nil addrs).mp h)
    simp only [if_pos hne, hall, false_or]
    constructor
    · rintro (⟨new, h, -⟩ | h)
      · cases h
      · exact congrArg Server.socks (Prod.mk.inj (Prod.mk.inj h).2).1.symm
    · intro hempty
      refine Or.inr ?_
      rw [← hempty]

/-- An attempt on an address of the family `AF_INET`; `free` says that `bind` succeeds. -/
def attempt (free : Bool) : Attempt where
  addr := { family := 2, isUnix := false, sockaddr := [] }
  answers :=
    { socket := some 5
      probe := false
      bind := free
      connect := false
      listen := true
      sockname := none
      peername := none }

/-- The second call fails on its only address and takes the socket of the first one away. -/
theorem earlier_socket_lost :
    (bind ⟨[]⟩ [attempt true] []).2.1.socks = [(attempt true).bound] ∧
      ¬Restores (bind ⟨[]⟩ [attempt true] []).2.1 [attempt false] := by
  refine ⟨rfl, ?_⟩
  rintro (⟨new, h, -⟩ | h)
  · exact Bool.false_ne_true (congrArg Prod.fst h)
  · exact List.cons_ne_nil _ _ (congrArg (fun out => out.2.1.socks) h).symm

end Lamb.TcpServer
