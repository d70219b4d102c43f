import Lamb.Library.Simulation
import Lamb.Library.Slots
import Mathlib.Algebra.GroupWithZero.Nat
import Mathlib.Algebra.Order.BigOperators.Group.List
import Mathlib.Algebra.Order.Group.Multiset
import Mathlib.Algebra.Order.Group.Nat

/-!
# TcpServer::start, startAccept and stop

A started server has a fiber on the accept worker for each listening socket, which accepts clients
and hands them over to the I/O worker until the server is stopped. `stop` only sets the flag and
lets a task of the accept worker close the sockets. Its tasks run on any number of threads. The
vector of the sockets has no lock: `start` and each task of `stop` go over it as it is.
-/

set_option autoImplicit false

namespace Lamb.TcpServing
open Lamb.Runs Lamb.Slots

/-- Where a fiber of the accept worker stands: in front of the test of `m_isStop`, inside
`sock->accept()`, with a client in its hands, or in the loop that closes the sockets, the first `k`
of which it has closed. -/
inductive Pc where
  | check (sock : ℕ)
  | accept (sock : ℕ)
  | got (sock client : ℕ)
  | closing (k : ℕ)
  | done
  deriving DecidableEq

/-- The thread that calls `start` and `stop`: in no call, in the loop of `start` behind the first
`k` sockets, or in `stop` behind the assignment to `m_isStop`. -/
inductive Owner where
  | idle
  | starting (k : ℕ)
  | stopping
  deriving DecidableEq

/-- What is scheduled on the accept worker: `startAccept` with a socket, or the task of `stop`. -/
inductive Task where
  | accept (sock : ℕ)
  | close
  deriving DecidableEq

/-- A task of the I/O worker, `handleClient` with a client and its receive timeout. -/
structure Client where
  conn : ℕ
  recvTimeout : ℕ
  deriving DecidableEq

/-- The server with its workers, and the connections that the kernel has handed out. -/
structure System where
  owner : Owner
  isStop : Bool
  socks : List ℕ
  isOpen : ℕ → Bool
  recvTimeout : ℕ
  tasks : List Task
  fibers : List Pc
  clients : List Client
  handled : List Client
  accepted : List ℕ
  dropped : List ℕ

def System.init (socks : List ℕ) (recvTimeout : ℕ) : System where
  owner := .idle
  isStop := true
  socks := socks
  isOpen sock := socks.contains sock
  recvTimeout := recvTimeout
  tasks := []
  fibers := []
  clients := []
  handled := []
  accepted := []
  dropped := []

/-- The owner that makes a call or goes on in it, the workers that take a task, the fibers that go
on, and the kernel that lets an `accept` return. -/
inductive Action where
  | start
  | stop
  | owner
  | setRecvTimeout (v : ℕ)
  | run
  | handle
  | resume (f : ℕ)
  | connect (f : ℕ) (conn : ℕ) (init : Bool)
  | fail (f : ℕ)
  deriving DecidableEq

def System.goto (s : System) (f : ℕ) (pc : Pc) : System := { s with fibers := s.fibers.set f pc }

/-- `Socket::accept` has a new connection. Without an `FdCtx` for it, `init` fails and the
connection is forgotten. -/
def System.connected (s : System) (f sock conn : ℕ) (init : Bool) : System :=
  if init then { s.goto f (.got sock conn) with accepted := s.accepted ++ [conn] }
  else { s.goto f (.check sock) with
    accepted := s.accepted ++ [conn], dropped := s.dropped ++ [conn] }

def System.proceed (s : System) (f : ℕ) : Pc → Option System
  | .check sock => some (s.goto f (if s.isStop then .done else .accept sock))
  | .got sock conn => some { s.goto f (.check sock) with
      clients := s.clients ++ [⟨conn, s.recvTimeout⟩] }
  | .closing k =>
    match s.socks[k]? with
    | some sock => some { s.goto f (.closing (k+1)) with
        isOpen := Function.update s.isOpen sock false }
    | none => some { s.goto f .done with socks := [] }
  | _ => none

def System.call (s : System) : Owner → Option System
  | .starting k =>
    match s.socks[k]? with
    | some sock => some { s with owner := .starting (k+1), tasks := s.tasks ++ [.accept sock] }
    | none => some { s with owner := .idle }
  | .stopping => some { s with owner := .idle, tasks := s.tasks ++ [.close] }
  | .idle => none

def next (s : System) : Action → Option System
  | .start =>
    if s.owner = .idle then
      some (if s.isStop then { s with isStop := false, owner := .starting 0 } else s)
    else none
  | .stop => if s.owner = .idle then some { s with isStop := true, owner := .stopping } else none
  | .owner => s.call s.owner
  | .setRecvTimeout v => some { s with recvTimeout := v }
  | .run =>
    match s.tasks with
    | [] => none
    | .accept sock::tasks => some { s with tasks := tasks, fibers := s.fibers ++ [.check sock] }
    | .close::tasks => some { s with tasks := tasks, fibers := s.fibers ++ [.closing 0] }
  | .handle =>
    match s.clients with
    | [] => none
    | client::clients => some { s with clients := clients, handled := s.handled ++ [client] }
  | .resume f => s.fibers[f]?.bind (s.proceed f)
  | .connect f conn init =>
    match s.fibers[f]? with
    | some (.accept sock) =>
      if s.isOpen sock && !s.accepted.contains conn then some (s.connected f sock conn init)
      else none
    | _ => none
  | .fail f =>
    match s.fibers[f]? with
    | some (.accept sock) => some (s.goto f (.check sock))
    | _ => none

/-- No thread goes over the vector of the sockets while another one clears it. Where this is not
met, the loops of the source race. -/
def Alone (s : System) : Action → Prop
  | .start => s.isStop = true → ∀ k, Pc.closing k ∉ s.fibers
  | .run => s.tasks.head? = some .close →
      (∀ k, s.owner ≠ .starting k) ∧ ∀ k, Pc.closing k ∉ s.fibers
  | _ => True

inductive Step (s : System) : Action → System → Prop
  | start (ho : s.owner = .idle) (h : s.isStop = true) : Step s .start
      { s with isStop := false, owner := .starting 0 }
  | started (h : s.isStop = false) : Step s .start s
  | stop (ho : s.owner = .idle) : Step s .stop { s with isStop := true, owner := .stopping }
  | schedule {k sock : ℕ} (ho : s.owner = .starting k) (hk : s.socks[k]? = some sock) :
      Step s .owner { s with owner := .starting (k+1), tasks := s.tasks ++ [.accept sock] }
  | scheduled {k : ℕ} (ho : s.owner = .starting k) (hk : s.socks[k]? = none) :
      Step s .owner { s with owner := .idle }
  | stopped (ho : s.owner = .stopping) :
      Step s .owner { s with owner := .idle, tasks := s.tasks ++ [.close] }
  | setRecvTimeout (v : ℕ) : Step s (.setRecvTimeout v) { s with recvTimeout := v }
  | run {sock : ℕ} {tasks : List Task} (h : s.tasks = .accept sock::tasks) :
      Step s .run { s with tasks := tasks, fibers := s.fibers ++ [.check sock] }
  | close {tasks : List Task} (h : s.tasks = .close::tasks) :
      Step s .run { s with tasks := tasks, fibers := s.fibers ++ [.closing 0] }
  | handle {client : Client} {clients : List Client} (h : s.clients = client::clients) :
      Step s .handle { s with clients := clients, handled := s.handled ++ [client] }
  | leave {f sock : ℕ} (hf : s.fibers[f]? = some (.check sock)) (h : s.isStop = true) :
      Step s (.resume f) (s.goto f .done)
  | enter {f sock : ℕ} (hf : s.fibers[f]? = some (.check sock)) (h : s.isStop = false) :
      Step s (.resume f) (s.goto f (.accept sock))
  | hand {f sock conn : ℕ} (hf : s.fibers[f]? = some (.got sock conn)) :
      Step s (.resume f) { s.goto f (.check sock) with
        clients := s.clients ++ [⟨conn, s.recvTimeout⟩] }
  | shut {f k sock : ℕ} (hf : s.fibers[f]? = some (.closing k)) (hk : s.socks[k]? = some sock) :
      Step s (.resume f) { s.goto f (.closing (k+1)) with
        isOpen := Function.update s.isOpen sock false }
  | clear {f k : ℕ} (hf : s.fibers[f]? = some (.closing k)) (hk : s.socks[k]? = none) :
      Step s (.resume f) { s.goto f .done with socks := [] }
  | connect {f sock conn : ℕ} (hf : s.fibers[f]? = some (.accept sock))
      (hopen : s.isOpen sock = true) (hnew : conn ∉ s.accepted) :
      Step s (.connect f conn true)
        { s.goto f (.got sock conn) with accepted := s.accepted ++ [conn] }
  | drop {f sock conn : ℕ} (hf : s.fibers[f]? = some (.accept sock))
      (hopen : s.isOpen sock = true) (hnew : conn ∉ s.accepted) :
      Step s (.connect f conn false) { s.goto f (.check sock) with
        accepted := s.accepted ++ [conn], dropped := s.dropped ++ [conn] }
  | fail {f sock : ℕ} (hf : s.fibers[f]? = some (.accept sock)) :
      Step s (.fail f) (s.goto f (.check sock))

theorem Step.of_next {s s' : System} {a : Action} (hn : next s a = some s') : Step s a s' := by
  cases a with
  | start =>
    simp only [next] at hn
    split_ifs at hn with ho h
    · obtain rfl := Option.some.inj hn
      exact .start ho h
    · obtain rfl := Option.some.inj hn
      exact .started (Bool.eq_false_of_not_eq_true h)
  | stop =>
    simp only [next] at hn
    split_ifs at hn with ho
    obtain rfl := Option.some.inj hn
    exact .stop ho
  | owner =>
    simp only [next, System.call] at hn
    split at hn
    · split at hn
      · obtain rfl := Option.some.inj hn
        exact .schedule ‹_› ‹_›
      · obtain rfl := Option.some.inj hn
        exact .scheduled ‹_› ‹_›
    · obtain rfl := Option.some.inj hn
      exact .stopped ‹_›
    · cases hn
  | setRecvTimeout v =>
    obtain rfl := Option.some.inj hn
    exact .setRecvTimeout v
  | run =>
    simp only [next] at hn
    split at hn
    · cases hn
    · obtain rfl := Option.some.inj hn
      exact .run ‹_›
    · obtain rfl := Option.some.inj hn
      exact .close ‹_›
  | handle =>
    simp only [next] at hn
    split at hn
    · cases hn
    · obtain rfl := Option.some.inj hn
      exact .handle ‹_›
  | resume f =>
    obtain ⟨pc, hf, hp⟩ := Option.bind_eq_some_iff.mp hn
    cases pc with
    | check sock =>
      obtain rfl := Option.some.inj hp
      split_ifs with h
      · exact .leave hf h
      · exact .enter hf (Bool.eq_false_of_not_eq_true h)
    | accept sock => cases hp
    | got sock conn =>
      obtain rfl := Option.some.inj hp
      exact .hand hf
    | closing k =>
      simp only [System.proceed] at hp
      split at hp
      · obtain rfl := Option.some.inj hp
        exact .shut hf ‹_›
      · obtain rfl := Option.some.inj hp
        exact .clear hf ‹_›
    | done => cases hp
  | connect f conn init =>
    simp only [next] at hn
    split at hn
    · rename_i sock hf
      split_ifs at hn with h
      obtain rfl := Option.some.inj hn
      obtain ⟨hopen, hnew⟩ := (Bool.and_eq_true _ _).mp h
      have hnew' : conn ∉ s.accepted := by simpa using hnew
      cases init with
      | true => exact .connect hf hopen hnew'
      | false => exact .drop hf hopen hnew'
    · cases hn
  | fail f =>
    simp only [next] at hn
    split at hn
    · obtain rfl := Option.some.inj hn
      exact .fail ‹_›
    · cases hn

/-! ## No client is lost -/

def Pc.conns : Pc → Multiset ℕ
  | .got _ conn => {conn}
  | _ => 0

def System.inside (s : System) : Multiset ℕ := (s.fibers.map Pc.conns).sum

def connsOf (clients : List Client) : Multiset ℕ := ↑(clients.map Client.conn)

/-- Each connection that was accepted is in one place, and the kernel hands out none twice. -/
structure Conserved (s : System) : Prop where
  census : (s.accepted : Multiset ℕ) =
    connsOf s.handled+connsOf s.clients+(s.dropped : Multiset ℕ)+s.inside
  distinct : s.accepted.Nodup

theorem goto_inside {s : System} {f : ℕ} {pc : Pc} (hf : s.fibers[f]? = some pc) (pc' : Pc) :
    (s.goto f pc').inside+pc.conns = s.inside+pc'.conns :=
  sum_set Pc.conns s.fibers f pc pc' hf

theorem goto_inside_same {s : System} {f : ℕ} {pc pc' : Pc} (hf : s.fibers[f]? = some pc)
    (h : pc.conns = 0) (h' : pc'.conns = 0) : (s.goto f pc').inside = s.inside := by
  have hsum := goto_inside hf pc'
  rwa [h, h', add_zero, add_zero] at hsum

theorem connsOf_append (clients : List Client) (c : Client) :
    connsOf (clients ++ [c]) = connsOf clients+{c.conn} := by
  rw [connsOf, connsOf, List.map_append, ← Multiset.coe_add]
  rfl

theorem connsOf_cons (c : Client) (clients : List Client) :
    connsOf (c::clients) = connsOf clients+{c.conn} := by
  rw [connsOf, connsOf, List.map_cons, ← Multiset.cons_coe, Multiset.add_comm,
    Multiset.singleton_add]

theorem append_singleton (l : List ℕ) (conn : ℕ) :
    ((l ++ [conn] : List ℕ) : Multiset ℕ) = (l : Multiset ℕ)+{conn} := by
  rw [← Multiset.coe_add]
  rfl

theorem Conserved.same {s s' : System} (h : Conserved s) (haccepted : s'.accepted = s.accepted)
    (hhandled : s'.handled = s.handled) (hclients : s'.clients = s.clients)
    (hdropped : s'.dropped = s.dropped) (hinside : s'.inside = s.inside) : Conserved s' where
  census := by
    rw [haccepted, hhandled, hclients, hdropped, hinside]
    exact h.census
  distinct := by
    rw [haccepted]
    exact h.distinct

theorem Conserved.distinct_append {s : System} (h : Conserved s) {conn : ℕ}
    (hnew : conn ∉ s.accepted) : (s.accepted ++ [conn]).Nodup := by
  refine List.nodup_append.mpr ⟨h.distinct, List.nodup_singleton conn, ?_⟩
  rintro c hc d hd rfl
  exact hnew (List.mem_singleton.mp hd ▸ hc)

theorem spawn_inside (s : System) {pc : Pc} (h : pc.conns = 0) :
    ((s.fibers ++ [pc]).map Pc.conns).sum = s.inside := by
  rw [List.map_append, List.sum_append, List.map_singleton, List.sum_singleton, h, add_zero]
  rfl

theorem step_conserved {s s' : System} {a : Action} (h : Conserved s) (hs : Step s a s') :
    Conserved s' := by
  cases hs with
  | start | stop | schedule | scheduled | stopped | setRecvTimeout =>
    exact h.same rfl rfl rfl rfl rfl
  | started => exact h
  | run | close => exact h.same rfl rfl rfl rfl (spawn_inside s rfl)
  | handle hclients =>
    refine ⟨?_, h.distinct⟩
    have hcensus := h.census
    rw [hclients, connsOf_cons] at hcensus
    change (s.accepted : Multiset ℕ) = connsOf (s.handled ++ [_])+connsOf _+_+s.inside
    rw [hcensus, connsOf_append]
    abel
  | leave hf | enter hf | fail hf | shut hf | clear hf =>
    exact h.same rfl rfl rfl rfl (goto_inside_same hf rfl rfl)
  | @hand f sock conn hf =>
    refine ⟨?_, h.distinct⟩
    have hinside : (s.goto f (.check sock)).inside+{conn} = s.inside+0 := goto_inside hf _
    change (s.accepted : Multiset ℕ) =
      connsOf s.handled+connsOf (s.clients ++ [_])+(s.dropped : Multiset ℕ)+
        (s.goto f (.check sock)).inside
    rw [h.census, connsOf_append, ← add_zero s.inside, ← hinside]
    abel
  | @connect f sock conn hf hopen hnew =>
    refine ⟨?_, h.distinct_append hnew⟩
    have hinside : (s.goto f (.got sock conn)).inside+0 = s.inside+{conn} := goto_inside hf _
    change ((s.accepted ++ [conn] : List ℕ) : Multiset ℕ) =
      connsOf s.handled+connsOf s.clients+(s.dropped : Multiset ℕ)+
        (s.goto f (.got sock conn)).inside
    rw [append_singleton, h.census, ← add_zero (s.goto f (.got sock conn)).inside, hinside]
    abel
  | @drop f sock conn hf hopen hnew =>
    refine ⟨?_, h.distinct_append hnew⟩
    have hinside : (s.goto f (.check sock)).inside = s.inside := goto_inside_same hf rfl rfl
    change ((s.accepted ++ [conn] : List ℕ) : Multiset ℕ) =
      connsOf s.handled+connsOf s.clients+((s.dropped ++ [conn] : List ℕ) : Multiset ℕ)+
        (s.goto f (.check sock)).inside
    rw [append_singleton, append_singleton, h.census, hinside]
    abel

/-! ## The loops over the sockets -/

/-- One thread at most closes the sockets, and not while the owner goes over them. No loop is
behind the end of the vector. -/
structure Exclusive (s : System) : Prop where
  one : ∀ f g k l : ℕ, s.fibers[f]? = some (Pc.closing k) →
    s.fibers[g]? = some (Pc.closing l) → f = g
  apart : ∀ k l, s.owner = .starting k → Pc.closing l ∉ s.fibers
  inside : ∀ k, Pc.closing k ∈ s.fibers → k ≤ s.socks.length
  begun : ∀ k, s.owner = .starting k → k ≤ s.socks.length

theorem Exclusive.fewer {s s' : System} (h : Exclusive s)
    (hold : ∀ g k : ℕ, s'.fibers[g]? = some (Pc.closing k) → s.fibers[g]? = some (Pc.closing k))
    (howner : s'.owner = s.owner) (hsocks : s'.socks = s.socks) : Exclusive s' := by
  have hmem : ∀ k, Pc.closing k ∈ s'.fibers → Pc.closing k ∈ s.fibers := by
    intro k hk
    obtain ⟨g, hg⟩ := List.mem_iff_getElem?.mp hk
    exact List.mem_of_getElem? (hold g k hg)
  refine ⟨?_, ?_, ?_, ?_⟩
  · exact fun g g' k l hg hg' => h.one g g' k l (hold g k hg) (hold g' l hg')
  · rw [howner]
    exact fun k l ho hl => h.apart k l ho (hmem l hl)
  · rw [hsocks]
    exact fun k hk => h.inside k (hmem k hk)
  · rw [howner, hsocks]
    exact h.begun

/-- A fiber that does not close the sockets moves to where it does not either. -/
theorem Exclusive.moved {s s' : System} {f : ℕ} {pc : Pc} (h : Exclusive s)
    (hfibers : s'.fibers = s.fibers.set f pc) (hpc : ∀ k, pc ≠ .closing k)
    (howner : s'.owner = s.owner) (hsocks : s'.socks = s.socks) : Exclusive s' := by
  refine h.fewer ?_ howner hsocks
  intro g k hg
  rw [hfibers] at hg
  rcases getElem?_set_cases hg with ⟨-, hclosing⟩ | ⟨-, hg⟩
  · exact absurd hclosing (hpc k)
  · exact hg

theorem Exclusive.spawned {s s' : System} {pc : Pc} (h : Exclusive s)
    (hfibers : s'.fibers = s.fibers ++ [pc]) (hpc : ∀ k, pc ≠ .closing k)
    (howner : s'.owner = s.owner) (hsocks : s'.socks = s.socks) : Exclusive s' := by
  refine h.fewer ?_ howner hsocks
  intro g k hg
  rw [hfibers] at hg
  rcases getElem?_append_cases hg with ⟨-, hclosing⟩ | hg
  · exact absurd hclosing (hpc k)
  · exact hg

/-- The owner is in the loop of `start` where it was not, or the other way round. -/
theorem Exclusive.called {s s' : System} (h : Exclusive s) (hfibers : s'.fibers = s.fibers)
    (hsocks : s'.socks = s.socks)
    (hbegun : ∀ k, s'.owner = .starting k →
      k ≤ s.socks.length ∧ ∀ l, Pc.closing l ∉ s.fibers) : Exclusive s' where
  one := by
    rw [hfibers]
    exact h.one
  apart k l ho := by
    rw [hfibers]
    exact (hbegun k ho).2 l
  inside := by
    rw [hfibers, hsocks]
    exact h.inside
  begun k ho := by
    rw [hsocks]
    exact (hbegun k ho).1

theorem step_exclusive {s s' : System} {a : Action} (h : Exclusive s) (hg : Alone s a)
    (hs : Step s a s') : Exclusive s' := by
  cases hs with
  | start ho hstop =>
    refine h.called rfl rfl ?_
    intro k hk
    obtain rfl := Owner.starting.inj hk
    exact ⟨Nat.zero_le _, hg hstop⟩
  | started => exact h
  | setRecvTimeout | handle => exact h.fewer (fun _ _ hg => hg) rfl rfl
  | stop | stopped | scheduled => exact h.called rfl rfl nofun
  | @schedule k sock ho hk =>
    refine h.called rfl rfl ?_
    intro l hl
    obtain rfl := Owner.starting.inj hl
    exact ⟨(List.getElem?_eq_some_iff.mp hk).1, fun m => h.apart k m ho⟩
  | run => exact h.spawned rfl nofun rfl rfl
  | close htasks =>
    obtain ⟨howner, hnone⟩ := hg (by rw [htasks]; rfl)
    have hnew : ∀ f k : ℕ, (s.fibers ++ [Pc.closing 0])[f]? = some (Pc.closing k) →
        f = s.fibers.length ∧ k = 0 := by
      intro f k hf
      rcases getElem?_append_cases hf with ⟨hf, hk⟩ | hf
      · exact ⟨hf, (Pc.closing.inj hk).symm⟩
      · exact absurd (List.mem_of_getElem? hf) (hnone k)
    refine ⟨?_, fun k l ho => absurd ho (howner k), ?_, fun k ho => absurd ho (howner k)⟩
    · intro f g k l hf hg
      rw [(hnew f k hf).1, (hnew g l hg).1]
    · intro k hk
      obtain ⟨f, hf⟩ := List.mem_iff_getElem?.mp hk
      rw [(hnew f k hf).2]
      exact Nat.zero_le _
  | leave | enter | hand | connect | drop | fail => exact h.moved rfl nofun rfl rfl
  | @shut f k sock hf hk =>
    have hold : ∀ g l : ℕ, (s.fibers.set f (.closing (k+1)))[g]? = some (Pc.closing l) →
        g = f ∧ l = k+1 := by
      intro g l hg
      rcases getElem?_set_cases hg with ⟨hg, hl⟩ | ⟨hne, hg⟩
      · exact ⟨hg, (Pc.closing.inj hl).symm⟩
      · exact absurd (h.one g f l k hg hf) hne
    refine ⟨?_, ?_, ?_, h.begun⟩
    · intro g g' l l' hg hg'
      rw [(hold g l hg).1, (hold g' l' hg').1]
    · exact fun m l ho => absurd (List.mem_of_getElem? hf) (h.apart m k ho)
    · intro l hl
      obtain ⟨g, hg⟩ := List.mem_iff_getElem?.mp hl
      rw [(hold g l hg).2]
      exact (List.getElem?_eq_some_iff.mp hk).1
  | @clear f k hf hk =>
    have hnone : ∀ g l : ℕ, (s.fibers.set f .done)[g]? ≠ some (Pc.closing l) := by
      intro g l hg
      rcases getElem?_set_cases hg with ⟨-, hl⟩ | ⟨hne, hg⟩
      · cases hl
      · exact hne (h.one g f l k hg hf)
    have hmem : ∀ l, Pc.closing l ∉ s.fibers.set f .done := by
      intro l hl
      obtain ⟨g, hg⟩ := List.mem_iff_getElem?.mp hl
      exact hnone g l hg
    refine ⟨fun g _ l _ hg => absurd hg (hnone g l), fun _ l _ => hmem l,
      fun l hl => absurd hl (hmem l), ?_⟩
    exact fun m ho => absurd (List.mem_of_getElem? hf) (h.apart m k ho)

/-! ## Winding down -/

/-- The owner does not call `start` or `stop`. -/
def Unstarted (s : System) (a : Action) : Prop := Alone s a ∧ a ≠ .start ∧ a ≠ .stop

def Action.works : Action → Bool
  | .setRecvTimeout _ => false
  | _ => true

/-- What a fiber has still to do once the server is stopped, the task that it leaves behind
included, when there are `n` sockets. -/
def Pc.left (n : ℕ) : Pc → ℕ
  | .check _ => 1
  | .accept _ => 4
  | .got _ _ => 3
  | .closing k => n-k+1
  | .done => 0

def Task.left (n : ℕ) : Task → ℕ
  | .accept _ => 2
  | .close => n+2

def System.left (s : System) : ℕ :=
  (s.tasks.map (Task.left s.socks.length)).sum+(s.fibers.map (Pc.left s.socks.length)).sum+
    s.clients.length

theorem tasks_left_le (tasks : List Task) (n : ℕ) :
    (tasks.map (Task.left 0)).sum ≤ (tasks.map (Task.left n)).sum := by
  refine List.sum_le_sum fun task _ => ?_
  cases task <;> simp only [Task.left] <;> omega

theorem fibers_left_le (fibers : List Pc) (n : ℕ) :
    (fibers.map (Pc.left 0)).sum ≤ (fibers.map (Pc.left n)).sum := by
  refine List.sum_le_sum fun pc _ => ?_
  cases pc <;> simp only [Pc.left] <;> omega

/-- A fiber that leaves less to do than it had, the clients that it hands over included. -/
theorem moved_left {s s' : System} {f : ℕ} {pc pc' : Pc} (hf : s.fibers[f]? = some pc)
    (hfibers : s'.fibers = s.fibers.set f pc') (htasks : s'.tasks = s.tasks)
    (hsocks : s'.socks = s.socks)
    (hleft : pc'.left s.socks.length+s'.clients.length <
      pc.left s.socks.length+s.clients.length) : s'.left < s.left := by
  have hl := sum_set (Pc.left s.socks.length) s.fibers f pc pc' hf
  rw [System.left, System.left, hfibers, htasks, hsocks]
  omega

theorem spawned_left {s : System} {tasks : List Task} {task : Task} {pc : Pc}
    (htasks : s.tasks = task::tasks) (hleft : pc.left s.socks.length < task.left s.socks.length) :
    { s with tasks := tasks, fibers := s.fibers ++ [pc] }.left < s.left := by
  simp only [System.left, htasks, List.map_cons, List.sum_cons, List.map_append, List.sum_append,
    List.map_nil, List.sum_nil]
  omega

theorem step_left {s s' : System} {a : Action} (hstop : s.isStop = true) (hidle : s.owner = .idle)
    (hg : Unstarted s a) (hs : Step s a s') :
    s'.isStop = true ∧ s'.owner = .idle ∧ (if a.works then 1 else 0)+s'.left ≤ s.left := by
  cases hs with
  | start | started => exact absurd rfl hg.2.1
  | stop => exact absurd rfl hg.2.2
  | schedule ho | scheduled ho | stopped ho =>
    rw [hidle] at ho
    cases ho
  | setRecvTimeout => exact ⟨hstop, hidle, (zero_add _).le⟩
  | enter hf h =>
    rw [h] at hstop
    cases hstop
  | run h | close h =>
    refine ⟨hstop, hidle, (Nat.add_comm _ _).trans_le (spawned_left h ?_)⟩
    simp [Pc.left, Task.left]
  | handle h =>
    refine ⟨hstop, hidle, ?_⟩
    simp only [System.left, h, List.length_cons, Action.works, if_true]
    omega
  | leave hf | connect hf | drop hf | fail hf =>
    refine ⟨hstop, hidle, (Nat.add_comm _ _).trans_le (moved_left hf rfl rfl rfl ?_)⟩
    simp [Pc.left, System.goto]
  | hand hf =>
    refine ⟨hstop, hidle, (Nat.add_comm _ _).trans_le (moved_left hf rfl rfl rfl ?_)⟩
    simp only [Pc.left, List.length_append, List.length_singleton]
    omega
  | shut hf hk =>
    refine ⟨hstop, hidle, (Nat.add_comm _ _).trans_le (moved_left hf rfl rfl rfl ?_)⟩
    have hlt := (List.getElem?_eq_some_iff.mp hk).1
    simp only [Pc.left, System.goto]
    omega
  | @clear f k hf hk =>
    refine ⟨hstop, hidle, ?_⟩
    have hl := sum_set (Pc.left s.socks.length) s.fibers f (.closing k) .done hf
    have ht := tasks_left_le s.tasks s.socks.length
    have hfib := fibers_left_le (s.fibers.set f .done) s.socks.length
    simp only [System.left, System.goto, Action.works, if_true, List.length_nil, Pc.left] at hl ⊢
    omega

/-- The clients that a fiber can still take where nobody enters `accept`. -/
def System.waits (s : System) (f : ℕ) : ℕ :=
  match s.fibers[f]? with
  | some (.accept _) => 1
  | _ => 0

/-- `accept` returns a connection to the fiber `f`. -/
def Action.connects (f : ℕ) : Action → Bool
  | .connect g _ _ => g == f
  | _ => false

theorem waits_set {s : System} {f g : ℕ} {pc : Pc} (hpc : ∀ sock, pc ≠ .accept sock) :
    (s.goto f pc).waits g ≤ if g = f then 0 else s.waits g := by
  simp only [System.waits, System.goto]
  split
  · rename_i sock hg
    rcases getElem?_set_cases hg with ⟨-, hacc⟩ | ⟨hne, hg⟩
    · exact absurd hacc (hpc sock)
    · rw [if_neg hne, hg]
  · exact Nat.zero_le _

theorem waits_spawned {s s' : System} (pc : Pc) (hpc : ∀ sock, pc ≠ .accept sock)
    (hfibers : s'.fibers = s.fibers ++ [pc]) (g : ℕ) : s'.waits g ≤ s.waits g := by
  simp only [System.waits, hfibers]
  split
  · rename_i sock hg
    rcases getElem?_append_cases hg with ⟨-, hacc⟩ | hg
    · exact absurd hacc (hpc sock)
    · rw [hg]
  · exact Nat.zero_le _

/-- A stopped server takes one more client at most with each fiber that is inside `accept`. -/
theorem step_waits {s s' : System} {a : Action} (hstop : s.isStop = true) (hs : Step s a s')
    (g : ℕ) : (if a.connects g then 1 else 0)+s'.waits g ≤ s.waits g := by
  have hmoved : ∀ {f : ℕ} {pc : Pc}, (∀ sock, pc ≠ .accept sock) →
      (s.goto f pc).waits g ≤ s.waits g := by
    intro f pc hpc
    refine (waits_set hpc).trans ?_
    split_ifs
    · exact Nat.zero_le _
    · exact le_rfl
  have htaken : ∀ (f sock : ℕ) (pc : Pc), s.fibers[f]? = some (.accept sock) →
      (∀ sock, pc ≠ .accept sock) →
      (if (f == g) = true then 1 else 0)+(s.goto f pc).waits g ≤ s.waits g := by
    intro f sock pc hf hpc
    have hwaits := waits_set (s := s) (f := f) (g := g) hpc
    by_cases hfg : f = g
    · subst hfg
      rw [if_pos rfl] at hwaits
      have hone : s.waits f = 1 := by rw [System.waits, hf]
      rw [hone, if_pos (beq_self_eq_true f)]
      omega
    · rw [if_neg fun h => hfg h.symm] at hwaits
      rw [if_neg (by simpa using hfg), zero_add]
      exact hwaits
  cases hs with
  | start | started | stop | schedule | scheduled | stopped | setRecvTimeout | handle =>
    exact (zero_add _).le
  | @run sock tasks => exact (zero_add _).le.trans (waits_spawned (.check sock) nofun rfl g)
  | close => exact (zero_add _).le.trans (waits_spawned (.closing 0) nofun rfl g)
  | enter hf h =>
    rw [h] at hstop
    cases hstop
  | leave | hand | shut | clear | fail => exact (zero_add _).le.trans (hmoved nofun)
  | @connect f sock conn hf => exact htaken f sock (.got sock conn) hf nofun
  | @drop f sock conn hf => exact htaken f sock (.check sock) hf nofun

/-! ## Closing -/

def Closing (s : System) : Prop :=
  ∀ k, Pc.closing k ∈ s.fibers → ∀ sock ∈ s.socks, s.isOpen sock = true → sock ∈ s.socks.drop k

/-- The sockets of `bind` that are open are still known to the server. -/
def Known (socks : List ℕ) (s : System) : Prop :=
  ∀ sock ∈ socks, s.isOpen sock = true → sock ∈ s.socks

/-- The socket is closed, or the task of `stop` will close it. -/
def Doomed (sock : ℕ) (s : System) : Prop :=
  s.isOpen sock = true →
    (sock ∈ s.socks ∧ Task.close ∈ s.tasks) ∨
      ∃ k, Pc.closing k ∈ s.fibers ∧ sock ∈ s.socks.drop k

def Clearing (s : System) : Prop :=
  s.socks ≠ [] → Task.close ∈ s.tasks ∨ ∃ k, Pc.closing k ∈ s.fibers

theorem mem_goto {s : System} {f : ℕ} {pc' : Pc} (hpc' : ∀ k, pc' ≠ .closing k) {k : ℕ}
    (h : Pc.closing k ∈ (s.goto f pc').fibers) : Pc.closing k ∈ s.fibers := by
  rcases List.mem_or_eq_of_mem_set h with h | h
  · exact h
  · exact absurd h.symm (hpc' k)

theorem drop_of_some {l : List ℕ} {k x : ℕ} (h : l[k]? = some x) :
    l.drop k = x::l.drop (k+1) := by
  obtain ⟨hk, rfl⟩ := List.getElem?_eq_some_iff.mp h
  exact List.drop_eq_getElem_cons hk

theorem drop_of_none {l : List ℕ} {k : ℕ} (h : l[k]? = none) : l.drop k = [] :=
  List.drop_eq_nil_of_le (List.getElem?_eq_none_iff.mp h)

theorem update_open {s : System} {x sock : ℕ}
    (hopen : Function.update s.isOpen x false sock = true) : sock ≠ x ∧ s.isOpen sock = true := by
  have hne : sock ≠ x := by
    rintro rfl
    rw [Function.update_self] at hopen
    cases hopen
  rw [Function.update_of_ne hne] at hopen
  exact ⟨hne, hopen⟩

theorem step_closing {s s' : System} {a : Action} (h : Closing s) (hs : Step s a s') :
    Closing s' := by
  cases hs with
  | start | started | stop | schedule | scheduled | stopped | setRecvTimeout | handle => exact h
  | run =>
    intro k hk
    rcases List.mem_append.mp hk with hk | hk
    · exact h k hk
    · cases List.mem_singleton.mp hk
  | close =>
    intro k hk
    rcases List.mem_append.mp hk with hk | hk
    · exact h k hk
    · obtain rfl := Pc.closing.inj (List.mem_singleton.mp hk)
      exact fun sock hsock _ => hsock
  | leave | enter | hand | connect | drop | fail =>
    intro k hk
    refine h k (mem_goto ?_ hk)
    exact fun _ => nofun
  | @shut f k x hf hx =>
    intro k' hk' sock hsock hopen
    obtain ⟨hne, hbefore⟩ := update_open hopen
    rcases List.mem_or_eq_of_mem_set hk' with hk' | heq
    · exact h k' hk' sock hsock hbefore
    · obtain rfl := Pc.closing.inj heq
      have hmem := h k (List.mem_of_getElem? hf) sock hsock hbefore
      rw [drop_of_some hx] at hmem
      exact (List.mem_cons.mp hmem).resolve_left hne
  | clear =>
    intro k hk sock hsock
    cases hsock

/-- When a fiber has nothing left to close, no socket of the server is open. -/
theorem all_closed {s : System} (h : Closing s) {f k : ℕ} (hf : s.fibers[f]? = some (.closing k))
    (hk : s.socks[k]? = none) {sock : ℕ} (hsock : sock ∈ s.socks) : s.isOpen sock ≠ true := by
  intro hopen
  have hmem := h k (List.mem_of_getElem? hf) sock hsock hopen
  rw [drop_of_none hk] at hmem
  cases hmem

theorem step_known {socks : List ℕ} {s s' : System} {a : Action} (h : Known socks s)
    (hclosing : Closing s) (hs : Step s a s') : Known socks s' := by
  cases hs with
  | shut => exact fun sock hsock hopen => h sock hsock (update_open hopen).2
  | clear hf hk =>
    intro sock hsock hopen
    exact absurd hopen (all_closed hclosing hf hk (h sock hsock hopen))
  | _ => exact h

/-- A fiber that is closing sockets is not moved by the others. -/
theorem closing_stays {s : System} {f k : ℕ} {pc pc' : Pc} (hf : s.fibers[f]? = some pc)
    (hpc : pc ≠ .closing k) (h : Pc.closing k ∈ s.fibers) :
    Pc.closing k ∈ (s.goto f pc').fibers :=
  mem_set_of_ne hf h hpc.symm

theorem step_doomed {sock : ℕ} {s s' : System} {a : Action} (h : Doomed sock s)
    (hclosing : Closing s) (hs : Step s a s') : Doomed sock s' := by
  have hspawn (pc : Pc) (hk : ∃ k, Pc.closing k ∈ s.fibers ∧ sock ∈ s.socks.drop k) :
      ∃ k, Pc.closing k ∈ s.fibers ++ [pc] ∧ sock ∈ s.socks.drop k := by
    obtain ⟨k, hmem, hsock⟩ := hk
    exact ⟨k, List.mem_append_left _ hmem, hsock⟩
  cases hs with
  | schedule | stopped =>
    intro hopen
    exact (h hopen).imp_left fun hfirst => ⟨hfirst.1, List.mem_append_left _ hfirst.2⟩
  | start | started | stop | scheduled | setRecvTimeout | handle => exact h
  | @run x tasks htasks =>
    intro hopen
    refine (h hopen).imp (fun hfirst => ⟨hfirst.1, ?_⟩) (hspawn _)
    rw [htasks] at hfirst
    exact (List.mem_cons.mp hfirst.2).resolve_left nofun
  | close =>
    intro hopen
    right
    rcases h hopen with hfirst | hsecond
    · exact ⟨0, List.mem_append_right _ (.head _), hfirst.1⟩
    · exact hspawn _ hsecond
  | leave hf | enter hf | hand hf | connect hf | drop hf | fail hf =>
    intro hopen
    refine (h hopen).imp_right ?_
    rintro ⟨k, hmem, hsock⟩
    exact ⟨k, closing_stays hf nofun hmem, hsock⟩
  | @shut f k x hf hx =>
    intro hopen
    obtain ⟨hne, hopen⟩ := update_open hopen
    refine (h hopen).imp_right ?_
    rintro ⟨l, hmem, hsock⟩
    by_cases heq : l = k
    · subst heq
      rw [drop_of_some hx] at hsock
      exact ⟨l+1, mem_set_self hf _, (List.mem_cons.mp hsock).resolve_left hne⟩
    · exact ⟨l, closing_stays hf (fun h => heq (Pc.closing.inj h).symm) hmem, hsock⟩
  | clear hf hk =>
    intro hopen
    have hsock : sock ∈ s.socks := by
      rcases h hopen with hfirst | ⟨l, -, hsock⟩
      · exact hfirst.1
      · exact List.mem_of_mem_drop hsock
    exact absurd hopen (all_closed hclosing hf hk hsock)

theorem step_clearing {s s' : System} {a : Action} (h : Clearing s) (hs : Step s a s') :
    Clearing s' := by
  cases hs with
  | schedule | stopped => exact fun hne => (h hne).imp_left (List.mem_append_left _)
  | start | started | stop | scheduled | setRecvTimeout | handle => exact h
  | @run x tasks htasks =>
    intro hne
    refine (h hne).imp (fun hfirst => ?_) fun ⟨k, hmem⟩ => ⟨k, List.mem_append_left _ hmem⟩
    rw [htasks] at hfirst
    exact (List.mem_cons.mp hfirst).resolve_left nofun
  | close => exact fun _ => .inr ⟨0, List.mem_append_right _ (.head _)⟩
  | leave hf | enter hf | hand hf | connect hf | drop hf | fail hf =>
    exact fun hne => (h hne).imp_right fun ⟨k, hmem⟩ => ⟨k, closing_stays hf nofun hmem⟩
  | @shut f k x hf => exact fun _ => .inr ⟨k+1, mem_set_self hf _⟩
  | clear => exact fun hne => absurd rfl hne

/-! ## Runs -/

structure Sound (socks : List ℕ) (s : System) : Prop where
  conserved : Conserved s
  exclusive : Exclusive s
  closing : Closing s
  known : Known socks s
  stopping : s.owner = .stopping → s.isStop = true

/-- Only `start` takes the flag back, and not within a call of `stop`. -/
theorem step_stopping {s s' : System} {a : Action}
    (h : s.owner = .stopping → s.isStop = true) (hs : Step s a s') :
    s'.owner = .stopping → s'.isStop = true := by
  cases hs with
  | start | schedule | scheduled | stopped => exact nofun
  | stop => exact fun _ => rfl
  | _ => exact h

theorem step_sound {socks : List ℕ} {s s' : System} {a : Action} (h : Sound socks s)
    (hg : Alone s a) (hs : Step s a s') : Sound socks s' where
  conserved := step_conserved h.conserved hs
  exclusive := step_exclusive h.exclusive hg hs
  closing := step_closing h.closing hs
  known := step_known h.known h.closing hs
  stopping := step_stopping h.stopping hs

theorem init_sound (socks : List ℕ) (recvTimeout : ℕ) :
    Sound socks (System.init socks recvTimeout) where
  conserved := ⟨rfl, List.nodup_nil⟩
  exclusive := ⟨nofun, nofun, nofun, nofun⟩
  closing := fun _ => nofun
  known := fun _ hsock _ => hsock
  stopping := nofun

def System.Idle (s : System) : Prop :=
  s.tasks = [] ∧ (∀ pc ∈ s.fibers, pc = .done) ∧ s.clients = []

/-- The server behind a call of `stop`, as long as nobody starts it again. -/
structure Stopping (socks : List ℕ) (s : System) : Prop where
  sound : Sound socks s
  stopped : s.isStop = true
  idle : s.owner = .idle
  doomed : ∀ sock ∈ socks, Doomed sock s
  clearing : Clearing s

theorem stop_stopping {socks : List ℕ} {s s' : System} (h : Sound socks s)
    (howner : s.owner = .stopping) (hn : next s .owner = some s') : Stopping socks s' := by
  have hstep := Step.of_next hn
  have hsound := step_sound h (a := .owner) trivial hstep
  simp only [next, howner, System.call] at hn
  obtain rfl := Option.some.inj hn
  have hclose : Task.close ∈ s.tasks ++ [.close] := List.mem_append_right _ (.head _)
  exact {
    sound := hsound
    stopped := h.stopping howner
    idle := rfl
    doomed := fun sock hsock hopen => .inl ⟨h.known sock hsock hopen, hclose⟩
    clearing := fun _ => .inl hclose }

theorem idle_closed {socks : List ℕ} {s : System} (h : Stopping socks s) (hidle : s.Idle) :
    s.socks = [] ∧ (∀ sock ∈ socks, s.isOpen sock = false) ∧
      s.accepted.Perm (s.handled.map Client.conn ++ s.dropped) := by
  obtain ⟨htasks, hfibers, hclients⟩ := hidle
  have hclose : Task.close ∉ s.tasks := by
    rw [htasks]
    exact List.not_mem_nil
  have hclosing (k : ℕ) : Pc.closing k ∉ s.fibers := fun hmem => by
    cases hfibers _ hmem
  refine ⟨?_, ?_, ?_⟩
  · by_contra hne
    rcases h.clearing hne with hmem | ⟨k, hmem⟩
    · exact hclose hmem
    · exact hclosing k hmem
  · intro sock hsock
    apply Bool.eq_false_of_not_eq_true
    intro hopen
    rcases h.doomed sock hsock hopen with ⟨-, hmem⟩ | ⟨k, hmem, -⟩
    · exact hclose hmem
    · exact hclosing k hmem
  · have hinside : s.inside = 0 := by
      apply List.sum_eq_zero
      intro conns hconns
      obtain ⟨pc, hpc, rfl⟩ := List.mem_map.mp hconns
      rw [hfibers pc hpc]
      rfl
    have hcensus := h.sound.conserved.census
    rw [hinside, hclients, add_zero] at hcensus
    apply Multiset.coe_eq_coe.mp
    rw [hcensus, ← Multiset.coe_add]
    exact congrArg (· + _) (add_zero _)

theorem winding_down {socks : List ℕ} {as : List Action} {s s' : System}
    (h : Stopping socks s) (hrun : Along next Unstarted as s s') : Stopping socks s' ∧
      as.countP Action.works+s'.left ≤ s.left ∧
      ∀ f, as.countP (Action.connects f)+s'.waits f ≤ s.waits f := by
  induction hrun with
  | nil s => exact ⟨h, (zero_add _).le, fun f => (zero_add _).le⟩
  | cons hg hn _ ih =>
    have hs := Step.of_next hn
    obtain ⟨hstopped, hidle, hleft⟩ := step_left h.stopped h.idle hg hs
    have hwaits := step_waits h.stopped hs
    obtain ⟨hend, hsteps, hclients⟩ := ih {
      sound := step_sound h.sound hg.1 hs
      stopped := hstopped
      idle := hidle
      doomed := fun sock hsock => step_doomed (h.doomed sock hsock) h.sound.closing hs
      clearing := step_clearing h.clearing hs }
    refine ⟨hend, ?_, fun f => ?_⟩
    · rw [List.countP_cons]
      omega
    · have hf := hclients f
      have hfirst := hwaits f
      rw [List.countP_cons]
      omega

/-- However the calls of the owner, the workers and the kernel interleave, as long as the loops over
the sockets do not race, a connection that was accepted is in one place only: handed to
`handleClient` once, on its way there, or forgotten for want of an `FdCtx`; and no loop is behind
the end of its vector. Behind `stop`, unless the server is started again, the workers have a bounded
number of steps to go, and each fiber that is inside `accept` at this moment takes one more client
at most, and no other fiber any. When nothing is left to do, all sockets of `bind` are closed and
all clients have been handled. -/
theorem clients_handled_once (socks : List ℕ) (recvTimeout : ℕ) (s : System)
    (h : Reaches next Alone (System.init socks recvTimeout) s) :
    ((s.accepted : Multiset ℕ) =
      connsOf s.handled+connsOf s.clients+(s.dropped : Multiset ℕ)+s.inside ∧
        s.accepted.Nodup) ∧
    ((∀ k, Pc.closing k ∈ s.fibers → k ≤ s.socks.length) ∧
      ∀ k, s.owner = .starting k → k ≤ s.socks.length) ∧
    ∀ s₁, s.owner = .stopping → next s .owner = some s₁ → ∀ as s', Along next Unstarted as s₁ s' →
      as.countP Action.works+s'.left ≤ s₁.left ∧
      (∀ f, as.countP (Action.connects f) ≤ s₁.waits f) ∧
      (s'.Idle → s'.socks = [] ∧ (∀ sock ∈ socks, s'.isOpen sock = false) ∧
        s'.accepted.Perm (s'.handled.map Client.conn ++ s'.dropped)) := by
  have hsound : Sound socks s := h.invariant (init_sound socks recvTimeout)
    fun _ _ _ hs hg hn => step_sound hs hg (Step.of_next hn)
  refine ⟨⟨hsound.conserved.census, hsound.conserved.distinct⟩,
    ⟨hsound.exclusive.inside, hsound.exclusive.begun⟩, ?_⟩
  intro s₁ howner hstop as s' hrun
  obtain ⟨hend, hsteps, hclients⟩ := winding_down (stop_stopping hsound howner hstop) hrun
  exact ⟨hsteps, fun f => (Nat.le_add_right _ _).trans (hclients f), idle_closed hend⟩

theorem client_handled_once : ∃ s s₁ s',
    after next [.start, .owner, .owner, .run, .resume 0, .connect 0 7 true, .resume 0, .resume 0,
      .stop] (System.init [3] 100) = some s ∧ s.owner = .stopping ∧ next s .owner = some s₁ ∧
    after next [.connect 0 8 true, .resume 0, .handle, .resume 0, .handle, .run, .resume 1,
      .resume 1] s₁ = some s' ∧ s'.Idle ∧
    s'.socks = [] ∧ (∀ sock ∈ [3], s'.isOpen sock = false) ∧
    s'.accepted.Perm (s'.handled.map Client.conn ++ s'.dropped) := by
  have hreach : Reaches next Alone (System.init [3] 100) _ :=
    Reaches.start.step (a := Action.start) (fun _ _ => List.not_mem_nil) rfl
  have hloop := (hreach.step (a := Action.owner) trivial rfl).step (a := Action.owner) trivial rfl
  have haccept := ((hloop.step (a := Action.run) nofun rfl).step
    (a := Action.resume 0) trivial rfl).step (a := Action.connect 0 7 true) trivial rfl
  have hback := (haccept.step (a := Action.resume 0) trivial rfl).step
    (a := Action.resume 0) trivial rfl
  have hstop := hback.step (a := Action.stop) trivial rfl
  have hfree : ∀ k, Pc.closing k ∉ [Pc.done] := fun k hk => nomatch List.mem_singleton.mp hk
  have hrun := (clients_handled_once [3] 100 _ hstop).2.2 _ rfl rfl
    [.connect 0 8 true, .resume 0, .handle, .resume 0, .handle, .run, .resume 1, .resume 1] _
    (.cons ⟨trivial, nofun, nofun⟩ rfl (.cons ⟨trivial, nofun, nofun⟩ rfl
      (.cons ⟨trivial, nofun, nofun⟩ rfl (.cons ⟨trivial, nofun, nofun⟩ rfl
      (.cons ⟨trivial, nofun, nofun⟩ rfl (.cons ⟨fun _ => ⟨nofun, hfree⟩, nofun, nofun⟩ rfl
      (.cons ⟨trivial, nofun, nofun⟩ rfl (.cons ⟨trivial, nofun, nofun⟩ rfl (.nil _)))))))))
  refine ⟨_, _, _, rfl, rfl, rfl, rfl, ?_, hrun.2.2 ?_⟩ <;> exact ⟨rfl, by decide, rfl⟩

/-- Behind two calls of `stop` the one loop goes on in the vector that the other has cleared. -/
theorem second_stop_races : ∃ s,
    after next [.stop, .owner, .stop, .owner, .run, .run, .resume 0, .resume 1, .resume 1,
      .resume 1] (System.init [3, 4] 100) = some s ∧
    s.fibers = [.closing 1, .done] ∧ s.socks = [] :=
  ⟨_, rfl, rfl, rfl⟩

end Lamb.TcpServing
