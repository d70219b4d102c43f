import Lamb.Library.Runs
import Lamb.Library.Slots
import Mathlib.Algebra.Order.Group.Nat

/-!
# The pool of HTTP connections

`getConnection` and `ReleasePtr` run on any number of threads. Each call is cut at
the points where another thread can come in: the list is only touched under the
mutex, the counter `m_total` is updated outside of it. Connections are numbered in
the order of their creation. Wherever a connection is, it is in one place: in the
list, handed out, deleted, or in the hands of one call. Counting the places shows
that the counter is right whenever no call is under way.
-/

set_option autoImplicit false

namespace Lamb.ConnectionPool
open Lamb.Runs

structure Config where
  maxAliveTime : UInt32
  maxRequest : UInt32

/-- The members of `HttpConnection` that the pool uses. -/
structure HttpConnection where
  createTime : ℕ
  request : ℕ
  deriving DecidableEq

/-- `new HttpConnection`. -/
def HttpConnection.new : HttpConnection := ⟨0, 0⟩

/-- Where a call stands. The first five are `getConnection`: in front of the lock
with its clock reading, behind the scan, behind the deletion of the `n` invalid
connections, behind the update of the counter, and with a new connection that is not
counted yet. The others are `ReleasePtr`: entered, about to delete, about to count
down, and about to take the lock. -/
inductive Phase where
  | entered (now : ℕ)
  | scanned (ptr : Option ℕ) (invalid : List ℕ)
  | deleted (ptr : Option ℕ) (n : ℕ)
  | settled (ptr : Option ℕ)
  | created (c : ℕ)
  | releasing (c : ℕ)
  | discarding (c : ℕ)
  | uncounted
  | keeping (c : ℕ)
  | done
  deriving DecidableEq, Repr

/-- `now` is the value of `GetCurrentMS`. The fields from `out` on are not in the
code: the connections handed out and those deleted, how often and since when. -/
structure Pool where
  conns : List ℕ
  total : ℤ
  heap : ℕ → HttpConnection
  made : ℕ
  calls : List Phase
  now : ℕ
  out : List ℕ
  freed : List ℕ
  handouts : ℕ → ℕ
  born : ℕ → ℕ

def Pool.init (now : ℕ) : Pool where
  conns := []
  total := 0
  heap := fun _ => HttpConnection.new
  made := 0
  calls := []
  now := now
  out := []
  freed := []
  handouts := fun _ => 0
  born := fun _ => 0

/-- `int32_t` arithmetic of the counter. -/
def wrap (n : ℤ) : ℤ := n.bmod 4294967296

def Invalid (cfg : Config) (heap : ℕ → HttpConnection) (connected : ℕ → Bool) (now c : ℕ) :
    Prop :=
  connected c = false ∨ now < (heap c).createTime+cfg.maxAliveTime.toNat

instance decidableInvalid (cfg : Config) (heap : ℕ → HttpConnection) (connected : ℕ → Bool)
    (now c : ℕ) : Decidable (Invalid cfg heap connected now c) :=
  inferInstanceAs (Decidable (_ ∨ _))

/-- The loop under the lock pops connections up to the first valid one. -/
def scan (cfg : Config) (heap : ℕ → HttpConnection) (connected : ℕ → Bool) (now : ℕ) :
    List ℕ → List ℕ × List ℕ × Option ℕ
  | [] => ([], [], none)
  | c::rest =>
    if Invalid cfg heap connected now c then
      let r := scan cfg heap connected now rest
      (r.1, c::r.2.1, r.2.2)
    else (rest, [], some c)

/-- `ReleasePtr` deletes the connection, whose uses it has just counted. -/
def Spent (cfg : Config) (conn : HttpConnection) (connected : Bool) (now : ℕ) : Prop :=
  connected = false ∨ now ≤ conn.createTime+cfg.maxAliveTime.toNat ∨
    cfg.maxRequest.toNat ≤ conn.request

instance decidableSpent (cfg : Config) (conn : HttpConnection) (connected : Bool) (now : ℕ) :
    Decidable (Spent cfg conn connected now) :=
  inferInstanceAs (Decidable (_ ∨ _))

/-- `fail` is a failed address lookup, socket creation or connect; `hand` returns
the connection to the caller, `release` is the end of the last pointer to it. -/
inductive Action where
  | clock (now : ℕ)
  | enter
  | scan (t : ℕ) (connected : ℕ → Bool)
  | delete (t : ℕ)
  | subtract (t : ℕ)
  | fail (t : ℕ)
  | create (t : ℕ)
  | count (t : ℕ)
  | hand (t : ℕ)
  | release (c : ℕ)
  | judge (t : ℕ) (connected : Bool)
  | discard (t : ℕ)
  | uncount (t : ℕ)
  | keep (t : ℕ)

def Pool.goto (s : Pool) (t : ℕ) (p : Phase) : Pool := { s with calls := s.calls.set t p }

/-- `++ptr->m_request`. -/
def bump (heap : ℕ → HttpConnection) (c : ℕ) : ℕ → HttpConnection :=
  Function.update heap c { heap c with request := (heap c).request+1 }

def next (cfg : Config) (s : Pool) : Action → Option Pool
  | .clock now => some { s with now := now }
  | .enter => some { s with calls := s.calls ++ [.entered s.now] }
  | .scan t connected =>
    match s.calls[t]? with
    | some (.entered now) =>
      let r := scan cfg s.heap connected now s.conns
      some ({ s with conns := r.1 }.goto t (.scanned r.2.2 r.2.1))
    | _ => none
  | .delete t =>
    match s.calls[t]? with
    | some (.scanned ptr invalid) =>
      some ({ s with freed := invalid ++ s.freed }.goto t (.deleted ptr invalid.length))
    | _ => none
  | .subtract t =>
    match s.calls[t]? with
    | some (.deleted ptr n) => some ({ s with total := wrap (s.total-n) }.goto t (.settled ptr))
    | _ => none
  | .fail t =>
    match s.calls[t]? with
    | some (.settled none) => some (s.goto t .done)
    | _ => none
  | .create t =>
    match s.calls[t]? with
    | some (.settled none) =>
      some ({ s with
        heap := Function.update s.heap s.made HttpConnection.new
        made := s.made+1
        born := Function.update s.born s.made s.now }.goto t (.created s.made))
    | _ => none
  | .count t =>
    match s.calls[t]? with
    | some (.created c) =>
      some ({ s with total := wrap (s.total+1) }.goto t (.settled (some c)))
    | _ => none
  | .hand t =>
    match s.calls[t]? with
    | some (.settled (some c)) =>
      some ({ s with
        out := c::s.out
        handouts := Function.update s.handouts c (s.handouts c+1) }.goto t .done)
    | _ => none
  | .release c =>
    if c ∈ s.out then
      some { s with out := s.out.erase c, calls := s.calls ++ [.releasing c] }
    else none
  | .judge t connected =>
    match s.calls[t]? with
    | some (.releasing c) =>
      let heap := bump s.heap c
      some ({ s with heap := heap }.goto t
        (if Spent cfg (heap c) connected s.now then .discarding c else .keeping c))
    | _ => none
  | .discard t =>
    match s.calls[t]? with
    | some (.discarding c) => some ({ s with freed := c::s.freed }.goto t .uncounted)
    | _ => none
  | .uncount t =>
    match s.calls[t]? with
    | some .uncounted => some ({ s with total := wrap (s.total-1) }.goto t .done)
    | _ => none
  | .keep t =>
    match s.calls[t]? with
    | some (.keeping c) => some ({ s with conns := s.conns ++ [c] }.goto t .done)
    | _ => none

def Quiet (s : Pool) : Prop := ∀ p ∈ s.calls, p = .done

attribute [local simp] next

instance decidableQuiet (s : Pool) : Decidable (Quiet s) :=
  inferInstanceAs (Decidable (∀ p ∈ s.calls, p = .done))

/-! ## Where the connections are -/

/-- The connections in the hands of a call: those that may be handed out or kept,
the one that has not been given back yet, and the one that will be deleted. -/
def Phase.avail : Phase → List ℕ
  | .scanned ptr invalid => ptr.toList ++ invalid
  | .deleted ptr _ => ptr.toList
  | .settled ptr => ptr.toList
  | .created c => [c]
  | .keeping c => [c]
  | _ => []

def Phase.busy : Phase → List ℕ
  | .releasing c => [c]
  | _ => []

def Phase.gone : Phase → List ℕ
  | .discarding c => [c]
  | _ => []

def Phase.counted : Phase → ℕ
  | .scanned ptr invalid => ptr.toList.length+invalid.length
  | .deleted ptr n => ptr.toList.length+n
  | .settled ptr => ptr.toList.length
  | .releasing _ => 1
  | .discarding _ => 1
  | .uncounted => 1
  | .keeping _ => 1
  | _ => 0

def Pool.avail (s : Pool) (c : ℕ) : ℕ :=
  s.conns.count c+(s.calls.map fun p => p.avail.count c).sum

def Pool.busy (s : Pool) (c : ℕ) : ℕ :=
  s.out.count c+(s.calls.map fun p => p.busy.count c).sum

def Pool.gone (s : Pool) (c : ℕ) : ℕ :=
  s.freed.count c+(s.calls.map fun p => p.gone.count c).sum

def Pool.live (s : Pool) : ℕ :=
  s.conns.length+s.out.length+(s.calls.map Phase.counted).sum

def limit (cfg : Config) : ℕ := max 1 cfg.maxRequest.toNat

structure Conserved (cfg : Config) (s : Pool) : Prop where
  once : ∀ c, s.avail c+s.busy c+s.gone c = if c < s.made then 1 else 0
  uses : ∀ c, s.handouts c = (s.heap c).request+s.busy c
  below : ∀ c, 0 < s.avail c+s.busy c → (s.heap c).request < limit cfg
  bounded : ∀ c, s.handouts c ≤ limit cfg
  fresh : ∀ c, s.made ≤ c → (s.heap c).request = 0
  counter : s.total = wrap s.live

theorem wrap_eq {n : ℕ} (h : n < 2147483648) : wrap n = n := by
  unfold wrap
  apply Int.bmod_eq_of_le <;> omega

theorem wrap_add (a b : ℤ) : wrap (wrap a+b) = wrap (a+b) := Int.bmod_add_bmod ..

theorem scan_split (cfg : Config) (heap : ℕ → HttpConnection) (connected : ℕ → Bool) (now : ℕ)
    (conns : List ℕ) : (scan cfg heap connected now conns).2.1 ++
      ((scan cfg heap connected now conns).2.2.toList ++
        (scan cfg heap connected now conns).1) = conns := by
  induction conns with
  | nil => rfl
  | cons c rest ih =>
    rw [scan]
    split_ifs
    · exact congrArg (c::·) ih
    · rfl

theorem goto_sum (s : Pool) (t : ℕ) (p q : Phase) (f : Phase → ℕ) (h : s.calls[t]? = some q) :
    ((s.goto t p).calls.map f).sum+f q = (s.calls.map f).sum+f p :=
  Slots.sum_set f s.calls t q p h

section Moves

variable {s : Pool} {t : ℕ} {q : Phase}

theorem goto_avail (p : Phase) (h : s.calls[t]? = some q) (c : ℕ) :
    (s.goto t p).avail c+q.avail.count c = s.avail c+p.avail.count c := by
  have hsum := goto_sum s t p q (fun p => p.avail.count c) h
  simp only [Pool.avail, Pool.goto] at hsum ⊢
  omega

theorem goto_busy (p : Phase) (h : s.calls[t]? = some q) (c : ℕ) :
    (s.goto t p).busy c+q.busy.count c = s.busy c+p.busy.count c := by
  have hsum := goto_sum s t p q (fun p => p.busy.count c) h
  simp only [Pool.busy, Pool.goto] at hsum ⊢
  omega

theorem goto_gone (p : Phase) (h : s.calls[t]? = some q) (c : ℕ) :
    (s.goto t p).gone c+q.gone.count c = s.gone c+p.gone.count c := by
  have hsum := goto_sum s t p q (fun p => p.gone.count c) h
  simp only [Pool.gone, Pool.goto] at hsum ⊢
  omega

theorem goto_live (p : Phase) (h : s.calls[t]? = some q) :
    (s.goto t p).live+q.counted = s.live+p.counted := by
  have hsum := goto_sum s t p q Phase.counted h
  simp only [Pool.live, Pool.goto] at hsum ⊢
  omega

end Moves

/-- A step that hands nothing out and takes nothing back moves connections between
the places where they are available, or deletes them. -/
theorem Conserved.relocate {cfg : Config} {s s' : Pool} (hs : Conserved cfg s)
    (hmade : s'.made = s.made) (hheap : s'.heap = s.heap) (hhand : s'.handouts = s.handouts)
    (hplace : ∀ c, s'.avail c+s'.gone c = s.avail c+s.gone c) (hle : ∀ c, s'.avail c ≤ s.avail c)
    (hbusy : ∀ c, s'.busy c = s.busy c) (htotal : s'.total = wrap s'.live) :
    Conserved cfg s' where
  once := by
    intro c
    rw [hmade, ← hs.once c, hbusy c]
    have hc := hplace c
    omega
  uses := by
    intro c
    rw [hhand, hheap, hbusy c]
    exact hs.uses c
  below := by
    intro c hc
    rw [hheap]
    apply hs.below c
    have hlec := hle c
    have hbusyc := hbusy c
    omega
  bounded := by
    intro c
    rw [hhand]
    exact hs.bounded c
  fresh := by
    intro c hc
    rw [hheap]
    exact hs.fresh c (hmade ▸ hc)
  counter := htotal

/-- The same for one call that moves on, after it has worked on the list, on the
deleted connections and on the counter. -/
theorem Conserved.move {cfg : Config} {s : Pool} {t : ℕ} {q : Phase} (hs : Conserved cfg s)
    (h : s.calls[t]? = some q) (p : Phase) (conns freed : List ℕ) (total d : ℤ)
    (hplace : ∀ c, conns.count c+p.avail.count c+(freed.count c+p.gone.count c) =
      s.conns.count c+q.avail.count c+(s.freed.count c+q.gone.count c))
    (hle : ∀ c, conns.count c+p.avail.count c ≤ s.conns.count c+q.avail.count c)
    (hbusy : p.busy = q.busy) (htotal : total = wrap (s.total+d))
    (hlive : (conns.length : ℤ)+p.counted = s.conns.length+q.counted+d) :
    Conserved cfg ({ s with conns := conns, freed := freed, total := total }.goto t p) := by
  have havail := goto_avail (s := { s with conns := conns, freed := freed, total := total }) p h
  have hgone := goto_gone (s := { s with conns := conns, freed := freed, total := total }) p h
  have hbusyc := goto_busy (s := { s with conns := conns, freed := freed, total := total }) p h
  have hl := goto_live (s := { s with conns := conns, freed := freed, total := total }) p h
  refine hs.relocate rfl rfl rfl (fun c => ?_) (fun c => ?_) (fun c => ?_) ?_
  · have ha := havail c
    have hg := hgone c
    have hc := hplace c
    simp only [Pool.avail, Pool.gone] at ha hg ⊢
    omega
  · have ha := havail c
    have hc := hle c
    simp only [Pool.avail] at ha ⊢
    omega
  · have hb := hbusyc c
    rw [hbusy] at hb
    exact Nat.add_right_cancel hb
  · refine htotal.trans ?_
    rw [hs.counter, wrap_add]
    refine congrArg wrap ?_
    simp only [Pool.live] at hl ⊢
    omega

section Steps

variable {cfg : Config} {s : Pool} {t c : ℕ} {ptr : Option ℕ}

theorem wrap_total (hs : Conserved cfg s) : s.total = wrap (s.total+0) := by
  rw [hs.counter, wrap_add, add_zero]

theorem scan_conserved {now : ℕ} (hs : Conserved cfg s) (h : s.calls[t]? = some (.entered now))
    (connected : ℕ → Bool) :
    Conserved cfg ({ s with conns := (scan cfg s.heap connected now s.conns).1 }.goto t
      (.scanned (scan cfg s.heap connected now s.conns).2.2
        (scan cfg s.heap connected now s.conns).2.1)) := by
  have hsplit := scan_split cfg s.heap connected now s.conns
  have hcount : ∀ c, (scan cfg s.heap connected now s.conns).1.count c+
      ((scan cfg s.heap connected now s.conns).2.2.toList ++
        (scan cfg s.heap connected now s.conns).2.1).count c = s.conns.count c := by
    intro c
    have hc := congrArg (List.count c) hsplit
    simp only [List.count_append] at hc ⊢
    omega
  have hlength := congrArg List.length hsplit
  refine hs.move h _ _ s.freed s.total 0 (fun c => ?_) (fun c => ?_) rfl (wrap_total hs) ?_
  · have hc := hcount c
    simp only [Phase.avail, Phase.gone, List.count_nil]
    omega
  · have hc := hcount c
    simp only [Phase.avail, List.count_nil]
    omega
  · simp only [List.length_append] at hlength
    simp only [Phase.counted]
    omega

theorem delete_conserved {invalid : List ℕ} (hs : Conserved cfg s)
    (h : s.calls[t]? = some (.scanned ptr invalid)) :
    Conserved cfg ({ s with freed := invalid ++ s.freed }.goto t
      (.deleted ptr invalid.length)) := by
  refine hs.move h _ s.conns _ s.total 0 (fun c => ?_) (fun c => ?_) rfl (wrap_total hs) ?_
  · simp only [Phase.avail, Phase.gone, List.count_append, List.count_nil]
    omega
  · simp only [Phase.avail, List.count_append]
    omega
  · simp only [Phase.counted]
    omega

theorem subtract_conserved {n : ℕ} (hs : Conserved cfg s)
    (h : s.calls[t]? = some (.deleted ptr n)) :
    Conserved cfg ({ s with total := wrap (s.total-n) }.goto t (.settled ptr)) := by
  refine hs.move h _ s.conns s.freed _ (-n) (fun c => rfl) (fun c => le_rfl) rfl
    (congrArg wrap (sub_eq_add_neg ..)) ?_
  simp only [Phase.counted]
  omega

theorem fail_conserved (hs : Conserved cfg s) (h : s.calls[t]? = some (.settled none)) :
    Conserved cfg (s.goto t .done) :=
  hs.move h _ s.conns s.freed _ 0 (fun _ => rfl) (fun _ => le_rfl) rfl (wrap_total hs) rfl

theorem count_conserved (hs : Conserved cfg s) (h : s.calls[t]? = some (.created c)) :
    Conserved cfg ({ s with total := wrap (s.total+1) }.goto t (.settled (some c))) :=
  hs.move h _ s.conns s.freed _ 1 (fun _ => rfl) (fun _ => le_rfl) rfl rfl rfl

theorem discard_conserved (hs : Conserved cfg s) (h : s.calls[t]? = some (.discarding c)) :
    Conserved cfg ({ s with freed := c::s.freed }.goto t .uncounted) := by
  refine hs.move h _ s.conns _ s.total 0 (fun d => ?_) (fun d => le_rfl) rfl (wrap_total hs) rfl
  simp only [Phase.avail, Phase.gone, List.count_cons, List.count_nil]
  omega

theorem uncount_conserved (hs : Conserved cfg s) (h : s.calls[t]? = some .uncounted) :
    Conserved cfg ({ s with total := wrap (s.total-1) }.goto t .done) := by
  refine hs.move h _ s.conns s.freed _ (-1) (fun _ => rfl) (fun _ => le_rfl) rfl
    (congrArg wrap (sub_eq_add_neg ..)) ?_
  simp only [Phase.counted]
  omega

theorem keep_conserved (hs : Conserved cfg s) (h : s.calls[t]? = some (.keeping c)) :
    Conserved cfg ({ s with conns := s.conns ++ [c] }.goto t .done) := by
  refine hs.move h _ _ s.freed s.total 0 (fun d => ?_) (fun d => ?_) rfl (wrap_total hs) ?_
  · simp only [Phase.avail, Phase.gone, List.count_append, List.count_nil]
    omega
  · simp only [Phase.avail, List.count_append, List.count_nil]
    omega
  · simp only [Phase.counted, List.length_append, List.length_singleton]
    omega

theorem limit_pos (cfg : Config) : 0 < limit cfg := Nat.lt_of_lt_of_le one_pos (le_max_left ..)

theorem create_conserved (hs : Conserved cfg s) (h : s.calls[t]? = some (.settled none)) :
    Conserved cfg ({ s with
      heap := Function.update s.heap s.made HttpConnection.new
      made := s.made+1
      born := Function.update s.born s.made s.now }.goto t (.created s.made)) := by
  set u : Pool := { s with
    heap := Function.update s.heap s.made HttpConnection.new
    made := s.made+1
    born := Function.update s.born s.made s.now }
  have havail : ∀ c, (u.goto t (.created s.made)).avail c = s.avail c+[s.made].count c :=
    goto_avail (s := u) (.created s.made) h
  have hbusy : ∀ c, (u.goto t (.created s.made)).busy c = s.busy c :=
    goto_busy (s := u) (.created s.made) h
  have hgone : ∀ c, (u.goto t (.created s.made)).gone c = s.gone c :=
    goto_gone (s := u) (.created s.made) h
  have hheap : ∀ c, ((u.goto t (.created s.made)).heap c).request = (s.heap c).request := by
    intro c
    by_cases hc : c = s.made
    · subst hc
      simp [u, Pool.goto, HttpConnection.new, hs.fresh s.made le_rfl]
    · simp [u, Pool.goto, Function.update_of_ne hc]
  constructor
  case once =>
    intro c
    have honce := hs.once c
    rw [havail, hbusy, hgone]
    change _ = if c < s.made+1 then 1 else 0
    rcases Nat.lt_trichotomy c s.made with hc | rfl | hc
    · rw [List.count_singleton, if_neg (by simp; omega), if_pos (by omega)]
      rw [if_pos hc] at honce
      exact honce
    · rw [List.count_singleton_self, if_pos (by omega)]
      rw [if_neg (lt_irrefl _)] at honce
      omega
    · rw [List.count_singleton, if_neg (by simp; omega), if_neg (by omega)]
      rw [if_neg (by omega)] at honce
      exact honce
  case uses =>
    intro c
    rw [hheap, hbusy]
    exact hs.uses c
  case below =>
    intro c hc
    rw [hheap]
    by_cases heq : c = s.made
    · rw [heq, hs.fresh s.made le_rfl]
      exact limit_pos cfg
    · apply hs.below c
      rw [havail, hbusy, List.count_singleton, if_neg (by simpa using Ne.symm heq)] at hc
      exact hc
  case bounded => exact hs.bounded
  case fresh =>
    intro c hc
    rw [hheap]
    exact hs.fresh c (Nat.le_of_succ_le hc)
  case counter =>
    have hl : (u.goto t (.created s.made)).live = s.live :=
      goto_live (s := u) (.created s.made) h
    exact hs.counter.trans (congrArg (fun n : ℕ => wrap n) hl.symm)

/-- What is handed out has been used less often than the limit. -/
theorem hand_conserved (hs : Conserved cfg s) (h : s.calls[t]? = some (.settled (some c))) :
    Conserved cfg ({ s with
      out := c::s.out
      handouts := Function.update s.handouts c (s.handouts c+1) }.goto t .done) := by
  set u : Pool := { s with
    out := c::s.out
    handouts := Function.update s.handouts c (s.handouts c+1) }
  have havail : ∀ d, (u.goto t .done).avail d+[c].count d = s.avail d :=
    goto_avail (s := u) .done h
  have hbusy : ∀ d, (u.goto t .done).busy d = s.busy d+[c].count d := by
    intro d
    have hb : (u.goto t .done).busy d = u.busy d := goto_busy (s := u) .done h d
    rw [hb]
    simp only [u, Pool.busy, List.count_cons, List.count_nil]
    omega
  have hgone : ∀ d, (u.goto t .done).gone d = s.gone d := goto_gone (s := u) .done h
  have hhand : ∀ d, (u.goto t .done).handouts d = s.handouts d+[c].count d := by
    intro d
    by_cases hd : d = c
    · subst hd
      simp [u, Pool.goto]
    · simp [u, Pool.goto, Function.update_of_ne hd, Ne.symm hd]
  constructor
  case once =>
    intro d
    have ha := havail d
    have honce := hs.once d
    rw [hbusy, hgone]
    change _ = if d < s.made then 1 else 0
    omega
  case uses =>
    intro d
    have huses := hs.uses d
    rw [hhand, hbusy]
    change _ = (s.heap d).request+_
    omega
  case below =>
    intro d hd
    apply hs.below d
    have ha := havail d
    rw [hbusy] at hd
    omega
  case bounded =>
    intro d
    rw [hhand]
    by_cases hd : d = c
    · subst hd
      have ha := havail d
      have honce := hs.once d
      have huses := hs.uses d
      have hbelow := hs.below d
      rw [List.count_singleton_self] at ha ⊢
      split_ifs at honce <;> omega
    · have hb := hs.bounded d
      rw [List.count_singleton, if_neg (by simpa using Ne.symm hd)]
      exact hb
  case fresh => exact hs.fresh
  case counter =>
    refine hs.counter.trans (congrArg (fun n : ℕ => wrap n) ?_)
    have hl := goto_live (s := u) .done h
    simp only [u, Pool.live, Phase.counted, List.length_cons] at hl ⊢
    simp only [Option.toList, List.length_singleton] at hl
    omega

theorem bump_request (heap : ℕ → HttpConnection) (c d : ℕ) :
    (bump heap c d).request = (heap d).request+[c].count d := by
  by_cases hd : d = c
  · subst hd
    simp [bump]
  · simp [bump, Function.update_of_ne hd, Ne.symm hd]

theorem verdict_place (spent : Prop) [Decidable spent] (c d : ℕ) :
    (if spent then Phase.discarding c else .keeping c).avail.count d+
      (if spent then Phase.discarding c else .keeping c).gone.count d = [c].count d := by
  split_ifs <;> simp [Phase.avail, Phase.gone]

/-- A connection that is kept is still below the limit of uses. -/
theorem judge_conserved (hs : Conserved cfg s) (h : s.calls[t]? = some (.releasing c))
    (connected : Bool) :
    Conserved cfg ({ s with heap := bump s.heap c }.goto t
      (if Spent cfg (bump s.heap c c) connected s.now then .discarding c else .keeping c)) := by
  set u : Pool := { s with heap := bump s.heap c }
  set p : Phase :=
    if Spent cfg (bump s.heap c c) connected s.now then .discarding c else .keeping c with hp
  have hplace : ∀ d, p.avail.count d+p.gone.count d = [c].count d := verdict_place _ c
  have hpbusy : p.busy = [] := by
    rw [hp]
    split_ifs <;> rfl
  have hcounted : p.counted = 1 := by
    rw [hp]
    split_ifs <;> rfl
  have havail : ∀ d, (u.goto t p).avail d = s.avail d+p.avail.count d := goto_avail (s := u) p h
  have hbusy : ∀ d, (u.goto t p).busy d+[c].count d = s.busy d := by
    intro d
    have hb := goto_busy (s := u) p h d
    rw [hpbusy] at hb
    exact hb
  have hgone : ∀ d, (u.goto t p).gone d = s.gone d+p.gone.count d := goto_gone (s := u) p h
  have hheap : ∀ d, ((u.goto t p).heap d).request = (s.heap d).request+[c].count d :=
    bump_request s.heap c
  have hkept : 0 < p.avail.count c → (s.heap c).request+1 < cfg.maxRequest.toNat := by
    rw [hp]
    split_ifs with hspent
    · intro h0
      simp [Phase.avail] at h0
    · intro _
      have hc := bump_request s.heap c c
      rw [List.count_singleton_self] at hc
      rw [← hc]
      exact Nat.lt_of_not_le fun hle => hspent (.inr (.inr hle))
  constructor
  case once =>
    intro d
    have hb := hbusy d
    have hd := hplace d
    have honce := hs.once d
    rw [havail, hgone]
    change _ = if d < s.made then 1 else 0
    omega
  case uses =>
    intro d
    have hb := hbusy d
    have huses := hs.uses d
    rw [hheap]
    change s.handouts d = _
    omega
  case below =>
    intro d hd
    have hb := hbusy d
    have hpd := hplace d
    have honce := hs.once d
    rw [havail] at hd
    rw [hheap]
    by_cases hdc : d = c
    · subst hdc
      rw [List.count_singleton_self] at hb hpd ⊢
      have hpos : 0 < p.avail.count d := by
        split_ifs at honce <;> omega
      exact Nat.lt_of_lt_of_le (hkept hpos) (le_max_right ..)
    · have h0 : [c].count d = 0 := by
        rw [List.count_singleton, if_neg (by simpa using Ne.symm hdc)]
      rw [h0] at hb hpd ⊢
      apply hs.below d
      omega
  case bounded => exact hs.bounded
  case fresh =>
    intro d hd
    change s.made ≤ d at hd
    have hfresh := hs.fresh d hd
    have honce := hs.once d
    have hb := hbusy d
    rw [if_neg (not_lt.mpr hd)] at honce
    rw [hheap]
    omega
  case counter =>
    have hl := goto_live (s := u) p h
    rw [hcounted] at hl
    exact hs.counter.trans (congrArg (fun n : ℕ => wrap n) (Nat.add_right_cancel hl).symm)

theorem release_conserved (hs : Conserved cfg s) (h : c ∈ s.out) :
    Conserved cfg { s with out := s.out.erase c, calls := s.calls ++ [.releasing c] } := by
  refine hs.relocate rfl rfl rfl (fun d => ?_) (fun d => ?_) (fun d => ?_) ?_
  · simp [Pool.avail, Pool.gone, Phase.avail, Phase.gone]
  · simp [Pool.avail, Phase.avail]
  · have hpos := List.count_pos_iff.mpr h
    by_cases hd : d = c
    · subst hd
      simp [Pool.busy, Phase.busy]
      omega
    · simp [Pool.busy, Phase.busy, Ne.symm hd, List.count_erase_of_ne hd]
  · refine hs.counter.trans (congrArg (fun n : ℕ => wrap n) ?_)
    have hlength := List.length_erase_of_mem h
    have hpos := List.length_pos_of_mem h
    simp only [Pool.live, List.map_append, List.sum_append, List.map_cons, List.map_nil,
      List.sum_cons, List.sum_nil, Phase.counted]
    omega

theorem enter_conserved (hs : Conserved cfg s) :
    Conserved cfg { s with calls := s.calls ++ [.entered s.now] } := by
  refine hs.relocate rfl rfl rfl (fun d => ?_) (fun d => ?_) (fun d => ?_) ?_
  · simp [Pool.avail, Pool.gone, Phase.avail, Phase.gone]
  · simp [Pool.avail, Phase.avail]
  · simp [Pool.busy, Phase.busy]
  · refine hs.counter.trans (congrArg (fun n : ℕ => wrap n) ?_)
    simp [Pool.live, Phase.counted]

theorem clock_conserved (hs : Conserved cfg s) (now : ℕ) : Conserved cfg { s with now := now } :=
  ⟨hs.once, hs.uses, hs.below, hs.bounded, hs.fresh, hs.counter⟩

end Steps

inductive Step (cfg : Config) (s : Pool) : Action → Pool → Prop
  | clock (now : ℕ) : Step cfg s (.clock now) { s with now := now }
  | enter : Step cfg s .enter { s with calls := s.calls ++ [.entered s.now] }
  | scan {t now : ℕ} (connected : ℕ → Bool) (h : s.calls[t]? = some (.entered now)) :
      Step cfg s (.scan t connected)
        ({ s with conns := (scan cfg s.heap connected now s.conns).1 }.goto t
          (.scanned (scan cfg s.heap connected now s.conns).2.2
            (scan cfg s.heap connected now s.conns).2.1))
  | delete {t : ℕ} {ptr : Option ℕ} {invalid : List ℕ}
      (h : s.calls[t]? = some (.scanned ptr invalid)) : Step cfg s (.delete t)
        ({ s with freed := invalid ++ s.freed }.goto t (.deleted ptr invalid.length))
  | subtract {t n : ℕ} {ptr : Option ℕ} (h : s.calls[t]? = some (.deleted ptr n)) :
      Step cfg s (.subtract t) ({ s with total := wrap (s.total-n) }.goto t (.settled ptr))
  | fail {t : ℕ} (h : s.calls[t]? = some (.settled none)) :
      Step cfg s (.fail t) (s.goto t .done)
  | create {t : ℕ} (h : s.calls[t]? = some (.settled none)) :
      Step cfg s (.create t) ({ s with
        heap := Function.update s.heap s.made HttpConnection.new
        made := s.made+1
        born := Function.update s.born s.made s.now }.goto t (.created s.made))
  | count {t c : ℕ} (h : s.calls[t]? = some (.created c)) :
      Step cfg s (.count t) ({ s with total := wrap (s.total+1) }.goto t (.settled (some c)))
  | hand {t c : ℕ} (h : s.calls[t]? = some (.settled (some c))) :
      Step cfg s (.hand t) ({ s with
        out := c::s.out
        handouts := Function.update s.handouts c (s.handouts c+1) }.goto t .done)
  | release {c : ℕ} (h : c ∈ s.out) :
      Step cfg s (.release c) { s with out := s.out.erase c, calls := s.calls ++ [.releasing c] }
  | judge {t c : ℕ} (connected : Bool) (h : s.calls[t]? = some (.releasing c)) :
      Step cfg s (.judge t connected) ({ s with heap := bump s.heap c }.goto t
        (if Spent cfg (bump s.heap c c) connected s.now then .discarding c else .keeping c))
  | discard {t c : ℕ} (h : s.calls[t]? = some (.discarding c)) :
      Step cfg s (.discard t) ({ s with freed := c::s.freed }.goto t .uncounted)
  | uncount {t : ℕ} (h : s.calls[t]? = some .uncounted) :
      Step cfg s (.uncount t) ({ s with total := wrap (s.total-1) }.goto t .done)
  | keep {t c : ℕ} (h : s.calls[t]? = some (.keeping c)) :
      Step cfg s (.keep t) ({ s with conns := s.conns ++ [c] }.goto t .done)

theorem Step.of_next {cfg : Config} {s s' : Pool} {a : Action} (h : next cfg s a = some s') :
    Step cfg s a s' := by
  cases a <;> simp only [next] at h
  case clock now =>
    obtain rfl := Option.some.inj h
    exact .clock now
  case enter =>
    obtain rfl := Option.some.inj h
    exact .enter
  case release c =>
    split_ifs at h with hc
    obtain rfl := Option.some.inj h
    exact .release hc
  all_goals
    split at h
    next hq =>
      obtain rfl := Option.some.inj h
      constructor
      exact hq
    next => cases h

theorem next_conserved {cfg : Config} {s s' : Pool} {a : Action} (hs : Conserved cfg s)
    (h : next cfg s a = some s') : Conserved cfg s' := by
  cases Step.of_next h with
  | clock now => exact clock_conserved hs now
  | enter => exact enter_conserved hs
  | scan connected hq => exact scan_conserved hs hq connected
  | delete hq => exact delete_conserved hs hq
  | subtract hq => exact subtract_conserved hs hq
  | fail hq => exact fail_conserved hs hq
  | create hq => exact create_conserved hs hq
  | count hq => exact count_conserved hs hq
  | hand hq => exact hand_conserved hs hq
  | release hc => exact release_conserved hs hc
  | judge connected hq => exact judge_conserved hs hq connected
  | discard hq => exact discard_conserved hs hq
  | uncount hq => exact uncount_conserved hs hq
  | keep hq => exact keep_conserved hs hq

theorem init_conserved (cfg : Config) (now : ℕ) : Conserved cfg (Pool.init now) where
  once c := (if_neg (Nat.not_lt_zero c)).symm
  uses _ := rfl
  below _ _ := limit_pos cfg
  bounded _ := Nat.zero_le _
  fresh _ _ := rfl
  counter := (wrap_eq (by decide)).symm

theorem reaches_conserved {cfg : Config} {now : ℕ} {s : Pool} {guard : Pool → Action → Prop}
    (h : Reaches (next cfg) guard (Pool.init now) s) : Conserved cfg s :=
  h.invariant (init_conserved cfg now) fun _ _ _ hs _ hn => next_conserved hs hn

/-! ## What the counts say -/

section Places

variable {cfg : Config} {s : Pool}

theorem Conserved.place_le (hs : Conserved cfg s) (c : ℕ) :
    s.conns.count c+s.out.count c+s.freed.count c ≤ 1 := by
  have honce := hs.once c
  simp only [Pool.avail, Pool.busy, Pool.gone] at honce
  split_ifs at honce <;> omega

theorem Conserved.conns_nodup (hs : Conserved cfg s) : s.conns.Nodup := by
  refine List.nodup_iff_count.mpr fun c => ?_
  have hc := hs.place_le c
  omega

theorem Conserved.out_nodup (hs : Conserved cfg s) : s.out.Nodup := by
  refine List.nodup_iff_count.mpr fun c => ?_
  have hc := hs.place_le c
  omega

theorem Conserved.pooled_apart (hs : Conserved cfg s) {c : ℕ} (hc : c ∈ s.conns) :
    c ∉ s.out ∧ c ∉ s.freed := by
  have hle := hs.place_le c
  have hpos := List.count_pos_iff.mpr hc
  constructor
  · intro hout
    have h1 := List.count_pos_iff.mpr hout
    omega
  · intro hfreed
    have h1 := List.count_pos_iff.mpr hfreed
    omega

/-- Between calls the counter is the number of connections, as far as it can hold it. -/
theorem Conserved.quiet_total (hs : Conserved cfg s) (hq : Quiet s) :
    s.total = wrap ((s.conns.length+s.out.length : ℕ) : ℤ) := by
  have h0 : (s.calls.map Phase.counted).sum = 0 := by
    refine List.sum_eq_zero fun n hn => ?_
    obtain ⟨p, hp, rfl⟩ := List.mem_map.mp hn
    rw [hq p hp]
    rfl
  rw [hs.counter, Pool.live, h0, Nat.add_zero]

end Places

theorem pool_conserved {cfg : Config} {now : ℕ} {s : Pool}
    (h : Reaches (next cfg) Free (Pool.init now) s) :
    (Quiet s → s.total = wrap ((s.conns.length+s.out.length : ℕ) : ℤ) ∧
      (s.conns.length+s.out.length < 2147483648 → s.total = s.conns.length+s.out.length)) ∧
    s.conns.Nodup ∧ s.out.Nodup ∧ (∀ c ∈ s.conns, c ∉ s.out ∧ c ∉ s.freed) ∧
    ∀ c, s.handouts c ≤ limit cfg := by
  have hs := reaches_conserved h
  refine ⟨fun hq => ⟨hs.quiet_total hq, fun hlt => ?_⟩, hs.conns_nodup, hs.out_nodup,
    fun c hc => hs.pooled_apart hc, hs.bounded⟩
  rw [hs.quiet_total hq, wrap_eq hlt, Nat.cast_add]

/-- A connection is created, used, given back and kept; the next call takes it out of
the list and its release deletes it, the second of two uses. -/
theorem reused_run :
    ∃ s, after (next ⟨30, 2⟩) [.enter, .scan 0 (fun _ => true), .delete 0, .subtract 0,
      .create 0, .count 0, .hand 0, .release 0, .judge 1 true, .keep 1, .enter,
      .scan 2 (fun _ => true), .delete 2, .subtract 2, .hand 2, .release 0, .judge 3 true,
      .discard 3, .uncount 3] (Pool.init 100) = some s ∧
      Quiet s ∧ s.conns = [] ∧ s.out = [] ∧ s.freed = [0] ∧ s.handouts 0 = 2 :=
  ⟨_, rfl, by decide, rfl, rfl, rfl, rfl⟩

theorem pool_conserved_reused :
    ∃ s, Reaches (next ⟨30, 2⟩) Free (Pool.init 100) s ∧ s.freed = [0] ∧ s.handouts 0 = 2 ∧
      s.total = 0 := by
  obtain ⟨s, hrun, hquiet, hconns, hout, hfreed, hhand⟩ := reused_run
  have hs : Reaches (next ⟨30, 2⟩) Free (Pool.init 100) s := Reaches.after _ .start hrun
  have htotal := ((pool_conserved hs).1 hquiet).2
  rw [hconns, hout] at htotal
  exact ⟨s, hs, hfreed, hhand, htotal (by decide)⟩

end Lamb.ConnectionPool
