import Lamb.Library.Runs
import Lamb.Library.Slots
import Mathlib.Algebra.GroupWithZero.Nat

/-!
# Scheduler::start and the threads

The constructor of `Thread` waits until `Thread::run` on the new thread has taken from the object
what it needs. `Scheduler::start` constructs its threads under the mutex for which they will wait
themselves, and asks each of them for its identifier.
-/

set_option autoImplicit false

namespace Lamb.ThreadStart
open Lamb.Runs Lamb.Slots

/-- Where a thread stands in `Thread::run`: what it has done last. -/
inductive Pc where
  | created
  | named
  | identified
  | labelled
  | swapped
  | notified
  | running
  | ended
  deriving DecidableEq, Repr

/-- A `Thread` and the thread that executes its `run`. `id` is `m_id`, which nothing initialises,
`cb` tells that `m_cb` is not empty, `held` that the local variable of `run` is not, and `calls`
counts the calls of the callback. -/
structure Thread where
  pc : Pc
  id : Option ℕ
  cb : Bool
  semaphore : ℕ
  held : Bool
  calls : ℕ
  deriving DecidableEq

/-- Behind `pthread_create`. -/
def Thread.new : Thread where
  pc := .created
  id := none
  cb := true
  semaphore := 0
  held := false
  calls := 0

/-- The thread that owns the scheduler: in the loop of `start` before `pthread_create`, in the
constructor before `wait`, behind it, behind `start`, and in the loop of `stop`. -/
inductive Owner where
  | creating
  | waiting
  | constructed
  | started
  | joining (i : ℕ)
  | stopped
  | threw
  deriving DecidableEq, Repr

/-- `garbage` is what an uninitialised `m_id` holds. -/
structure System where
  threadCount : ℕ
  tid : ℕ → ℕ
  garbage : ℕ
  threads : List Thread
  threadIds : List ℕ
  owner : Owner

def System.init (threadCount : ℕ) (tid : ℕ → ℕ) (garbage : ℕ) : System where
  threadCount := threadCount
  tid := tid
  garbage := garbage
  threads := []
  threadIds := []
  owner := .creating

/-- `start` holds the mutex. -/
def Owner.locks : Owner → Bool
  | .creating | .waiting | .constructed => true
  | _ => false

def Owner.stopping : Owner → Bool
  | .joining _ | .stopped => true
  | _ => false

/-- The next step of `Thread::run`. The callback, `Scheduler::run`, first takes the mutex, and it
ends when the scheduler stops. -/
def Thread.step (tid : ℕ) (o : Owner) (t : Thread) : Option Thread :=
  match t.pc with
  | .created => some { t with pc := .named }
  | .named => some { t with pc := .identified, id := some tid }
  | .identified => some { t with pc := .labelled }
  | .labelled => some { t with pc := .swapped, cb := false, held := t.cb }
  | .swapped => some { t with pc := .notified, semaphore := t.semaphore+1 }
  | .notified =>
    if o.locks then none
    else some { t with pc := .running, calls := t.calls+(if t.held then 1 else 0) }
  | .running => if o.stopping then some { t with pc := .ended } else none
  | .ended => none

inductive Action where
  | run (i : ℕ)
  | create (granted : Bool)
  | wait
  | record
  | stop
  | join

def next (s : System) : Action → Option System
  | .run i =>
    match s.threads[i]? with
    | none => none
    | some t => (t.step (s.tid i) s.owner).map fun t => { s with threads := s.threads.set i t }
  | .create granted =>
    if s.owner = .creating then
      if s.threads.length < s.threadCount then
        if granted then some { s with threads := s.threads ++ [.new], owner := .waiting }
        else some { s with owner := .threw }
      else some { s with owner := .started }
    else none
  | .wait =>
    match s.owner, s.threads.getLast? with
    | .waiting, some t =>
      if 0 < t.semaphore then some { s with
        threads := s.threads.set (s.threads.length-1) { t with semaphore := t.semaphore-1 }
        owner := .constructed }
      else none
    | _, _ => none
  | .record =>
    match s.owner, s.threads.getLast? with
    | .constructed, some t => some { s with
        threadIds := s.threadIds ++ [t.id.getD s.garbage]
        owner := .creating }
    | _, _ => none
  | .stop => if s.owner = .started then some { s with owner := .joining 0 } else none
  | .join =>
    match s.owner with
    | .joining i =>
      match s.threads[i]? with
      | none => some { s with owner := .stopped }
      | some t => if t.pc = .ended then some { s with owner := .joining (i+1) } else none
    | _ => none

/-! ## The handshake -/

/-- How far `run` has come. -/
def Pc.rank : Pc → ℕ
  | .created => 0
  | .named => 1
  | .identified => 2
  | .labelled => 3
  | .swapped => 4
  | .notified => 5
  | .running => 6
  | .ended => 7

/-- A thread that has come to `pc` in `run`. -/
def Thread.at (tid : ℕ) (pc : Pc) (semaphore : ℕ) : Thread where
  pc := pc
  id := if 2 ≤ pc.rank then some tid else none
  cb := decide (pc.rank < 4)
  semaphore := semaphore
  held := decide (4 ≤ pc.rank)
  calls := if 6 ≤ pc.rank then 1 else 0

def Pc.next (o : Owner) : Pc → Option Pc
  | .created => some .named
  | .named => some .identified
  | .identified => some .labelled
  | .labelled => some .swapped
  | .swapped => some .notified
  | .notified => if o.locks then none else some .running
  | .running => if o.stopping then some .ended else none
  | .ended => none

theorem next_rank {o : Owner} {pc pc' : Pc} (h : pc.next o = some pc') :
    pc'.rank = pc.rank+1 := by
  cases pc <;> simp only [Pc.next] at h <;> (try split_ifs at h) <;> cases h <;> rfl

theorem step_at (tid : ℕ) (o : Owner) (pc : Pc) (semaphore : ℕ) :
    (Thread.at tid pc semaphore).step tid o = (pc.next o).map fun pc' =>
      Thread.at tid pc' (semaphore+(if pc = .swapped then 1 else 0)) := by
  cases pc with
  | notified => cases h : o.locks <;> simp [Thread.step, Thread.at, Pc.next, Pc.rank, h]
  | running => cases h : o.stopping <;> simp [Thread.step, Thread.at, Pc.next, Pc.rank, h]
  | _ => rfl

def System.done (s : System) : ℕ := match s.owner with
  | .waiting => s.threads.length-1
  | _ => s.threads.length

/-- The threads are where `run` has come to. Those that are constructed are past their objects,
and their notifications are taken; that of the thread under construction is there as soon as it
is past its object. -/
structure Inv (s : System) : Prop where
  thread : ∀ (i : ℕ) (t : Thread), s.threads[i]? = some t →
    ∃ pc semaphore, t = Thread.at (s.tid i) pc semaphore ∧
      (i < s.done → 5 ≤ pc.rank ∧ semaphore = 0) ∧
      (s.done ≤ i → semaphore = if 5 ≤ pc.rank then 1 else 0)
  waiting : s.owner = .waiting ∨ s.owner = .constructed → 0 < s.threads.length
  ids : s.threadIds = (List.range (match s.owner with
    | .waiting | .constructed => s.threads.length-1
    | _ => s.threads.length)).map s.tid
  room : s.threads.length ≤ s.threadCount
  full : s.owner ≠ .threw → s.owner.locks = false → s.threads.length = s.threadCount
  joined : ∀ (i : ℕ) (t : Thread), s.threads[i]? = some t →
    (match s.owner with
    | .joining j => i < j
    | .stopped => True
    | _ => False) → t.pc = .ended
  bound : ∀ j, s.owner = .joining j → j ≤ s.threads.length

theorem init_inv (threadCount : ℕ) (tid : ℕ → ℕ) (garbage : ℕ) :
    Inv (System.init threadCount tid garbage) where
  thread := fun i t h => by cases h
  waiting := fun h => by rcases h with h | h <;> cases h
  ids := rfl
  room := Nat.zero_le _
  full := fun _ h => by cases h
  joined := fun i t h => by cases h
  bound := fun j h => by cases h

section Steps

variable {s s' : System}

theorem next_semaphore {o : Owner} {pc pc' : Pc} (h : pc.next o = some pc') :
    (if 5 ≤ pc.rank then 1 else 0)+(if pc = .swapped then 1 else 0) =
      if 5 ≤ pc'.rank then 1 else 0 := by
  cases pc <;> simp only [Pc.next] at h <;> (try split_ifs at h) <;> cases h <;> rfl

theorem set_cases {threads : List Thread} {i j : ℕ} {t t' : Thread}
    (h : (threads.set i t)[j]? = some t') :
    (j = i ∧ t' = t) ∨ (j ≠ i ∧ threads[j]? = some t') := by
  by_cases heq : i = j
  · subst heq
    rw [List.getElem?_set_self'] at h
    obtain ⟨_, -, ht⟩ := Option.map_eq_some_iff.mp h
    exact .inl ⟨rfl, ht.symm⟩
  · rw [List.getElem?_set_ne heq] at h
    exact .inr ⟨fun h' => heq h'.symm, h⟩

theorem run_inv (h : Inv s) {i : ℕ} (hn : next s (.run i) = some s') : Inv s' := by
  simp only [next] at hn
  split at hn
  · cases hn
  rename_i t ht
  obtain ⟨pc, semaphore, rfl, hdone, hpending⟩ := h.thread i t ht
  rw [step_at] at hn
  cases hpc : pc.next s.owner with
  | none =>
    rw [hpc] at hn
    cases hn
  | some pc' =>
    rw [hpc] at hn
    obtain rfl := Option.some.inj hn
    have hrank := next_rank hpc
    have hsemaphore := next_semaphore hpc
    have hlength : (s.threads.set i (Thread.at (s.tid i) pc'
        (semaphore+(if pc = .swapped then 1 else 0)))).length = s.threads.length :=
      List.length_set
    have hdone' : System.done { s with threads := s.threads.set i (Thread.at (s.tid i) pc'
        (semaphore+(if pc = .swapped then 1 else 0))) } = s.done := by
      simp only [System.done, hlength]
    refine { h with
      thread := ?_, waiting := ?_, ids := ?_, room := ?_, full := ?_, joined := ?_, bound := ?_ }
    · intro j t' ht'
      rw [hdone']
      rcases set_cases ht' with ⟨rfl, rfl⟩ | ⟨-, ht'⟩
      · refine ⟨pc', _, rfl, ?_, ?_⟩
        · intro hj
          obtain ⟨hpast, htaken⟩ := hdone hj
          have hne : pc ≠ .swapped := by
            rintro rfl
            exact absurd hpast (by decide)
          rw [if_neg hne]
          omega
        · intro hj
          rw [hpending hj, hsemaphore]
      · exact h.thread j t' ht'
    · rw [hlength]
      exact h.waiting
    · rw [hlength]
      exact h.ids
    · rw [hlength]
      exact h.room
    · rw [hlength]
      exact h.full
    · intro j t' ht' hj
      rcases set_cases ht' with ⟨rfl, rfl⟩ | ⟨-, ht'⟩
      · obtain rfl : pc = .ended := h.joined j _ ht hj
        cases hpc
      · exact h.joined j t' ht' hj
    · rw [hlength]
      exact h.bound

theorem create_inv (h : Inv s) {granted : Bool} (hn : next s (.create granted) = some s') :
    Inv s' := by
  simp only [next] at hn
  split_ifs at hn with howner hroom hgranted
  · obtain rfl := Option.some.inj hn
    have hids := h.ids
    rw [howner] at hids
    refine { h with
      thread := ?_, waiting := ?_, ids := ?_, room := ?_, full := ?_, joined := ?_, bound := ?_ }
    · intro i t ht
      simp only [System.done, List.length_append, List.length_singleton, Nat.add_sub_cancel]
      rcases Nat.lt_or_ge i s.threads.length with hlt | hge
      · rw [List.getElem?_append_left hlt] at ht
        obtain ⟨pc, semaphore, ht, hdone, -⟩ := h.thread i t ht
        rw [System.done, howner] at hdone
        exact ⟨pc, semaphore, ht, hdone, fun hle => absurd hlt (Nat.not_lt.mpr hle)⟩
      · rw [List.getElem?_append_right hge] at ht
        have hnew : t = Thread.new := by
          rw [List.getElem?_singleton] at ht
          split_ifs at ht
          exact (Option.some.inj ht).symm
        exact ⟨.created, 0, hnew, fun hlt => absurd hge (Nat.not_le.mpr hlt), fun _ => rfl⟩
    · intro _
      rw [List.length_append]
      exact Nat.succ_pos _
    · simpa using hids
    · rw [List.length_append]
      exact hroom
    · intro _ hlocks
      cases hlocks
    · intro i t _ hj
      exact hj.elim
    · intro j hj
      cases hj
  · obtain rfl := Option.some.inj hn
    have hids := h.ids
    have hthread := h.thread
    rw [howner] at hids
    simp only [System.done, howner] at hthread
    refine { h with thread := ?_, waiting := ?_, ids := ?_, full := ?_, joined := ?_, bound := ?_ }
    · exact hthread
    · intro hw
      rcases hw with hw | hw <;> cases hw
    · exact hids
    · intro hne
      exact absurd rfl hne
    · intro i t _ hj
      exact hj.elim
    · intro j hj
      cases hj
  · obtain rfl := Option.some.inj hn
    have hids := h.ids
    have hthread := h.thread
    rw [howner] at hids
    simp only [System.done, howner] at hthread
    refine { h with thread := ?_, waiting := ?_, ids := ?_, full := ?_, joined := ?_, bound := ?_ }
    · exact hthread
    · intro hw
      rcases hw with hw | hw <;> cases hw
    · exact hids
    · intro _ _
      exact Nat.le_antisymm h.room (Nat.not_lt.mp hroom)
    · intro i t _ hj
      exact hj.elim
    · intro j hj
      cases hj

theorem last_thread {threads : List Thread} {t : Thread} (h : threads.getLast? = some t) :
    0 < threads.length ∧ threads[threads.length-1]? = some t := by
  rw [List.getLast?_eq_getElem?] at h
  refine ⟨?_, h⟩
  have := (List.getElem?_eq_some_iff.mp h).1
  omega

theorem wait_inv (h : Inv s) (hn : next s .wait = some s') : Inv s' := by
  simp only [next] at hn
  split at hn
  · rename_i t howner hlast
    split_ifs at hn with hposted
    obtain rfl := Option.some.inj hn
    obtain ⟨hpos, hget⟩ := last_thread hlast
    obtain ⟨pc, semaphore, rfl, -, hpending⟩ := h.thread _ t hget
    have hwaiting : s.done = s.threads.length-1 := by rw [System.done, howner]
    have hsemaphore := hpending (Nat.le_of_eq hwaiting)
    have hpast : 5 ≤ pc.rank := by
      by_contra hbefore
      rw [if_neg hbefore] at hsemaphore
      subst hsemaphore
      exact Nat.lt_irrefl 0 hposted
    rw [if_pos hpast] at hsemaphore
    have hids := h.ids
    rw [howner] at hids
    refine { h with
      thread := ?_, waiting := ?_, ids := ?_, room := ?_, full := ?_, joined := ?_, bound := ?_ }
    · intro i t' ht'
      simp only [System.done, List.length_set]
      rcases set_cases ht' with ⟨rfl, rfl⟩ | ⟨hne, ht'⟩
      · refine ⟨pc, 0, ?_, fun _ => ⟨hpast, rfl⟩, fun hle => by omega⟩
        rw [hsemaphore]
        rfl
      · obtain ⟨pc', semaphore', hat, hdone, -⟩ := h.thread i t' ht'
        have hlt : i < s.threads.length := (List.getElem?_eq_some_iff.mp ht').1
        exact ⟨pc', semaphore', hat, fun _ => hdone (by omega), fun hle => by omega⟩
    · intro _
      rw [List.length_set]
      exact hpos
    · rw [List.length_set]
      exact hids
    · rw [List.length_set]
      exact h.room
    · intro _ hlocks
      cases hlocks
    · intro i t' _ hj
      exact hj.elim
    · intro j hj
      cases hj
  · cases hn

theorem record_inv (h : Inv s) (hn : next s .record = some s') : Inv s' := by
  simp only [next] at hn
  split at hn
  · rename_i t howner hlast
    obtain rfl := Option.some.inj hn
    obtain ⟨hpos, hget⟩ := last_thread hlast
    obtain ⟨pc, semaphore, rfl, hdone, -⟩ := h.thread _ t hget
    have hthread := h.thread
    have hids := h.ids
    simp only [System.done, howner] at hdone hthread hids
    have hpast := (hdone (by omega)).1
    refine { h with thread := ?_, waiting := ?_, ids := ?_, full := ?_, joined := ?_, bound := ?_ }
    · exact hthread
    · intro hw
      rcases hw with hw | hw <;> cases hw
    · obtain ⟨n, hn⟩ := Nat.exists_eq_succ_of_ne_zero (Nat.ne_of_gt hpos)
      simp only [hids, hn, Nat.succ_sub_one, Nat.succ_eq_add_one, List.range_succ, List.map_append,
        List.map_singleton, Thread.at, if_pos (Nat.le_trans (by decide : 2 ≤ 5) hpast),
        Option.getD_some]
    · intro _ hlocks
      cases hlocks
    · intro i t' _ hj
      exact hj.elim
    · intro j hj
      cases hj
  · cases hn

theorem stop_inv (h : Inv s) (hn : next s .stop = some s') : Inv s' := by
  simp only [next] at hn
  split_ifs at hn with howner
  obtain rfl := Option.some.inj hn
  have hthread := h.thread
  have hids := h.ids
  simp only [System.done, howner] at hthread hids
  refine { h with thread := ?_, waiting := ?_, ids := ?_, full := ?_, joined := ?_, bound := ?_ }
  · exact hthread
  · intro hw
    rcases hw with hw | hw <;> cases hw
  · exact hids
  · intro _ _
    exact h.full (by rw [howner]; decide) (by rw [howner]; rfl)
  · intro i t _ hj
    exact absurd hj (Nat.not_lt_zero i)
  · intro j hj
    obtain rfl := Owner.joining.inj hj
    exact Nat.zero_le _

theorem join_inv (h : Inv s) (hn : next s .join = some s') : Inv s' := by
  simp only [next] at hn
  split at hn
  · rename_i j howner
    have hthread := h.thread
    have hids := h.ids
    have hjoined := h.joined
    have hfull := h.full (by rw [howner]; intro h; cases h) (by rw [howner]; rfl)
    simp only [System.done, howner] at hthread hids hjoined
    split at hn
    · rename_i hnone
      obtain rfl := Option.some.inj hn
      have hall : s.threads.length ≤ j := List.getElem?_eq_none_iff.mp hnone
      refine { h with
        thread := ?_, waiting := ?_, ids := ?_, full := ?_, joined := ?_, bound := ?_ }
      · exact hthread
      · intro hw
        rcases hw with hw | hw <;> cases hw
      · exact hids
      · exact fun _ _ => hfull
      · intro i t ht _
        have hlt : i < s.threads.length := (List.getElem?_eq_some_iff.mp ht).1
        exact hjoined i t ht (by omega)
      · intro j hj
        cases hj
    · rename_i t ht
      split_ifs at hn with hended
      obtain rfl := Option.some.inj hn
      refine { h with
        thread := ?_, waiting := ?_, ids := ?_, full := ?_, joined := ?_, bound := ?_ }
      · exact hthread
      · intro hw
        rcases hw with hw | hw <;> cases hw
      · exact hids
      · exact fun _ _ => hfull
      · intro i t' ht' hi
        rcases Nat.lt_succ_iff_lt_or_eq.mp hi with hi | rfl
        · exact hjoined i t' ht' hi
        · rw [ht] at ht'
          obtain rfl := Option.some.inj ht'
          exact hended
      · intro j' hj'
        obtain rfl := Owner.joining.inj hj'
        exact (List.getElem?_eq_some_iff.mp ht).1
  · cases hn

theorem next_inv {a : Action} (h : Inv s) (hn : next s a = some s') : Inv s' := by
  cases a with
  | run i => exact run_inv h hn
  | create granted => exact create_inv h hn
  | wait => exact wait_inv h hn
  | record => exact record_inv h hn
  | stop => exact stop_inv h hn
  | join => exact join_inv h hn

end Steps

/-! ## Every run ends -/

def System.left (s : System) : ℕ := (match s.owner with
  | .creating => 10*(s.threadCount-s.threads.length)+s.threadCount+4
  | .waiting => 10*(s.threadCount-s.threads.length)+s.threadCount+6
  | .constructed => 10*(s.threadCount-s.threads.length)+s.threadCount+5
  | .started => s.threadCount+3
  | .joining i => s.threadCount+2-i
  | .stopped => 0
  | .threw => 0)+(s.threads.map fun t => 7-t.pc.rank).sum

theorem rank_le (pc : Pc) : pc.rank ≤ 7 := by cases pc <;> decide

theorem next_left {s s' : System} {a : Action} (h : Inv s) (hn : next s a = some s') :
    s'.left < s.left := by
  cases a with
  | run i =>
    simp only [next] at hn
    split at hn
    · cases hn
    rename_i t ht
    obtain ⟨pc, semaphore, rfl, -, -⟩ := h.thread i t ht
    rw [step_at] at hn
    cases hpc : pc.next s.owner with
    | none =>
      rw [hpc] at hn
      cases hn
    | some pc' =>
      rw [hpc] at hn
      obtain rfl := Option.some.inj hn
      have hrank := next_rank hpc
      have hle := rank_le pc'
      have hsum := sum_set (fun t => 7-t.pc.rank) s.threads i _
        (Thread.at (s.tid i) pc' (semaphore+(if pc = .swapped then 1 else 0))) ht
      have hpc₁ : (Thread.at (s.tid i) pc semaphore).pc.rank = pc.rank := rfl
      have hpc₂ : ∀ n, (Thread.at (s.tid i) pc' n).pc.rank = pc'.rank := fun _ => rfl
      simp only [hpc₁, hpc₂] at hsum
      simp only [System.left, List.length_set]
      omega
  | create granted =>
    have hroom := h.room
    simp only [next] at hn
    split_ifs at hn with howner hlt hgranted
    · obtain rfl := Option.some.inj hn
      have hnew : 7-Thread.new.pc.rank = 7 := rfl
      simp only [System.left, howner, List.length_append, List.length_singleton, List.map_append,
        List.map_singleton, List.sum_append, List.sum_singleton, hnew]
      omega
    · obtain rfl := Option.some.inj hn
      simp only [System.left, howner]
      omega
    · obtain rfl := Option.some.inj hn
      simp only [System.left, howner]
      omega
  | wait =>
    simp only [next] at hn
    split at hn
    · rename_i t howner hlast
      split_ifs at hn with hposted
      obtain rfl := Option.some.inj hn
      obtain ⟨-, hget⟩ := last_thread hlast
      have hsum := sum_set (fun t => 7-t.pc.rank) s.threads _ t
        { t with semaphore := t.semaphore-1 } hget
      dsimp only at hsum
      simp only [System.left, howner, List.length_set]
      omega
    · cases hn
  | record =>
    simp only [next] at hn
    split at hn
    · rename_i t howner hlast
      obtain rfl := Option.some.inj hn
      simp only [System.left, howner]
      omega
    · cases hn
  | stop =>
    simp only [next] at hn
    split_ifs at hn with howner
    obtain rfl := Option.some.inj hn
    simp only [System.left, howner]
    omega
  | join =>
    simp only [next] at hn
    split at hn
    · rename_i j howner
      have hbound := h.bound j howner
      have hroom := h.room
      split at hn
      · obtain rfl := Option.some.inj hn
        simp only [System.left, howner]
        omega
      · split_ifs at hn with hended
        obtain rfl := Option.some.inj hn
        simp only [System.left, howner]
        omega
    · cases hn

/-- A thread that has not ended can go on, but for the mutex and for `stop`. -/
theorem run_enabled {s : System} (h : Inv s) {i : ℕ} {t : Thread} (ht : s.threads[i]? = some t)
    (hpc : t.pc.rank < 5 ∨ (t.pc ≠ .ended ∧ s.owner.locks = false ∧ s.owner.stopping = true)) :
    ∃ s', next s (.run i) = some s' := by
  obtain ⟨pc, semaphore, rfl, -, -⟩ := h.thread i t ht
  have hsome : ∃ pc', pc.next s.owner = some pc' := by
    change pc.rank < 5 ∨ (pc ≠ .ended ∧ _) at hpc
    cases pc <;> simp_all [Pc.next, Pc.rank]
  obtain ⟨pc', hpc'⟩ := hsome
  simp only [next, ht, step_at, hpc', Option.map_some]
  exact ⟨_, rfl⟩

theorem enabled {s : System} (h : Inv s) (hend : s.owner ≠ .stopped) (hthrew : s.owner ≠ .threw) :
    ∃ a s', next s a = some s' := by
  cases howner : s.owner with
  | creating =>
    refine ⟨.create true, ?_⟩
    simp only [next, howner, if_true]
    split_ifs <;> exact ⟨_, rfl⟩
  | waiting =>
    have hpos := h.waiting (.inl howner)
    obtain ⟨t, ht⟩ : ∃ t, s.threads[s.threads.length-1]? = some t :=
      ⟨_, List.getElem?_eq_getElem (Nat.sub_lt hpos Nat.one_pos)⟩
    obtain ⟨pc, semaphore, hat, -, hpending⟩ := h.thread _ t ht
    have hwaiting : s.done = s.threads.length-1 := by rw [System.done, howner]
    have hsemaphore := hpending (Nat.le_of_eq hwaiting)
    by_cases hpast : 5 ≤ pc.rank
    · refine ⟨.wait, ?_⟩
      rw [if_pos hpast] at hsemaphore
      have hlast : s.threads.getLast? = some t := by rw [List.getLast?_eq_getElem?, ht]
      have hposted : 0 < t.semaphore := by rw [hat, hsemaphore]; exact Nat.one_pos
      simp only [next, howner, hlast, if_pos hposted]
      exact ⟨_, rfl⟩
    · obtain ⟨s', hs'⟩ := run_enabled h ht (.inl (by rw [hat]; exact Nat.not_le.mp hpast))
      exact ⟨_, s', hs'⟩
  | constructed =>
    have hpos := h.waiting (.inr howner)
    refine ⟨.record, ?_⟩
    obtain ⟨t, ht⟩ : ∃ t, s.threads.getLast? = some t :=
      ⟨_, List.getLast?_eq_some_getLast (List.length_pos_iff.mp hpos)⟩
    simp only [next, howner, ht]
    exact ⟨_, rfl⟩
  | started =>
    refine ⟨.stop, ?_⟩
    simp only [next, howner, if_true]
    exact ⟨_, rfl⟩
  | joining j =>
    cases ht : s.threads[j]? with
    | none =>
      refine ⟨.join, ?_⟩
      simp only [next, howner, ht]
      exact ⟨_, rfl⟩
    | some t =>
      by_cases hended : t.pc = .ended
      · refine ⟨.join, ?_⟩
        simp only [next, howner, ht, if_pos hended]
        exact ⟨_, rfl⟩
      · obtain ⟨s', hs'⟩ := run_enabled h ht
          (.inr ⟨hended, by rw [howner]; rfl, by rw [howner]; rfl⟩)
        exact ⟨_, s', hs'⟩
  | stopped => exact absurd howner hend
  | threw => exact absurd howner hthrew

/-! ## What start leaves -/

/-- The owner may use the thread: its identifier is there, its callback has gone to the thread,
and nothing that the thread still does touches the object. -/
structure Handed (tid : ℕ) (o : Owner) (t : Thread) : Prop where
  id : t.id = some tid
  cb : t.cb = false
  apart : ∀ t', t.step tid o = some t' → t' = { t with pc := t'.pc, calls := t'.calls }

theorem handed_of_past {tid : ℕ} {o : Owner} {pc : Pc} (h : 5 ≤ pc.rank) (semaphore : ℕ) :
    Handed tid o (Thread.at tid pc semaphore) := by
  have hid : 2 ≤ pc.rank := by omega
  have hcb : ¬ pc.rank < 4 := by omega
  refine ⟨if_pos hid, decide_eq_false hcb, ?_⟩
  intro t' ht'
  rw [step_at] at ht'
  obtain ⟨pc', hpc', rfl⟩ := Option.map_eq_some_iff.mp ht'
  have hrank := next_rank hpc'
  have hne : pc ≠ .swapped := by
    rintro rfl
    exact absurd h (by decide)
  have hid' : 2 ≤ pc'.rank := by omega
  have hcb' : ¬ pc'.rank < 4 := by omega
  have hheld : 4 ≤ pc.rank := by omega
  have hheld' : 4 ≤ pc'.rank := by omega
  simp [Thread.at, hne, hid, hid', hcb, hcb', hheld, hheld']

/-- However `start`, `stop` and the threads interleave: a constructed thread has been handed
over, no callback is called twice, `start` leaves the identifiers of the threads in their order,
and behind `stop` every callback has been called. Nothing waits for ever: as long as the owner
has not come to an end somebody can go on, and every step brings the end nearer. -/
theorem threads_started (threadCount : ℕ) (tid : ℕ → ℕ) (garbage : ℕ) (s : System)
    (h : Reaches next Free (System.init threadCount tid garbage) s) :
    (∀ (i : ℕ) (t : Thread), s.threads[i]? = some t →
      t.calls ≤ 1 ∧ (i < s.done → Handed (s.tid i) s.owner t) ∧
        (s.owner = .stopped → t.calls = 1)) ∧
    (s.owner ≠ .threw → s.owner.locks = false →
      s.threadIds = (List.range s.threadCount).map s.tid) ∧
    (s.owner ≠ .stopped → s.owner ≠ .threw → ∃ a s', next s a = some s') ∧
    (∀ a s', next s a = some s' → s'.left < s.left) := by
  have hinv : Inv s := Reaches.invariant (I := Inv) (init_inv threadCount tid garbage)
    (fun _ _ _ hs _ hn => next_inv hs hn) h
  refine ⟨?_, ?_, enabled hinv, fun a s' hn => next_left hinv hn⟩
  · intro i t ht
    obtain ⟨pc, semaphore, hat, hdone, -⟩ := hinv.thread i t ht
    refine ⟨?_, ?_, ?_⟩
    · rw [hat]
      change (if 6 ≤ pc.rank then 1 else 0) ≤ 1
      split_ifs <;> decide
    · intro hi
      rw [hat]
      exact handed_of_past (hdone hi).1 semaphore
    · intro howner
      have hended := hinv.joined i t ht (by rw [howner]; trivial)
      rw [hat] at hended
      obtain rfl : pc = .ended := hended
      rw [hat]
      rfl
  · intro hthrew hlocks
    have hids := hinv.ids
    rw [← hinv.full hthrew hlocks]
    cases howner : s.owner <;> rw [howner] at hids hlocks <;> first | exact hids | cases hlocks

def eager : List Action :=
  [.create true, .run 0, .run 0, .run 0, .run 0, .run 0, .wait, .record, .create true]

theorem one_thread_started : ∃ s, after next eager (System.init 1 (fun _ => 4242) 7) = some s ∧
    s.owner = .started ∧ s.threadIds = (List.range s.threadCount).map s.tid ∧
    s.threadIds = [4242] := by
  refine ⟨_, rfl, rfl, ?_, rfl⟩
  exact (threads_started 1 (fun _ => 4242) 7 _ (Reaches.after eager .start rfl)).2.1
    (by decide) rfl

end Lamb.ThreadStart
