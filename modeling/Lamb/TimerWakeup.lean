import Lamb.TimerInvariant
import Lamb.Library.Slots

/-!
# Waking idle threads for a new timer

An idle thread computes the deadline of its `epoll_wait` in `getNextTimer`, which
also clears `m_tickled`. An insertion at the front of the timers sets the flag and,
after the unlock, writes a byte to the pipe if some thread is idle; while the flag
is set no other insertion does. One woken thread drains the pipe and goes on with
its loop, which may run tasks of any length. A thread counts as waiting from the
computation of its deadline until its `epoll_wait` returns.
-/

set_option autoImplicit false

namespace Lamb.TimerWakeup
open Lamb.Runs Lamb.TimerManager

variable {κ : Type}

/-- The points of the loop. `polling` is an `epoll_wait` with timeout zero, and a
thread is `listed` between `listExpiredCb` and the reports that it has received;
`pipe` says that the pipe is among these. -/
inductive Pc where
  | busy
  | entering
  | waiting (deadline : Option ℕ)
  | polling
  | woken (pipe : Bool)
  | listed (pipe : Bool)
  | leaving
  deriving DecidableEq, Repr

/-- `checking` and `writing` count the insertions at the front that are about to
read the idle count and to write to the pipe. -/
structure Pool (κ : Type) where
  manager : Manager κ
  threads : List Pc
  pipe : ℕ
  checking : ℕ
  writing : ℕ

def Pool.init (threads : ℕ) (now : UInt64) : Pool κ where
  manager := Manager.init now
  threads := List.replicate threads .busy
  pipe := 0
  checking := 0
  writing := 0

/-- The timeout passed to `epoll_wait`: a conversion to `int`, at most `MAX_TIMEOUT`. -/
def epollTimeout (next : UInt64) : ℤ :=
  if next = ~~~0 then 5000 else min ((next.toNat : ℤ).bmod 4294967296) 5000

def deadline (now : UInt64) (timeout : ℤ) : Option ℕ :=
  if timeout < 0 then none else some (now.toNat+timeout.toNat)

inductive Action (κ : Type) where
  | addTimer (a : ℕ) (ms : UInt64) (cb : Option κ) (recurring : Bool) (now : UInt64)
  | reset (a : ℕ) (ms : UInt64) (fromNow : Bool) (now : UInt64)
  | cancel (a : ℕ)
  | checkIdle
  | write
  | scheduleTickle
  | enterIdle (t : ℕ)
  | getNextTimer (t : ℕ) (now : UInt64)
  | wake (t : ℕ) (pipe : Bool)
  | listExpiredCb (t : ℕ) (now : UInt64) (addr : ℕ)
  | drain (t : ℕ)
  | leave (t : ℕ)

def Pool.goto (s : Pool κ) (t : ℕ) (p : Pc) : Pool κ := { s with threads := s.threads.set t p }

def Pool.hasIdleThreads (s : Pool κ) : Bool := s.threads.any (· ≠ .busy)

def Pool.inserted (s : Pool κ) (o : Outcome κ) : Pool κ :=
  { s with
    manager := o.manager
    checking := if o.atFront then s.checking+1 else s.checking }

def next (s : Pool κ) : Action κ → Option (Pool κ)
  | .addTimer a ms cb recurring now =>
    match s.manager.objects a with
    | some _ => none
    | none => some (s.inserted (addTimer s.manager a ms cb recurring now))
  | .reset a ms fromNow now => (reset s.manager a ms fromNow now).map s.inserted
  | .cancel a => (cancel s.manager a).map fun o => { s with manager := o.manager }
  | .checkIdle =>
    if s.checking = 0 then none
    else if s.hasIdleThreads then
      some { s with checking := s.checking-1, writing := s.writing+1 }
    else some { s with checking := s.checking-1 }
  | .write =>
    if s.writing = 0 then none else some { s with writing := s.writing-1, pipe := s.pipe+1 }
  | .scheduleTickle => if s.hasIdleThreads then some { s with pipe := s.pipe+1 } else none
  | .enterIdle t =>
    match s.threads[t]? with
    | some .busy => some (s.goto t .entering)
    | _ => none
  | .getNextTimer t now =>
    match s.threads[t]? with
    | some .entering =>
      let r := getNextTimer s.manager now
      let timeout := epollTimeout r.2
      some ({ s with manager := r.1 }.goto t
        (if timeout = 0 then .polling else .waiting (deadline now timeout)))
    | _ => none
  | .wake t pipe =>
    match s.threads[t]? with
    | some (.waiting _) => if pipe && s.pipe = 0 then none else some (s.goto t (.woken pipe))
    | some .polling => if pipe && s.pipe = 0 then none else some (s.goto t (.woken pipe))
    | _ => none
  | .listExpiredCb t now addr =>
    match s.threads[t]? with
    | some (.woken pipe) =>
      some ({ s with manager := (listExpiredCb s.manager now addr).1 }.goto t (.listed pipe))
    | _ => none
  | .drain t =>
    match s.threads[t]? with
    | some (.listed pipe) => some ({ s with pipe := if pipe then 0 else s.pipe }.goto t .leaving)
    | _ => none
  | .leave t =>
    match s.threads[t]? with
    | some .leaving => some (s.goto t .busy)
    | _ => none

/-- Where threads wait and there are timers, the deadline of one of the threads is
no later than the earliest timer. -/
def Alert (threads : List Pc) (m : Manager κ) : Prop :=
  (∃ d, .waiting d ∈ threads) → ∀ first, m.timers.head? = some first →
    ∃ d, .waiting (some d) ∈ threads ∧ d ≤ (m.nextOf first).toNat

/-- An insertion is between its unlock and the end of its tickle. -/
def InFlight (s : Pool κ) : Prop := 0 < s.checking ∨ 0 < s.writing

def Covered (s : Pool κ) : Prop := InFlight s ∨ 0 < s.pipe ∨ Alert s.threads s.manager

/-- The remaining times are below `2^31`, no clock rollover is seen and a period
does not wrap the clock. -/
def Measured (s : Pool κ) : Action κ → Prop
  | .getNextTimer _ now => s.manager.timers ≠ [] →
      (getNextTimer s.manager now).2.toNat < 2147483648
  | .listExpiredCb _ now _ => rolledOver s.manager now = false ∧
      ∀ a t, s.manager.objects a = some t → t.recurring = true → now.toNat+t.ms.toNat < 2^64
  | _ => True

/-- The timer `a` with the expiry `next` comes before all others of the set. -/
def First (m : Manager κ) (a : ℕ) (next : UInt64) : Prop :=
  ∀ x ∈ m.timers, x ≠ a → comparator (some (a, next)) (m.ptr x) = true

/-- A timer that becomes the earliest finds `m_tickled` clear, unless it needs no tickle. -/
def Announced (s : Pool κ) (a : ℕ) (next : UInt64) : Prop :=
  First s.manager a next → s.manager.tickled = true → InFlight s ∨ 0 < s.pipe ∨
    ((∃ d, .waiting d ∈ s.threads) → ∃ d, .waiting (some d) ∈ s.threads ∧ d ≤ next.toNat)

/-- A thread that stops waiting, or that drains the pipe, leaves another one alert. -/
def Relayed (s : Pool κ) : Action κ → Prop
  | .addTimer a ms _ _ now => Announced s a (now+ms)
  | .reset a ms fromNow now => a ∈ s.manager.timers → ∀ t, s.manager.objects a = some t →
      Announced s a (resetTimer t ms fromNow now).next
  | .wake t _ => InFlight s ∨ 0 < s.pipe ∨ Alert (s.threads.set t .busy) s.manager
  | .drain t => s.threads[t]? = some (.listed true) → InFlight s ∨ Alert s.threads s.manager
  | _ => True

/-! ## The earliest timer -/

def Later (m m' : Manager κ) : Prop :=
  ∀ x, m'.timers.head? = some x →
    ∃ y, m.timers.head? = some y ∧ (m.nextOf y).toNat ≤ (m'.nextOf x).toNat

theorem later_of_mem {m m' : Manager κ} (h : Inv False m)
    (hmem : ∀ x ∈ m'.timers, ∃ y ∈ m.timers, m.nextOf y ≤ m'.nextOf x) : Later m m' := by
  intro x hx
  obtain ⟨y, hy, hle⟩ := hmem x (List.mem_of_mem_head? hx)
  cases hm : m.timers with
  | nil =>
    rw [hm] at hy
    cases hy
  | cons first rest =>
    refine ⟨first, rfl, ?_⟩
    have hfirst := first_le h hm hy
    rw [UInt64.le_iff_toNat_le] at hle hfirst
    omega

theorem Alert.later {threads : List Pc} {m m' : Manager κ} (h : Alert threads m)
    (hl : Later m m') : Alert threads m' := by
  intro hw x hx
  obtain ⟨y, hy, hle⟩ := hl x hx
  obtain ⟨d, hd, hdy⟩ := h hw y hy
  exact ⟨d, hd, hdy.trans hle⟩

theorem nextOf_store (m : Manager κ) (a : ℕ) (t : Timer κ) : (m.store a t).nextOf a = t.next := by
  simp only [Manager.nextOf, store_objects_self]

theorem nextOf_store_of_ne (m : Manager κ) {a x : ℕ} (t : Timer κ) (h : x ≠ a) :
    (m.store a t).nextOf x = m.nextOf x := by
  simp only [Manager.nextOf, store_objects_of_ne m t h]

/-- An insertion comes to the front, or the earliest timer is that of before. -/
theorem insertTimer_front {m m₀ : Manager κ} {a : ℕ} (h : Inv False m) (hout : Holds False [a] m₀)
    (hsub : ∀ x ∈ m₀.timers, x ∈ m.timers ∧ m₀.nextOf x = m.nextOf x)
    (hsup : ∀ x ∈ m.timers, x ≠ a → x ∈ m₀.timers) :
    First m a (m₀.nextOf a) ∧ (insertTimer m₀ a).manager.timers.head? = some a ∧
        (insertTimer m₀ a).atFront = !m₀.tickled ∨
      Later m (insertTimer m₀ a).manager := by
  have hins : Inv False (m₀.insert a) := hout.insert
  have hmem := hout.mem_insert
  have hfind : (m₀.insert a).find a = some a := hins.find_of_mem ((hmem a).mpr (Or.inl rfl))
  by_cases hhead : (m₀.insert a).timers.head? = some a
  · left
    refine ⟨?_, hhead, ?_⟩
    · intro x hx hne
      have hord := hins.ordered
      obtain ⟨rest, hrest⟩ := List.head?_eq_some_iff.mp hhead
      have hxm : x ∈ (m₀.insert a).timers := (hmem x).mpr (.inr (hsup x hx hne))
      have hxr : x ∈ rest := by
        rw [hrest] at hxm
        exact (List.mem_cons.mp hxm).resolve_left hne
      rw [hrest] at hord
      have hlt := (List.pairwise_cons.mp hord).1 x hxr
      rw [ptr_of_mem hins ((hmem a).mpr (.inl rfl)), ptr_of_mem hins hxm] at hlt
      rw [ptr_of_mem h hx, ← (hsub x (hsup x hx hne)).2]
      exact hlt
    simp only [insertTimer, hfind, hhead, beq_self_eq_true, Bool.true_and]
    rfl
  · right
    intro x hx
    have hx : (m₀.insert a).timers.head? = some x := hx
    have hxm : x ∈ m₀.timers := by
      rcases (hmem x).mp (List.mem_of_mem_head? hx) with rfl | hxm
      · exact absurd hx hhead
      · exact hxm
    obtain ⟨hin, hnext⟩ := hsub x hxm
    cases hm : m.timers with
    | nil =>
      rw [hm] at hin
      cases hin
    | cons first rest =>
      refine ⟨first, rfl, ?_⟩
      have hfirst := first_le h hm hin
      rw [UInt64.le_iff_toNat_le, ← hnext] at hfirst
      exact hfirst

theorem addTimer_front {m : Manager κ} (h : Inv False m) {a : ℕ} (ha : m.objects a = none)
    (ms : UInt64) (cb : Option κ) (recurring : Bool) (now : UInt64) :
    (First m a (now+ms) ∧ (addTimer m a ms cb recurring now).manager.timers.head? = some a ∧
        (addTimer m a ms cb recurring now).atFront = !m.tickled ∨
      Later m (addTimer m a ms cb recurring now).manager) ∧
    (addTimer m a ms cb recurring now).manager.nextOf a = now+ms := by
  have hcreate : Holds False [a] (m.store a ⟨recurring, ms, now+ms, cb⟩) :=
    Holds.create h ha False.elim
  have hnext : (m.store a ⟨recurring, ms, now+ms, cb⟩).nextOf a = now+ms := nextOf_store m a _
  refine ⟨?_, hnext⟩
  rw [← hnext]
  refine insertTimer_front h hcreate ?_ fun x hx _ => hx
  intro x hx
  have hxa : x ≠ a := by
    rintro rfl
    exact hcreate.fresh x List.mem_cons_self hx
  exact ⟨hx, nextOf_store_of_ne m _ hxa⟩

theorem reset_front {m : Manager κ} (h : Inv False m) {a : ℕ} {ms : UInt64} {fromNow : Bool}
    {now : UInt64} {o : Outcome κ} (ho : reset m a ms fromNow now = some o) :
    Inv False o.manager ∧
      ((∃ t, a ∈ m.timers ∧ m.objects a = some t ∧ First m a (resetTimer t ms fromNow now).next ∧
          o.manager.nextOf a = (resetTimer t ms fromNow now).next ∧
          o.manager.timers.head? = some a ∧ o.atFront = !m.tickled) ∨
        Later m o.manager) := by
  cases ha : m.objects a with
  | none => simp [reset, ha] at ho
  | some t =>
    cases hcb : t.cb with
    | none =>
      rw [reset_spent ha hcb] at ho
      cases ho
      exact ⟨h, Or.inr fun x hx => ⟨x, hx, le_rfl⟩⟩
    | some cb =>
      have hsome : t.cb.isSome := by simp [hcb]
      have hin := h.mem_of_cb ha hsome
      rw [reset_armed h ha hsome] at ho
      cases ho
      have hout : Holds False [a] ((m.erase a).store a (resetTimer t ms fromNow now)) :=
        (Holds.erase h hin).store False.elim
      have hnext := nextOf_store (m.erase a) a (resetTimer t ms fromNow now)
      have hfront := insertTimer_front h hout
        (fun x hx => by
          obtain ⟨hxm, hxa⟩ := (Holds.mem_erase h hin x).mp hx
          exact ⟨hxm, nextOf_store_of_ne (m.erase a) _ hxa⟩)
        (fun x hx hne => (Holds.mem_erase h hin x).mpr ⟨hx, hne⟩)
      rw [hnext] at hfront
      refine ⟨insertTimer_inv hout, hfront.imp_left ?_⟩
      rintro ⟨hfirst, hhead, hat⟩
      exact ⟨t, hin, rfl, hfirst, hnext, hhead, hat⟩

theorem cancel_later {m : Manager κ} (h : Inv False m) {a : ℕ} {o : Outcome κ}
    (ho : cancel m a = some o) : Inv False o.manager ∧ Later m o.manager := by
  cases ha : m.objects a with
  | none => simp [cancel, ha] at ho
  | some t =>
    cases hcb : t.cb with
    | none =>
      rw [cancel_spent ha hcb] at ho
      cases ho
      exact ⟨h, fun x hx => ⟨x, hx, le_rfl⟩⟩
    | some cb =>
      have hsome : t.cb.isSome := by simp [hcb]
      have hin := h.mem_of_cb ha hsome
      rw [cancel_armed h ha hsome] at ho
      cases ho
      refine ⟨(Holds.erase h hin).disarm rfl, later_of_mem h ?_⟩
      intro x hx
      obtain ⟨hxm, hxa⟩ := (Holds.mem_erase h hin x).mp hx
      refine ⟨x, hxm, ?_⟩
      rw [nextOf_store_of_ne (m.erase a) _ hxa]
      exact UInt64.le_refl _

/-- Without a rollover the timers that are handed out come back later, if at all. -/
theorem listExpiredCb_later {m : Manager κ} (h : Inv False m) {now : UInt64} (addr : ℕ)
    (hro : rolledOver m now = false)
    (hwrap : ∀ a t, m.objects a = some t → t.recurring = true → now.toNat+t.ms.toNat < 2^64) :
    Inv False (listExpiredCb m now addr).1 ∧ Later m (listExpiredCb m now addr).1 := by
  obtain ⟨m', out, heq, hinv, -, hmem, hall⟩ := listExpiredCb_spec h now addr
  rw [heq]
  refine ⟨hinv, later_of_mem h ?_⟩
  intro x hx
  obtain ⟨hxm, hrec⟩ := (hall x).member.mp hx
  refine ⟨x, hxm, ?_⟩
  by_cases ho : x ∈ out
  · obtain ⟨t, ht⟩ := Option.isSome_iff_exists.mp (h.live x (Or.inl hxm))
    have hr : t.recurring = true := by simpa [ht] using hrec ho
    have hdue : m.nextOf x ≤ now := by simpa [hro] using ((hmem x).mp ho).2
    have hlt := hwrap x t ht hr
    rw [(hall x).moved t ho ht hr, UInt64.le_iff_toNat_le, UInt64.toNat_add,
      Nat.mod_eq_of_lt hlt]
    rw [UInt64.le_iff_toNat_le] at hdue
    omega
  · have hsame : m'.nextOf x = m.nextOf x := by
      rw [Manager.nextOf, (hall x).kept ho]
      rfl
    rw [hsame]
    exact UInt64.le_refl _

/-- The deadline that `getNextTimer` leads to is in time for the earliest timer. -/
theorem deadline_le {m : Manager κ} {now : UInt64} {first : ℕ}
    (hfirst : m.timers.head? = some first) (hsmall : (getNextTimer m now).2.toNat < 2147483648)
    (hwait : epollTimeout (getNextTimer m now).2 ≠ 0) :
    ∃ d, deadline now (epollTimeout (getNextTimer m now).2) = some d ∧
      d ≤ (m.nextOf first).toNat := by
  have hlist : ∃ rest, m.timers = first::rest := by
    cases hm : m.timers with
    | nil => simp [hm] at hfirst
    | cons a rest => exact ⟨rest, by simpa [hm] using hfirst⟩
  obtain ⟨rest, hm⟩ := hlist
  have hget : (getNextTimer m now).2 =
      if m.nextOf first ≤ now then 0 else m.nextOf first-now := by
    simp only [getNextTimer, hm]
    rfl
  have hmod : ((getNextTimer m now).2.toNat : ℤ).bmod 4294967296 =
      (getNextTimer m now).2.toNat := by
    apply Int.bmod_eq_of_le
    · omega
    · omega
  have hneg : (getNextTimer m now).2 ≠ ~~~0 := by
    intro he
    rw [he] at hsmall
    exact absurd hsmall (by decide)
  have htimeout : epollTimeout (getNextTimer m now).2 =
      min ((getNextTimer m now).2.toNat : ℤ) 5000 := by
    rw [epollTimeout, if_neg hneg, hmod]
  by_cases hle : m.nextOf first ≤ now
  · rw [htimeout, hget, if_pos hle] at hwait
    exact absurd rfl hwait
  · have hlt : now.toNat < (m.nextOf first).toNat := by
      rw [UInt64.le_iff_toNat_le] at hle
      omega
    have hsub : (getNextTimer m now).2.toNat = (m.nextOf first).toNat-now.toNat := by
      rw [hget, if_neg hle]
      apply UInt64.toNat_sub_of_le
      rw [UInt64.le_iff_toNat_le]
      omega
    have hpos : ¬epollTimeout (getNextTimer m now).2 < 0 := by
      rw [htimeout]
      omega
    refine ⟨now.toNat+(epollTimeout (getNextTimer m now).2).toNat, ?_, ?_⟩
    · rw [deadline, if_neg hpos]
    · rw [htimeout]
      omega

/-! ## Steps -/

def Pc.waits : Pc → Bool
  | .waiting _ => true
  | _ => false

/-- A thread moves between points at which it does not wait. -/
theorem Alert.goto {threads : List Pc} {m : Manager κ} (h : Alert threads m) {t : ℕ} {p q : Pc}
    (ht : threads[t]? = some p) (hp : p.waits = false) (hq : q.waits = false) :
    Alert (threads.set t q) m := by
  rintro ⟨d, hd⟩ first hfirst
  rcases List.mem_or_eq_of_mem_set hd with hd | rfl
  · obtain ⟨d', hd', hle⟩ := h ⟨d, hd⟩ first hfirst
    refine ⟨d', Slots.mem_set_of_ne ht hd' ?_, hle⟩
    rintro rfl
    cases hp
  · cases hq

theorem Covered.goto {s : Pool κ} (h : Covered s) {t : ℕ} {p q : Pc}
    (ht : s.threads[t]? = some p) (hp : p.waits = false) (hq : q.waits = false) :
    Covered (s.goto t q) :=
  h.imp_right fun h => h.imp_right fun ha => ha.goto ht hp hq

theorem Covered.later {s : Pool κ} (h : Covered s) {m : Manager κ} (hl : Later s.manager m) :
    Covered { s with manager := m } :=
  h.imp_right fun h => h.imp_right fun ha => ha.later hl

/-- An insertion: one at the front is announced or in flight, another one leaves the
earliest timer where it was. -/
theorem inserted_covered {s : Pool κ} (h : Covered s) (a : ℕ) (next : UInt64) {o : Outcome κ}
    (hfront : Announced s a next ∧ First s.manager a next ∧ o.manager.nextOf a = next ∧
        o.manager.timers.head? = some a ∧ o.atFront = !s.manager.tickled ∨
      Later s.manager o.manager) : Covered (s.inserted o) := by
  have hmono : s.checking ≤ (s.inserted o).checking := by
    simp only [Pool.inserted]
    split_ifs
    · exact Nat.le_succ _
    · exact le_rfl
  have hflight : InFlight s → InFlight (s.inserted o) := fun hf =>
    hf.imp_left fun hc => hc.trans_le hmono
  rcases hfront with ⟨hg, hfirst, hnext, hhead, hat⟩ | hlater
  · cases htick : s.manager.tickled with
    | false =>
      left
      left
      simp [Pool.inserted, hat, htick]
    | true =>
      rcases hg hfirst htick with hf | hp | ha
      · exact Or.inl (hflight hf)
      · exact Or.inr (Or.inl hp)
      · right
        right
        intro hw first hf
        obtain rfl : a = first := Option.some.inj (hhead.symm.trans hf)
        rw [← hnext] at ha
        exact ha hw
  · rcases h with hf | hp | ha
    · exact Or.inl (hflight hf)
    · exact Or.inr (Or.inl hp)
    · exact Or.inr (Or.inr (ha.later hlater))

theorem alert_of_busy {s : Pool κ} (h : s.hasIdleThreads = false) (m : Manager κ) :
    Alert s.threads m := by
  rintro ⟨d, hd⟩
  have hbusy : ∀ p ∈ s.threads, p = .busy := by simpa [Pool.hasIdleThreads] using h
  cases hbusy _ hd

theorem checkIdle_covered {s s' : Pool κ} (hn : next s .checkIdle = some s') : Covered s' := by
  simp only [next] at hn
  split_ifs at hn with hc hidle
  · obtain rfl := Option.some.inj hn
    exact Or.inl (Or.inr (Nat.succ_pos _))
  · obtain rfl := Option.some.inj hn
    exact Or.inr (Or.inr (alert_of_busy (s := s) (by simpa using hidle) _))

theorem getNextTimer_covered {s s' : Pool κ} {t : ℕ} {now : UInt64} (h : Covered s)
    (hm : Measured s (.getNextTimer t now)) (hn : next s (.getNextTimer t now) = some s') :
    Covered s' := by
  simp only [next] at hn
  split at hn
  · rename_i ht
    obtain rfl := Option.some.inj hn
    rw [getNextTimer_manager]
    have hsame : Covered { s with manager := { s.manager with tickled := false } } :=
      h.later fun x hx => ⟨x, hx, le_rfl⟩
    by_cases hzero : epollTimeout (getNextTimer s.manager now).2 = 0
    · rw [if_pos hzero]
      exact hsame.goto ht rfl rfl
    · rw [if_neg hzero]
      right
      right
      intro _ first hfirst
      have hfirst : s.manager.timers.head? = some first := hfirst
      have hne : s.manager.timers ≠ [] := by
        intro hnil
        rw [hnil] at hfirst
        cases hfirst
      obtain ⟨d, hd, hle⟩ := deadline_le hfirst (hm hne) hzero
      have hin : .waiting (some d) ∈ s.threads.set t
          (.waiting (deadline now (epollTimeout (getNextTimer s.manager now).2))) := by
        rw [hd]
        exact Slots.mem_set_self ht _
      exact ⟨d, hin, hle⟩
  · cases hn

theorem Alert.woken {threads : List Pc} {m : Manager κ} {t : ℕ} (q : Pc) (hq : q.waits = false)
    (h : Alert (threads.set t .busy) m) : Alert (threads.set t q) m := by
  by_cases ht : t < threads.length
  · have hbusy : (threads.set t .busy)[t]? = some .busy := List.getElem?_set_self ht
    have hmoved := h.goto hbusy rfl hq
    rwa [List.set_set] at hmoved
  · rw [List.set_eq_of_length_le (by omega)] at h ⊢
    exact h

theorem wake_covered {s s' : Pool κ} {t : ℕ} {pipe : Bool} (hg : Relayed s (.wake t pipe))
    (hn : next s (.wake t pipe) = some s') : Covered s' := by
  have hgoto : Covered (s.goto t (.woken pipe)) :=
    hg.imp_right fun hg => hg.imp_right fun ha => ha.woken _ rfl
  simp only [next] at hn
  split at hn
  · split_ifs at hn
    obtain rfl := Option.some.inj hn
    exact hgoto
  · split_ifs at hn
    obtain rfl := Option.some.inj hn
    exact hgoto
  · cases hn

theorem drain_covered {s s' : Pool κ} {t : ℕ} (h : Covered s) (hg : Relayed s (.drain t))
    (hn : next s (.drain t) = some s') : Covered s' := by
  simp only [next] at hn
  split at hn
  · rename_i pipe ht
    obtain rfl := Option.some.inj hn
    cases pipe with
    | false => exact h.goto ht rfl rfl
    | true =>
      rcases hg ht with hf | ha
      · exact Or.inl hf
      · exact Or.inr (Or.inr (ha.goto ht rfl rfl))
  · cases hn

def Good (s : Pool κ) : Prop := Inv False s.manager ∧ Covered s

theorem next_good {s s' : Pool κ} {a : Action κ} (h : Good s) (hm : Measured s a)
    (hg : Relayed s a) (hn : next s a = some s') : Good s' := by
  obtain ⟨hi, hc⟩ := h
  cases a with
  | addTimer a ms cb recurring now =>
    cases ha : s.manager.objects a with
    | some t => simp [next, ha] at hn
    | none =>
      obtain rfl : s.inserted (addTimer s.manager a ms cb recurring now) = s' := by
        simpa [next, ha] using hn
      obtain ⟨hfront, hnext⟩ := addTimer_front hi ha ms cb recurring now
      refine ⟨addTimer_inv hi ha ms cb recurring now False.elim, inserted_covered hc a (now+ms) ?_⟩
      exact hfront.imp_left fun ⟨hfirst, hhead, hat⟩ => ⟨hg, hfirst, hnext, hhead, hat⟩
  | reset a ms fromNow now =>
    obtain ⟨o, ho, rfl⟩ := Option.map_eq_some_iff.mp hn
    obtain ⟨hinv, hfront | hlater⟩ := reset_front hi ho
    · obtain ⟨t, hin, ht, hfirst, hnext, hhead, hat⟩ := hfront
      exact ⟨hinv, inserted_covered hc a _ (.inl ⟨hg hin t ht, hfirst, hnext, hhead, hat⟩)⟩
    · exact ⟨hinv, inserted_covered hc a 0 (.inr hlater)⟩
  | cancel a =>
    obtain ⟨o, ho, rfl⟩ := Option.map_eq_some_iff.mp hn
    obtain ⟨hinv, hlater⟩ := cancel_later hi ho
    exact ⟨hinv, hc.later hlater⟩
  | checkIdle =>
    refine ⟨?_, checkIdle_covered hn⟩
    simp only [next] at hn
    split_ifs at hn
    · obtain rfl := Option.some.inj hn
      exact hi
    · obtain rfl := Option.some.inj hn
      exact hi
  | write =>
    simp only [next] at hn
    split_ifs at hn
    obtain rfl := Option.some.inj hn
    exact ⟨hi, Or.inr (Or.inl (Nat.succ_pos _))⟩
  | scheduleTickle =>
    simp only [next] at hn
    split_ifs at hn
    obtain rfl := Option.some.inj hn
    exact ⟨hi, Or.inr (Or.inl (Nat.succ_pos _))⟩
  | enterIdle t =>
    simp only [next] at hn
    split at hn
    · rename_i ht
      obtain rfl := Option.some.inj hn
      exact ⟨hi, hc.goto ht rfl rfl⟩
    · cases hn
  | getNextTimer t now =>
    refine ⟨?_, getNextTimer_covered hc hm hn⟩
    simp only [next] at hn
    split at hn
    · obtain rfl := Option.some.inj hn
      rw [getNextTimer_manager]
      exact hi.flags _ _
    · cases hn
  | wake t pipe =>
    refine ⟨?_, wake_covered hg hn⟩
    simp only [next] at hn
    split at hn
    · split_ifs at hn
      obtain rfl := Option.some.inj hn
      exact hi
    · split_ifs at hn
      obtain rfl := Option.some.inj hn
      exact hi
    · cases hn
  | listExpiredCb t now addr =>
    simp only [next] at hn
    split at hn
    · rename_i pipe ht
      obtain rfl := Option.some.inj hn
      obtain ⟨hinv, hlater⟩ := listExpiredCb_later hi addr hm.1 hm.2
      exact ⟨hinv, (hc.later hlater).goto ht rfl rfl⟩
    · cases hn
  | drain t =>
    refine ⟨?_, drain_covered hc hg hn⟩
    simp only [next] at hn
    split at hn
    · obtain rfl := Option.some.inj hn
      exact hi
    · cases hn
  | leave t =>
    simp only [next] at hn
    split at hn
    · rename_i ht
      obtain rfl := Option.some.inj hn
      exact ⟨hi, hc.goto ht rfl rfl⟩
    · cases hn

theorem init_good (threads : ℕ) (now : UInt64) : Good (Pool.init threads now : Pool κ) := by
  refine ⟨init_inv now, .inr (.inr ?_)⟩
  rintro ⟨d, hd⟩
  cases List.eq_of_mem_replicate hd

/-- While every step relays, a waiting thread with timers in the set is covered at
every moment at which no insertion is in flight: by a byte in the pipe, or by a
waiting thread whose deadline is no later than the earliest timer. -/
theorem no_lost_timer_wakeup (threads : ℕ) (start : UInt64) (s : Pool κ)
    (h : Reaches next (fun s a => Measured s a ∧ Relayed s a) (Pool.init threads start) s)
    (hflight : ¬InFlight s) (hwait : ∃ d, .waiting d ∈ s.threads) (first : ℕ)
    (hfirst : s.manager.timers.head? = some first) :
    0 < s.pipe ∨ ∃ d, .waiting (some d) ∈ s.threads ∧ d ≤ (s.manager.nextOf first).toNat := by
  have hgood : Good s :=
    h.invariant (init_good threads start) fun _ _ _ hs hg hn => next_good hs hg.1 hg.2 hn
  rcases hgood.2 with hf | hp | ha
  · exact absurd hf hflight
  · exact Or.inl hp
  · exact Or.inr (ha hwait first hfirst)

theorem no_lost_timer_wakeup_tickled : ∃ s : Pool Unit,
    after next [.enterIdle 0, .getNextTimer 0 10, .addTimer 7 100 (some ()) false 20, .checkIdle,
      .write] (Pool.init 2 0) = some s ∧ .waiting (some 5010) ∈ s.threads ∧
      s.manager.timers.head? = some 7 ∧ (0 < s.pipe ∨ ∃ d, .waiting (some d) ∈ s.threads ∧
        d ≤ (s.manager.nextOf 7).toNat) := by
  refine ⟨_, rfl, by decide, by decide, ?_⟩
  have henter : Reaches next (fun s a => Measured s a ∧ Relayed s a)
      (Pool.init 2 0 : Pool Unit) _ :=
    Reaches.start.step (a := Action.enterIdle 0) ⟨trivial, trivial⟩ rfl
  have hwait := henter.step (a := Action.getNextTimer 0 10) ⟨fun hne => absurd rfl hne, trivial⟩ rfl
  have hadd := hwait.step (a := Action.addTimer 7 100 (some ()) false 20)
    ⟨trivial, fun _ htick => absurd htick (by decide)⟩ rfl
  have hwrite := (hadd.step (a := Action.checkIdle) ⟨trivial, trivial⟩ rfl).step
    (a := Action.write) ⟨trivial, trivial⟩ rfl
  apply no_lost_timer_wakeup 2 0 _ hwrite _ ⟨some 5010, by decide⟩ 7 (by decide)
  rintro (hc | hw)
  · exact absurd hc (by decide)
  · exact absurd hw (by decide)

/-- Two threads wait for five seconds. The one that reads the byte of a new timer
goes on to a task, the other one sleeps past the timer. -/
theorem byte_taken_by_busy_thread : ∃ s : Pool Unit,
    Reaches next Measured (Pool.init 2 0) s ∧ ¬InFlight s ∧ s.pipe = 0 ∧
      s.threads = [.busy, .waiting (some 5011)] ∧ s.manager.timers.head? = some 7 ∧
      s.manager.nextOf 7 = 120 ∧ ¬(0 < s.pipe ∨ ∃ d, .waiting (some d) ∈ s.threads ∧
        d ≤ (s.manager.nextOf 7).toNat) := by
  have hzero : Reaches next Measured (Pool.init 2 0 : Pool Unit) _ :=
    Reaches.start.step (a := Action.enterIdle 0) trivial rfl
  have hwait := hzero.step (a := Action.getNextTimer 0 10) (fun hne => absurd rfl hne) rfl
  have hone := hwait.step (a := Action.enterIdle 1) trivial rfl
  have hboth := hone.step (a := Action.getNextTimer 1 11) (fun hne => absurd rfl hne) rfl
  have hadd := hboth.step (a := Action.addTimer 7 100 (some ()) false 20) trivial rfl
  have hbyte := (hadd.step (a := Action.checkIdle) trivial rfl).step (a := Action.write) trivial rfl
  have hwake := hbyte.step (a := Action.wake 0 true) trivial rfl
  have hlist := hwake.step (a := Action.listExpiredCb 0 21 9) ⟨by decide, by
    intro a t ha hr
    have ha : Function.update (fun _ => none) 7 (some ⟨false, 100, 120, some ()⟩) a = some t := ha
    by_cases h7 : a = 7
    · subst h7
      rw [Function.update_self] at ha
      cases ha
      cases hr
    · rw [Function.update_of_ne h7] at ha
      cases ha⟩ rfl
  have hdrain := hlist.step (a := Action.drain 0) trivial rfl
  refine ⟨_, hdrain.step (a := Action.leave 0) trivial rfl, ?_, rfl, rfl, by decide, by decide, ?_⟩
  · rintro (hc | hw)
    · exact absurd hc (by decide)
    · exact absurd hw (by decide)
  · rintro (hp | ⟨d, hd, hle⟩)
    · exact absurd hp (by decide)
    · have hd : Pc.waiting (some d) ∈ [Pc.busy, .waiting (some 5011)] := hd
      obtain rfl : d = 5011 := by simpa using hd
      exact absurd hle (by decide)

end Lamb.TimerWakeup
