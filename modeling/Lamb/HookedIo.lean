import Lamb.IoEvents
import Lamb.Library.ByteString
import Lamb.Library.Runs
import Lamb.Library.Slots
import Mathlib.Algebra.GroupWithZero.Nat
import Mathlib.Data.List.Nodup

/-!
# Hooked reads and writes

Any number of fibers call `do_io` on any descriptors, past its tests of the descriptor, beside
the peers that fill the input, the clock, the dispatch of events and the callbacks of timers. A
call tries again until the kernel gives it a result; between two tries it waits for its event
with a timer of its own. The callback of a timer may come so late that it cancels the wait of
another call.
-/

set_option autoImplicit false

namespace Lamb.HookedIo
open Lamb.Runs Lamb.ByteString Lamb.Slots
open Lamb.IoEvents (Event)

/-- The arguments: `size` is the length of a read, `data` what a write is to send. Without a
timeout, `to` is `~0ull`. -/
structure Request where
  fd : ℕ
  event : Event
  size : ℕ
  data : Bytes
  timeout : Option ℕ

/-- The bytes that were read or sent, another error of the call, or `ETIMEDOUT`. -/
inductive Result where
  | moved (bytes : Bytes)
  | failed
  | timedOut

/-- Where a call stands, with the timer of its round. -/
inductive Pc where
  | trying
  | arming
  | armed (timer : Option ℕ)
  | waiting (timer : Option ℕ)
  | woken (timer : Option ℕ)
  | checking
  | returned (result : Result)

/-- `began` is the time of the first try, `cancelled` the flag that the rounds share. -/
structure Call where
  request : Request
  began : ℕ
  cancelled : Bool
  pc : Pc

/-- Where a timer is: in `m_timers`; handed out; its callback past the test of the flag; past the
assignment to it; cancelled or at its end. -/
inductive Stage where
  | inTimers
  | queued
  | passed
  | cancelling
  | finished

structure Timer where
  call : ℕ
  deadline : ℕ
  stage : Stage

structure Moved where
  call : ℕ
  fd : ℕ
  event : Event
  bytes : Bytes

/-- `inbox` is what the kernel holds for a reader, `outbox` what it has taken from the writers.
`arrived` and `moved` are a record of what came in and of the calls that have moved bytes. -/
structure System where
  now : ℕ
  inbox : ℕ → Bytes
  outbox : ℕ → Bytes
  waiters : ℕ → Event → Option ℕ
  calls : List Call
  timers : List Timer
  arrived : ℕ → Bytes
  moved : List Moved

def System.init : System where
  now := 0
  inbox := fun _ => []
  outbox := fun _ => []
  waiters := fun _ _ => none
  calls := []
  timers := []
  arrived := fun _ => []
  moved := []

inductive Answer where
  | interrupted
  | again
  | error
  | moved (k : ℕ)

inductive Action where
  | tick (d : ℕ)
  | arrive (fd : ℕ) (bytes : Bytes)
  | begin (request : Request)
  | attempt (i : ℕ) (answer : Answer)
  | arm (i : ℕ)
  | addEvent (i : ℕ) (ctl : Bool)
  | dispatch (fd : ℕ) (event : Event)
  | resume (i : ℕ)
  | check (i : ℕ)
  | expire (k : ℕ)
  | start (k : ℕ)
  | setCancelled (k : ℕ)
  | cancelEvent (k : ℕ) (ctl : Bool)

def System.goto (s : System) (i : ℕ) (c : Call) (pc : Pc) : System :=
  { s with calls := s.calls.set i { c with pc := pc } }

def System.stage (s : System) (k : ℕ) (t : Timer) (stage : Stage) : System :=
  { s with timers := s.timers.set k { t with stage := stage } }

/-- `timer->cancel()`, which is too late for a timer that was handed out. -/
def System.cancelTimer (s : System) : Option ℕ → System
  | none => s
  | some k =>
    match s.timers[k]? with
    | some ⟨call, deadline, .inTimers⟩ => s.stage k ⟨call, deadline, .inTimers⟩ .finished
    | _ => s

/-- `triggerEvent` on the event of a descriptor, if it is registered. -/
def System.trigger (s : System) (fd : ℕ) (event : Event) : System :=
  match s.waiters fd event with
  | none => s
  | some i =>
    match s.calls[i]? with
    | some ⟨request, began, cancelled, .waiting timer⟩ =>
      { s.goto i ⟨request, began, cancelled, .waiting timer⟩ (.woken timer) with
        waiters := Function.update s.waiters fd (Function.update (s.waiters fd) event none) }
    | _ => s

def System.attempt (s : System) (i : ℕ) (c : Call) : Answer → Option System
  | .interrupted => some s
  | .again => some (s.goto i c .arming)
  | .error => some (s.goto i c (.returned .failed))
  | .moved k =>
    match c.request.event with
    | .READ =>
      if k ≤ c.request.size ∧ k ≤ (s.inbox c.request.fd).length then
        let bytes := (s.inbox c.request.fd).take k
        some { s.goto i c (.returned (.moved bytes)) with
          inbox := Function.update s.inbox c.request.fd ((s.inbox c.request.fd).drop k)
          moved := s.moved ++ [⟨i, c.request.fd, .READ, bytes⟩] }
      else none
    | .WRITE =>
      if k ≤ c.request.data.length then
        let bytes := c.request.data.take k
        some { s.goto i c (.returned (.moved bytes)) with
          outbox := Function.update s.outbox c.request.fd (s.outbox c.request.fd ++ bytes)
          moved := s.moved ++ [⟨i, c.request.fd, .WRITE, bytes⟩] }
      else none

def System.advance (s : System) (i : ℕ) (c : Call) : Action → Option System
  | .attempt _ answer =>
    match c.pc with
    | .trying => s.attempt i c answer
    | _ => none
  | .arm _ =>
    match c.pc, c.request.timeout with
    | .arming, none => some (s.goto i c (.armed none))
    | .arming, some timeout => some { s.goto i c (.armed (some s.timers.length)) with
        timers := s.timers ++ [⟨i, (s.now+timeout) % 2^64, .inTimers⟩] }
    | _, _ => none
  | .addEvent _ ctl =>
    match c.pc with
    | .armed timer =>
      -- An event that is registered already fails the assertion of `addEvent`, which ends the run.
      if (s.waiters c.request.fd c.request.event).isSome then none
      else if ctl then some { s.goto i c (.waiting timer) with
        waiters := Function.update s.waiters c.request.fd
          (Function.update (s.waiters c.request.fd) c.request.event (some i)) }
      else some ((s.goto i c (.returned .failed)).cancelTimer timer)
    | _ => none
  | .resume _ =>
    match c.pc with
    | .woken timer => some ((s.goto i c .checking).cancelTimer timer)
    | _ => none
  | .check _ =>
    match c.pc with
    | .checking => some (s.goto i c (if c.cancelled then .returned .timedOut else .trying))
    | _ => none
  | _ => none

/-- A step of the timer `k`, in `listExpiredCb` or in its callback, with the call it belongs to. -/
def System.run (s : System) (k : ℕ) (t : Timer) (c : Call) : Action → Option System
  | .expire _ =>
    match t.stage with
    | .inTimers => if t.deadline ≤ s.now then some (s.stage k t .queued) else none
    | _ => none
  | .start _ =>
    match t.stage with
    -- The weak pointer is dead once the call has returned.
    | .queued => some (s.stage k t (match c.cancelled, c.pc with
        | true, _ => .finished
        | _, .returned _ => .finished
        | _, _ => .passed))
    | _ => none
  | .setCancelled _ =>
    match t.stage with
    | .passed => some { s.stage k t .cancelling with
        calls := s.calls.set t.call { c with cancelled := true } }
    | _ => none
  | .cancelEvent _ ctl =>
    match t.stage with
    | .cancelling =>
      let s := s.stage k t .finished
      some (if ctl then s.trigger c.request.fd c.request.event else s)
    | _ => none
  | _ => none

def next (s : System) : Action → Option System
  | .tick d => some { s with now := s.now+d }
  | .arrive fd bytes => some { s with
      inbox := Function.update s.inbox fd (s.inbox fd ++ bytes)
      arrived := Function.update s.arrived fd (s.arrived fd ++ bytes) }
  | .begin request => some { s with calls := s.calls ++ [⟨request, s.now, false, .trying⟩] }
  | .dispatch fd event => some (s.trigger fd event)
  | .attempt i answer => s.calls[i]?.bind fun c => s.advance i c (.attempt i answer)
  | .arm i => s.calls[i]?.bind fun c => s.advance i c (.arm i)
  | .addEvent i ctl => s.calls[i]?.bind fun c => s.advance i c (.addEvent i ctl)
  | .resume i => s.calls[i]?.bind fun c => s.advance i c (.resume i)
  | .check i => s.calls[i]?.bind fun c => s.advance i c (.check i)
  | .expire k => s.timers[k]?.bind fun t => s.calls[t.call]?.bind fun c => s.run k t c (.expire k)
  | .start k => s.timers[k]?.bind fun t => s.calls[t.call]?.bind fun c => s.run k t c (.start k)
  | .setCancelled k =>
    s.timers[k]?.bind fun t => s.calls[t.call]?.bind fun c => s.run k t c (.setCancelled k)
  | .cancelEvent k ctl =>
    s.timers[k]?.bind fun t => s.calls[t.call]?.bind fun c => s.run k t c (.cancelEvent k ctl)

def Timer.Due (t : Timer) : Prop := t.stage = .queued ∨ t.stage = .passed ∨ t.stage = .cancelling

/-- The timeout has passed since the first try, or the deadline no longer fits in 64 bits. -/
def Call.Late (c : Call) (now : ℕ) : Prop :=
  ∃ timeout, c.request.timeout = some timeout ∧ (c.began+timeout ≤ now ∨ 2^64 ≤ now+timeout)

def Timer.Fits (t : Timer) (now : ℕ) (c : Call) : Prop :=
  ∃ timeout, c.request.timeout = some timeout ∧
    (c.began+timeout ≤ t.deadline ∨ 2^64 ≤ now+timeout)

def Call.Reports (m : Moved) (c : Call) : Prop :=
  c.pc = .returned (.moved m.bytes) ∧ c.request.fd = m.fd ∧ c.request.event = m.event

def Call.Waits (fd : ℕ) (event : Event) (c : Call) : Prop :=
  (∃ timer, c.pc = .waiting timer) ∧ c.request.fd = fd ∧ c.request.event = event

/-- The bytes that the calls on one event of a descriptor have moved. -/
def transferred (moved : List Moved) (fd : ℕ) (event : Event) : Bytes :=
  (moved.filter fun m => m.fd = fd ∧ m.event = event).flatMap (·.bytes)

structure Conserved (s : System) : Prop where
  input : ∀ fd, s.arrived fd = transferred s.moved fd .READ ++ s.inbox fd
  output : ∀ fd, s.outbox fd = transferred s.moved fd .WRITE

structure Recorded (calls : List Call) (moved : List Moved) : Prop where
  reported : ∀ m, m ∈ moved ↔ InSlot calls m.call (Call.Reports m)
  once : (moved.map (·.call)).Nodup

structure Timed (now : ℕ) (calls : List Call) (timers : List Timer) : Prop where
  begun : ∀ c ∈ calls, c.began ≤ now
  late : ∀ c ∈ calls, c.cancelled = true ∨ c.pc = .returned .timedOut → c.Late now
  owner : ∀ t ∈ timers, InSlot calls t.call (t.Fits now)
  due : ∀ t ∈ timers, t.Due → t.deadline ≤ now

def Registered (waiters : ℕ → Event → Option ℕ) (calls : List Call) : Prop :=
  ∀ fd event i, waiters fd event = some i ↔ InSlot calls i (Call.Waits fd event)

structure Inv (s : System) : Prop where
  conserved : Conserved s
  recorded : Recorded s.calls s.moved
  timed : Timed s.now s.calls s.timers
  registered : Registered s.waiters s.calls

theorem inv_init : Inv .init where
  conserved := ⟨fun _ => rfl, fun _ => rfl⟩
  recorded := ⟨fun m => by simp [System.init, InSlot], List.nodup_nil⟩
  timed := ⟨by simp [System.init], by simp [System.init], by simp [System.init],
    by simp [System.init]⟩
  registered := fun fd event i => by simp [System.init, InSlot]

theorem transferred_append (moved : List Moved) (m : Moved) (fd : ℕ) (event : Event) :
    transferred (moved ++ [m]) fd event =
      transferred moved fd event ++ if m.fd = fd ∧ m.event = event then m.bytes else [] := by
  by_cases h : m.fd = fd ∧ m.event = event
  · simp [transferred, List.filter_append, h]
  · simp [transferred, List.filter_append, h]

def Quiet (pc : Pc) : Prop :=
  (∀ timer, pc ≠ .waiting timer) ∧ ∀ bytes, pc ≠ .returned (.moved bytes)

theorem quiet_of_eq {c : Call} {pc : Pc} (h : c.pc = pc) (hquiet : Quiet pc) : Quiet c.pc := by
  rw [h]
  exact hquiet

theorem Quiet.not_reports {c : Call} (h : Quiet c.pc) (m : Moved) : ¬c.Reports m :=
  fun hc => h.2 _ hc.1

theorem Quiet.not_waits {c : Call} (h : Quiet c.pc) (fd : ℕ) (event : Event) :
    ¬c.Waits fd event :=
  fun ⟨⟨timer, hc⟩, _⟩ => h.1 timer hc

theorem Recorded.set {calls : List Call} {moved : List Moved} (h : Recorded calls moved) {i : ℕ}
    {c c' : Call} (hc : calls[i]? = some c) (hr : ∀ m, c'.Reports m ↔ c.Reports m) :
    Recorded (calls.set i c') moved where
  reported m := by rw [h.reported m, inSlot_set_iff hc (hr m)]
  once := h.once

theorem Registered.set {waiters : ℕ → Event → Option ℕ} {calls : List Call}
    (h : Registered waiters calls) {i : ℕ} {c c' : Call} (hc : calls[i]? = some c)
    (hw : ∀ fd event, c'.Waits fd event ↔ c.Waits fd event) :
    Registered waiters (calls.set i c') := by
  intro fd event j
  rw [h fd event j, inSlot_set_iff hc (hw fd event)]

theorem Timed.set {now : ℕ} {calls : List Call} {timers : List Timer}
    (h : Timed now calls timers) {i : ℕ} {c c' : Call} (hc : calls[i]? = some c)
    (hrequest : c'.request = c.request) (hbegan : c'.began = c.began)
    (hlate : c'.cancelled = true ∨ c'.pc = .returned .timedOut → c.Late now) :
    Timed now (calls.set i c') timers where
  begun d hd := by
    rcases List.mem_or_eq_of_mem_set hd with hd | rfl
    · exact h.begun d hd
    · rw [hbegan]
      exact h.begun c (List.mem_of_getElem? hc)
  late d hd hflag := by
    rcases List.mem_or_eq_of_mem_set hd with hd | rfl
    · exact h.late d hd hflag
    · obtain ⟨timeout, htimeout, hpast⟩ := hlate hflag
      exact ⟨timeout, hrequest ▸ htimeout, hbegan ▸ hpast⟩
  owner t ht := by
    have hfits : t.Fits now c' ↔ t.Fits now c := by
      simp only [Timer.Fits, hrequest, hbegan]
    exact (inSlot_set_iff hc hfits).mpr (h.owner t ht)
  due := h.due

/-- A step of the call itself. It times out on its flag only. -/
theorem Timed.setPc {now : ℕ} {calls : List Call} {timers : List Timer}
    (h : Timed now calls timers) {i : ℕ} {c : Call} {pc : Pc} (hc : calls[i]? = some c)
    (hflag : pc = .returned .timedOut → c.cancelled = true) :
    Timed now (calls.set i { c with pc := pc }) timers :=
  h.set hc rfl rfl fun hlate =>
    h.late c (List.mem_of_getElem? hc) (.inl (hlate.elim id hflag))

theorem Timed.setTimer {now : ℕ} {calls : List Call} {timers : List Timer}
    (h : Timed now calls timers) {k : ℕ} {t : Timer} (ht : timers[k]? = some t) {stage : Stage}
    (hdue : ({ t with stage := stage } : Timer).Due → t.deadline ≤ now) :
    Timed now calls (timers.set k { t with stage := stage }) where
  begun := h.begun
  late := h.late
  owner u hu := by
    rcases List.mem_or_eq_of_mem_set hu with hu | rfl
    · exact h.owner u hu
    · obtain ⟨c, hc, hfits⟩ := h.owner t (List.mem_of_getElem? ht)
      exact ⟨c, hc, hfits⟩
  due u hu hd := by
    rcases List.mem_or_eq_of_mem_set hu with hu | rfl
    · exact h.due u hu hd
    · exact hdue hd

theorem Recorded.add {calls : List Call} {moved : List Moved} (h : Recorded calls moved) {i : ℕ}
    {c c' : Call} {bytes : Bytes} (hc : calls[i]? = some c) (hquiet : Quiet c.pc)
    (hpc : c'.pc = .returned (.moved bytes)) (hrequest : c'.request = c.request) :
    Recorded (calls.set i c') (moved ++ [⟨i, c.request.fd, c.request.event, bytes⟩]) := by
  have hnew : ∀ m ∈ moved, m.call ≠ i := by
    rintro m hm rfl
    exact hquiet.not_reports m ((inSlot_of_getElem? hc).mp ((h.reported m).mp hm))
  refine ⟨fun m => ?_, ?_⟩
  · rw [List.mem_append, List.mem_singleton, inSlot_set hc]
    split_ifs with hi
    · constructor
      · rintro (hm | rfl)
        · exact absurd hi.symm (hnew m hm)
        · exact ⟨hpc, by rw [hrequest], by rw [hrequest]⟩
      · rintro ⟨hm, hfd, hevent⟩
        obtain rfl : bytes = m.bytes := by simpa [hpc] using hm
        right
        rw [← hrequest, hfd, hevent, hi]
    · rw [h.reported m, or_iff_left]
      rintro rfl
      exact hi rfl
  · rw [List.map_append]
    refine h.once.append (List.nodup_singleton _) (List.disjoint_singleton.mpr ?_)
    intro hi
    obtain ⟨m, hm, hcall⟩ := List.mem_map.mp hi
    exact hnew m hm hcall

theorem update_other {waiters : ℕ → Event → Option ℕ} {fd fd' : ℕ} {event event' : Event}
    {v : Option ℕ} (h : ¬(fd' = fd ∧ event' = event)) :
    Function.update waiters fd (Function.update (waiters fd) event v) fd' event' =
      waiters fd' event' := by
  by_cases hfd : fd' = fd
  · subst hfd
    rw [Function.update_self, Function.update_of_ne fun hevent => h ⟨rfl, hevent⟩]
  · rw [Function.update_of_ne hfd]

theorem Registered.clear {waiters : ℕ → Event → Option ℕ} {calls : List Call}
    (h : Registered waiters calls) {fd : ℕ} {event : Event} {i : ℕ} {c c' : Call}
    (hi : waiters fd event = some i) (hc : calls[i]? = some c)
    (hquiet : Quiet c'.pc) :
    Registered (Function.update waiters fd (Function.update (waiters fd) event none))
      (calls.set i c') := by
  have hwaits : c.Waits fd event := (inSlot_of_getElem? hc).mp ((h fd event i).mp hi)
  intro fd' event' j
  rw [inSlot_set hc]
  by_cases hsame : fd' = fd ∧ event' = event
  · obtain ⟨rfl, rfl⟩ := hsame
    rw [Function.update_self, Function.update_self]
    split_ifs with hij
    · exact iff_of_false nofun (hquiet.not_waits _ _)
    · rw [← h fd' event' j, hi, Option.some.injEq]
      exact iff_of_false nofun hij
  · rw [update_other hsame]
    split_ifs with hij
    · subst hij
      rw [h fd' event' i, inSlot_of_getElem? hc]
      apply iff_of_false _ (hquiet.not_waits _ _)
      rintro ⟨-, rfl, rfl⟩
      exact hsame ⟨hwaits.2.1, hwaits.2.2⟩
    · exact h fd' event' j

theorem Registered.fill {waiters : ℕ → Event → Option ℕ} {calls : List Call}
    (h : Registered waiters calls) {fd : ℕ} {event : Event} {i : ℕ} {c c' : Call}
    (hfree : waiters fd event = none) (hc : calls[i]? = some c) (hquiet : Quiet c.pc)
    (hwaits : c'.Waits fd event) :
    Registered (Function.update waiters fd (Function.update (waiters fd) event (some i)))
      (calls.set i c') := by
  intro fd' event' j
  rw [inSlot_set hc]
  by_cases hsame : fd' = fd ∧ event' = event
  · obtain ⟨rfl, rfl⟩ := hsame
    rw [Function.update_self, Function.update_self, Option.some.injEq]
    split_ifs with hij
    · exact iff_of_true hij hwaits
    · rw [← h fd' event' j, hfree]
      exact iff_of_false hij nofun
  · rw [update_other hsame]
    split_ifs with hij
    · subst hij
      rw [h fd' event' i, inSlot_of_getElem? hc]
      apply iff_of_false (hquiet.not_waits _ _)
      rintro ⟨-, rfl, rfl⟩
      exact hsame ⟨hwaits.2.1, hwaits.2.2⟩
    · exact h fd' event' j

theorem Inv.goto {s : System} (h : Inv s) {i : ℕ} {c : Call} {pc : Pc}
    (hc : s.calls[i]? = some c) (hquiet : Quiet c.pc) (hquiet' : Quiet pc)
    (hflag : pc = .returned .timedOut → c.cancelled = true) : Inv (s.goto i c pc) where
  conserved := ⟨h.conserved.input, h.conserved.output⟩
  recorded := h.recorded.set hc fun m =>
    iff_of_false (Quiet.not_reports hquiet' m) (hquiet.not_reports m)
  timed := h.timed.setPc hc hflag
  registered := h.registered.set hc fun fd event =>
    iff_of_false (Quiet.not_waits hquiet' fd event) (hquiet.not_waits fd event)

theorem Inv.stage {s : System} (h : Inv s) {k : ℕ} {t : Timer} {stage : Stage}
    (ht : s.timers[k]? = some t)
    (hdue : ({ t with stage := stage } : Timer).Due → t.deadline ≤ s.now) :
    Inv (s.stage k t stage) where
  conserved := ⟨h.conserved.input, h.conserved.output⟩
  recorded := h.recorded
  timed := h.timed.setTimer ht hdue
  registered := h.registered

theorem Inv.cancelTimer {s : System} (h : Inv s) (timer : Option ℕ) :
    Inv (s.cancelTimer timer) := by
  cases timer with
  | none => exact h
  | some k =>
    simp only [System.cancelTimer]
    split
    · next call deadline ht => exact h.stage ht (by rintro (hd | hd | hd) <;> cases hd)
    · exact h

theorem Inv.trigger {s : System} (h : Inv s) (fd : ℕ) (event : Event) :
    Inv (s.trigger fd event) := by
  unfold System.trigger
  split
  · exact h
  · next i hi =>
    split
    · next request began cancelled timer hc =>
      refine ⟨⟨h.conserved.input, h.conserved.output⟩, ?_, ?_, ?_⟩
      · exact h.recorded.set hc fun m => iff_of_false nofun nofun
      · exact h.timed.setPc hc nofun
      · exact h.registered.clear hi hc ⟨nofun, nofun⟩
    · exact h

theorem transferred_other (moved : List Moved) (i : ℕ) {fd fd' : ℕ} {event event' : Event}
    (bytes : Bytes) (h : ¬(fd' = fd ∧ event' = event)) :
    transferred (moved ++ [⟨i, fd', event', bytes⟩]) fd event = transferred moved fd event := by
  rw [transferred_append, if_neg h, List.append_nil]

theorem transferred_same (moved : List Moved) (i fd : ℕ) (event : Event) (bytes : Bytes) :
    transferred (moved ++ [⟨i, fd, event, bytes⟩]) fd event =
      transferred moved fd event ++ bytes := by
  rw [transferred_append, if_pos ⟨rfl, rfl⟩]

theorem read_conserved {arrived inbox : ℕ → Bytes} {moved : List Moved}
    (h : ∀ fd, arrived fd = transferred moved fd .READ ++ inbox fd) (i fd k fd' : ℕ) :
    arrived fd' = transferred (moved ++ [⟨i, fd, .READ, (inbox fd).take k⟩]) fd' .READ ++
      Function.update inbox fd ((inbox fd).drop k) fd' := by
  by_cases hfd : fd' = fd
  · subst hfd
    rw [transferred_same, Function.update_self, List.append_assoc, List.take_append_drop]
    exact h fd'
  · rw [transferred_other _ _ _ fun hm => hfd hm.1.symm, Function.update_of_ne hfd]
    exact h fd'

theorem write_conserved {outbox : ℕ → Bytes} {moved : List Moved}
    (h : ∀ fd, outbox fd = transferred moved fd .WRITE) (i fd : ℕ) (bytes : Bytes) (fd' : ℕ) :
    Function.update outbox fd (outbox fd ++ bytes) fd' =
      transferred (moved ++ [⟨i, fd, .WRITE, bytes⟩]) fd' .WRITE := by
  by_cases hfd : fd' = fd
  · subst hfd
    rw [transferred_same, Function.update_self, h fd']
  · rw [transferred_other _ _ _ fun hm => hfd hm.1.symm, Function.update_of_ne hfd]
    exact h fd'

theorem Inv.attempt {s t : System} (h : Inv s) {i : ℕ} {c : Call} {answer : Answer}
    (hc : s.calls[i]? = some c) (hpc : c.pc = .trying) (hn : s.attempt i c answer = some t) :
    Inv t := by
  have hquiet : Quiet c.pc := quiet_of_eq hpc ⟨nofun, nofun⟩
  cases answer with
  | interrupted =>
    -- The loop on EINTR tries again at once.
    obtain rfl := Option.some.inj hn
    exact h
  | again =>
    obtain rfl := Option.some.inj hn
    exact h.goto hc hquiet ⟨nofun, nofun⟩ nofun
  | error =>
    obtain rfl := Option.some.inj hn
    exact h.goto hc hquiet ⟨nofun, nofun⟩ nofun
  | moved k =>
    have htimed : ∀ bytes, Timed s.now
        (s.calls.set i { c with pc := .returned (.moved bytes) }) s.timers :=
      fun bytes => h.timed.setPc hc nofun
    have hregistered : ∀ bytes, Registered s.waiters
        (s.calls.set i { c with pc := .returned (.moved bytes) }) := fun bytes =>
      h.registered.set hc fun fd event =>
        iff_of_false nofun (hquiet.not_waits fd event)
    have hrecorded : ∀ bytes, Recorded (s.calls.set i { c with pc := .returned (.moved bytes) })
        (s.moved ++ [⟨i, c.request.fd, c.request.event, bytes⟩]) := fun bytes =>
      h.recorded.add hc hquiet rfl rfl
    unfold System.attempt at hn
    dsimp only at hn
    split at hn
    · next hevent =>
      split_ifs at hn
      obtain rfl := Option.some.inj hn
      rw [hevent] at hrecorded
      refine ⟨⟨read_conserved h.conserved.input i c.request.fd k, fun fd => ?_⟩, hrecorded _,
        htimed _, hregistered _⟩
      dsimp only
      rw [transferred_other]
      · exact h.conserved.output fd
      · rintro ⟨-, ⟨⟩⟩
    · next hevent =>
      split_ifs at hn
      obtain rfl := Option.some.inj hn
      rw [hevent] at hrecorded
      refine ⟨⟨fun fd => ?_, write_conserved h.conserved.output i c.request.fd _⟩, hrecorded _,
        htimed _, hregistered _⟩
      dsimp only
      rw [transferred_other]
      · exact h.conserved.input fd
      · rintro ⟨-, ⟨⟩⟩

theorem Inv.arm {s : System} (h : Inv s) {i : ℕ} {c : Call} {timeout : ℕ}
    (hc : s.calls[i]? = some c) (hpc : c.pc = .arming)
    (htimeout : c.request.timeout = some timeout) :
    Inv { s.goto i c (.armed (some s.timers.length)) with
      timers := s.timers ++ [⟨i, (s.now+timeout) % 2^64, .inTimers⟩] } := by
  have hgoto : Inv (s.goto i c (.armed (some s.timers.length))) :=
    h.goto hc (quiet_of_eq hpc ⟨nofun, nofun⟩) ⟨nofun, nofun⟩ nofun
  have hbegan := h.timed.begun c (List.mem_of_getElem? hc)
  refine ⟨⟨hgoto.conserved.input, hgoto.conserved.output⟩, hgoto.recorded, ?_, hgoto.registered⟩
  refine ⟨hgoto.timed.begun, hgoto.timed.late, ?_, ?_⟩
  · intro t ht
    rcases List.mem_append.mp ht with ht | ht
    · exact hgoto.timed.owner t ht
    · obtain rfl := List.mem_singleton.mp ht
      change InSlot (s.calls.set i _) i _
      rw [inSlot_set hc, if_pos rfl]
      refine ⟨timeout, htimeout, ?_⟩
      by_cases hwrap : s.now+timeout < 2^64
      · left
        rw [Nat.mod_eq_of_lt hwrap]
        exact Nat.add_le_add_right hbegan timeout
      · exact .inr (Nat.le_of_not_lt hwrap)
  · intro t ht hdue
    rcases List.mem_append.mp ht with ht | ht
    · exact hgoto.timed.due t ht hdue
    · obtain rfl := List.mem_singleton.mp ht
      rcases hdue with hd | hd | hd <;> cases hd

theorem Inv.addEvent {s : System} (h : Inv s) {i : ℕ} {c : Call} {timer : Option ℕ}
    (hc : s.calls[i]? = some c) (hpc : c.pc = .armed timer)
    (hfree : s.waiters c.request.fd c.request.event = none) :
    Inv { s.goto i c (.waiting timer) with
      waiters := Function.update s.waiters c.request.fd
        (Function.update (s.waiters c.request.fd) c.request.event (some i)) } where
  conserved := ⟨h.conserved.input, h.conserved.output⟩
  recorded := h.recorded.set hc fun m => iff_of_false nofun
    ((quiet_of_eq hpc ⟨nofun, nofun⟩).not_reports m)
  timed := h.timed.setPc hc nofun
  registered := h.registered.fill hfree hc (quiet_of_eq hpc ⟨nofun, nofun⟩)
    ⟨⟨timer, rfl⟩, rfl, rfl⟩

theorem Inv.advance {s t : System} (h : Inv s) {i : ℕ} {c : Call} {a : Action}
    (hc : s.calls[i]? = some c) (hn : s.advance i c a = some t) : Inv t := by
  -- Every step but the end of a try leads from one quiet place to the next, or into the wait.
  cases a with
  | attempt j answer =>
    simp only [System.advance] at hn
    split at hn
    · next hpc => exact h.attempt hc hpc hn
    · cases hn
  | arm j =>
    simp only [System.advance] at hn
    split at hn
    · next hpc _ =>
      obtain rfl := Option.some.inj hn
      exact h.goto hc (quiet_of_eq hpc ⟨nofun, nofun⟩) ⟨nofun, nofun⟩ nofun
    · next timeout hpc htimeout =>
      obtain rfl := Option.some.inj hn
      exact h.arm hc hpc htimeout
    · cases hn
  | addEvent j ctl =>
    simp only [System.advance] at hn
    split at hn
    · next timer hpc =>
      split_ifs at hn with hsome hctl
      · obtain rfl := Option.some.inj hn
        exact h.addEvent hc hpc (Option.not_isSome_iff_eq_none.mp hsome)
      · obtain rfl := Option.some.inj hn
        have hgoto : Inv (s.goto i c (.returned .failed)) :=
          h.goto hc (quiet_of_eq hpc ⟨nofun, nofun⟩) ⟨nofun, nofun⟩ nofun
        exact hgoto.cancelTimer timer
    · cases hn
  | resume j =>
    simp only [System.advance] at hn
    split at hn
    · next timer hpc =>
      obtain rfl := Option.some.inj hn
      have hgoto : Inv (s.goto i c .checking) :=
        h.goto hc (quiet_of_eq hpc ⟨nofun, nofun⟩) ⟨nofun, nofun⟩ nofun
      exact hgoto.cancelTimer timer
    · cases hn
  | check j =>
    simp only [System.advance] at hn
    split at hn
    · next hpc =>
      obtain rfl := Option.some.inj hn
      cases hflag : c.cancelled with
      | true => exact h.goto hc (quiet_of_eq hpc ⟨nofun, nofun⟩) ⟨nofun, nofun⟩ fun _ => hflag
      | false => exact h.goto hc (quiet_of_eq hpc ⟨nofun, nofun⟩) ⟨nofun, nofun⟩ nofun
    · cases hn
  | _ => cases hn

/-- The assignment of the callback to the flag. Its timer is due. -/
theorem Inv.setCancelled {s : System} (h : Inv s) {k : ℕ} {t : Timer} {c : Call}
    (ht : s.timers[k]? = some t) (hc : s.calls[t.call]? = some c) (hstage : t.stage = .passed) :
    Inv { s.stage k t .cancelling with
      calls := s.calls.set t.call { c with cancelled := true } } := by
  have hmem := List.mem_of_getElem? ht
  have hdue : t.deadline ≤ s.now := h.timed.due t hmem (.inr (.inl hstage))
  have hstaged : Inv (s.stage k t .cancelling) := h.stage ht fun _ => hdue
  have hlate : c.Late s.now := by
    obtain ⟨timeout, htimeout, hfits⟩ := (inSlot_of_getElem? hc).mp (h.timed.owner t hmem)
    exact ⟨timeout, htimeout, hfits.imp (fun hle => hle.trans hdue) id⟩
  exact ⟨⟨h.conserved.input, h.conserved.output⟩, hstaged.recorded.set hc fun m => Iff.rfl,
    hstaged.timed.set hc rfl rfl fun _ => hlate, hstaged.registered.set hc fun _ _ => Iff.rfl⟩

theorem Inv.run {s u : System} (h : Inv s) {k : ℕ} {t : Timer} {c : Call} {a : Action}
    (ht : s.timers[k]? = some t) (hc : s.calls[t.call]? = some c)
    (hn : s.run k t c a = some u) : Inv u := by
  have hdue : t.Due → t.deadline ≤ s.now := h.timed.due t (List.mem_of_getElem? ht)
  cases a with
  | expire j =>
    simp only [System.run] at hn
    split at hn
    · split_ifs at hn with hle
      obtain rfl := Option.some.inj hn
      exact h.stage ht fun _ => hle
    · cases hn
  | start j =>
    simp only [System.run] at hn
    split at hn
    · next hstage =>
      obtain rfl := Option.some.inj hn
      exact h.stage ht fun _ => hdue (.inl hstage)
    · cases hn
  | setCancelled j =>
    simp only [System.run] at hn
    split at hn
    · next hstage =>
      obtain rfl := Option.some.inj hn
      exact h.setCancelled ht hc hstage
    · cases hn
  | cancelEvent j ctl =>
    simp only [System.run] at hn
    split at hn
    · next hstage =>
      obtain rfl := Option.some.inj hn
      have hstaged : Inv (s.stage k t .finished) :=
        h.stage ht (by rintro (hd | hd | hd) <;> cases hd)
      split_ifs
      · exact hstaged.trigger _ _
      · exact hstaged
    · cases hn
  | _ => cases hn

theorem Call.Late.later {c : Call} {now d : ℕ} (h : c.Late now) : c.Late (now+d) := by
  obtain ⟨timeout, htimeout, hpast⟩ := h
  exact ⟨timeout, htimeout, by omega⟩

theorem Inv.tick {s : System} (h : Inv s) (d : ℕ) : Inv { s with now := s.now+d } where
  conserved := ⟨h.conserved.input, h.conserved.output⟩
  recorded := h.recorded
  timed := {
    begun := fun c hc => Nat.le_add_right_of_le (h.timed.begun c hc)
    late := fun c hc hflag => (h.timed.late c hc hflag).later
    owner := fun t ht => by
      obtain ⟨c, hc, timeout, htimeout, hfits⟩ := h.timed.owner t ht
      exact ⟨c, hc, timeout, htimeout, by dsimp only; omega⟩
    due := fun t ht hdue => Nat.le_add_right_of_le (h.timed.due t ht hdue) }
  registered := h.registered

theorem Inv.arrive {s : System} (h : Inv s) (fd : ℕ) (bytes : Bytes) :
    Inv { s with
      inbox := Function.update s.inbox fd (s.inbox fd ++ bytes)
      arrived := Function.update s.arrived fd (s.arrived fd ++ bytes) } where
  conserved := by
    refine ⟨fun fd' => ?_, h.conserved.output⟩
    by_cases hfd : fd' = fd
    · subst hfd
      dsimp only
      rw [Function.update_self, Function.update_self, h.conserved.input, List.append_assoc]
    · dsimp only
      rw [Function.update_of_ne hfd, Function.update_of_ne hfd]
      exact h.conserved.input fd'
  recorded := h.recorded
  timed := h.timed
  registered := h.registered

theorem Inv.begin {s : System} (h : Inv s) (request : Request) :
    Inv { s with calls := s.calls ++ [⟨request, s.now, false, .trying⟩] } where
  conserved := ⟨h.conserved.input, h.conserved.output⟩
  recorded := by
    refine ⟨fun m => ?_, h.recorded.once⟩
    rw [h.recorded.reported m, inSlot_append nofun]
  timed := {
    begun := fun c hc => by
      rcases List.mem_append.mp hc with hc | hc
      · exact h.timed.begun c hc
      · obtain rfl := List.mem_singleton.mp hc
        exact Nat.le_refl _
    late := fun c hc hflag => by
      rcases List.mem_append.mp hc with hc | hc
      · exact h.timed.late c hc hflag
      · obtain rfl := List.mem_singleton.mp hc
        rcases hflag with hf | hf <;> cases hf
    owner := fun t ht => (h.timed.owner t ht).append _
    due := h.timed.due }
  registered := fun fd event i => by
    dsimp only
    rw [h.registered fd event i, inSlot_append nofun]

theorem next_inv {s t : System} {a : Action} (h : Inv s) (hn : next s a = some t) : Inv t := by
  cases a with
  | tick d =>
    obtain rfl := Option.some.inj hn
    exact h.tick d
  | arrive fd bytes =>
    obtain rfl := Option.some.inj hn
    exact h.arrive fd bytes
  | begin request =>
    obtain rfl := Option.some.inj hn
    exact h.begin request
  | dispatch fd event =>
    obtain rfl := Option.some.inj hn
    exact h.trigger fd event
  | attempt i answer | arm i | addEvent i ctl | resume i | check i =>
    obtain ⟨c, hc, hn⟩ := Option.bind_eq_some_iff.mp hn
    exact h.advance hc hn
  | expire k | start k | setCancelled k | cancelEvent k ctl =>
    obtain ⟨timer, ht, hn⟩ := Option.bind_eq_some_iff.mp hn
    obtain ⟨c, hc, hn⟩ := Option.bind_eq_some_iff.mp hn
    exact h.run ht hc hn

theorem reaches_inv {s : System} (h : Reaches next Free .init s) : Inv s :=
  h.invariant inv_init fun _ _ _ hs _ hn => next_inv hs hn

end Lamb.HookedIo
