import Lamb.Library.Runs
import Lamb.Library.Slots

/-!
# Timeouts of hooked IO calls

One call of `do_io` or `connect_with_timeout` by a fiber, with a finite timeout.
Each round arms a one-shot timer, registers the event and yields; the callback of
the timer sets the flag that all rounds of the call share and cancels the event.
Other threads expire timers, run callbacks and dispatch readiness at any point in
between.
-/

set_option autoImplicit false

namespace Lamb.IoTimeout
open Lamb.Runs

/-- Where the timer of a round is: in `m_timers`; handed out by `listExpiredCb`;
its callback past the test of the flag; past the assignment to it; cancelled or
at its end. -/
inductive Stage where
  | inTimers
  | queued
  | passed
  | cancelling
  | finished
  deriving DecidableEq, Repr

inductive Pc where
  | trying
  | arming
  | armed
  | registered
  | parked
  | resumed
  | checking
  | returned
  deriving DecidableEq, Repr

/-- `event` is the bit in the context of the descriptor, `queued` says that the
fiber is in the task queue. The timer of the current round comes first. `retries`
tells `do_io` from `connect_with_timeout`. -/
structure IoCall where
  retries : Bool
  pc : Pc
  cancelled : Bool
  event : Bool
  queued : Bool
  timers : List Stage
  deriving DecidableEq, Repr

def IoCall.init (retries : Bool) : IoCall where
  retries := retries
  pc := .trying
  cancelled := false
  event := false
  queued := false
  timers := []

inductive Action where
  | attempt (again : Bool)
  | arm
  | addEvent (ctl : Bool)
  | yield
  | resume
  | timerCancel
  | check
  | expire (i : ℕ)
  | start (i : ℕ)
  | setCancelled (i : ℕ)
  | cancelEvent (i : ℕ) (ctl : Bool)
  | dispatch
  deriving DecidableEq, Repr

/-- `timer->cancel()` of the current round. -/
def cancelTimer : List Stage → List Stage
  | .inTimers::rest => .finished::rest
  | timers => timers

/-- `triggerEvent`: the bit is cleared and the fiber scheduled. -/
def IoCall.trigger (s : IoCall) : IoCall :=
  if s.event then { s with event := false, queued := true } else s

def IoCall.setStage (s : IoCall) (i : ℕ) (stage : Stage) : IoCall :=
  { s with timers := s.timers.set i stage }

def next (s : IoCall) : Action → Option IoCall
  | .attempt again =>
    if s.pc = .trying then some { s with pc := if again then .arming else .returned } else none
  | .arm =>
    if s.pc = .arming then some { s with pc := .armed, timers := .inTimers::s.timers } else none
  | .addEvent ctl =>
    if s.pc = .armed then
      if ctl then some { s with pc := .registered, event := true }
      else some { s with pc := .returned, timers := cancelTimer s.timers }
    else none
  | .yield => if s.pc = .registered then some { s with pc := .parked } else none
  | .resume =>
    if s.pc = .parked ∧ s.queued then some { s with pc := .resumed, queued := false } else none
  | .timerCancel =>
    if s.pc = .resumed then some { s with pc := .checking, timers := cancelTimer s.timers }
    else none
  | .check =>
    if s.pc = .checking then
      some { s with pc := if !s.cancelled && s.retries then .trying else .returned }
    else none
  | .expire i =>
    if s.timers[i]? = some .inTimers then some (s.setStage i .queued) else none
  | .start i =>
    -- the weak pointer is dead once the call has returned
    if s.timers[i]? = some .queued then
      some (s.setStage i (if s.cancelled || s.pc = .returned then .finished else .passed))
    else none
  | .setCancelled i =>
    if s.timers[i]? = some .passed then
      some { s.setStage i .cancelling with cancelled := true }
    else none
  | .cancelEvent i ctl =>
    if s.timers[i]? = some .cancelling then
      some (if ctl then (s.setStage i .finished).trigger else s.setStage i .finished)
    else none
  | .dispatch => if s.event then some s.trigger else none

/-- A parked fiber still has something to wake it: its timer, a callback that has
not yet called `cancelEvent`, or its place in the task queue. -/
def Attended (s : IoCall) : Prop :=
  s.timers.head? = some .inTimers ∨
    (∃ stage ∈ s.timers, stage = .queued ∨ stage = .passed ∨ stage = .cancelling) ∨
    s.queued = true

def Unregistered (pc : Pc) : Prop := pc = .trying ∨ pc = .arming ∨ pc = .armed

/-- No callback calls `cancelEvent` before the event is registered, and its
`epoll_ctl` succeeds. -/
def Timely (s : IoCall) : Action → Prop
  | .cancelEvent _ ctl => ¬Unregistered s.pc ∧ (s.event = true → ctl = true)
  | _ => True

def Waiting (pc : Pc) : Prop := pc = .registered ∨ pc = .parked

attribute [local simp] cancelTimer next

instance (pc : Pc) : Decidable (Unregistered pc) := inferInstanceAs (Decidable (_ ∨ _))

instance (pc : Pc) : Decidable (Waiting pc) := inferInstanceAs (Decidable (_ ∨ _))

structure Inv (s : IoCall) : Prop where
  waiting : s.event = true ∨ s.queued = true → Waiting s.pc
  once : s.event = true → s.queued = false
  triggered : Waiting s.pc → s.event = true ∨ s.queued = true
  flagged : .cancelling ∈ s.timers → s.cancelled = true
  pending : s.cancelled = true → Unregistered s.pc ∨ Waiting s.pc →
    .cancelling ∈ s.timers ∨ s.queued = true
  current : s.pc = .armed ∨ Waiting s.pc →
    ∃ stage rest, s.timers = stage::rest ∧ (stage = .finished → s.cancelled = true)

theorem init_inv (retries : Bool) : Inv (IoCall.init retries) := by
  constructor <;> simp [IoCall.init, Waiting]

/-! ## Steps of the fiber -/

theorem Inv.idle {s : IoCall} (h : Inv s) (hpc : ¬Waiting s.pc) :
    s.event = false ∧ s.queued = false := by
  constructor
  · by_contra he
    exact hpc (h.waiting (Or.inl (by simpa using he)))
  · by_contra hq
    exact hpc (h.waiting (Or.inr (by simpa using hq)))

/-- Before the registration, a set flag has its callback still to come. -/
theorem Inv.pending_callback {s : IoCall} (h : Inv s) (hu : Unregistered s.pc)
    (hpc : ¬Waiting s.pc) (hc : s.cancelled = true) : .cancelling ∈ s.timers := by
  rcases h.pending hc (Or.inl hu) with hin | hq
  · exact hin
  · exact absurd (h.waiting (Or.inr hq)) hpc

/-- Outside of a wait nothing is registered or queued, and only the flag and the
callbacks matter. -/
theorem Inv.outside {s : IoCall} (h : Inv s) (hpc : ¬Waiting s.pc) (pc : Pc)
    (timers : List Stage) (hpc' : ¬Waiting pc)
    (hmem : .cancelling ∈ timers ↔ .cancelling ∈ s.timers)
    (hpending : s.cancelled = true → Unregistered pc → .cancelling ∈ s.timers)
    (hcurrent : pc = .armed → ∃ stage rest, timers = stage::rest ∧ stage ≠ .finished) :
    Inv { s with pc := pc, timers := timers } := by
  obtain ⟨he, hq⟩ := h.idle hpc
  constructor
  · rintro (hev | hev)
    · exact absurd hev (by simp [he])
    · exact absurd hev (by simp [hq])
  · intro _
    exact hq
  · intro hw
    exact absurd hw hpc'
  · intro hc
    exact h.flagged (hmem.mp hc)
  · rintro hc (hu | hw)
    · exact Or.inl (hmem.mpr (hpending hc hu))
    · exact absurd hw hpc'
  · rintro (ha | hw)
    · obtain ⟨stage, rest, htimers, hne⟩ := hcurrent ha
      exact ⟨stage, rest, htimers, fun ho => absurd ho hne⟩
    · exact absurd hw hpc'

theorem cancelTimer_cancelling (timers : List Stage) :
    .cancelling ∈ cancelTimer timers ↔ .cancelling ∈ timers := by
  cases timers with
  | nil => rfl
  | cons stage rest => cases stage <;> simp [cancelTimer]

theorem attempt_inv {s s' : IoCall} {again : Bool} (h : Inv s)
    (hn : next s (.attempt again) = some s') : Inv s' := by
  simp only [next] at hn
  split_ifs at hn with hpc
  all_goals
    obtain rfl := Option.some.inj hn
    have hout : ¬Waiting s.pc := by
      rw [hpc]
      decide
    have hu : Unregistered s.pc := Or.inl hpc
    exact h.outside hout _ s.timers (by decide) Iff.rfl
      (fun hc _ => h.pending_callback hu hout hc) (by simp)

theorem arm_inv {s s' : IoCall} (h : Inv s) (hn : next s .arm = some s') : Inv s' := by
  simp only [next] at hn
  split_ifs at hn with hpc
  obtain rfl := Option.some.inj hn
  have hout : ¬Waiting s.pc := by
    rw [hpc]
    decide
  have hu : Unregistered s.pc := Or.inr (Or.inl hpc)
  exact h.outside hout .armed (.inTimers::s.timers) (by decide) (by simp)
    (fun hc _ => h.pending_callback hu hout hc) fun _ => ⟨_, _, rfl, by decide⟩

theorem addEvent_inv {s s' : IoCall} {ctl : Bool} (h : Inv s)
    (hn : next s (.addEvent ctl) = some s') : Inv s' := by
  simp only [next] at hn
  split_ifs at hn with hpc hctl
  · obtain rfl := Option.some.inj hn
    have hout : ¬Waiting s.pc := by
      rw [hpc]
      decide
    have hu : Unregistered s.pc := Or.inr (Or.inr hpc)
    constructor
    · intro _
      exact Or.inl rfl
    · intro _
      exact (h.idle hout).2
    · intro _
      exact Or.inl rfl
    · exact h.flagged
    · intro hc _
      exact Or.inl (h.pending_callback hu hout hc)
    · intro _
      exact h.current (Or.inl hpc)
  · obtain rfl := Option.some.inj hn
    have hout : ¬Waiting s.pc := by
      rw [hpc]
      decide
    exact h.outside hout .returned _ (by decide) (cancelTimer_cancelling _)
      (fun _ hu => absurd hu (by decide)) (by simp)

theorem yield_inv {s s' : IoCall} (h : Inv s) (hn : next s .yield = some s') : Inv s' := by
  simp only [next] at hn
  split_ifs at hn with hpc
  obtain rfl := Option.some.inj hn
  have hw : Waiting s.pc := Or.inl hpc
  constructor
  · intro _
    exact Or.inr rfl
  · exact h.once
  · intro _
    exact h.triggered hw
  · exact h.flagged
  · intro hc _
    exact h.pending hc (Or.inr hw)
  · intro _
    exact h.current (Or.inr hw)

theorem resume_inv {s s' : IoCall} (h : Inv s) (hn : next s .resume = some s') : Inv s' := by
  simp only [next] at hn
  split_ifs at hn with hpc
  obtain rfl := Option.some.inj hn
  have hevent : s.event = false := by
    by_contra he
    have := h.once (by simpa using he)
    simp [hpc.2] at this
  have hout : ¬Waiting .resumed := by decide
  have hlate : ¬Unregistered .resumed := by decide
  constructor
  · simp [hevent]
  · intro _
    rfl
  · intro hw
    exact absurd hw hout
  · exact h.flagged
  · rintro _ (hu | hw)
    · exact absurd hu hlate
    · exact absurd hw hout
  · rintro (ha | hw)
    · cases ha
    · exact absurd hw hout

theorem timerCancel_inv {s s' : IoCall} (h : Inv s) (hn : next s .timerCancel = some s') :
    Inv s' := by
  simp only [next] at hn
  split_ifs at hn with hpc
  obtain rfl := Option.some.inj hn
  have hout : ¬Waiting s.pc := by
    rw [hpc]
    decide
  exact h.outside hout .checking _ (by decide) (cancelTimer_cancelling _)
    (fun _ hu => absurd hu (by decide)) (by simp)

theorem check_inv {s s' : IoCall} (h : Inv s) (hn : next s .check = some s') : Inv s' := by
  simp only [next] at hn
  split_ifs at hn with hpc hretry
  · obtain rfl := Option.some.inj hn
    have hout : ¬Waiting s.pc := by
      rw [hpc]
      decide
    have hclear : s.cancelled = false := by
      rw [Bool.and_eq_true] at hretry
      simpa using hretry.1
    exact h.outside hout .trying s.timers (by decide) Iff.rfl
      (fun hc _ => absurd hc (by simp [hclear])) (by simp)
  · obtain rfl := Option.some.inj hn
    have hout : ¬Waiting s.pc := by
      rw [hpc]
      decide
    exact h.outside hout .returned s.timers (by decide) Iff.rfl
      (fun _ hu => absurd hu (by decide)) (by simp)

/-! ## Steps of the other threads -/

theorem Inv.setStage {s : IoCall} (h : Inv s) {i : ℕ} {old new : Stage}
    (hi : s.timers[i]? = some old) (hold : old ≠ .cancelling) (hnew : new ≠ .cancelling)
    (hend : new = .finished → s.cancelled = true ∨ s.pc = .returned) : Inv (s.setStage i new) := by
  constructor
  · exact h.waiting
  · exact h.once
  · exact h.triggered
  · intro hc
    rcases List.mem_or_eq_of_mem_set hc with hc | hc
    · exact h.flagged hc
    · exact absurd hc.symm hnew
  · intro hc hpc
    rcases h.pending hc hpc with hin | hq
    · exact Or.inl (Slots.mem_set_of_ne hi hin hold.symm)
    · exact Or.inr hq
  · intro hpc
    obtain ⟨stage, rest, htimers, hst⟩ := h.current hpc
    cases i with
    | zero =>
      refine ⟨new, rest, by simp [IoCall.setStage, htimers], ?_⟩
      intro ho
      rcases hend ho with hc | hr
      · exact hc
      · simp only [IoCall.setStage, hr, reduceCtorEq, false_or] at hpc
        exact absurd hpc (by decide)
    | succ i => exact ⟨stage, rest.set i new, by simp [IoCall.setStage, htimers], hst⟩

theorem expire_inv {s s' : IoCall} {i : ℕ} (h : Inv s) (hn : next s (.expire i) = some s') :
    Inv s' := by
  simp only [next] at hn
  split_ifs at hn with hi
  obtain rfl := Option.some.inj hn
  exact h.setStage hi (by decide) (by decide) (by simp)

theorem start_inv {s s' : IoCall} {i : ℕ} (h : Inv s) (hn : next s (.start i) = some s') :
    Inv s' := by
  simp only [next] at hn
  split_ifs at hn with hi hc
  · obtain rfl := Option.some.inj hn
    exact h.setStage hi (by decide) (by decide) fun _ => by simpa using hc
  · obtain rfl := Option.some.inj hn
    exact h.setStage hi (by decide) (by decide) (by simp)

theorem setCancelled_inv {s s' : IoCall} {i : ℕ} (h : Inv s)
    (hn : next s (.setCancelled i) = some s') : Inv s' := by
  simp only [next] at hn
  split_ifs at hn with hi
  obtain rfl := Option.some.inj hn
  constructor
  · exact h.waiting
  · exact h.once
  · exact h.triggered
  · intro _
    rfl
  · intro _ _
    exact Or.inl (Slots.mem_set_self hi _)
  · intro hpc
    obtain ⟨stage, rest, htimers, -⟩ := h.current hpc
    cases i with
    | zero => exact ⟨.cancelling, rest, by simp [IoCall.setStage, htimers], fun _ => rfl⟩
    | succ i =>
      exact ⟨stage, rest.set i .cancelling, by simp [IoCall.setStage, htimers], fun _ => rfl⟩

theorem Inv.trigger {s : IoCall} (h : Inv s) : Inv s.trigger := by
  unfold IoCall.trigger
  split_ifs with he
  · have hw : Waiting s.pc := h.waiting (Or.inl he)
    constructor
    · intro _
      exact hw
    · intro hf
      cases hf
    · intro _
      exact Or.inr rfl
    · exact h.flagged
    · intro _ _
      exact Or.inr rfl
    · exact h.current
  · exact h

theorem Inv.current_finished {s : IoCall} (h : Inv s) {i : ℕ} (hi : s.timers[i]? = some .cancelling)
    (hpc : s.pc = .armed ∨ Waiting s.pc) :
    ∃ stage rest, s.timers.set i .finished = stage::rest ∧
      (stage = .finished → s.cancelled = true) := by
  have hc : s.cancelled = true := h.flagged (List.mem_of_getElem? hi)
  obtain ⟨stage, rest, htimers, -⟩ := h.current hpc
  cases i with
  | zero => exact ⟨.finished, rest, by simp [htimers], fun _ => hc⟩
  | succ i => exact ⟨stage, rest.set i .finished, by simp [htimers], fun _ => hc⟩

theorem Inv.flagged_finished {s : IoCall} (h : Inv s) {i : ℕ}
    (hc : .cancelling ∈ s.timers.set i .finished) : s.cancelled = true := by
  rcases List.mem_or_eq_of_mem_set hc with hc | hc
  · exact h.flagged hc
  · cases hc

/-- A callback ends without an event to cancel. A wait that goes on is then one of a
fiber in the queue. -/
theorem Inv.finish {s : IoCall} (h : Inv s) {i : ℕ} (hi : s.timers[i]? = some .cancelling)
    (hlate : ¬Unregistered s.pc) (he : s.event = false) : Inv (s.setStage i .finished) := by
  constructor
  · exact h.waiting
  · exact h.once
  · exact h.triggered
  · exact h.flagged_finished
  · rintro _ (hu | hw)
    · exact absurd hu hlate
    · exact Or.inr ((h.triggered hw).resolve_left (by simp [he]))
  · exact h.current_finished hi

theorem Inv.finish_trigger {s : IoCall} (h : Inv s) {i : ℕ}
    (hi : s.timers[i]? = some .cancelling) (he : s.event = true) :
    Inv { s.setStage i .finished with event := false, queued := true } := by
  have hw : Waiting s.pc := h.waiting (Or.inl he)
  constructor
  · intro _
    exact hw
  · intro hf
    cases hf
  · intro _
    exact Or.inr rfl
  · exact h.flagged_finished
  · intro _ _
    exact Or.inr rfl
  · exact h.current_finished hi

theorem cancelEvent_inv {s s' : IoCall} {i : ℕ} {ctl : Bool} (h : Inv s)
    (hg : Timely s (.cancelEvent i ctl)) (hn : next s (.cancelEvent i ctl) = some s') :
    Inv s' := by
  obtain ⟨hlate, hctl⟩ := hg
  simp only [next] at hn
  by_cases hi : s.timers[i]? = some .cancelling
  · cases he : s.event with
    | true =>
      obtain rfl : _ = s' := by
        simpa [hi, hctl he, IoCall.trigger, IoCall.setStage, he] using hn
      exact h.finish_trigger hi he
    | false =>
      obtain rfl : s.setStage i .finished = s' := by
        simpa [hi, IoCall.trigger, IoCall.setStage, he] using hn
      exact h.finish hi hlate he
  · simp [hi] at hn

theorem next_inv {s s' : IoCall} {a : Action} (h : Inv s) (hg : Timely s a)
    (hn : next s a = some s') : Inv s' := by
  cases a with
  | attempt again => exact attempt_inv h hn
  | arm => exact arm_inv h hn
  | addEvent ctl => exact addEvent_inv h hn
  | yield => exact yield_inv h hn
  | resume => exact resume_inv h hn
  | timerCancel => exact timerCancel_inv h hn
  | check => exact check_inv h hn
  | expire i => exact expire_inv h hn
  | start i => exact start_inv h hn
  | setCancelled i => exact setCancelled_inv h hn
  | cancelEvent i ctl => exact cancelEvent_inv h hg hn
  | dispatch =>
    simp only [next] at hn
    split_ifs at hn
    obtain rfl := Option.some.inj hn
    exact h.trigger

theorem Inv.attended {s : IoCall} (h : Inv s) (hw : Waiting s.pc) : Attended s := by
  obtain ⟨stage, rest, htimers, hend⟩ := h.current (Or.inr hw)
  have hhead : stage ∈ s.timers := by
    rw [htimers]
    exact List.mem_cons_self
  cases stage with
  | inTimers => exact Or.inl (by rw [htimers]; rfl)
  | queued => exact Or.inr (Or.inl ⟨_, hhead, Or.inl rfl⟩)
  | passed => exact Or.inr (Or.inl ⟨_, hhead, Or.inr (Or.inl rfl)⟩)
  | cancelling => exact Or.inr (Or.inl ⟨_, hhead, Or.inr (Or.inr rfl)⟩)
  | finished =>
    rcases h.pending (hend rfl) (Or.inr hw) with hin | hq
    · exact Or.inr (Or.inl ⟨_, hin, Or.inr (Or.inr rfl)⟩)
    · exact Or.inr (Or.inr hq)

/-- A fiber parked in a hooked call is attended to in every run in which the
callbacks of the call are timely. -/
theorem no_lost_timeout (retries : Bool) (s : IoCall)
    (h : Reaches next Timely (IoCall.init retries) s) (hp : s.pc = .parked) : Attended s := by
  have hinv : Inv s := h.invariant (init_inv retries) fun _ _ _ hs hg hn => next_inv hs hg hn
  exact hinv.attended (Or.inr hp)

theorem no_lost_timeout_late : ∃ s,
    after next [.attempt true, .arm, .addEvent true, .yield, .expire 0, .start 0,
      .setCancelled 0, .cancelEvent 0 true] (IoCall.init true) = some s ∧ s.pc = .parked ∧
      Attended s := by
  refine ⟨_, rfl, rfl, ?_⟩
  have hwait : Reaches next Timely (IoCall.init true) _ :=
    (((Reaches.start.step (a := Action.attempt true) trivial rfl).step
      (a := Action.arm) trivial rfl).step (a := Action.addEvent true) trivial rfl).step
      (a := Action.yield) trivial rfl
  have hset := ((hwait.step (a := Action.expire 0) trivial rfl).step
    (a := Action.start 0) trivial rfl).step (a := Action.setCancelled 0) trivial rfl
  have hcancel := hset.step (a := Action.cancelEvent 0 true) ⟨by decide, fun _ => rfl⟩ rfl
  exact no_lost_timeout true _ hcancel rfl

/-- The callback runs between `addConditionTimer` and `addEvent`: it finds nothing
to cancel, and the fiber parks with no timer left. -/
theorem timeout_before_registration : ∃ s,
    after next [.attempt true, .arm, .expire 0, .start 0, .setCancelled 0,
      .cancelEvent 0 true, .addEvent true, .yield] (IoCall.init true) = some s ∧
      s.pc = .parked ∧ ¬Attended s := by
  refine ⟨_, rfl, rfl, ?_⟩
  simp [Attended, IoCall.trigger, IoCall.setStage, IoCall.init]

end Lamb.IoTimeout
