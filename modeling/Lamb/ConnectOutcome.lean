import Lamb.HookedFlags
import Lamb.IoTimeout

/-!
# What a hooked connect reports

`connect_with_timeout` starts a connection, waits until the socket is writable and
reads `SO_ERROR`. While it waits other threads dispatch readiness, expire its timer,
run the callback of the timer and cancel the event. When the event cannot be
registered there is no wait at all, and `SO_ERROR` is read all the same.
-/

set_option autoImplicit false

namespace Lamb.ConnectOutcome
open Lamb.IoTimeout Lamb.HookedFlags

def EBADF : ℤ := 9
def ETIMEDOUT : ℤ := 110
def EINPROGRESS : ℤ := 115

/-- What a call returns: zero, or -1 with the value of `errno`. -/
abbrev Result := Except ℤ Unit

/-- What triggered the event: readiness, the callback of the timer, or a call of
`cancelEvent` or `cancelAll` by someone else. -/
inductive Wake where
  | write
  | timeout
  | cancel
  deriving DecidableEq

/-- The part of a call that other threads see: its timer, the flag in `tinfo`, and
whether the event is registered. -/
structure Wait where
  timer : Option Stage
  cancelled : Bool
  event : Bool
  wake : Option Wake
  deriving DecidableEq

/-- The steps of other threads, with the result of `epoll_ctl` in `cancelEvent`. -/
inductive Async where
  | expire
  | start
  | setCancelled
  | cancelEvent (ctl : Bool)
  | dispatch
  | cancel
  deriving DecidableEq

/-- `triggerEvent` schedules the fiber once. -/
def Wait.trigger (cause : Wake) (w : Wait) : Wait :=
  if w.event then { w with event := false, wake := some cause } else w

def Wait.step (w : Wait) : Async → Wait
  | .expire => if w.timer = some .inTimers then { w with timer := some .queued } else w
  | .start =>
    if w.timer = some .queued then
      { w with timer := some (if w.cancelled then .finished else .passed) }
    else w
  | .setCancelled =>
    if w.timer = some .passed then { w with timer := some .cancelling, cancelled := true }
    else w
  | .cancelEvent ctl =>
    if w.timer = some .cancelling then
      if ctl then { w with timer := some .finished }.trigger .timeout
      else { w with timer := some .finished }
    else w
  | .dispatch => w.trigger .write
  | .cancel => w.trigger .cancel

def Wait.run (w : Wait) (actions : List Async) : Wait := actions.foldl Wait.step w

/-- `tinfo` and `addConditionTimer`: no timer for `(uint64_t)-1`. -/
def Wait.arm (timeout_ms : UInt64) : Wait where
  timer := if timeout_ms ≠ ~~~0 then some .inTimers else none
  cancelled := false
  event := false
  wake := none

/-- `timer->cancel()`, which is too late for a callback that was handed out. -/
def Wait.cancelTimer (w : Wait) : Wait :=
  if w.timer = some .inTimers then { w with timer := some .finished } else w

/-- What one call meets: the results of `connect_f`, `addEvent` and `getsockopt`, and
what other threads do before `addEvent`, from there until the fiber runs again, until
`timer->cancel()`, and until the flag is tested. -/
structure Env where
  connect : Result
  early : List Async
  addEvent : Bool
  parked : List Async
  resumed : List Async
  stopped : List Async
  sockopt : Except ℤ ℤ
  deriving DecidableEq

/-- The state in which `yield` returns, if something woke the fiber. -/
def Env.woken (env : Env) (timeout_ms : UInt64) : Wait :=
  { (Wait.arm timeout_ms).run env.early with event := true }.run env.parked

def Env.checked (env : Env) (timeout_ms : UInt64) : Wait :=
  ((env.woken timeout_ms).run env.resumed).cancelTimer.run env.stopped

/-- The end of the function, from `getsockopt` on. -/
def Env.soError (env : Env) : Result :=
  match env.sockopt with
  | .error errno => .error errno
  | .ok error => if error = 0 then .ok () else .error error

/-- `connect_with_timeout`; nothing is returned while the fiber is parked. -/
def connectWithTimeout (hook : Bool) (ctx : Option FdCtx) (timeout_ms : UInt64) (env : Env) :
    Option Result :=
  if !hook then some env.connect
  else match ctx with
  | none => some (.error EBADF)
  | some ctx =>
    if ctx.isClosed then some (.error EBADF)
    else if !ctx.isSocket then some env.connect
    else if ctx.userNonblock then some env.connect
    else match env.connect with
    | .ok () => some (.ok ())
    | .error errno =>
      if errno ≠ EINPROGRESS then some (.error errno)
      else if env.addEvent then
        if (env.woken timeout_ms).wake = none then none
        else if (env.checked timeout_ms).cancelled then some (.error ETIMEDOUT)
        else some env.soError
      -- the timer is cancelled, the failure is logged, and nothing returns
      else some env.soError

def Connected (timeout_ms : UInt64) (env : Env) : Prop :=
  env.connect = .ok () ∨
    env.connect = .error EINPROGRESS ∧ env.addEvent = true ∧
      (env.woken timeout_ms).wake = some .write ∧ env.sockopt = .ok 0

/-- Success is reported only when connected; everything else is -1. -/
def Honest (ctx : FdCtx) (timeout_ms : UInt64) (env : Env) : Prop :=
  ∀ r, connectWithTimeout true (some ctx) timeout_ms env = some r →
    (r = .ok () ∧ Connected timeout_ms env) ∨ ∃ errno, r = .error errno

/-- `SO_ERROR` is read as zero although nothing told that the connection was made. -/
def Unfounded (ctx : FdCtx) (timeout_ms : UInt64) (env : Env) : Prop :=
  ctx.isClosed = false ∧ env.connect = .error EINPROGRESS ∧ env.sockopt = .ok 0 ∧
    (env.addEvent = false ∨
      (env.woken timeout_ms).wake = some .cancel ∧ (env.checked timeout_ms).cancelled = false)

/-! ## The flag -/

/-- A callback that goes on to `cancelEvent`, and a wake-up by it, have set the flag. -/
structure Wait.Flagged (w : Wait) : Prop where
  cancelling : w.timer = some .cancelling → w.cancelled = true
  woken : w.wake = some .timeout → w.cancelled = true

theorem arm_flagged (timeout_ms : UInt64) : (Wait.arm timeout_ms).Flagged := by
  constructor
  · intro ht
    simp only [Wait.arm] at ht
    split_ifs at ht
    cases ht
  · intro hw
    cases hw

theorem Wait.Flagged.trigger {w : Wait} (h : w.Flagged) {cause : Wake}
    (hc : cause = .timeout → w.cancelled = true) : (w.trigger cause).Flagged := by
  unfold Wait.trigger
  split_ifs
  · exact ⟨h.cancelling, fun hw => hc (Option.some.inj hw)⟩
  · exact h

theorem Wait.Flagged.step {w : Wait} (h : w.Flagged) (a : Async) : (w.step a).Flagged := by
  cases a with
  | expire =>
    simp only [Wait.step]
    split_ifs
    · exact ⟨by simp, h.woken⟩
    · exact h
  | start =>
    simp only [Wait.step]
    split_ifs with _ hc
    · exact ⟨fun _ => hc, h.woken⟩
    · exact ⟨by simp, h.woken⟩
    · exact h
  | setCancelled =>
    simp only [Wait.step]
    split_ifs
    · exact ⟨fun _ => rfl, fun _ => rfl⟩
    · exact h
  | cancelEvent ctl =>
    have hend : Wait.Flagged { w with timer := some .finished } := ⟨by simp, h.woken⟩
    simp only [Wait.step]
    split_ifs with ht hctl
    · exact hend.trigger fun _ => h.cancelling ht
    · exact hend
    · exact h
  | dispatch => exact h.trigger fun hc => absurd hc (by decide)
  | cancel => exact h.trigger fun hc => absurd hc (by decide)

theorem Wait.Flagged.run {w : Wait} (h : w.Flagged) (actions : List Async) :
    (w.run actions).Flagged := by
  induction actions generalizing w with
  | nil => exact h
  | cons a actions ih => exact ih (h.step a)

theorem trigger_cancelled (w : Wait) (cause : Wake) :
    (w.trigger cause).cancelled = w.cancelled := by
  unfold Wait.trigger
  split_ifs <;> rfl

theorem step_cancelled {w : Wait} (h : w.cancelled = true) (a : Async) :
    (w.step a).cancelled = true := by
  cases a <;> simp only [Wait.step]
  case dispatch => rw [trigger_cancelled, h]
  case cancel => rw [trigger_cancelled, h]
  case cancelEvent ctl =>
    split_ifs
    · rw [trigger_cancelled, h]
    · exact h
    · exact h
  all_goals
    split_ifs
    all_goals first | exact h | rfl

theorem run_cancelled {w : Wait} (h : w.cancelled = true) (actions : List Async) :
    (w.run actions).cancelled = true := by
  induction actions generalizing w with
  | nil => exact h
  | cons a actions ih => exact ih (step_cancelled h a)

theorem cancelTimer_cancelled (w : Wait) : w.cancelTimer.cancelled = w.cancelled := by
  unfold Wait.cancelTimer
  split_ifs <;> rfl

theorem woken_flagged (env : Env) (timeout_ms : UInt64) : (env.woken timeout_ms).Flagged := by
  have hearly := (arm_flagged timeout_ms).run env.early
  have hregistered : Wait.Flagged
      { (Wait.arm timeout_ms).run env.early with event := true } :=
    ⟨hearly.cancelling, hearly.woken⟩
  exact hregistered.run env.parked

theorem checked_timeout {env : Env} {timeout_ms : UInt64}
    (h : (env.woken timeout_ms).wake = some .timeout) :
    (env.checked timeout_ms).cancelled = true := by
  have hset := (woken_flagged env timeout_ms).woken h
  have hresumed := run_cancelled hset env.resumed
  exact run_cancelled ((cancelTimer_cancelled _).trans hresumed) env.stopped

/-! ## The outcomes of a call -/

theorem soError_ok_iff (env : Env) : env.soError = .ok () ↔ env.sockopt = .ok 0 := by
  unfold Env.soError
  cases env.sockopt with
  | error errno => simp
  | ok error =>
    by_cases he : error = 0
    · simp [he]
    · simp [he]

section Socket

variable {ctx : FdCtx} {timeout_ms : UInt64} {env : Env}

/-- A call on an open blocking socket whose connection is in progress. -/
theorem connectWithTimeout_inProgress (hs : ctx.isSocket = true) (hb : ctx.userNonblock = false)
    (ho : ctx.isClosed = false) (hc : env.connect = .error EINPROGRESS) :
    connectWithTimeout true (some ctx) timeout_ms env =
      if env.addEvent then
        if (env.woken timeout_ms).wake = none then none
        else if (env.checked timeout_ms).cancelled then some (.error ETIMEDOUT)
        else some env.soError
      else some env.soError := by
  simp [connectWithTimeout, hs, hb, ho, hc]

/-- A call that reports success was not waiting, did not wait, or was woken without
the flag. -/
theorem success_cases (hs : ctx.isSocket = true) (hb : ctx.userNonblock = false)
    (h : connectWithTimeout true (some ctx) timeout_ms env = some (.ok ())) :
    env.connect = .ok () ∨
      ctx.isClosed = false ∧ env.connect = .error EINPROGRESS ∧ env.sockopt = .ok 0 ∧
        (env.addEvent = false ∨ env.addEvent = true ∧ (env.woken timeout_ms).wake ≠ none ∧
          (env.checked timeout_ms).cancelled = false) := by
  cases ho : ctx.isClosed with
  | true => simp [connectWithTimeout, ho] at h
  | false =>
    cases hc : env.connect with
    | ok u => exact .inl rfl
    | error errno =>
      by_cases he : errno = EINPROGRESS
      · subst he
        rw [connectWithTimeout_inProgress hs hb ho hc] at h
        refine .inr ⟨rfl, rfl, ?_⟩
        cases ha : env.addEvent with
        | false =>
          rw [ha] at h
          exact ⟨(soError_ok_iff env).mp (Option.some.inj h), .inl rfl⟩
        | true =>
          rw [ha, if_pos rfl] at h
          split_ifs at h with hw hf
          · cases h
          · exact ⟨(soError_ok_iff env).mp (Option.some.inj h),
              .inr ⟨rfl, hw, by simpa using hf⟩⟩
      · simp [connectWithTimeout, hs, hb, ho, hc, he] at h

theorem success_of_unfounded (hs : ctx.isSocket = true) (hb : ctx.userNonblock = false)
    (h : Unfounded ctx timeout_ms env) :
    connectWithTimeout true (some ctx) timeout_ms env = some (.ok ()) := by
  obtain ⟨ho, hc, hz, hcase⟩ := h
  have hok := (soError_ok_iff env).mpr hz
  rw [connectWithTimeout_inProgress hs hb ho hc]
  rcases hcase with ha | ⟨hw, hf⟩
  · simp [ha, hok]
  · simp [hw, hf, hok]

theorem not_connected_of_unfounded (h : Unfounded ctx timeout_ms env) :
    ¬ Connected timeout_ms env := by
  obtain ⟨-, hc, -, hcase⟩ := h
  rintro (hok | ⟨-, ha, hw, -⟩)
  · rw [hc] at hok
    cases hok
  · rcases hcase with hf | ⟨hcancel, -⟩
    · rw [ha] at hf
      cases hf
    · rw [hw] at hcancel
      cases hcancel

/-- A success that is not unfounded is that of a connected socket. -/
theorem connected_of_success (hs : ctx.isSocket = true) (hb : ctx.userNonblock = false)
    (h : connectWithTimeout true (some ctx) timeout_ms env = some (.ok ()))
    (hu : ¬ Unfounded ctx timeout_ms env) : Connected timeout_ms env := by
  rcases success_cases hs hb h with hok | ⟨ho, hc, hz, ha | ⟨ha, hwake, hf⟩⟩
  · exact .inl hok
  · exact absurd ⟨ho, hc, hz, .inl ha⟩ hu
  · refine .inr ⟨hc, ha, ?_, hz⟩
    cases hw : (env.woken timeout_ms).wake with
    | none => exact absurd hw hwake
    | some cause =>
      cases cause with
      | write => rfl
      | timeout =>
        rw [checked_timeout hw] at hf
        cases hf
      | cancel => exact absurd ⟨ho, hc, hz, .inr ⟨hw, hf⟩⟩ hu

end Socket

/-- A hooked connect on a blocking socket is honest exactly if its success is not
unfounded. -/
theorem connect_honest_iff (ctx : FdCtx) (timeout_ms : UInt64) (env : Env)
    (hs : ctx.isSocket = true) (hb : ctx.userNonblock = false) :
    Honest ctx timeout_ms env ↔ ¬ Unfounded ctx timeout_ms env := by
  constructor
  · intro hh hu
    rcases hh _ (success_of_unfounded hs hb hu) with ⟨-, hcon⟩ | ⟨errno, he⟩
    · exact not_connected_of_unfounded hu hcon
    · cases he
  · intro hu r hr
    cases r with
    | ok u => exact .inl ⟨rfl, connected_of_success hs hb hr hu⟩
    | error errno => exact .inr ⟨errno, rfl⟩

def openSocket : FdCtx := socketCtx false

def inProgress (addEvent : Bool) (parked : List Async) : Env where
  connect := .error EINPROGRESS
  early := []
  addEvent := addEvent
  parked := parked
  resumed := []
  stopped := []
  sockopt := .ok 0

theorem connect_honest_writable : Honest openSocket 5000 (inProgress true [.dispatch]) :=
  (connect_honest_iff openSocket 5000 (inProgress true [.dispatch]) rfl rfl).mpr
    (by simp [Unfounded, inProgress, Env.woken, Wait.run, Wait.step, Wait.trigger])

/-- `addEvent` fails, and the connection that is still in progress has no error yet. -/
theorem connect_unregistered :
    connectWithTimeout true (some openSocket) 5000 (inProgress false []) = some (.ok ()) ∧
      ¬ Honest openSocket 5000 (inProgress false []) := by
  refine ⟨rfl, ?_⟩
  intro hh
  rcases hh (.ok ()) rfl with ⟨-, hok | ⟨-, ha, -⟩⟩ | ⟨errno, he⟩
  · cases hok
  · cases ha
  · cases he

end Lamb.ConnectOutcome
