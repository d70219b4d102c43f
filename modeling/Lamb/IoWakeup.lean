import Lamb.StaleReports

/-!
# Readiness under an edge-triggered epoll

The manager watches its descriptors with `EPOLLET`. The kernel queues a descriptor when its file
becomes ready, or is ready while its watch is set, and reports it to one thread only. Input that was
there before `addEvent`, or that comes while other threads dispatch or cancel the other event of the
descriptor, has to reach the fiber all the same.
-/

set_option autoImplicit false

namespace Lamb.IoWakeup
open Lamb.Runs Lamb.IoEvents Lamb.StaleReports

/-- The report tells that an event has occurred. Errors and hang-ups stand for both. -/
def covers (r : Report) : Event → Bool
  | .READ => r.epollin || (r.epollerr || r.epollhup)
  | .WRITE => r.epollout || (r.epollerr || r.epollhup)

def masked (mask : Event → Bool) (r : Report) : Report :=
  { r with epollin := r.epollin && mask .READ, epollout := r.epollout && mask .WRITE }

def nonempty (r : Report) : Bool := r.epollin || r.epollout || (r.epollerr || r.epollhup)

def watching (mask : Event → Bool) : Bool := mask .READ || mask .WRITE

/-- What the kernel keeps of a descriptor: the events it is watched for, none when epoll does not
know it, the state of its file, and whether it is on the ready list. -/
structure Watch where
  interest : Event → Bool
  poll : Report
  queued : Bool

def idleFile : Report := ⟨false, false, false, false⟩

def Watch.new : Watch := ⟨fun _ => false, idleFile, false⟩

/-- `epoll_ctl` with a new mask, the empty one for `EPOLL_CTL_DEL`. -/
def Watch.ctl (mask : Event → Bool) (w : Watch) : Watch where
  interest := mask
  poll := w.poll
  queued := watching mask && (w.queued || nonempty (masked mask w.poll))

def edges (old r more : Report) : Report where
  epollin := r.epollin && (!old.epollin || more.epollin)
  epollout := r.epollout && (!old.epollout || more.epollout)
  epollerr := r.epollerr && (!old.epollerr || more.epollerr)
  epollhup := r.epollhup && (!old.epollhup || more.epollhup)

def Watch.change (r more : Report) (w : Watch) : Watch where
  interest := w.interest
  poll := r
  queued := w.queued || (watching w.interest && nonempty (masked w.interest (edges w.poll r more)))

/-- The manager, the kernel, and the reports that threads have taken and not yet dispatched. -/
structure System where
  manager : Manager
  kernel : ℕ → Watch
  reports : List (ℕ × Report)

def System.init : System where
  manager := Manager.init
  kernel := fun _ => Watch.new
  reports := []

def eventsOf (m : Manager) (fd : ℕ) : Event → Bool := (m.contextOf fd).events

/-- The descriptor and the new mask of the `epoll_ctl` that a function of the manager calls, if it
calls it and the call does not fail. -/
def control (m : Manager) : Call → Option (ℕ × (Event → Bool))
  | .addEvent fd event _ _ ctl =>
    if ctl then some (fd, Function.update (eventsOf m fd) event true) else none
  | .delEvent fd event ctl =>
    if ctl && eventsOf m fd event then some (fd, Function.update (eventsOf m fd) event false)
    else none
  | .cancelEvent fd event ctl =>
    if ctl && eventsOf m fd event then some (fd, Function.update (eventsOf m fd) event false)
    else none
  | .cancelAll fd ctl =>
    if ctl && watching (eventsOf m fd) then some (fd, fun _ => false) else none
  | .dispatch fd r ctl =>
    if ctl && watching (fun e => eventsOf m fd e && real (m.contextOf fd) r e) then
      some (fd, fun e => eventsOf m fd e && !real (m.contextOf fd) r e)
    else none

def controlled (kernel : ℕ → Watch) : Option (ℕ × (Event → Bool)) → ℕ → Watch
  | none => kernel
  | some (fd, mask) => Function.update kernel fd ((kernel fd).ctl mask)

inductive Action where
  | call (c : Call)
  | change (fd : ℕ) (r more : Report)
  | wait (fd : ℕ)
  | dispatch (i : ℕ) (ctl : Bool)
  | close (fd : ℕ)

def next (s : System) : Action → Option System
  | .call (.dispatch _ _ _) => none
  | .call c => (IoEvents.next s.manager c).map fun m =>
      { s with manager := m, kernel := controlled s.kernel (control s.manager c) }
  | .change fd r more =>
    some { s with kernel := Function.update s.kernel fd ((s.kernel fd).change r more) }
  -- A descriptor of the ready list that is no longer ready is dropped from it.
  | .wait fd =>
    if (s.kernel fd).queued then
      let r := masked (s.kernel fd).interest (s.kernel fd).poll
      some { s with
        kernel := Function.update s.kernel fd { s.kernel fd with queued := false }
        reports := if nonempty r then s.reports ++ [(fd, r)] else s.reports }
    else none
  | .dispatch i ctl =>
    match s.reports[i]? with
    | none => none
    | some (fd, r) => (s.manager.dispatch fd r ctl).map fun m =>
        { manager := m
          kernel := controlled s.kernel (control s.manager (.dispatch fd r ctl))
          reports := s.reports.eraseIdx i }
  | .close fd => some { s with kernel := Function.update s.kernel fd Watch.new }

/-- Events are added once, from a scheduler thread. The `epoll_ctl` of the dispatch loop succeeds,
and a descriptor is closed behind `cancelAll`, as the hooked `close` does. -/
def Legal (s : System) : Action → Prop
  | .call c => Allowed s.manager c
  | .dispatch _ ctl => ctl = true
  | .close fd => watching (eventsOf s.manager fd) = false
  | _ => True

/-! ## The table and the masks of `epoll_ctl` -/

theorem eventsOf_some {m : Manager} {fd : ℕ} {c : FdContext} (hc : m.fdContexts[fd]? = some c) :
    eventsOf m fd = c.events := by
  rw [eventsOf, Manager.contextOf, hc]
  rfl

theorem eventsOf_none {m : Manager} {fd : ℕ} (hc : m.fdContexts[fd]? = none) :
    eventsOf m fd = fun _ => false := by
  rw [eventsOf, Manager.contextOf, hc]
  rfl

theorem setContext_events {m : Manager} {fd : ℕ} {c : FdContext} (hc : m.fdContexts[fd]? = some c)
    (d : FdContext) : eventsOf (m.setContext d fd) = Function.update (eventsOf m) fd d.events := by
  have hfd := (List.getElem?_eq_some_iff.mp hc).1
  funext i
  by_cases hi : i = fd
  · subst hi
    rw [Function.update_self]
    exact eventsOf_some (List.getElem?_set_self hfd)
  · rw [Function.update_of_ne hi, eventsOf, Manager.contextOf, Manager.setContext,
      List.getElem?_set_ne (Ne.symm hi)]
    rfl

theorem trigger_clears {c c' : FdContext} {event : Event} {r : Record}
    (h : c.triggerEvent event = some (c', r)) : c' = c.clear event := by
  unfold FdContext.triggerEvent at h
  split_ifs at h
  split at h
  · cases h
  · cases h
    rfl

theorem fire_events {m m' : Manager} {fd : ℕ} {event : Event} (h : m.fire fd event = some m') :
    eventsOf m' =
      Function.update (eventsOf m) fd (Function.update (eventsOf m fd) event false) := by
  unfold Manager.fire at h
  split at h
  · cases h
  rename_i c hc
  split at h
  · cases h
  rename_i c' r htrigger
  obtain rfl := Option.some.inj h
  obtain rfl := trigger_clears htrigger
  rw [eventsOf_some hc]
  exact setContext_events hc _

theorem fireIf_events {m m' : Manager} {fd : ℕ} {event : Event} {set : Bool}
    (h : m.fireIf fd event set = some m') (i : ℕ) (e : Event) :
    eventsOf m' i e = (eventsOf m i e && !(decide (i = fd ∧ e = event) && set)) := by
  cases set with
  | false =>
    obtain rfl := Option.some.inj h
    simp
  | true =>
    rw [fire_events h]
    by_cases hi : i = fd
    · subst hi
      by_cases he : e = event <;> simp [he]
    · simp [hi]

/-- The registered events once `epoll_ctl` and the lines behind it have been executed. -/
def masks (events : ℕ → Event → Bool) : Option (ℕ × (Event → Bool)) → ℕ → Event → Bool
  | none => events
  | some (fd, mask) => Function.update events fd mask

theorem masks_if (events : ℕ → Event → Bool) (b : Bool) (fd : ℕ) (mask : Event → Bool) :
    masks events (if b then some (fd, mask) else none) =
      if b then Function.update events fd mask else events := by
  cases b <;> rfl

theorem delEvent_events {m m' : Manager} {fd : ℕ} {event : Event} {ctl b : Bool}
    (h : m.delEvent fd event ctl = some (b, m')) :
    eventsOf m' = masks (eventsOf m) (control m (.delEvent fd event ctl)) := by
  rw [control, masks_if]
  unfold Manager.delEvent at h
  cases hc : m.fdContexts[fd]? with
  | none =>
    simp only [hc] at h
    cases h
    simp [eventsOf_none hc]
  | some c =>
    simp only [hc] at h
    rw [eventsOf_some hc]
    split_ifs at h with hbit hctl
    · cases h
      simp_all
    · cases h
      simp_all
    · cases h
      have hboth : (ctl && c.events event) = true := by simp_all
      rw [if_pos hboth]
      exact setContext_events hc _

theorem cancelEvent_events {m m' : Manager} {fd : ℕ} {event : Event} {ctl b : Bool}
    (h : m.cancelEvent fd event ctl = some (b, m')) :
    eventsOf m' = masks (eventsOf m) (control m (.cancelEvent fd event ctl)) := by
  rw [control, masks_if]
  unfold Manager.cancelEvent at h
  cases hc : m.fdContexts[fd]? with
  | none =>
    simp only [hc] at h
    cases h
    simp [eventsOf_none hc]
  | some c =>
    simp only [hc] at h
    have hevents := eventsOf_some hc
    split_ifs at h with hbit hctl
    · cases h
      simp_all
    · cases h
      simp_all
    · obtain ⟨m₁, hm₁, he⟩ := Option.map_eq_some_iff.mp h
      cases he
      have hboth : (ctl && eventsOf m fd event) = true := by simp_all
      rw [if_pos hboth]
      exact fire_events hm₁

theorem neither_iff (a b : Bool) : (!a && !b) = true ↔ (a || b) = false := by
  cases a <;> simp

theorem cancelAll_events {m m' : Manager} {fd : ℕ} {ctl b : Bool}
    (h : m.cancelAll fd ctl = some (b, m')) :
    eventsOf m' = masks (eventsOf m) (control m (.cancelAll fd ctl)) := by
  rw [control, masks_if]
  unfold Manager.cancelAll at h
  cases hc : m.fdContexts[fd]? with
  | none =>
    simp only [hc] at h
    cases h
    simp [eventsOf_none hc, watching]
  | some c =>
    simp only [hc] at h
    have hevents := eventsOf_some hc
    split_ifs at h with hnone hctl
    · cases h
      have hwatching : watching (eventsOf m fd) = false := by
        rw [hevents]
        exact (neither_iff _ _).mp hnone
      simp [hwatching]
    · cases h
      simp_all
    · obtain ⟨m₁, hm₁, h⟩ := Option.bind_eq_some_iff.mp h
      obtain ⟨c₁, hc₁, h⟩ := Option.bind_eq_some_iff.mp h
      obtain ⟨m₂, hm₂, h⟩ := Option.bind_eq_some_iff.mp h
      obtain ⟨c₂, hc₂, h⟩ := Option.bind_eq_some_iff.mp h
      split_ifs at h
      cases h
      have hwatching : watching (eventsOf m fd) = true := by
        rw [hevents]
        by_contra hne
        exact hnone ((neither_iff _ _).mpr (Bool.eq_false_of_not_eq_true hne))
      have hboth : (ctl && watching (eventsOf m fd)) = true := by simp_all
      rw [if_pos hboth]
      have hread := fireIf_events hm₁
      have hwrite := fireIf_events hm₂
      rw [← eventsOf_some hc₁] at hwrite
      rw [← hevents] at hread
      funext i e
      rw [hwrite, hread]
      by_cases hi : i = fd
      · subst hi
        cases e <;> simp [hread]
      · simp [hi]

theorem dispatch_events {m m' : Manager} {fd : ℕ} {r : Report} {ctl : Bool}
    (h : m.dispatch fd r ctl = some m') :
    eventsOf m' = masks (eventsOf m) (control m (.dispatch fd r ctl)) := by
  rw [control, masks_if]
  unfold Manager.dispatch at h
  cases hc : m.fdContexts[fd]? with
  | none =>
    simp only [hc] at h
    cases h
  | some c =>
    have hof : m.contextOf fd = c := by
      rw [Manager.contextOf, hc]
      rfl
    rw [hof, eventsOf_some hc]
    simp only [hc] at h
    split_ifs at h with hskip hctl
    · obtain rfl := Option.some.inj h
      have hnone : watching (fun e => c.events e && real c r e) = false :=
        (neither_iff _ _).mp hskip
      simp [hnone]
    · obtain rfl := Option.some.inj h
      simp_all
    · obtain ⟨m₁, hm₁, hm₂⟩ := Option.bind_eq_some_iff.mp h
      have hwrite := fireIf_events hm₁
      have hread := fireIf_events hm₂
      have hsome : watching (fun e => c.events e && real c r e) = true := by
        by_contra hne
        exact hskip ((neither_iff _ _).mpr (Bool.eq_false_of_not_eq_true hne))
      have hboth : (ctl && watching (fun e => c.events e && real c r e)) = true := by simp_all
      rw [if_pos hboth, ← eventsOf_some hc]
      funext i e
      rw [hread, hwrite]
      by_cases hi : i = fd
      · subst hi
        cases e <;> simp [real]
      · simp [hi]

theorem addEvent_events {m m' : Manager} (hi : IoEvents.Inv m) {fd : ℕ} {event : Event}
    {cb : Option ℕ} {self : Caller} {ctl : Bool} {b : ℤ}
    (h : m.addEvent fd event cb self ctl = some (b, m')) :
    eventsOf m' = masks (eventsOf m) (control m (.addEvent fd event cb self ctl)) := by
  rw [control, masks_if]
  obtain ⟨-, hc, hof, -⟩ := prepared_add m hi fd event cb self ctl _ rfl
  generalize hm : Call.prepared m (.addEvent fd event cb self ctl) = m₀ at hc hof
  have hprepared : (if fd < m.fdContexts.length then m else m.contextResize (fd*3 / 2)) = m₀ := hm
  have hsame : eventsOf m₀ = eventsOf m := by
    funext i
    exact congrArg FdContext.events (hof i)
  unfold Manager.addEvent at h
  simp only [hprepared, hc] at h
  split_ifs at h with hbit hctl
  · cases h
    simp_all
  all_goals
    cases h
    rw [if_pos (by simpa using hctl), ← hsame, eventsOf_some hc]
    exact setContext_events hc _

/-- What `epoll_ctl` is told is what the table holds. -/
theorem next_events {m m' : Manager} (hi : IoEvents.Inv m) {c : Call}
    (h : IoEvents.next m c = some m') : eventsOf m' = masks (eventsOf m) (control m c) := by
  cases c with
  | addEvent fd event cb self ctl =>
    obtain ⟨⟨b, m₁⟩, hm, rfl⟩ := Option.map_eq_some_iff.mp h
    exact addEvent_events hi hm
  | delEvent fd event ctl =>
    obtain ⟨⟨b, m₁⟩, hm, rfl⟩ := Option.map_eq_some_iff.mp h
    exact delEvent_events hm
  | cancelEvent fd event ctl =>
    obtain ⟨⟨b, m₁⟩, hm, rfl⟩ := Option.map_eq_some_iff.mp h
    exact cancelEvent_events hm
  | cancelAll fd ctl =>
    obtain ⟨⟨b, m₁⟩, hm, rfl⟩ := Option.map_eq_some_iff.mp h
    exact cancelAll_events hm
  | dispatch fd event ctl => exact dispatch_events h

/-! ## No readiness is lost -/

/-- Somebody will see that the event has occurred: the next thread in `epoll_wait`, or one that has
taken a report of it already. -/
def Attended (s : System) (fd : ℕ) (e : Event) : Prop :=
  (s.kernel fd).queued = true ∨ ∃ r, (fd, r) ∈ s.reports ∧ covers r e = true

/-- The kernel watches what is registered, and every registered event that has occurred is attended
to. -/
structure Inv (s : System) : Prop where
  table : IoEvents.Inv s.manager
  watched : ∀ fd, (s.kernel fd).interest = eventsOf s.manager fd
  attended : ∀ fd e, eventsOf s.manager fd e = true → covers (s.kernel fd).poll e = true →
    Attended s fd e

theorem covers_nonempty {r : Report} {e : Event} (h : covers r e = true) : nonempty r = true := by
  cases e <;> simp_all [covers, nonempty] <;> tauto

theorem covers_masked {mask : Event → Bool} {r : Report} {e : Event} (he : mask e = true)
    (h : covers r e = true) : covers (masked mask r) e = true := by
  cases e <;> simp_all [covers, masked]

theorem watching_of {mask : Event → Bool} {e : Event} (he : mask e = true) :
    watching mask = true := by
  cases e <;> simp [watching, he]

/-- A registered event that has occurred is queued anew by every `epoll_ctl`. -/
theorem ctl_queues {mask : Event → Bool} {w : Watch} {e : Event} (he : mask e = true)
    (h : covers w.poll e = true) : (w.ctl mask).queued = true := by
  rw [Watch.ctl, watching_of he, covers_nonempty (covers_masked he h), Bool.or_true, Bool.and_true]

theorem change_queues {w : Watch} {r more : Report} {e : Event} (he : w.interest e = true)
    (hbefore : covers w.poll e = false) (h : covers r e = true) :
    (w.change r more).queued = true := by
  have hedges : covers (edges w.poll r more) e = true := by
    cases e <;> simp_all [covers, edges]
  rw [Watch.change, watching_of he, covers_nonempty (covers_masked he hedges), Bool.and_true,
    Bool.or_true]

theorem controlled_interest (kernel : ℕ → Watch) (o : Option (ℕ × (Event → Bool))) (fd : ℕ) :
    (controlled kernel o fd).interest = masks (fun i => (kernel i).interest) o fd := by
  cases o with
  | none => rfl
  | some x =>
    obtain ⟨fd', mask⟩ := x
    by_cases hfd : fd = fd'
    · subst hfd
      simp [controlled, masks, Watch.ctl]
    · simp [controlled, masks, hfd]

theorem controlled_poll (kernel : ℕ → Watch) (o : Option (ℕ × (Event → Bool))) (fd : ℕ) :
    (controlled kernel o fd).poll = (kernel fd).poll := by
  cases o with
  | none => rfl
  | some x =>
    by_cases hfd : fd = x.1
    · subst hfd
      simp [controlled, Watch.ctl]
    · simp [controlled, hfd]

/-- A call of the manager, or a dispatch that throws its report away: what is left of the reports
still attends to the events of the descriptors that `epoll_ctl` was not called for. -/
theorem Inv.controlled {s : System} (h : Inv s) {m : Manager} {o : Option (ℕ × (Event → Bool))}
    {reports : List (ℕ × Report)} (htable : IoEvents.Inv m)
    (hevents : eventsOf m = masks (eventsOf s.manager) o)
    (hreports : ∀ fd e r, (∀ mask, o ≠ some (fd, mask)) → eventsOf s.manager fd e = true →
      (fd, r) ∈ s.reports → covers r e = true → (fd, r) ∈ reports) :
    Inv ⟨m, controlled s.kernel o, reports⟩ where
  table := htable
  watched := by
    intro fd
    have hkernel : (fun i => (s.kernel i).interest) = eventsOf s.manager := funext h.watched
    change (IoWakeup.controlled s.kernel o fd).interest = eventsOf m fd
    rw [controlled_interest, hkernel, hevents]
  attended := by
    intro fd e he hpoll
    change eventsOf m fd e = true at he
    rw [controlled_poll] at hpoll
    rw [hevents] at he
    by_cases ho : ∃ mask, o = some (fd, mask)
    · obtain ⟨mask, rfl⟩ := ho
      left
      simp only [masks, Function.update_self] at he
      change (IoWakeup.controlled s.kernel _ fd).queued = true
      rw [IoWakeup.controlled, Function.update_self]
      exact ctl_queues he hpoll
    · have hother : ∀ mask, o ≠ some (fd, mask) := fun mask heq => ho ⟨mask, heq⟩
      have hsame : masks (eventsOf s.manager) o fd = eventsOf s.manager fd ∧
          IoWakeup.controlled s.kernel o fd = s.kernel fd := by
        cases o with
        | none => exact ⟨rfl, rfl⟩
        | some x =>
          have hne : fd ≠ x.1 := fun heq => hother x.2 (by rw [heq])
          exact ⟨Function.update_of_ne hne _ _, Function.update_of_ne hne _ _⟩
      rw [hsame.1] at he
      rcases h.attended fd e he hpoll with hqueued | ⟨r, hr, hcovers⟩
      · left
        change (IoWakeup.controlled s.kernel o fd).queued = true
        rw [hsame.2]
        exact hqueued
      · exact .inr ⟨r, hreports fd e r hother he hr hcovers, hcovers⟩

theorem init_inv : Inv System.init where
  table := IoEvents.init_inv
  watched := by
    intro fd
    change (fun _ => false) = ((Manager.init.contextOf fd).events)
    rw [Manager.contextOf, Manager.init, List.getElem?_map]
    cases (List.range 32)[fd]? <;> rfl
  attended := by
    intro fd e _ hpoll
    cases e <;> cases hpoll

theorem call_inv {s t : System} {c : Call} (h : Inv s) (hal : Allowed s.manager c)
    (hn : next s (.call c) = some t) : Inv t := by
  have hcall : ∃ m, IoEvents.next s.manager c = some m ∧
      (⟨m, controlled s.kernel (control s.manager c), s.reports⟩ : System) = t := by
    cases c with
    | dispatch => cases hn
    | _ => exact Option.map_eq_some_iff.mp hn
  obtain ⟨m, hm, rfl⟩ := hcall
  obtain ⟨m', hm', htable, -⟩ := next_ok s.manager h.table c hal
  obtain rfl : m' = m := Option.some.inj (hm'.symm.trans hm)
  exact h.controlled htable (next_events h.table hm) fun _ _ _ _ _ hr _ => hr

/-- The kernel changes what it keeps of one descriptor, and takes back no report. -/
theorem Inv.touched {s : System} (h : Inv s) {fd : ℕ} {w : Watch} {reports : List (ℕ × Report)}
    (hinterest : w.interest = eventsOf s.manager fd) (hreports : s.reports ⊆ reports)
    (hat : ∀ e, eventsOf s.manager fd e = true → covers w.poll e = true →
      w.queued = true ∨ ∃ r, (fd, r) ∈ reports ∧ covers r e = true) :
    Inv ⟨s.manager, Function.update s.kernel fd w, reports⟩ where
  table := h.table
  watched := by
    intro i
    by_cases hi : i = fd
    · subst hi
      simp only [Function.update_self]
      exact hinterest
    · simp only [Function.update_of_ne hi]
      exact h.watched i
  attended := by
    intro i e he hpoll
    unfold Attended
    by_cases hi : i = fd
    · subst hi
      simp only [Function.update_self] at hpoll ⊢
      exact hat e he hpoll
    · simp only [Function.update_of_ne hi] at hpoll ⊢
      refine (h.attended i e he hpoll).imp_right ?_
      rintro ⟨r, hr, hcovers⟩
      exact ⟨r, hreports hr, hcovers⟩

theorem change_inv {s t : System} {fd : ℕ} {r more : Report} (h : Inv s)
    (hn : next s (.change fd r more) = some t) : Inv t := by
  obtain rfl := Option.some.inj hn
  refine h.touched ?_ (List.Subset.refl _) ?_
  · exact h.watched fd
  intro e he hpoll
  cases hbefore : covers (s.kernel fd).poll e with
  | false =>
    have hinterest : (s.kernel fd).interest e = true := by
      rw [h.watched fd]
      exact he
    exact .inl (change_queues hinterest hbefore hpoll)
  | true =>
    refine (h.attended fd e he hbefore).imp_left fun hqueued => ?_
    rw [Watch.change, hqueued, Bool.true_or]

/-- A thread that takes a descriptor from the ready list takes along what it attends to. -/
theorem wait_inv {s t : System} {fd : ℕ} (h : Inv s) (hn : next s (.wait fd) = some t) :
    Inv t := by
  have hqueued : (s.kernel fd).queued = true := by
    by_contra hne
    simp only [next, if_neg hne] at hn
    cases hn
  simp only [next, if_pos hqueued] at hn
  obtain rfl := Option.some.inj hn
  apply h.touched
  · exact h.watched fd
  · split_ifs
    · exact List.subset_append_left _ _
    · exact List.Subset.refl _
  · intro e he hpoll
    have hcovers : covers (masked (s.kernel fd).interest (s.kernel fd).poll) e = true := by
      apply covers_masked _ hpoll
      rw [h.watched fd]
      exact he
    right
    rw [if_pos (covers_nonempty hcovers)]
    exact ⟨_, List.mem_append_right _ (.head _), hcovers⟩

theorem real_covers {c : FdContext} {r : Report} {e : Event} (he : c.events e = true) :
    real c r e = covers r e := by
  cases e <;> simp [real, covers, he]

/-- The dispatch loop lets nothing pass of which an event is registered. -/
theorem control_of_covers {m : Manager} {fd : ℕ} {r : Report} {e : Event}
    (he : eventsOf m fd e = true) (hcovers : covers r e = true) :
    control m (.dispatch fd r true) =
      some (fd, fun e => eventsOf m fd e && !real (m.contextOf fd) r e) := by
  have hwatching :
      watching (fun e => eventsOf m fd e && real (m.contextOf fd) r e) = true := by
    apply watching_of (e := e)
    rw [he, real_covers he, hcovers]
    rfl
  rw [control, hwatching]
  rfl

theorem dispatch_table {m m' : Manager} (h : IoEvents.Inv m) {fd : ℕ} {r : Report}
    (hm : m.dispatch fd r true = some m') : IoEvents.Inv m' := by
  have hfd : fd < m.fdContexts.length := by
    by_contra hge
    have hnone : m.fdContexts[fd]? = none := by simpa using hge
    unfold Manager.dispatch at hm
    simp only [hnone] at hm
    cases hm
  have htogether : Together (m.contextOf fd) r := by
    by_contra hnot
    rw [dispatch_aborts h hfd hnot] at hm
    cases hm
  obtain ⟨m₁, hm₁, hi⟩ := dispatch_together h true hfd fun _ => htogether
  obtain rfl : m₁ = m' := Option.some.inj (hm₁.symm.trans hm)
  exact hi

theorem dispatch_inv {s t : System} {i : ℕ} (h : Inv s)
    (hn : next s (.dispatch i true) = some t) : Inv t := by
  simp only [next] at hn
  split at hn
  · cases hn
  rename_i fd r hr
  obtain ⟨m, hm, rfl⟩ := Option.map_eq_some_iff.mp hn
  refine h.controlled (dispatch_table h.table hm) (dispatch_events hm) ?_
  intro fd' e r' hother he hr' hcovers
  have hne : s.reports[i]? ≠ some (fd', r') := by
    intro heq
    obtain ⟨rfl, rfl⟩ := Prod.mk.inj (Option.some.inj (hr.symm.trans heq))
    exact hother _ (control_of_covers he hcovers)
  obtain ⟨j, hj⟩ := List.mem_iff_getElem?.mp hr'
  apply List.mem_eraseIdx_iff_getElem?.mpr
  refine ⟨j, ?_, hj⟩
  rintro rfl
  exact hne hj

theorem close_inv {s t : System} {fd : ℕ} (h : Inv s)
    (hclosed : watching (eventsOf s.manager fd) = false) (hn : next s (.close fd) = some t) :
    Inv t := by
  obtain rfl := Option.some.inj hn
  have hnone (e : Event) : eventsOf s.manager fd e = false := by
    by_contra hne
    rw [watching_of (Bool.eq_true_of_not_eq_false hne)] at hclosed
    cases hclosed
  apply h.touched (funext hnone).symm (List.Subset.refl _)
  intro e he
  rw [hnone e] at he
  cases he

theorem next_inv {s t : System} {a : Action} (h : Inv s) (hg : Legal s a)
    (hn : next s a = some t) : Inv t := by
  cases a with
  | call c => exact call_inv h hg hn
  | change fd r more => exact change_inv h hn
  | wait fd => exact wait_inv h hn
  | dispatch i ctl =>
    obtain rfl : ctl = true := hg
    exact dispatch_inv h hn
  | close fd => exact close_inv h hg hn

theorem reaches_inv {s : System} (h : Reaches next Legal System.init s) : Inv s :=
  h.invariant init_inv fun _ _ _ hi hg hn => next_inv hi hg hn

/-! ## What is attended to is scheduled -/

theorem fireIf_record {m m' : Manager} {fd : ℕ} {c : FdContext} {event : Event} {set : Bool}
    (hc : m.fdContexts[fd]? = some c) (h : m.fireIf fd event set = some m') :
    ∃ c' rs, m'.fdContexts[fd]? = some c' ∧ (∀ e, e ≠ event → c'.context e = c.context e) ∧
      m'.history = m.history ++ rs ∧
      (set = true → ∃ scheduler, (c.context event).scheduler = some scheduler ∧
        .scheduled (c.context event).reg scheduler (c.context event).target ∈ rs) := by
  cases set with
  | false =>
    obtain rfl := Option.some.inj h
    exact ⟨c, [], hc, fun _ _ => rfl, (List.append_nil _).symm, nofun⟩
  | true =>
    have h : m.fire fd event = some m' := h
    unfold Manager.fire at h
    simp only [hc] at h
    split at h
    · cases h
    rename_i c' r htrigger
    obtain rfl := Option.some.inj h
    have hfd := (List.getElem?_eq_some_iff.mp hc).1
    refine ⟨c', [r], List.getElem?_set_self hfd, ?_, rfl, fun _ => ?_⟩
    · intro e he
      rw [trigger_clears htrigger]
      exact Function.update_of_ne he _ _
    · unfold FdContext.triggerEvent at htrigger
      split_ifs at htrigger
      split at htrigger
      · cases htrigger
      rename_i scheduler hscheduler
      cases htrigger
      exact ⟨scheduler, hscheduler, .head _⟩

theorem dispatch_record {m m' : Manager} {fd : ℕ} {r : Report} {e : Event} {c : FdContext}
    (hc : m.fdContexts[fd]? = some c) (he : c.events e = true) (hcovers : covers r e = true)
    (hm : m.dispatch fd r true = some m') : ∃ rs scheduler, m'.history = m.history ++ rs ∧
      (c.context e).scheduler = some scheduler ∧
      .scheduled (c.context e).reg scheduler (c.context e).target ∈ rs := by
  have hreal : real c r e = true := (real_covers he).trans hcovers
  rw [dispatch_triggers hc ⟨e, he, hreal⟩] at hm
  obtain ⟨m₁, hm₁, hm₂⟩ := Option.bind_eq_some_iff.mp hm
  obtain ⟨c₁, rs₁, hc₁, hcontext, hhistory₁, hwrite⟩ := fireIf_record hc hm₁
  obtain ⟨c₂, rs₂, -, -, hhistory₂, hread⟩ := fireIf_record hc₁ hm₂
  have hhistory : m'.history = m.history ++ (rs₁ ++ rs₂) := by
    rw [hhistory₂, hhistory₁, List.append_assoc]
  cases e with
  | READ =>
    obtain ⟨scheduler, hscheduler, hmem⟩ := hread hreal
    rw [hcontext .READ nofun] at hscheduler hmem
    exact ⟨_, scheduler, hhistory, hscheduler, List.mem_append_right _ hmem⟩
  | WRITE =>
    obtain ⟨scheduler, hscheduler, hmem⟩ := hwrite hreal
    exact ⟨_, scheduler, hhistory, hscheduler, List.mem_append_left _ hmem⟩

/-- The dispatch of the report at `i` schedules the fiber or callback with which the event was
registered. -/
def Awakens (s : System) (i fd : ℕ) (e : Event) : Prop :=
  ∃ reg scheduler target t rs,
    .added reg fd e (some scheduler) (some target) ∈ s.manager.history ∧
    ((s.manager.contextOf fd).context e).reg = some reg ∧
    next s (.dispatch i true) = some t ∧ eventsOf t.manager fd e = false ∧
    t.manager.history = s.manager.history ++ rs ∧
    .scheduled (some reg) scheduler (some target) ∈ rs

theorem awakens_of_report {s : System} (h : Inv s) {i fd : ℕ} {r : Report} {e : Event}
    (he : eventsOf s.manager fd e = true) (hr : s.reports[i]? = some (fd, r))
    (hcovers : covers r e = true) (htogether : Together (s.manager.contextOf fd) r) :
    Awakens s i fd e := by
  have hfd : fd < s.manager.fdContexts.length := by
    by_contra hge
    have hnone : s.manager.fdContexts[fd]? = none := by simpa using hge
    rw [eventsOf_none hnone] at he
    cases he
  have hc := contextOf_eq hfd
  obtain ⟨m, hm, -⟩ := dispatch_together h.table true hfd fun _ => htogether
  have hbit : (s.manager.contextOf fd).events e = true := he
  have hfilled := h.table.contexts fd _ hc e
  rw [Filled, if_pos hbit] at hfilled
  obtain ⟨reg, scheduler, hreg, hscheduler, hx, hadded⟩ := hfilled
  obtain ⟨target, htarget⟩ := Option.isSome_iff_exists.mp (target_isSome _ hx)
  obtain ⟨rs, scheduler', hhistory, hscheduler', hmem⟩ := dispatch_record hc he hcovers hm
  obtain rfl : scheduler = scheduler' := Option.some.inj (hscheduler.symm.trans hscheduler')
  rw [htarget] at hadded hmem
  rw [hreg] at hmem
  refine ⟨reg, scheduler, target, ⟨m, controlled s.kernel (control s.manager (.dispatch fd r true)),
    s.reports.eraseIdx i⟩, rs, hadded, hreg, ?_, ?_, hhistory, hmem⟩
  · simp only [next, hr, hm, Option.map_some]
  · change eventsOf m fd e = false
    rw [dispatch_events hm, control_of_covers he hcovers, masks, Function.update_self, he,
      real_covers he, hcovers]
    rfl

/-- In every interleaving of the calls of the manager, the dispatch loops of any number of idle
threads, and the changes of the files: where a registered event has occurred, the kernel will report
it to the next thread in `epoll_wait`, or a thread holds a report of it. The dispatch of this report
schedules the fiber or callback that waits, unless a half of the report was withdrawn. -/
theorem no_readiness_lost (s : System) (h : Reaches next Legal System.init s) (fd : ℕ) (e : Event)
    (he : (s.manager.contextOf fd).events e = true) (hready : covers (s.kernel fd).poll e = true) :
    (∃ t r, next s (.wait fd) = some t ∧ t.reports = s.reports ++ [(fd, r)] ∧
      covers r e = true) ∨
    ∃ i r, s.reports[i]? = some (fd, r) ∧ covers r e = true ∧
      (Together (s.manager.contextOf fd) r → Awakens s i fd e) := by
  have hinv := reaches_inv h
  rcases hinv.attended fd e he hready with hqueued | ⟨r, hr, hcovers⟩
  · left
    have hreported : covers (masked (s.kernel fd).interest (s.kernel fd).poll) e = true := by
      apply covers_masked _ hready
      rw [hinv.watched fd]
      exact he
    refine ⟨_, _, if_pos hqueued, ?_, hreported⟩
    exact if_pos (covers_nonempty hreported)
  · right
    obtain ⟨i, hi⟩ := List.mem_iff_getElem?.mp hr
    exact ⟨i, r, hi, hcovers, awakens_of_report hinv he hi hcovers⟩

theorem early_input_awakens : ∃ s,
    after next [.change 5 readable idleFile, .call (.addEvent 5 .READ none ⟨some 0, 7⟩ true),
      .wait 5] System.init = some s ∧ Awakens s 0 5 .READ := by
  refine ⟨_, rfl, ?_⟩
  have hchange : Reaches next Legal System.init _ :=
    Reaches.start.step (a := Action.change 5 readable idleFile) trivial rfl
  have hadd := hchange.step (a := Action.call (.addEvent 5 .READ none ⟨some 0, 7⟩ true))
    ⟨rfl, rfl⟩ rfl
  have hwait := hadd.step (a := Action.wait 5) trivial rfl
  rcases no_readiness_lost _ hwait 5 .READ rfl rfl with ⟨t, r, ht, -⟩ | ⟨i, r, hi, -, hawakens⟩
  · cases ht
  · cases i with
    | zero =>
      obtain ⟨-, rfl⟩ := Prod.mk.inj (Option.some.inj hi)
      apply hawakens
      rintro - e he
      cases e with
      | READ => rfl
      | WRITE => cases he
    | succ i => cases hi

/-- The dispatch loop goes on with the next report when `epoll_ctl` fails, and the readiness of this
one is lost. -/
theorem failed_ctl_loses_input : ∃ s,
    after next [.change 5 readable idleFile, .call (.addEvent 5 .READ none ⟨some 0, 7⟩ true),
      .wait 5, .dispatch 0 false] System.init = some s ∧ eventsOf s.manager 5 .READ = true ∧
    covers (s.kernel 5).poll .READ = true ∧ ¬Attended s 5 .READ := by
  refine ⟨_, rfl, rfl, rfl, ?_⟩
  rintro (hqueued | ⟨r, hr, -⟩)
  · cases hqueued
  · cases hr

end Lamb.IoWakeup
