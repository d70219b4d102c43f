import Lamb.IoEventsInvariant

/-!
# Reports that other threads overtake

An idle thread takes a report from `epoll_wait` and reaches the lock of the
descriptor later. In between, other threads may add, remove, cancel or dispatch
events of the same descriptor. The dispatch loop skips a report none of whose
events is registered any more, and otherwise triggers every event of the report.
-/

set_option autoImplicit false

namespace Lamb.StaleReports
open Lamb.Runs Lamb.IoEvents

/-- The manager with the reports that were received and not yet dispatched.
`aborted` is set by a failed assertion of the dispatch loop. -/
structure System where
  manager : Manager
  reports : List (ℕ × Report)
  aborted : Bool

def System.init : System where
  manager := Manager.init
  reports := []
  aborted := false

inductive Step where
  | call (c : Call)
  | wait (fd : ℕ) (event : Report)
  | dispatch (i : ℕ) (ctl : Bool)

def registered (m : Manager) (fd : ℕ) (event : Report) : Bool :=
  match m.fdContexts[fd]? with
  | none => false
  | some c => (!event.epollin || c.events .READ) && (!event.epollout || c.events .WRITE)

def advance (s : System) : Step → Option System
  | .call (.dispatch _ _ _) => none
  | .call c => (IoEvents.next s.manager c).map fun m => { s with manager := m }
  | .wait fd event =>
    if registered s.manager fd event then
      some { s with reports := s.reports ++ [(fd, event)] }
    else none
  | .dispatch i ctl =>
    match s.reports[i]? with
    | none => none
    | some (fd, event) =>
      match s.manager.dispatch fd event ctl with
      | none => some { s with aborted := true }
      | some m => some { s with manager := m, reports := s.reports.eraseIdx i }

def next (s : System) (a : Step) : Option System := if s.aborted then none else advance s a

/-- Calls other than those of the dispatch loop meet their own conditions. -/
def Legal (s : System) : Step → Prop
  | .call c => Allowed s.manager c
  | _ => True

/-- `real_events` of a report at a context. -/
def real (c : FdContext) (event : Report) : Event → Bool
  | .READ => event.epollin || ((event.epollerr || event.epollhup) && c.events .READ)
  | .WRITE => event.epollout || ((event.epollerr || event.epollhup) && c.events .WRITE)

def Together (c : FdContext) (event : Report) : Prop :=
  (∃ e, c.events e = true ∧ real c event e = true) →
    ∀ e, real c event e = true → c.events e = true

/-- A report that reaches the lock, and whose `epoll_ctl` succeeds, was withdrawn
as a whole or not at all. -/
def Whole (s : System) : Step → Prop
  | .dispatch i true => ∀ fd event, s.reports[i]? = some (fd, event) →
      Together (s.manager.contextOf fd) event
  | _ => True

/-! ## The table never shrinks -/

theorem fire_length {m m' : Manager} {fd : ℕ} {event : Event} (h : m.fire fd event = some m') :
    m'.fdContexts.length = m.fdContexts.length := by
  unfold Manager.fire at h
  split at h
  · cases h
  · split at h
    · cases h
    · obtain rfl := Option.some.inj h
      exact List.length_set

theorem fireIf_length {m m' : Manager} {fd : ℕ} {event : Event} {set : Bool}
    (h : m.fireIf fd event set = some m') : m'.fdContexts.length = m.fdContexts.length := by
  unfold Manager.fireIf at h
  split_ifs at h
  · exact fire_length h
  · obtain rfl := Option.some.inj h
    rfl

theorem dispatch_length {m m' : Manager} {fd : ℕ} {event : Report} {ctl : Bool}
    (h : m.dispatch fd event ctl = some m') : m'.fdContexts.length = m.fdContexts.length := by
  unfold Manager.dispatch at h
  split at h
  · cases h
  · simp only at h
    split_ifs at h
    · obtain rfl := Option.some.inj h
      rfl
    · obtain rfl := Option.some.inj h
      rfl
    · obtain ⟨m₁, hm₁, hm₂⟩ := Option.bind_eq_some_iff.mp h
      rw [fireIf_length hm₂, fireIf_length hm₁]

theorem contextResize_length (m : Manager) (size : ℕ) :
    (m.contextResize size).fdContexts.length = size := by
  simp only [Manager.contextResize, List.length_append, List.length_take, List.length_map,
    List.length_range]
  omega

theorem prepared_length (m : Manager) (c : Call) :
    m.fdContexts.length ≤ (c.prepared m).fdContexts.length := by
  cases c with
  | addEvent fd event cb self ctl =>
    simp only [Call.prepared]
    split_ifs
    · exact le_rfl
    · rw [contextResize_length]
      omega
  | delEvent => exact le_rfl
  | cancelEvent => exact le_rfl
  | cancelAll => exact le_rfl
  | dispatch => exact le_rfl

theorem addEvent_length {m m' : Manager} {fd : ℕ} {event : Event} {cb : Option ℕ} {self : Caller}
    {ctl : Bool} {b : ℤ} (h : m.addEvent fd event cb self ctl = some (b, m')) :
    m.fdContexts.length ≤ m'.fdContexts.length := by
  apply (prepared_length m (.addEvent fd event cb self ctl)).trans
  have hprep : (if fd < m.fdContexts.length then m else m.contextResize (fd*3 / 2)) =
      (Call.addEvent fd event cb self ctl).prepared m := rfl
  unfold Manager.addEvent at h
  simp only [hprep] at h
  generalize (Call.addEvent fd event cb self ctl).prepared m = m₀ at h ⊢
  split at h
  · cases h
  · split at h
    · cases h
    · split at h
      · cases h
        exact le_rfl
      · split at h
        · cases h
        · cases h
          exact List.length_set.ge

theorem delEvent_length {m m' : Manager} {fd : ℕ} {event : Event} {ctl b : Bool}
    (h : m.delEvent fd event ctl = some (b, m')) :
    m.fdContexts.length ≤ m'.fdContexts.length := by
  unfold Manager.delEvent at h
  split at h
  · cases h
    exact le_rfl
  · split_ifs at h
    · cases h
      exact le_rfl
    · cases h
      exact le_rfl
    · cases h
      exact List.length_set.ge

theorem cancelEvent_length {m m' : Manager} {fd : ℕ} {event : Event} {ctl b : Bool}
    (h : m.cancelEvent fd event ctl = some (b, m')) :
    m.fdContexts.length ≤ m'.fdContexts.length := by
  unfold Manager.cancelEvent at h
  split at h
  · cases h
    exact le_rfl
  · split_ifs at h
    · cases h
      exact le_rfl
    · cases h
      exact le_rfl
    · obtain ⟨m₂, hm₂, he⟩ := Option.map_eq_some_iff.mp h
      cases he
      exact (fire_length hm₂).ge

theorem cancelAll_length {m m' : Manager} {fd : ℕ} {ctl b : Bool}
    (h : m.cancelAll fd ctl = some (b, m')) :
    m.fdContexts.length ≤ m'.fdContexts.length := by
  unfold Manager.cancelAll at h
  split at h
  · cases h
    exact le_rfl
  · split_ifs at h
    · cases h
      exact le_rfl
    · cases h
      exact le_rfl
    · obtain ⟨m₂, hm₂, h⟩ := Option.bind_eq_some_iff.mp h
      obtain ⟨c₂, -, h⟩ := Option.bind_eq_some_iff.mp h
      obtain ⟨m₃, hm₃, h⟩ := Option.bind_eq_some_iff.mp h
      obtain ⟨c₃, -, h⟩ := Option.bind_eq_some_iff.mp h
      split_ifs at h
      cases h
      rw [fireIf_length hm₃, fireIf_length hm₂]

theorem next_length {m m' : Manager} {c : Call} (h : IoEvents.next m c = some m') :
    m.fdContexts.length ≤ m'.fdContexts.length := by
  cases c with
  | addEvent fd event cb self ctl =>
    obtain ⟨⟨b, m₁⟩, hm, rfl⟩ := Option.map_eq_some_iff.mp h
    exact addEvent_length hm
  | delEvent fd event ctl =>
    obtain ⟨⟨b, m₁⟩, hm, rfl⟩ := Option.map_eq_some_iff.mp h
    exact delEvent_length hm
  | cancelEvent fd event ctl =>
    obtain ⟨⟨b, m₁⟩, hm, rfl⟩ := Option.map_eq_some_iff.mp h
    exact cancelEvent_length hm
  | cancelAll fd ctl =>
    obtain ⟨⟨b, m₁⟩, hm, rfl⟩ := Option.map_eq_some_iff.mp h
    exact cancelAll_length hm
  | dispatch fd event ctl => exact (dispatch_length h).ge

/-! ## What a dispatch does -/

theorem fire_unregistered {m : Manager} {fd : ℕ} {c : FdContext} {event : Event}
    (hc : m.fdContexts[fd]? = some c) (he : c.events event = false) :
    m.fire fd event = none := by
  simp [Manager.fire, hc, FdContext.triggerEvent, he]

/-- Once the loop triggers, it triggers every event of the report. -/
theorem dispatch_triggers {m : Manager} {fd : ℕ} {c : FdContext} {event : Report}
    (hc : m.fdContexts[fd]? = some c) (h : ∃ e, c.events e = true ∧ real c event e = true) :
    m.dispatch fd event true = (m.fireIf fd .WRITE (real c event .WRITE)).bind
      fun m' => m'.fireIf fd .READ (real c event .READ) := by
  have hsome : ¬((!(c.events .READ && real c event .READ) &&
      !(c.events .WRITE && real c event .WRITE)) = true) := by
    obtain ⟨e, he⟩ := h
    cases e with
    | READ => simp [he.1, he.2]
    | WRITE => simp [he.1, he.2]
  unfold Manager.dispatch
  rw [hc]
  simp only [real] at hsome ⊢
  rw [if_neg hsome]
  rfl

theorem dispatch_skips {m : Manager} {fd : ℕ} {c : FdContext} {event : Report} {ctl : Bool}
    (hc : m.fdContexts[fd]? = some c) (h : ¬∃ e, c.events e = true ∧ real c event e = true) :
    m.dispatch fd event ctl = some m := by
  have hnone : (!(c.events .READ && real c event .READ) &&
      !(c.events .WRITE && real c event .WRITE)) = true := by
    by_contra hne
    apply h
    rw [Bool.and_eq_true, Bool.not_eq_true', Bool.not_eq_true', not_and_or] at hne
    rcases hne with hne | hne
    · exact ⟨.READ, by simpa using hne⟩
    · exact ⟨.WRITE, by simpa using hne⟩
  unfold Manager.dispatch
  rw [hc]
  simp only [real] at hnone ⊢
  rw [if_pos hnone]

theorem contextOf_eq {m : Manager} {fd : ℕ} (h : fd < m.fdContexts.length) :
    m.fdContexts[fd]? = some (m.contextOf fd) := by
  rw [Manager.contextOf, List.getElem?_eq_getElem h]
  rfl

theorem real_of_reported {c : FdContext} {event : Report} :
    (event.epollin = true → real c event .READ = true) ∧
      (event.epollout = true → real c event .WRITE = true) := by
  constructor
  · intro h
    simp [real, h]
  · intro h
    simp [real, h]

theorem dispatch_together {m : Manager} (hi : Inv m) {fd : ℕ} {event : Report} (ctl : Bool)
    (hfd : fd < m.fdContexts.length) (h : ctl = true → Together (m.contextOf fd) event) :
    ∃ m', m.dispatch fd event ctl = some m' ∧ Inv m' := by
  have hc := contextOf_eq hfd
  by_cases hany : ∃ e, (m.contextOf fd).events e = true ∧ real (m.contextOf fd) event e = true
  · cases ctl with
    | false =>
      unfold Manager.dispatch
      rw [hc]
      simp only
      split_ifs
      · exact ⟨m, rfl, hi⟩
      · exact ⟨m, rfl, hi⟩
      · contradiction
    | true =>
      have hall := h rfl hany
      have hallowed : Allowed m (.dispatch fd event true) :=
        ⟨hfd, fun he => hall .READ (real_of_reported.1 he),
          fun he => hall .WRITE (real_of_reported.2 he)⟩
      obtain ⟨m', hm', hi', -⟩ := dispatch_ok m hi fd event true hallowed
      exact ⟨m', hm', hi'⟩
  · exact ⟨m, dispatch_skips hc hany, hi⟩

/-- A report of which a part was withdrawn fails the assertion. -/
theorem dispatch_aborts {m : Manager} (hi : Inv m) {fd : ℕ} {event : Report}
    (hfd : fd < m.fdContexts.length) (h : ¬Together (m.contextOf fd) event) :
    m.dispatch fd event true = none := by
  have hc := contextOf_eq hfd
  generalize m.contextOf fd = c at hc h
  rw [Together, Classical.not_imp, not_forall] at h
  obtain ⟨hany, e, he⟩ := h
  obtain ⟨hreal, hbit⟩ := Classical.not_imp.mp he
  rw [dispatch_triggers hc hany]
  by_cases hw : real c event .WRITE = true → c.events .WRITE = true
  · -- the write event fires, and the assertion fails at the read event
    obtain ⟨m₁, hm₁, -, hc₁⟩ := fireIf_ok m hi fd c hc .WRITE (real c event .WRITE) hw
    obtain rfl : e = .READ := by
      cases e with
      | READ => rfl
      | WRITE => exact absurd (hw hreal) hbit
    have hread :
        (if real c event .WRITE = true then c.clear .WRITE else c).events .READ = false := by
      split_ifs
      · rw [clear_other c .WRITE .READ (by decide)]
        simpa using hbit
      · simpa using hbit
    rw [hm₁, Option.bind_some, Manager.fireIf, if_pos hreal]
    exact fire_unregistered hc₁ hread
  · obtain ⟨hrw, hbw⟩ := Classical.not_imp.mp hw
    rw [Manager.fireIf, if_pos hrw, fire_unregistered hc (by simpa using hbw), Option.bind_none]

/-! ## Runs -/

structure Good (s : System) : Prop where
  inv : Inv s.manager
  placed : ∀ r ∈ s.reports, r.1 < s.manager.fdContexts.length

theorem Good.moved {s : System} (h : Good s) {m : Manager} (hm : Inv m)
    (hlen : s.manager.fdContexts.length ≤ m.fdContexts.length) {reports : List (ℕ × Report)}
    (hsub : reports ⊆ s.reports) : Good { s with manager := m, reports := reports } :=
  ⟨hm, fun r hr => (h.placed r (hsub hr)).trans_le hlen⟩

theorem running {s t : System} {a : Step} (h : next s a = some t) :
    s.aborted = false ∧ advance s a = some t := by
  unfold next at h
  split_ifs at h with hab
  exact ⟨by simpa using hab, h⟩

theorem next_call {s t : System} {c : Call} (h : Good s) (hl : Allowed s.manager c)
    (hn : next s (.call c) = some t) : Good t ∧ t.aborted = false := by
  obtain ⟨hab, hn⟩ := running hn
  have hcall : ∃ m, IoEvents.next s.manager c = some m ∧ { s with manager := m } = t := by
    cases c with
    | dispatch fd event ctl => cases hn
    | addEvent fd event cb self ctl => exact Option.map_eq_some_iff.mp hn
    | delEvent fd event ctl => exact Option.map_eq_some_iff.mp hn
    | cancelEvent fd event ctl => exact Option.map_eq_some_iff.mp hn
    | cancelAll fd ctl => exact Option.map_eq_some_iff.mp hn
  obtain ⟨m, hm, rfl⟩ := hcall
  obtain ⟨m', hm', hi, -⟩ := next_ok s.manager h.inv c hl
  obtain rfl : m' = m := Option.some.inj (hm'.symm.trans hm)
  exact ⟨h.moved hi (next_length hm) (List.Subset.refl _), hab⟩

theorem next_wait {s t : System} {fd : ℕ} {event : Report} (h : Good s)
    (hn : next s (.wait fd event) = some t) : Good t ∧ t.aborted = false := by
  obtain ⟨hab, hn⟩ := running hn
  simp only [advance] at hn
  by_cases hreg : registered s.manager fd event = true
  · obtain rfl : _ = t := by simpa [hreg] using hn
    refine ⟨⟨h.inv, ?_⟩, hab⟩
    intro r hr
    rcases List.mem_append.mp hr with hr | hr
    · exact h.placed r hr
    · obtain rfl := List.mem_singleton.mp hr
      by_contra hge
      have hnone : s.manager.fdContexts[fd]? = none := by simpa using hge
      simp [registered, hnone] at hreg
  · simp [hreg] at hn

/-- The end of a dispatch: the report is gone, or the assertion has failed. -/
theorem next_dispatch {s t : System} {i : ℕ} {ctl : Bool} (h : Good s)
    (hn : next s (.dispatch i ctl) = some t) :
    (t.aborted = false ↔ Whole s (.dispatch i ctl)) ∧ (t.aborted = false → Good t) := by
  obtain ⟨hab, hn⟩ := running hn
  simp only [advance] at hn
  cases hr : s.reports[i]? with
  | none => simp [hr] at hn
  | some r =>
    obtain ⟨fd, event⟩ := r
    have hfd : fd < s.manager.fdContexts.length := h.placed _ (List.mem_of_getElem? hr)
    have hwhole : Whole s (.dispatch i ctl) ↔
        (ctl = true → Together (s.manager.contextOf fd) event) := by
      cases ctl with
      | false => simp [Whole]
      | true => simp [Whole, hr]
    rw [hwhole]
    by_cases hw : ctl = true → Together (s.manager.contextOf fd) event
    · obtain ⟨m', hm', hi⟩ := dispatch_together h.inv ctl hfd hw
      obtain rfl : _ = t := by simpa [hr, hm'] using hn
      refine ⟨iff_of_true hab hw, fun _ => ?_⟩
      exact h.moved hi (dispatch_length hm').ge (List.eraseIdx_subset)
    · obtain ⟨rfl, hnot⟩ := Classical.not_imp.mp hw
      obtain rfl : _ = t := by simpa [hr, dispatch_aborts h.inv hfd hnot] using hn
      exact ⟨iff_of_false (by simp) hw, by simp⟩

theorem reaches_good {s : System}
    (h : Reaches next (fun s a => Legal s a ∧ Whole s a) System.init s) :
    Good s ∧ s.aborted = false := by
  apply h.invariant (I := fun s => Good s ∧ s.aborted = false)
    ⟨⟨init_inv, by simp [System.init]⟩, rfl⟩
  intro s a t hs hg hn
  cases a with
  | call c => exact next_call hs.1 hg.1 hn
  | wait fd event => exact next_wait hs.1 hn
  | dispatch i ctl =>
    obtain ⟨hiff, hgood⟩ := next_dispatch hs.1 hn
    exact ⟨hgood (hiff.mpr hg.2), hiff.mpr hg.2⟩

/-- As long as every report meets its descriptor whole, no assertion of the
dispatch loop fails and the counter counts the registered events. In each of these
states, the next dispatch fails exactly when its report does not. -/
theorem stale_reports_harmless (s : System)
    (h : Reaches next (fun s a => Legal s a ∧ Whole s a) System.init s) :
    s.aborted = false ∧
      s.manager.pendingEventCount = ((s.manager.fdContexts.map bits).sum : ℕ) ∧
      ∀ i ctl, i < s.reports.length → ∃ t, next s (.dispatch i ctl) = some t ∧
        (t.aborted = false ↔ Whole s (.dispatch i ctl)) := by
  obtain ⟨hgood, hab⟩ := reaches_good h
  refine ⟨hab, hgood.inv.count, ?_⟩
  intro i ctl hi
  have hsome : ∃ t, next s (.dispatch i ctl) = some t := by
    simp only [next, hab, Bool.false_eq_true, if_false, advance, List.getElem?_eq_getElem hi]
    cases s.manager.dispatch s.reports[i].1 s.reports[i].2 ctl with
    | none => exact ⟨_, rfl⟩
    | some m => exact ⟨_, rfl⟩
  obtain ⟨t, ht⟩ := hsome
  exact ⟨t, ht, (next_dispatch hgood ht).1⟩

def readable : Report := ⟨true, false, false, false⟩

def readableWritable : Report := ⟨true, true, false, false⟩

theorem stale_reports_harmless_withdrawn : ∃ s,
    after next [.call (.addEvent 5 .READ none ⟨some 0, 7⟩ true), .wait 5 readable,
      .call (.delEvent 5 .READ true), .dispatch 0 true] System.init = some s ∧
      s.reports.length = 0 ∧ s.aborted = false := by
  refine ⟨_, rfl, rfl, ?_⟩
  have hadd : Reaches next (fun s a => Legal s a ∧ Whole s a) System.init _ :=
    Reaches.start.step (a := Step.call (.addEvent 5 .READ none ⟨some 0, 7⟩ true))
      ⟨⟨rfl, rfl⟩, trivial⟩ rfl
  have hwait := hadd.step (a := Step.wait 5 readable) ⟨trivial, trivial⟩ rfl
  have hdel := hwait.step (a := Step.call (.delEvent 5 .READ true)) ⟨trivial, trivial⟩ rfl
  have hgone := hdel.step (a := Step.dispatch 0 true) ⟨trivial, by
    intro fd event hr
    have hr : some (5, readable) = some (fd, event) := hr
    cases hr
    rintro ⟨e, he, -⟩
    cases e with
    | READ => exact absurd he (by decide)
    | WRITE => exact absurd he (by decide)⟩ rfl
  exact (stale_reports_harmless _ hgone).1

/-- Both events are ready, the write event is removed before the lock is taken. -/
theorem half_withdrawn_report_aborts : ∃ s,
    after next [.call (.addEvent 5 .READ none ⟨some 0, 7⟩ true),
      .call (.addEvent 5 .WRITE none ⟨some 0, 8⟩ true), .wait 5 readableWritable,
      .call (.delEvent 5 .WRITE true), .dispatch 0 true] System.init = some s ∧
      Reaches next Legal System.init s ∧ s.aborted = true := by
  have hread : Reaches next Legal System.init _ :=
    Reaches.start.step (a := Step.call (.addEvent 5 .READ none ⟨some 0, 7⟩ true)) ⟨rfl, rfl⟩ rfl
  have hwrite := hread.step (a := Step.call (.addEvent 5 .WRITE none ⟨some 0, 8⟩ true))
    ⟨rfl, rfl⟩ rfl
  have hwait := hwrite.step (a := Step.wait 5 readableWritable) trivial rfl
  have hdel := hwait.step (a := Step.call (.delEvent 5 .WRITE true)) trivial rfl
  exact ⟨_, rfl, hdel.step (a := Step.dispatch 0 true) trivial rfl, rfl⟩

end Lamb.StaleReports
