import Lamb.IoEvents
import Lamb.Library.Slots
import Mathlib.Algebra.Order.Group.Multiset
import Mathlib.Data.Multiset.Range

/-!
# Bookkeeping of IO events

The registrations held by the contexts, together with those that have ended, are
exactly the numbers handed out so far. Every step either leaves the table as it
is, opens one registration or moves registrations from the held to the ended
ones, so no registration is lost and none ends twice.
-/

set_option autoImplicit false

namespace Lamb.IoEvents
open Lamb.Runs Lamb.Slots

/-- A set bit has a context that was filled by a registration, a clear one an
empty context. -/
def Filled (history : List Record) (fd : ℕ) (event : Event) (bit : Bool) (e : EventContext) :
    Prop :=
  if bit then ∃ r s, e.reg = some r ∧ e.scheduler = some s ∧ e.fiber.isSome = !e.cb.isSome ∧
    .added r fd event (some s) e.target ∈ history
  else e = EventContext.empty

def Record.ends : Record → Option ℕ
  | .added _ _ _ _ _ => none
  | .removed reg => reg
  | .scheduled reg _ _ => reg

def Record.opens : Record → Option ℕ
  | .added reg _ _ _ _ => some reg
  | .removed _ => none
  | .scheduled _ _ _ => none

def opened (history : List Record) : List ℕ := history.filterMap Record.opens

def ended (history : List Record) : List ℕ := history.filterMap Record.ends

def bits (c : FdContext) : ℕ := (c.events .READ).toNat+(c.events .WRITE).toNat

def heldBy (e : EventContext) : Multiset ℕ := (e.reg.toList : Multiset ℕ)

def held (c : FdContext) : Multiset ℕ := heldBy (c.context .READ)+heldBy (c.context .WRITE)

/-- A record of an end belongs to a registration of the same scheduler and target. -/
def Justified (history : List Record) : Record → Prop
  | .added _ _ _ _ _ => True
  | .removed reg => ∃ r fd event s t, reg = some r ∧ .added r fd event s t ∈ history
  | .scheduled reg s t => ∃ r fd event, reg = some r ∧ t.isSome ∧
      .added r fd event (some s) t ∈ history

structure Inv (m : Manager) : Prop where
  wide : 32 ≤ m.fdContexts.length
  contexts : ∀ i c, m.fdContexts[i]? = some c → ∀ event,
    Filled m.history i event (c.events event) (c.context event)
  count : m.pendingEventCount = ((m.fdContexts.map bits).sum : ℕ)
  regs : (m.fdContexts.map held).sum+(ended m.history : Multiset ℕ) = Multiset.range m.nextReg
  justified : ∀ r ∈ m.history, Justified m.history r
  numbered : opened m.history = List.range m.nextReg

theorem Filled.mono {history history' : List Record} (hsub : history ⊆ history') {fd : ℕ}
    {event : Event} {bit : Bool} {e : EventContext} (h : Filled history fd event bit e) :
    Filled history' fd event bit e := by
  unfold Filled at h ⊢
  split_ifs at h ⊢ with hb
  · obtain ⟨r, s, hr, hs, hx, ha⟩ := h
    exact ⟨r, s, hr, hs, hx, hsub ha⟩
  · exact h

theorem Justified.mono {history history' : List Record} (hsub : history ⊆ history') {r : Record}
    (h : Justified history r) : Justified history' r := by
  cases r with
  | added => trivial
  | removed reg =>
    obtain ⟨r, fd, event, s, t, hr, ha⟩ := h
    exact ⟨r, fd, event, s, t, hr, hsub ha⟩
  | scheduled reg s t =>
    obtain ⟨r, fd, event, hr, ht, ha⟩ := h
    exact ⟨r, fd, event, hr, ht, hsub ha⟩

/-- The history may go on with a record that the past justifies. -/
theorem justified_append {history : List Record} {r : Record}
    (h : ∀ q ∈ history, Justified history q) (hr : Justified history r) :
    ∀ q ∈ history ++ [r], Justified (history ++ [r]) q := by
  have hsub : history ⊆ history ++ [r] := List.subset_append_left _ _
  intro q hq
  rcases List.mem_append.mp hq with hq | hq
  · exact (h q hq).mono hsub
  · obtain rfl := List.mem_singleton.mp hq
    exact hr.mono hsub

/-- One event of one context is replaced while the history goes on. -/
theorem contexts_set {m : Manager} (h : Inv m) {fd : ℕ} {c d : FdContext}
    (hc : m.fdContexts[fd]? = some c) {event : Event} {history : List Record}
    (hsub : m.history ⊆ history)
    (hat : Filled history fd event (d.events event) (d.context event))
    (hother : ∀ ev, ev ≠ event → d.events ev = c.events ev ∧ d.context ev = c.context ev) :
    ∀ i x, (m.fdContexts.set fd d)[i]? = some x → ∀ ev,
      Filled history i ev (x.events ev) (x.context ev) := by
  have hfd : fd < m.fdContexts.length := (List.getElem?_eq_some_iff.mp hc).1
  intro i x hx ev
  by_cases hi : i = fd
  · subst hi
    rw [List.getElem?_set_self hfd] at hx
    obtain rfl := Option.some.inj hx
    by_cases he : ev = event
    · subst he
      exact hat
    · obtain ⟨hbit, hctx⟩ := hother ev he
      rw [hbit, hctx]
      exact (h.contexts i c hc ev).mono hsub
  · rw [List.getElem?_set_ne (Ne.symm hi)] at hx
    exact (h.contexts i x hx ev).mono hsub

theorem init_inv : Inv Manager.init where
  wide := by simp [Manager.init]
  contexts := by
    intro i c hc event
    simp only [Manager.init, List.getElem?_map, Option.map_eq_some_iff] at hc
    obtain ⟨j, -, rfl⟩ := hc
    rfl
  count := by
    simp [Manager.init, bits, FdContext.fresh, Function.comp_def]
  regs := by
    have hf : ((List.range 32).map FdContext.fresh).map held = (List.range 32).map fun _ => 0 := by
      rw [List.map_map]
      rfl
    simp [Manager.init, ended, hf]
  justified := by simp [Manager.init]
  numbered := rfl

theorem contextResize_inv (m : Manager) (h : Inv m) (size : ℕ)
    (hs : m.fdContexts.length ≤ size) :
    Inv (m.contextResize size) ∧
      (m.contextResize size).fdContexts = m.fdContexts ++
        (List.range (size-m.fdContexts.length)).map
          fun i => FdContext.fresh (m.fdContexts.length+i) := by
  have hl : (m.contextResize size).fdContexts = m.fdContexts ++
      (List.range (size-m.fdContexts.length)).map
        fun i => FdContext.fresh (m.fdContexts.length+i) := by
    rw [Manager.contextResize, List.take_of_length_le hs]
  refine ⟨⟨?_, ?_, ?_, ?_, h.justified, h.numbered⟩, hl⟩
  · have hw := h.wide
    rw [hl, List.length_append]
    omega
  · intro i c hc event
    rw [hl] at hc
    rcases Nat.lt_or_ge i m.fdContexts.length with hi | hi
    · rw [List.getElem?_append_left hi] at hc
      exact h.contexts i c hc event
    · rw [List.getElem?_append_right hi, List.getElem?_map, Option.map_eq_some_iff] at hc
      obtain ⟨j, -, rfl⟩ := hc
      rfl
  · have hz : ((List.range (size-m.fdContexts.length)).map
        fun i => FdContext.fresh (m.fdContexts.length+i)).map bits =
        (List.range (size-m.fdContexts.length)).map fun _ => 0 := by
      rw [List.map_map]
      rfl
    change m.pendingEventCount = _
    rw [hl, List.map_append, List.sum_append, hz, h.count]
    simp
  · have hz : ((List.range (size-m.fdContexts.length)).map
        fun i => FdContext.fresh (m.fdContexts.length+i)).map held =
        (List.range (size-m.fdContexts.length)).map fun _ => 0 := by
      rw [List.map_map]
      rfl
    change _+(ended m.history : Multiset ℕ) = Multiset.range m.nextReg
    rw [hl, List.map_append, List.sum_append, hz, ← h.regs]
    simp

theorem held_clear (c : FdContext) (event : Event) :
    held (c.clear event)+heldBy (c.context event) = held c := by
  cases event with
  | READ =>
    simp only [held, FdContext.clear, Function.update_self,
      Function.update_of_ne (show Event.WRITE ≠ Event.READ by decide)]
    rw [show heldBy EventContext.empty = 0 from rfl, zero_add, add_comm]
  | WRITE =>
    simp only [held, FdContext.clear, Function.update_self,
      Function.update_of_ne (show Event.READ ≠ Event.WRITE by decide)]
    rw [show heldBy EventContext.empty = 0 from rfl, add_zero]

theorem bits_clear (c : FdContext) (event : Event) (h : c.events event = true) :
    bits (c.clear event)+1 = bits c := by
  cases event with
  | READ => simp [bits, FdContext.clear, h, Nat.add_comm]
  | WRITE => simp [bits, FdContext.clear, h]

/-- One registration ends: its bit and context are cleared, the counter goes down
and the history notes the end. -/
theorem end_inv (m : Manager) (h : Inv m) (fd : ℕ) (c : FdContext)
    (hc : m.fdContexts[fd]? = some c) (event : Event) (hb : c.events event = true) (r : Record)
    (hr : r.ends = (c.context event).reg) (ho : r.opens = none) (hj : Justified m.history r) :
    Inv { m.setContext (c.clear event) fd with
      pendingEventCount := m.pendingEventCount-1
      history := m.history ++ [r] } := by
  refine ⟨?_, ?_, ?_, ?_, justified_append h.justified hj, ?_⟩
  · simp only [Manager.setContext, List.length_set]
    exact h.wide
  · apply contexts_set h hc (List.subset_append_left _ _)
    · show Filled _ fd event _ _
      simp [FdContext.clear, Filled]
    · intro ev he
      exact ⟨Function.update_of_ne he _ _, Function.update_of_ne he _ _⟩
  · have hs := sum_set bits m.fdContexts fd c (c.clear event) hc
    have hbc := bits_clear c event hb
    have hcount := h.count
    simp only [Manager.setContext]
    omega
  · have hs := sum_set held m.fdContexts fd c (c.clear event) hc
    have hh := held_clear c event
    have hend : (ended (m.history ++ [r]) : Multiset ℕ) =
        (ended m.history : Multiset ℕ)+heldBy (c.context event) := by
      rw [ended, List.filterMap_append, ← Multiset.coe_add, heldBy, ← hr]
      cases hre : r.ends <;> simp [hre, ended]
    simp only [Manager.setContext, hend]
    rw [← h.regs]
    apply add_right_cancel (b := held c)
    calc _ = ((m.fdContexts.set fd (c.clear event)).map held).sum+held c+
          (ended m.history : Multiset ℕ)+heldBy (c.context event) := by abel
      _ = (m.fdContexts.map held).sum+(ended m.history : Multiset ℕ)+
          (held (c.clear event)+heldBy (c.context event)) := by rw [hs]; abel
      _ = _ := by rw [hh]
  · have hn := h.numbered
    unfold opened at hn ⊢
    simp only [Manager.setContext]
    rw [List.filterMap_append, hn]
    simp [ho]

theorem target_isSome (e : EventContext) (h : e.fiber.isSome = !e.cb.isSome) :
    e.target.isSome := by
  unfold EventContext.target
  cases hc : e.cb with
  | some c => rfl
  | none =>
    rw [hc] at h
    simpa using h

theorem fire_ok (m : Manager) (h : Inv m) (fd : ℕ) (c : FdContext)
    (hc : m.fdContexts[fd]? = some c) (event : Event) (hb : c.events event = true) :
    ∃ m', m.fire fd event = some m' ∧ Inv m' ∧ m'.fdContexts[fd]? = some (c.clear event) := by
  have hf := h.contexts fd c hc event
  rw [Filled, if_pos hb] at hf
  obtain ⟨r, s, hr, hs, hx, ha⟩ := hf
  have hfd : fd < m.fdContexts.length := (List.getElem?_eq_some_iff.mp hc).1
  refine ⟨_, ?_, end_inv m h fd c hc event hb
    (.scheduled (c.context event).reg s (c.context event).target) rfl rfl
    ⟨r, fd, event, hr, target_isSome _ hx, ha⟩, List.getElem?_set_self hfd⟩
  simp only [Manager.fire, hc, FdContext.triggerEvent, hb, hs, if_true]

theorem fireIf_ok (m : Manager) (h : Inv m) (fd : ℕ) (c : FdContext)
    (hc : m.fdContexts[fd]? = some c) (event : Event) (set : Bool)
    (hb : set = true → c.events event = true) :
    ∃ m', m.fireIf fd event set = some m' ∧ Inv m' ∧
      m'.fdContexts[fd]? = some (if set then c.clear event else c) := by
  cases set with
  | false => exact ⟨m, rfl, h, hc⟩
  | true => exact fire_ok m h fd c hc event (hb rfl)

theorem clear_other (c : FdContext) (event other : Event) (h : other ≠ event) :
    (c.clear event).events other = c.events other := Function.update_of_ne h _ _

theorem delEvent_ok (m : Manager) (h : Inv m) (fd : ℕ) (event : Event) (ctl : Bool) :
    ∃ b m', m.delEvent fd event ctl = some (b, m') ∧ Inv m' ∧ (ctl = false → m' = m) := by
  unfold Manager.delEvent
  cases hc : m.fdContexts[fd]? with
  | none => exact ⟨false, m, rfl, h, fun _ => rfl⟩
  | some c =>
    cases hb : c.events event with
    | false => exact ⟨false, m, by simp [hb], h, fun _ => rfl⟩
    | true =>
      cases ctl with
      | false => exact ⟨false, m, by simp [hb], h, fun _ => rfl⟩
      | true =>
        have hf := h.contexts fd c hc event
        rw [Filled, if_pos hb] at hf
        obtain ⟨r, s, hr, hs, hx, ha⟩ := hf
        refine ⟨true, _, by simp [hb], end_inv m h fd c hc event hb
          (.removed (c.context event).reg) rfl rfl ⟨r, fd, event, some s, _, hr, ha⟩, by simp⟩

theorem cancelEvent_ok (m : Manager) (h : Inv m) (fd : ℕ) (event : Event) (ctl : Bool) :
    ∃ b m', m.cancelEvent fd event ctl = some (b, m') ∧ Inv m' ∧ (ctl = false → m' = m) := by
  unfold Manager.cancelEvent
  cases hc : m.fdContexts[fd]? with
  | none => exact ⟨false, m, rfl, h, fun _ => rfl⟩
  | some c =>
    cases hb : c.events event with
    | false => exact ⟨false, m, by simp [hb], h, fun _ => rfl⟩
    | true =>
      cases ctl with
      | false => exact ⟨false, m, by simp [hb], h, fun _ => rfl⟩
      | true =>
        obtain ⟨m', hm, hi, -⟩ := fire_ok m h fd c hc event hb
        exact ⟨true, m', by simp [hb, hm], hi, by simp⟩

theorem cancelAll_ok (m : Manager) (h : Inv m) (fd : ℕ) (ctl : Bool) :
    ∃ b m', m.cancelAll fd ctl = some (b, m') ∧ Inv m' ∧ (ctl = false → m' = m) := by
  unfold Manager.cancelAll
  cases hc : m.fdContexts[fd]? with
  | none => exact ⟨false, m, rfl, h, fun _ => rfl⟩
  | some c =>
    cases hn : c.isNone with
    | true => exact ⟨false, m, by simp [hn], h, fun _ => rfl⟩
    | false =>
      cases ctl with
      | false => exact ⟨false, m, by simp [hn], h, fun _ => rfl⟩
      | true =>
        obtain ⟨m₁, hm₁, hi₁, hc₁⟩ := fireIf_ok m h fd c hc .READ (c.events .READ) id
        generalize hd : (if c.events .READ then c.clear .READ else c) = d at hc₁
        obtain ⟨m₂, hm₂, hi₂, hc₂⟩ := fireIf_ok m₁ hi₁ fd d hc₁ .WRITE (d.events .WRITE) id
        have hr : d.events .READ = false := by
          rw [← hd]
          split_ifs with hb
          · simp [FdContext.clear]
          · simpa using hb
        have hnone : (if d.events .WRITE then d.clear .WRITE else d).isNone = true := by
          unfold FdContext.isNone
          split_ifs with hb
          · rw [clear_other d .WRITE .READ (by decide), hr]
            simp [FdContext.clear]
          · simpa [hr] using hb
        exact ⟨true, m₂, by simp [hn, hm₁, hc₁, hm₂, hc₂, hnone], hi₂, by simp⟩

theorem dispatch_ok (m : Manager) (h : Inv m) (fd : ℕ) (event : Report) (ctl : Bool)
    (hal : Allowed m (.dispatch fd event ctl)) :
    ∃ m', m.dispatch fd event ctl = some m' ∧ Inv m' ∧ (ctl = false → m' = m) := by
  obtain ⟨hlt, hin, hout⟩ := hal
  have hc : m.fdContexts[fd]? = some (m.contextOf fd) := by
    rw [Manager.contextOf, List.getElem?_eq_getElem hlt]
    rfl
  generalize m.contextOf fd = c at hc hin hout
  unfold Manager.dispatch
  rw [hc]
  simp only
  generalize hrd : (event.epollin || ((event.epollerr || event.epollhup) && c.events .READ)) = rd
  generalize hwr : (event.epollout || ((event.epollerr || event.epollhup) && c.events .WRITE)) = wr
  have hrb : rd = true → c.events .READ = true := by
    rw [← hrd, Bool.or_eq_true, Bool.and_eq_true]
    rintro (he | ⟨-, he⟩)
    · exact hin he
    · exact he
  have hwb : wr = true → c.events .WRITE = true := by
    rw [← hwr, Bool.or_eq_true, Bool.and_eq_true]
    rintro (he | ⟨-, he⟩)
    · exact hout he
    · exact he
  split_ifs with hnone hctl
  · exact ⟨m, rfl, h, fun _ => rfl⟩
  · exact ⟨m, rfl, h, fun _ => rfl⟩
  · obtain ⟨m₁, hm₁, hi₁, hc₁⟩ := fireIf_ok m h fd c hc .WRITE wr hwb
    obtain ⟨m₂, hm₂, hi₂, -⟩ := fireIf_ok m₁ hi₁ fd _ hc₁ .READ rd (by
      intro he
      split_ifs
      · rw [clear_other c .WRITE .READ (by decide)]
        exact hrb he
      · exact hrb he)
    exact ⟨m₂, by simp [hm₁, hm₂], hi₂, fun hf => absurd hf (by simpa using hctl)⟩

/-- The table that `addEvent` goes on with: grown where the descriptor is beyond
its end. The other calls take it as it is. -/
def Call.prepared (m : Manager) : Call → Manager
  | .addEvent fd _ _ _ _ =>
    if fd < m.fdContexts.length then m else m.contextResize (fd*3 / 2)
  | _ => m

theorem prepared_add (m : Manager) (h : Inv m) (fd : ℕ) (event : Event) (cb : Option ℕ)
    (self : Caller) (ctl : Bool) (m₀ : Manager)
    (hm : Call.prepared m (.addEvent fd event cb self ctl) = m₀) :
    Inv m₀ ∧ m₀.fdContexts[fd]? = some (m.contextOf fd) ∧
      (∀ i, m₀.contextOf i = m.contextOf i) ∧ m₀.nextReg = m.nextReg := by
  unfold Call.prepared at hm
  simp only at hm
  split_ifs at hm with hlt
  · subst hm
    refine ⟨h, ?_, fun _ => rfl, rfl⟩
    rw [Manager.contextOf, List.getElem?_eq_getElem hlt]
    rfl
  · have hw := h.wide
    obtain ⟨hi, hl⟩ := contextResize_inv m h (fd*3 / 2) (by omega)
    rw [hm] at hi hl
    have hof : ∀ i, m.fdContexts.length ≤ i → i < fd*3 / 2 →
        m₀.fdContexts[i]? = some (FdContext.fresh i) := by
      intro i hge hlt'
      rw [hl, List.getElem?_append_right hge, List.getElem?_map, List.getElem?_range (by omega),
        Option.map_some, Nat.add_sub_cancel' hge]
    have hfresh : ∀ i, m.fdContexts.length ≤ i → m.contextOf i = FdContext.fresh i := by
      intro i hge
      rw [Manager.contextOf, List.getElem?_eq_none hge]
      rfl
    refine ⟨hi, ?_, ?_, by rw [← hm]; rfl⟩
    · rw [hof fd (by omega) (by omega), hfresh fd (by omega)]
    · intro i
      rcases Nat.lt_or_ge i m.fdContexts.length with hil | hge
      · rw [Manager.contextOf, hl, List.getElem?_append_left hil]
        rfl
      · rw [hfresh i hge]
        rcases Nat.lt_or_ge i (fd*3 / 2) with hil | hge'
        · rw [Manager.contextOf, hof i hge hil]
          rfl
        · rw [Manager.contextOf, List.getElem?_eq_none]
          · rfl
          · rw [hl, List.length_append, List.length_map, List.length_range]
            omega

theorem held_add (c : FdContext) (event : Event) (e : EventContext)
    (he : c.context event = EventContext.empty) :
    held { c with
      events := Function.update c.events event true
      context := Function.update c.context event e } = held c+heldBy e := by
  cases event with
  | READ =>
    simp only [held, Function.update_self, he,
      Function.update_of_ne (show Event.WRITE ≠ Event.READ by decide)]
    rw [show heldBy EventContext.empty = 0 from rfl]
    abel
  | WRITE =>
    simp only [held, Function.update_self, he,
      Function.update_of_ne (show Event.READ ≠ Event.WRITE by decide)]
    rw [show heldBy EventContext.empty = 0 from rfl]
    abel

theorem bits_add (c : FdContext) (event : Event) (e : EventContext)
    (hb : c.events event = false) :
    bits { c with
      events := Function.update c.events event true
      context := Function.update c.context event e } = bits c+1 := by
  cases event with
  | READ => simp [bits, hb, Nat.add_comm]
  | WRITE => simp [bits, hb]

theorem add_inv (m : Manager) (h : Inv m) (fd : ℕ) (c : FdContext)
    (hc : m.fdContexts[fd]? = some c) (event : Event) (hb : c.events event = false)
    (e : EventContext) (s : ℕ) (hs : e.scheduler = some s) (hr : e.reg = some m.nextReg)
    (hx : e.fiber.isSome = !e.cb.isSome) :
    Inv { m.setContext { c with
        events := Function.update c.events event true
        context := Function.update c.context event e } fd with
      pendingEventCount := m.pendingEventCount+1
      history := m.history ++ [.added m.nextReg fd event e.scheduler e.target]
      nextReg := m.nextReg+1 } := by
  have hempty : c.context event = EventContext.empty := by
    have hf := h.contexts fd c hc event
    rwa [Filled, if_neg (by simp [hb])] at hf
  refine ⟨?_, ?_, ?_, ?_, justified_append h.justified trivial, ?_⟩
  · simp only [Manager.setContext, List.length_set]
    exact h.wide
  · apply contexts_set h hc (List.subset_append_left _ _)
    · show Filled _ fd event _ _
      simp only [Function.update_self]
      exact ⟨m.nextReg, s, hr, hs, hx, by simp [hs]⟩
    · intro ev he
      exact ⟨Function.update_of_ne he _ _, Function.update_of_ne he _ _⟩
  · have hsum := sum_set bits m.fdContexts fd c { c with
      events := Function.update c.events event true
      context := Function.update c.context event e } hc
    rw [bits_add c event e hb] at hsum
    have hcount := h.count
    simp only [Manager.setContext]
    omega
  · have hsum := sum_set held m.fdContexts fd c { c with
      events := Function.update c.events event true
      context := Function.update c.context event e } hc
    rw [held_add c event e hempty] at hsum
    have hend : ended (m.history ++ [.added m.nextReg fd event e.scheduler e.target]) =
        ended m.history := by
      simp [ended, Record.ends]
    have hhe : heldBy e = {m.nextReg} := by
      rw [heldBy, hr]
      rfl
    simp only [Manager.setContext, hend]
    rw [Multiset.range_succ, ← Multiset.singleton_add, ← h.regs, ← hhe]
    apply add_right_cancel (b := held c)
    rw [add_right_comm, hsum]
    abel
  · have hn := h.numbered
    unfold opened at hn ⊢
    rw [List.filterMap_append, hn, List.range_succ]
    rfl

theorem addEvent_ok (m : Manager) (h : Inv m) (fd : ℕ) (event : Event) (cb : Option ℕ)
    (self : Caller) (ctl : Bool) (hal : Allowed m (.addEvent fd event cb self ctl)) :
    ∃ b m', m.addEvent fd event cb self ctl = some (b, m') ∧ Inv m' ∧
      (ctl = false → m' = Call.prepared m (.addEvent fd event cb self ctl)) := by
  obtain ⟨hb, hself⟩ := hal
  obtain ⟨s, hs⟩ := Option.isSome_iff_exists.mp hself
  obtain ⟨hi, hc, -, -⟩ := prepared_add m h fd event cb self ctl _ rfl
  generalize hm : Call.prepared m (.addEvent fd event cb self ctl) = m₀ at hi hc ⊢
  have hm' : (if fd < m.fdContexts.length then m else m.contextResize (fd*3 / 2)) = m₀ := hm
  have hempty : (m.contextOf fd).context event = EventContext.empty := by
    have hf := hi.contexts fd _ hc event
    rwa [Filled, if_neg (by simp [hb])] at hf
  unfold Manager.addEvent
  simp only [hm', hc, hb, hempty]
  cases ctl with
  | false => exact ⟨-1, m₀, rfl, hi, fun _ => rfl⟩
  | true =>
    refine ⟨0, _, rfl, add_inv m₀ hi fd _ hc event hb
      { scheduler := self.scheduler
        fiber := if cb.isSome then none else some self.fiber
        cb := cb
        reg := some m₀.nextReg } s hs rfl ?_, by simp⟩
    cases cb <;> rfl

/-- Every allowed call ends without a failed assertion and keeps the invariant; one
whose `epoll_ctl` fails leaves the prepared table. -/
theorem next_ok (m : Manager) (h : Inv m) (c : Call) (hal : Allowed m c) :
    ∃ m', next m c = some m' ∧ Inv m' ∧ (c.ctl = false → m' = c.prepared m) := by
  cases c with
  | addEvent fd event cb self ctl =>
    obtain ⟨b, m', hm, hi, hf⟩ := addEvent_ok m h fd event cb self ctl hal
    exact ⟨m', by rw [next, hm]; rfl, hi, hf⟩
  | delEvent fd event ctl =>
    obtain ⟨b, m', hm, hi, hf⟩ := delEvent_ok m h fd event ctl
    exact ⟨m', by rw [next, hm]; rfl, hi, hf⟩
  | cancelEvent fd event ctl =>
    obtain ⟨b, m', hm, hi, hf⟩ := cancelEvent_ok m h fd event ctl
    exact ⟨m', by rw [next, hm]; rfl, hi, hf⟩
  | cancelAll fd ctl =>
    obtain ⟨b, m', hm, hi, hf⟩ := cancelAll_ok m h fd ctl
    exact ⟨m', by rw [next, hm]; rfl, hi, hf⟩
  | dispatch fd event ctl => exact dispatch_ok m h fd event ctl hal

theorem reaches_inv {m : Manager} (h : Reaches next Allowed Manager.init m) : Inv m :=
  h.invariant init_inv fun s c t hs hal hn => by
    obtain ⟨t', ht', hi, -⟩ := next_ok s hs c hal
    rw [hn] at ht'
    exact Option.some.inj ht' ▸ hi

theorem prepared_same (m : Manager) (h : Inv m) (c : Call) :
    (∀ fd, (c.prepared m).contextOf fd = m.contextOf fd) ∧
      (c.prepared m).pendingEventCount = m.pendingEventCount ∧
      (c.prepared m).history = m.history := by
  cases c with
  | addEvent fd event cb self ctl =>
    obtain ⟨-, -, hof, -⟩ := prepared_add m h fd event cb self ctl _ rfl
    refine ⟨hof, ?_, ?_⟩ <;>
    · simp only [Call.prepared]
      split_ifs <;> rfl
  | delEvent => exact ⟨fun _ => rfl, rfl, rfl⟩
  | cancelEvent => exact ⟨fun _ => rfl, rfl, rfl⟩
  | cancelAll => exact ⟨fun _ => rfl, rfl, rfl⟩
  | dispatch => exact ⟨fun _ => rfl, rfl, rfl⟩

theorem Inv.bit_iff {m : Manager} (h : Inv m) (fd : ℕ) (event : Event) :
    (m.contextOf fd).events event = true ↔
      ((m.contextOf fd).context event).scheduler.isSome = true ∧
      ((m.contextOf fd).context event).fiber.isSome =
        !((m.contextOf fd).context event).cb.isSome := by
  cases hc : m.fdContexts[fd]? with
  | none =>
    have hf : m.contextOf fd = FdContext.fresh fd := by
      rw [Manager.contextOf, hc]
      rfl
    simp [hf, FdContext.fresh, EventContext.empty]
  | some c =>
    have hof : m.contextOf fd = c := by
      rw [Manager.contextOf, hc]
      rfl
    have hf := h.contexts fd c hc event
    rw [hof]
    unfold Filled at hf
    split_ifs at hf with hb
    · obtain ⟨r, s, hr, hs, hx, ha⟩ := hf
      simp [hb, hs, hx]
    · simp [hb, hf, EventContext.empty]

theorem Inv.ended_once {m : Manager} (h : Inv m) (r : ℕ) : (ended m.history).count r ≤ 1 := by
  have hn : (Multiset.range m.nextReg).Nodup := Multiset.nodup_range _
  rw [← h.regs] at hn
  have hsub : (ended m.history : Multiset ℕ) ≤
      (m.fdContexts.map held).sum+(ended m.history : Multiset ℕ) := Multiset.le_add_left _ _
  exact List.nodup_iff_count_le_one.mp (Multiset.coe_nodup.mp (Multiset.nodup_of_le hsub hn)) r

/-- In every state of every run: the bits agree with the contexts, the counter
with the bits, every registration has ended at most once and every scheduled
target is that of its registration. Every call then ends without a failed
assertion, and one whose `epoll_ctl` fails has changed no context, no counter and
scheduled nothing; only `addEvent` may have extended the table. -/
theorem event_bookkeeping (m : Manager) (h : Reaches next Allowed Manager.init m) :
    (∀ fd event, (m.contextOf fd).events event = true ↔
      ((m.contextOf fd).context event).scheduler.isSome = true ∧
      ((m.contextOf fd).context event).fiber.isSome =
        !((m.contextOf fd).context event).cb.isSome) ∧
    m.pendingEventCount = ((m.fdContexts.map bits).sum : ℕ) ∧
    opened m.history = List.range m.nextReg ∧
    (∀ r, (ended m.history).count r ≤ 1) ∧
    (∀ r ∈ m.history, Justified m.history r) ∧
    ∀ c, Allowed m c → ∃ m', next m c = some m' ∧
      (c.ctl = false → m' = c.prepared m ∧ (∀ fd, m'.contextOf fd = m.contextOf fd) ∧
        m'.pendingEventCount = m.pendingEventCount ∧ m'.history = m.history) := by
  have hi := reaches_inv h
  refine ⟨hi.bit_iff, hi.count, hi.numbered, hi.ended_once, hi.justified, ?_⟩
  intro c hal
  obtain ⟨m', hm, -, hf⟩ := next_ok m hi c hal
  refine ⟨m', hm, fun hctl => ?_⟩
  obtain rfl := hf hctl
  exact ⟨rfl, prepared_same m hi c⟩

theorem event_bookkeeping_cancelled :
    ∃ m, Runs.after next [.addEvent 5 .READ none ⟨some 0, 7⟩ true, .cancelAll 5 true]
        Manager.init = some m ∧ ended m.history = [0] ∧
      m.pendingEventCount = ((m.fdContexts.map bits).sum : ℕ) := by
  refine ⟨_, rfl, rfl, ?_⟩
  exact (event_bookkeeping _
    ((Reaches.start.step (a := .addEvent 5 .READ none ⟨some 0, 7⟩ true) ⟨rfl, rfl⟩ rfl).step
      (a := .cancelAll 5 true) trivial rfl)).2.1

/-- The table has grown although `epoll_ctl` failed. -/
theorem failed_add_grows_table :
    Allowed Manager.init (.addEvent 40 .READ none ⟨some 0, 7⟩ false) ∧
      ∃ m', next Manager.init (.addEvent 40 .READ none ⟨some 0, 7⟩ false) = some m' ∧
        m'.fdContexts.length = 60 ∧ m' ≠ Manager.init := by
  refine ⟨⟨rfl, rfl⟩, _, rfl, rfl, ?_⟩
  intro he
  have hl : (60 : ℕ) = 32 := congrArg (fun m => m.fdContexts.length) he
  omega

end Lamb.IoEvents
