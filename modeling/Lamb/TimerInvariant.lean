import Lamb.Timer

/-!
# What the timer set keeps

Every operation takes a timer out of the set before it changes `m_next`, so the
set is in order at the current values all the time. The invariant is stated with
the timers that are out of the set while an operation is at work; it holds with
none of them between operations.
-/

set_option autoImplicit false

namespace Lamb.TimerManager
open Lamb.Runs Lamb.OrderedSet

variable {κ : Type} {armed : Prop}

/-! ## The comparator -/

theorem comparator_some (l r : ℕ × UInt64) :
    comparator (some l) (some r) = true ↔
      l.2.toNat < r.2.toNat ∨ l.2.toNat = r.2.toNat ∧ l.1 < r.1 := by
  simp only [comparator, UInt64.lt_iff_toNat_lt]
  split_ifs with hlt hgt
  · simp [hlt]
  · simp only [false_iff]
    omega
  · simp only [decide_eq_true_eq]
    omega

theorem comparator_order : StrictOrder comparator where
  irrefl := by
    intro p
    cases p with
    | none => rfl
    | some l =>
      by_contra h
      have := (comparator_some l l).mp (by simpa using h)
      omega
  trans := by
    intro p q r hpq hqr
    cases p with
    | none =>
      cases r with
      | none => cases q <;> simp [comparator] at hpq hqr
      | some _ => rfl
    | some l =>
      cases q with
      | none => simp [comparator] at hpq
      | some c =>
        cases r with
        | none => simp [comparator] at hqr
        | some d =>
          rw [comparator_some] at hpq hqr ⊢
          omega

/-- The comparator tells live timers at different addresses apart. -/
theorem comparator_total {l r : ℕ × UInt64} (h : l.1 ≠ r.1) :
    comparator (some l) (some r) = true ∨ comparator (some r) (some l) = true := by
  rw [comparator_some, comparator_some]
  omega

/-! ## Objects and views -/

@[simp] theorem store_objects_self (m : Manager κ) (a : ℕ) (t : Timer κ) :
    (m.store a t).objects a = some t := by simp [Manager.store]

theorem store_objects_of_ne (m : Manager κ) {a b : ℕ} (t : Timer κ) (h : b ≠ a) :
    (m.store a t).objects b = m.objects b := by simp [Manager.store, h]

@[simp] theorem store_timers (m : Manager κ) (a : ℕ) (t : Timer κ) :
    (m.store a t).timers = m.timers := rfl

@[simp] theorem insert_objects (m : Manager κ) (a : ℕ) : (m.insert a).objects = m.objects := rfl

@[simp] theorem erase_objects (m : Manager κ) (a : ℕ) : (m.erase a).objects = m.objects := rfl

theorem store_ptr_of_ne (m : Manager κ) {a b : ℕ} (t : Timer κ) (h : b ≠ a) :
    (m.store a t).ptr b = m.ptr b := by
  simp only [Manager.ptr, store_objects_of_ne m t h]

/-- A store that keeps `m_next` is not seen by the comparator. -/
theorem store_ptr (m : Manager κ) {a : ℕ} {t t' : Timer κ} (h : m.objects a = some t)
    (hn : t'.next = t.next) : (m.store a t').ptr = m.ptr := by
  funext b
  by_cases hb : b = a
  · subst hb
    simp [Manager.ptr, h, hn]
  · exact store_ptr_of_ne m t' hb

/-- The invariant while the timers of `out` are out of the set. A timer with a
callback is in the set or out for a moment; `armed` says that every timer was
created with one, and then the set holds no timer without. -/
structure Holds (armed : Prop) (out : List ℕ) (m : Manager κ) : Prop where
  live : ∀ a, a ∈ m.timers ∨ a ∈ out → (m.objects a).isSome
  ordered : Ordered comparator m.ptr m.timers
  nodup : out.Nodup
  fresh : ∀ a ∈ out, a ∉ m.timers
  waiting : ∀ a t, m.objects a = some t → t.cb.isSome → a ∈ m.timers ∨ a ∈ out
  callback : armed → ∀ a t, m.objects a = some t → a ∈ m.timers ∨ a ∈ out → t.cb.isSome

def Inv (armed : Prop) (m : Manager κ) : Prop := Holds armed [] m

theorem Holds.find_of_mem {out : List ℕ} {m : Manager κ}
    (h : Holds armed out m) {a : ℕ}
    (ha : a ∈ m.timers) : m.find a = some a :=
  OrderedSet.find_of_mem comparator_order h.ordered ha

theorem Holds.apart {out : List ℕ} {m : Manager κ}
    (h : Holds armed out m) {a : ℕ}
    (hlive : (m.objects a).isSome) (ha : a ∉ m.timers) : Apart comparator m.ptr a m.timers := by
  intro x hx
  obtain ⟨tx, htx⟩ := Option.isSome_iff_exists.mp (h.live x (Or.inl hx))
  obtain ⟨ta, hta⟩ := Option.isSome_iff_exists.mp hlive
  have hxa : x ≠ a := fun he => ha (he ▸ hx)
  simpa [Manager.ptr, htx, hta] using comparator_total (l := (x, tx.next)) (r := (a, ta.next)) hxa

theorem Holds.mem_erase {out : List ℕ} {m : Manager κ}
    (h : Holds armed out m) {a : ℕ}
    (ha : a ∈ m.timers) (x : ℕ) : x ∈ (m.erase a).timers ↔ x ∈ m.timers ∧ x ≠ a :=
  mem_eraseAt comparator_order h.ordered ha

theorem Holds.mem_insert {out : List ℕ} {m : Manager κ} {a : ℕ}
    (h : Holds armed (a::out) m) (x : ℕ) :
    x ∈ (m.insert a).timers ↔ x = a ∨ x ∈ m.timers :=
  OrderedSet.mem_insert comparator_order h.ordered
    (h.apart (h.live a (Or.inr List.mem_cons_self)) (h.fresh a List.mem_cons_self))

theorem Holds.erase {out : List ℕ} {m : Manager κ}
    (h : Holds armed out m) {a : ℕ}
    (ha : a ∈ m.timers) : Holds armed (a::out) (m.erase a) := by
  have hmem := h.mem_erase ha
  have hout : ∀ x, x ∈ (m.erase a).timers ∨ x ∈ a::out ↔ x ∈ m.timers ∨ x ∈ out := by
    intro x
    rw [hmem, List.mem_cons]
    by_cases hx : x = a
    · simp [hx, ha]
    · simp [hx]
  constructor
  · intro x hx
    exact h.live x ((hout x).mp hx)
  · exact eraseAt_ordered h.ordered _
  · exact List.nodup_cons.mpr ⟨fun ho => h.fresh a ho ha, h.nodup⟩
  · intro x hx
    rw [hmem]
    rintro ⟨hxm, hxa⟩
    rcases List.mem_cons.mp hx with rfl | hx
    · exact hxa rfl
    · exact h.fresh x hx hxm
  · intro x t hx
    rw [hout]
    exact h.waiting x t hx
  · intro harmed x t hx
    rw [hout]
    exact h.callback harmed x t hx

theorem Holds.insert {out : List ℕ} {m : Manager κ} {a : ℕ}
    (h : Holds armed (a::out) m) :
    Holds armed out (m.insert a) := by
  obtain ⟨hao, hnd⟩ := List.nodup_cons.mp h.nodup
  have hapart := h.apart (h.live a (Or.inr List.mem_cons_self)) (h.fresh a List.mem_cons_self)
  have hmem := h.mem_insert
  have hout : ∀ x, x ∈ (m.insert a).timers ∨ x ∈ out ↔ x ∈ m.timers ∨ x ∈ a::out := by
    intro x
    rw [hmem, List.mem_cons, or_assoc, or_left_comm]
  constructor
  · intro x hx
    exact h.live x ((hout x).mp hx)
  · exact insert_ordered comparator_order h.ordered hapart
  · exact hnd
  · intro x hx
    rw [hmem]
    rintro (rfl | hxm)
    · exact hao hx
    · exact h.fresh x (List.mem_cons_of_mem _ hx) hxm
  · intro x t hx
    rw [hout]
    exact h.waiting x t hx
  · intro harmed x t hx
    rw [hout]
    exact h.callback harmed x t hx

/-- A store to a timer that is not in the set keeps the order. -/
theorem Holds.store_ordered {out : List ℕ} {m : Manager κ}
    (h : Holds armed out m) {a : ℕ}
    (t : Timer κ) (ha : a ∉ m.timers) : Ordered comparator (m.store a t).ptr m.timers := by
  apply ordered_congr _ h.ordered
  intro x hx
  exact store_ptr_of_ne m t fun he => ha (he ▸ hx)

theorem store_live {m : Manager κ} {a x : ℕ} {t : Timer κ} (h : (m.objects x).isSome) :
    ((m.store a t).objects x).isSome := by
  by_cases hx : x = a
  · simp [hx]
  · rw [store_objects_of_ne m t hx]
    exact h

theorem Holds.store {out : List ℕ} {m : Manager κ} {a : ℕ}
    (h : Holds armed (a::out) m) {t : Timer κ}
    (ht : armed → t.cb.isSome) : Holds armed (a::out) (m.store a t) := by
  constructor
  · intro x hx
    exact store_live (h.live x hx)
  · exact h.store_ordered t (h.fresh a List.mem_cons_self)
  · exact h.nodup
  · exact h.fresh
  · intro x t' hx hcb
    by_cases hxa : x = a
    · exact Or.inr (hxa ▸ List.mem_cons_self)
    · rw [store_objects_of_ne m t hxa] at hx
      exact h.waiting x t' hx hcb
  · intro harmed x t' hx hin
    by_cases hxa : x = a
    · subst hxa
      obtain rfl : t = t' := by simpa using hx
      exact ht harmed
    · rw [store_objects_of_ne m t hxa] at hx
      exact h.callback harmed x t' hx hin

theorem Holds.disarm {out : List ℕ} {m : Manager κ} {a : ℕ}
    (h : Holds armed (a::out) m) {t : Timer κ}
    (ht : t.cb = none) : Holds armed out (m.store a t) := by
  obtain ⟨hao, hnd⟩ := List.nodup_cons.mp h.nodup
  have hatm := h.fresh a List.mem_cons_self
  constructor
  · intro x hx
    exact store_live (h.live x (hx.imp_right (List.mem_cons_of_mem _)))
  · exact h.store_ordered t hatm
  · exact hnd
  · intro x hx
    exact h.fresh x (List.mem_cons_of_mem _ hx)
  · intro x t' hx hcb
    by_cases hxa : x = a
    · subst hxa
      obtain rfl : t = t' := by simpa using hx
      simp [ht] at hcb
    · rw [store_objects_of_ne m t hxa] at hx
      simpa [hxa] using h.waiting x t' hx hcb
  · intro harmed x t' hx hin
    by_cases hxa : x = a
    · exact absurd (hxa ▸ hin) (by simp [hatm, hao])
    · rw [store_objects_of_ne m t hxa] at hx
      exact h.callback harmed x t' hx (hin.imp_right (List.mem_cons_of_mem _))

theorem Holds.create {out : List ℕ} {m : Manager κ} {a : ℕ}
    (h : Holds armed out m) {t : Timer κ}
    (hnew : m.objects a = none) (ht : armed → t.cb.isSome) :
    Holds armed (a::out) (m.store a t) := by
  have hno : ¬(a ∈ m.timers ∨ a ∈ out) := by
    intro hin
    have := h.live a hin
    simp [hnew] at this
  constructor
  · intro x hx
    by_cases hxa : x = a
    · simp [hxa]
    · apply store_live (h.live x _)
      simpa [hxa] using hx
  · exact h.store_ordered t fun hin => hno (Or.inl hin)
  · exact List.nodup_cons.mpr ⟨fun hin => hno (Or.inr hin), h.nodup⟩
  · intro x hx hin
    rcases List.mem_cons.mp hx with rfl | hx
    · exact hno (Or.inl hin)
    · exact h.fresh x hx hin
  · intro x t' hx hcb
    by_cases hxa : x = a
    · exact Or.inr (hxa ▸ List.mem_cons_self)
    · rw [store_objects_of_ne m t hxa] at hx
      exact (h.waiting x t' hx hcb).imp_right (List.mem_cons_of_mem _)
  · intro harmed x t' hx hin
    by_cases hxa : x = a
    · subst hxa
      obtain rfl : t = t' := by simpa using hx
      exact ht harmed
    · rw [store_objects_of_ne m t hxa] at hx
      exact h.callback harmed x t' hx (by simpa [hxa] using hin)

theorem Holds.flags {out : List ℕ} {m : Manager κ}
    (h : Holds armed out m) (tickled : Bool)
    (previous : UInt64) :
    Holds armed out { m with tickled := tickled, previouseTime := previous } :=
  ⟨h.live, h.ordered, h.nodup, h.fresh, h.waiting, h.callback⟩

/-! ## The operations -/

theorem init_inv (now : UInt64) : Inv armed (Manager.init now : Manager κ) where
  live := by simp [Manager.init]
  ordered := List.Pairwise.nil
  nodup := List.nodup_nil
  fresh := by simp
  waiting := by simp [Manager.init]
  callback := by simp [Manager.init]

theorem Inv.mem_of_cb {m : Manager κ} (h : Inv armed m) {a : ℕ} {t : Timer κ}
    (ha : m.objects a = some t) (hcb : t.cb.isSome) : a ∈ m.timers := by
  simpa using h.waiting a t ha hcb

theorem insertTimer_inv {m : Manager κ} {a : ℕ} (h : Holds armed [a] m) :
    Inv armed (insertTimer m a).manager :=
  h.insert.flags _ _

theorem getNextTimer_manager (m : Manager κ) (now : UInt64) :
    (getNextTimer m now).1 = { m with tickled := false } := by
  simp only [getNextTimer]
  split <;> rfl

theorem addTimer_inv {m : Manager κ} (h : Inv armed m) {a : ℕ} (ha : m.objects a = none)
    (ms : UInt64) (cb : Option κ) (recurring : Bool) (now : UInt64) (hcb : armed → cb.isSome) :
    Inv armed (addTimer m a ms cb recurring now).manager :=
  insertTimer_inv (Holds.create h ha hcb)

/-- What `cancel` does on a timer that still has its callback. -/
theorem cancel_armed {m : Manager κ} (h : Inv armed m) {a : ℕ} {t : Timer κ}
    (ha : m.objects a = some t) (hcb : t.cb.isSome) :
    cancel m a = some
      { manager := (m.erase a).store a { t with cb := none }
        result := true
        atFront := false } := by
  have hptr : (m.store a { t with cb := none }).ptr = m.ptr := store_ptr m ha rfl
  have hfind : (m.store a { t with cb := none }).find a = some a := by
    rw [Manager.find, hptr]
    exact h.find_of_mem (h.mem_of_cb ha hcb)
  have herase : (m.store a { t with cb := none }).erase a =
      (m.erase a).store a { t with cb := none } := by
    rw [Manager.erase, hptr]
    rfl
  simp only [cancel, ha, hcb, hfind, herase, if_true]

theorem cancel_spent {m : Manager κ} {a : ℕ} {t : Timer κ} (ha : m.objects a = some t)
    (hcb : t.cb = none) :
    cancel m a = some { manager := m, result := false, atFront := false } := by
  simp [cancel, ha, hcb]

theorem refresh_armed {m : Manager κ} (h : Inv armed m) {a : ℕ} {t : Timer κ}
    (ha : m.objects a = some t) (hcb : t.cb.isSome) (now : UInt64) :
    refresh m a now = some
      { manager := ((m.erase a).store a { t with next := now+t.ms }).insert a
        result := true
        atFront := false } := by
  have hfind := h.find_of_mem (h.mem_of_cb ha hcb)
  have hsome : t.cb.isNone = false := by simpa using hcb
  simp [refresh, ha, hsome, hfind]

theorem refresh_spent {m : Manager κ} {a : ℕ} {t : Timer κ} (ha : m.objects a = some t)
    (hcb : t.cb = none) (now : UInt64) :
    refresh m a now = some { manager := m, result := false, atFront := false } := by
  simp [refresh, ha, hcb]

theorem reset_armed {m : Manager κ} (h : Inv armed m) {a : ℕ} {t : Timer κ}
    (ha : m.objects a = some t) (hcb : t.cb.isSome) (ms : UInt64) (fromNow : Bool)
    (now : UInt64) :
    reset m a ms fromNow now =
      some (insertTimer ((m.erase a).store a (resetTimer t ms fromNow now)) a) := by
  have hfind := h.find_of_mem (h.mem_of_cb ha hcb)
  have hsome : t.cb.isNone = false := by simpa using hcb
  simp [reset, ha, hsome, hfind]

theorem reset_spent {m : Manager κ} {a : ℕ} {t : Timer κ} (ha : m.objects a = some t)
    (hcb : t.cb = none) (ms : UInt64) (fromNow : Bool) (now : UInt64) :
    reset m a ms fromNow now = some { manager := m, result := false, atFront := false } := by
  simp [reset, ha, hcb]

/-! ## Expiry -/

theorem expiredEnd_suffix (m : Manager κ) (rollover : Bool) (now : UInt64) (addr : ℕ) :
    expiredEnd m rollover now addr <:+ m.timers := by
  rw [expiredEnd]
  apply (List.dropWhile_suffix _).trans
  split_ifs
  · exact List.nil_suffix
  · exact List.dropWhile_suffix _

/-- The timers that `listExpiredCb` takes out of the set. -/
def expired (m : Manager κ) (rollover : Bool) (now : UInt64) (addr : ℕ) : List ℕ :=
  m.timers.take (m.timers.length-(expiredEnd m rollover now addr).length)

theorem expired_append (m : Manager κ) (rollover : Bool) (now : UInt64) (addr : ℕ) :
    expired m rollover now addr ++ expiredEnd m rollover now addr = m.timers := by
  obtain ⟨pre, hpre⟩ := expiredEnd_suffix m rollover now addr
  have hlen : m.timers.length-(expiredEnd m rollover now addr).length = pre.length := by
    rw [← hpre, List.length_append]
    omega
  rw [expired, hlen]
  conv_lhs => rw [← hpre]
  rw [List.take_left' rfl]
  exact hpre

/-- Cutting a front part off the set leaves its timers outside. -/
theorem Inv.cut {m : Manager κ} (h : Inv armed m) {out rest : List ℕ}
    (hm : out ++ rest = m.timers) : Holds armed out { m with timers := rest } := by
  have hmem : ∀ a, a ∈ rest ∨ a ∈ out ↔ a ∈ m.timers := by
    intro a
    rw [← hm, List.mem_append, or_comm]
  have hnd := h.ordered.nodup comparator_order
  rw [← hm] at hnd
  have hord := h.ordered
  rw [← hm] at hord
  obtain ⟨hnout, -, hdisj⟩ := List.nodup_append.mp hnd
  constructor
  · intro a ha
    exact h.live a (Or.inl ((hmem a).mp ha))
  · exact (List.pairwise_append.mp hord).2.1
  · exact hnout
  · intro a ha hr
    exact hdisj a ha a hr rfl
  · intro a t ha hcb
    exact (hmem a).mpr (h.mem_of_cb ha hcb)
  · intro harmed a t ha hin
    exact h.callback harmed a t ha (Or.inl ((hmem a).mp hin))

theorem expireOne_recurring {m : Manager κ} {a : ℕ} {t : Timer κ} (ha : m.objects a = some t)
    (hr : t.recurring = true) (now : UInt64) (cbs : List (Handed κ)) :
    expireOne now (m, cbs) a = ((m.store a { t with next := now+t.ms }).insert a,
      cbs ++ [{ timer := a, next := t.next, cb := t.cb }]) := by
  simp only [expireOne]
  rw [ha]
  exact if_pos hr

theorem expireOne_oneShot {m : Manager κ} {a : ℕ} {t : Timer κ} (ha : m.objects a = some t)
    (hr : ¬t.recurring = true) (now : UInt64) (cbs : List (Handed κ)) :
    expireOne now (m, cbs) a = (m.store a { t with cb := none },
      cbs ++ [{ timer := a, next := t.next, cb := t.cb }]) := by
  simp only [expireOne]
  rw [ha]
  exact if_neg hr

structure Expired (now : UInt64) (m m' : Manager κ) (a : ℕ) (t : Timer κ) : Prop where
  others : ∀ x, x ≠ a → m'.objects x = m.objects x
  timers : ∀ x, x ∈ m'.timers ↔ x ∈ m.timers ∨ x = a ∧ t.recurring = true
  own : ∃ t', m'.objects a = some t' ∧ t'.recurring = t.recurring ∧
    (t.recurring = true → t'.next = now+t.ms)

/-- One round of the loop: the timer is handed out, and it is back in the set or
done. -/
theorem expireOne_spec {m : Manager κ} {a : ℕ} {out : List ℕ}
    (h : Holds armed (a::out) m)
    (now : UInt64) (cbs : List (Handed κ)) {t : Timer κ} (ha : m.objects a = some t) :
    ∃ m', expireOne now (m, cbs) a = (m', cbs ++ [{ timer := a, next := t.next, cb := t.cb }]) ∧
      Holds armed out m' ∧ Expired now m m' a t := by
  have hcb : armed → t.cb.isSome := fun harmed =>
    h.callback harmed a t ha (Or.inr List.mem_cons_self)
  by_cases hr : t.recurring = true
  · have hstore := h.store (t := { t with next := now+t.ms }) hcb
    refine ⟨_, expireOne_recurring ha hr now cbs, hstore.insert, ?_, ?_, ?_⟩
    · intro x hx
      exact store_objects_of_ne m _ hx
    · intro x
      apply (hstore.mem_insert x).trans
      simp [hr, or_comm]
    · exact ⟨_, store_objects_self _ _ _, rfl, fun _ => rfl⟩
  · refine ⟨_, expireOne_oneShot ha hr now cbs, h.disarm rfl, ?_, ?_, ?_⟩
    · intro x hx
      exact store_objects_of_ne m _ hx
    · intro x
      simp [hr]
    · exact ⟨_, store_objects_self _ _ _, rfl, fun h => absurd h hr⟩

def handed (m : Manager κ) (a : ℕ) : Handed κ where
  timer := a
  next := m.nextOf a
  cb := (m.objects a).bind Timer.cb

/-- What the loop over `out` does to each timer: it keeps its kind, the recurring
ones are back in the set at a period after `now`, the others of `out` stay out of
it, and the timers outside of `out` are untouched. -/
structure Rearmed (now : UInt64) (out : List ℕ) (m m' : Manager κ) (x : ℕ) : Prop where
  kind : (m'.objects x).map Timer.recurring = (m.objects x).map Timer.recurring
  member : x ∈ m'.timers ↔
    x ∈ m.timers ∨ x ∈ out ∧ (m.objects x).map Timer.recurring = some true
  kept : x ∉ out → m'.objects x = m.objects x
  moved : ∀ t, x ∈ out → m.objects x = some t → t.recurring = true → m'.nextOf x = now+t.ms

/-- The loop over `expired` hands out every timer of it once, with the `m_next` it
had. -/
theorem expireAll_spec {out : List ℕ} {m : Manager κ} (h : Holds armed out m) (now : UInt64)
    (cbs : List (Handed κ)) :
    ∃ m', out.foldl (expireOne now) (m, cbs) = (m', cbs ++ out.map (handed m)) ∧ Inv armed m' ∧
      ∀ x, Rearmed now out m m' x := by
  induction out generalizing m cbs with
  | nil => exact ⟨m, by simp, h, fun x => ⟨rfl, by simp, fun _ => rfl, by simp⟩⟩
  | cons a out ih =>
    obtain ⟨t, ha⟩ := Option.isSome_iff_exists.mp (h.live a (Or.inr List.mem_cons_self))
    obtain ⟨m₁, heq, h₁, hexp⟩ := expireOne_spec h now cbs ha
    obtain ⟨m', hfold, hinv, hrest⟩ := ih h₁ (cbs ++ [{ timer := a, next := t.next, cb := t.cb }])
    obtain ⟨t', ht', hkind, hnext⟩ := hexp.own
    have hao := (List.nodup_cons.mp h.nodup).1
    have hrec : ∀ x, (m₁.objects x).map Timer.recurring = (m.objects x).map Timer.recurring := by
      intro x
      by_cases hx : x = a
      · subst hx
        simp [ha, ht', hkind]
      · rw [hexp.others x hx]
    refine ⟨m', ?_, hinv, ?_⟩
    · have hmap : out.map (handed m₁) = out.map (handed m) := by
        apply List.map_congr_left
        intro x hx
        have hxa : x ≠ a := fun he => hao (he ▸ hx)
        simp only [handed, Manager.nextOf, hexp.others x hxa]
      have hone : handed m a = { timer := a, next := t.next, cb := t.cb } := by
        simp [handed, Manager.nextOf, ha]
      rw [List.foldl_cons, heq, hfold, hmap, List.map_cons, hone, List.append_assoc]
      rfl
    · intro x
      constructor
      · exact (hrest x).kind.trans (hrec x)
      · rw [(hrest x).member, hexp.timers, hrec, List.mem_cons]
        by_cases hx : x = a
        · subst hx
          simp [ha, hao]
        · simp [hx]
      · intro hx
        obtain ⟨hxa, hxo⟩ := not_or.mp (List.mem_cons.not.mp hx)
        rw [(hrest x).kept hxo, hexp.others x hxa]
      · intro u hx hu hr
        rcases List.mem_cons.mp hx with rfl | hx
        · obtain rfl : t = u := Option.some.inj (ha.symm.trans hu)
          rw [Manager.nextOf, (hrest x).kept hao, ht']
          exact hnext hr
        · have hxa : x ≠ a := fun he => hao (he ▸ hx)
          exact (hrest x).moved u hx ((hexp.others x hxa).trans hu) hr

theorem ptr_of_mem {m : Manager κ} (h : Inv armed m) {a : ℕ} (ha : a ∈ m.timers) :
    m.ptr a = some (a, m.nextOf a) := by
  obtain ⟨t, ht⟩ := Option.isSome_iff_exists.mp (h.live a (Or.inl ha))
  simp [Manager.ptr, Manager.nextOf, ht]

theorem first_le {m : Manager κ} (h : Inv armed m) {first : ℕ} {rest : List ℕ}
    (hm : m.timers = first::rest) {x : ℕ} (hx : x ∈ m.timers) : m.nextOf first ≤ m.nextOf x := by
  rw [UInt64.le_iff_toNat_le]
  have hord := h.ordered
  rw [hm] at hord
  have hfirst : first ∈ m.timers := by
    rw [hm]
    exact List.mem_cons_self
  rcases List.mem_cons.mp (hm ▸ hx) with rfl | hxr
  · exact le_rfl
  · have hlt := (List.pairwise_cons.mp hord).1 x hxr
    rw [ptr_of_mem h hfirst, ptr_of_mem h hx, comparator_some] at hlt
    simp only at hlt
    omega

theorem later_of_first {m : Manager κ} (h : Inv armed m) {first : ℕ} {rest : List ℕ}
    (hm : m.timers = first::rest) {now : UInt64} (hlt : now < m.nextOf first) {x : ℕ}
    (hx : x ∈ m.timers) : ¬ m.nextOf x ≤ now := by
  have hfirst := first_le h hm hx
  rw [UInt64.lt_iff_toNat_lt] at hlt
  rw [UInt64.le_iff_toNat_le] at hfirst ⊢
  omega

theorem expiredEnd_false (m : Manager κ) (now : UInt64) (addr : ℕ) :
    expiredEnd m false now addr =
      (lowerBound comparator m.ptr (some (addr, now)) m.timers).dropWhile
        fun a => m.nextOf a == now := by
  simp [expiredEnd]

/-- Past the timers of an ordered list that are due at `now`, every timer is later. -/
theorem later_of_mem_dropWhile {m : Manager κ} {now : UInt64} {l : List ℕ}
    (hsub : ∀ y ∈ l, m.ptr y = some (y, m.nextOf y) ∧ now.toNat ≤ (m.nextOf y).toNat)
    (hord : Ordered comparator m.ptr l) {x : ℕ}
    (hx : x ∈ l.dropWhile fun a => m.nextOf a == now) : now.toNat < (m.nextOf x).toNat := by
  induction l with
  | nil => cases hx
  | cons y l ih =>
    obtain ⟨hy, hl⟩ := List.pairwise_cons.mp hord
    obtain ⟨hyp, hyn⟩ := hsub y List.mem_cons_self
    by_cases hq : m.nextOf y = now
    · apply ih (fun z hz => hsub z (List.mem_cons_of_mem _ hz)) hl
      simpa [List.dropWhile_cons, hq] using hx
    · have hlt : now.toNat < (m.nextOf y).toNat := by
        have : (m.nextOf y).toNat ≠ now.toNat := fun he => hq (UInt64.toNat_inj.mp he)
        omega
      have hx : x = y ∨ x ∈ l := by simpa [List.dropWhile_cons, hq] using hx
      rcases hx with rfl | hx
      · exact hlt
      · have hyx := hy x hx
        rw [hyp, (hsub x (List.mem_cons_of_mem _ hx)).1, comparator_some] at hyx
        simp only at hyx
        omega

theorem later_of_mem_expiredEnd {m : Manager κ} (h : Inv armed m) {now : UInt64} {addr x : ℕ}
    (hx : x ∈ expiredEnd m false now addr) : now.toNat < (m.nextOf x).toNat := by
  rw [expiredEnd_false] at hx
  apply later_of_mem_dropWhile _ (h.ordered.sublist (List.dropWhile_sublist _)) hx
  intro y hy
  have hptr := ptr_of_mem h (mem_of_mem_lowerBound hy)
  have hge := not_lt_of_mem_lowerBound comparator_order h.ordered hy
  rw [hptr] at hge
  have hnot := (comparator_some (y, m.nextOf y) (addr, now)).not.mp (by simp [hge])
  simp only at hnot
  exact ⟨hptr, by omega⟩

theorem mem_expired {m : Manager κ} (h : Inv armed m) (rollover : Bool) (now : UInt64)
    (addr x : ℕ) : x ∈ expired m rollover now addr ↔
      x ∈ m.timers ∧ (rollover = true ∨ m.nextOf x ≤ now) := by
  cases rollover with
  | true =>
    have hend : expiredEnd m true now addr = [] := rfl
    simp [expired, hend]
  | false =>
    have happ := expired_append m false now addr
    have hsplit : expired m false now addr =
        below comparator m.ptr (some (addr, now)) m.timers ++
          (lowerBound comparator m.ptr (some (addr, now)) m.timers).takeWhile
            fun a => m.nextOf a == now := by
      apply (List.append_left_inj (expiredEnd m false now addr)).mp
      rw [happ, List.append_assoc, expiredEnd_false, List.takeWhile_append_dropWhile,
        below_append]
    constructor
    · intro hx
      have hxt : x ∈ m.timers := by
        rw [← happ]
        exact List.mem_append_left _ hx
      refine ⟨hxt, Or.inr ?_⟩
      rw [hsplit, List.mem_append] at hx
      rcases hx with hx | hx
      · have hlt := lt_of_mem_below hx
        rw [ptr_of_mem h hxt, comparator_some] at hlt
        rw [UInt64.le_iff_toNat_le]
        simp only at hlt
        omega
      · have heq : m.nextOf x = now := by
          simpa using List.mem_takeWhile_imp (p := fun a => m.nextOf a == now) hx
        rw [heq]
        exact UInt64.le_refl now
    · rintro ⟨hxt, hle⟩
      rw [← happ, List.mem_append] at hxt
      rcases hxt with hx | hx
      · exact hx
      · have hlt := later_of_mem_expiredEnd h hx
        have hle : m.nextOf x ≤ now := by simpa using hle
        rw [UInt64.le_iff_toNat_le] at hle
        omega

/-- The result of `detectClockRollover`. -/
def rolledOver (m : Manager κ) (now : UInt64) : Bool := (detectClockRollover m now).2

/-- What `listExpiredCb` does to each timer when it hands out `out`. -/
structure Handled (now : UInt64) (out : List ℕ) (m m' : Manager κ) (x : ℕ) : Prop where
  kind : (m'.objects x).map Timer.recurring = (m.objects x).map Timer.recurring
  member : x ∈ m'.timers ↔
    x ∈ m.timers ∧ (x ∈ out → (m.objects x).map Timer.recurring = some true)
  kept : x ∉ out → m'.objects x = m.objects x
  moved : ∀ t, x ∈ out → m.objects x = some t → t.recurring = true → m'.nextOf x = now+t.ms

/-- `listExpiredCb` hands out every timer that is due, all of them after a rollover,
once each. -/
theorem listExpiredCb_spec {m : Manager κ} (h : Inv armed m) (now : UInt64) (addr : ℕ) :
    ∃ (m' : Manager κ) (out : List ℕ), listExpiredCb m now addr = (m', out.map (handed m)) ∧
      Inv armed m' ∧ out.Nodup ∧
      (∀ x, x ∈ out ↔ x ∈ m.timers ∧ (rolledOver m now = true ∨ m.nextOf x ≤ now)) ∧
      ∀ x, Handled now out m m' x := by
  cases hm : m.timers with
  | nil =>
    refine ⟨m, [], by simp [listExpiredCb, hm], h, by simp, by simp, ?_⟩
    intro x
    exact ⟨rfl, by simp, fun _ => rfl, by simp⟩
  | cons first rest =>
    have h₁ : Inv armed (detectClockRollover m now).1 := h.flags m.tickled now
    by_cases hnone : (!rolledOver m now && decide (now < m.nextOf first)) = true
    · -- nothing is due: the first timer is the earliest
      obtain ⟨hro, hlt⟩ : rolledOver m now = false ∧ now < m.nextOf first := by simpa using hnone
      refine ⟨(detectClockRollover m now).1, [], ?_, h₁, by simp, ?_, ?_⟩
      · simp only [listExpiredCb, hm]
        exact if_pos hnone
      · intro x
        simp only [List.not_mem_nil, hro, Bool.false_eq_true, false_or, false_iff, not_and]
        intro hx
        exact later_of_first h hm hlt (hm ▸ hx)
      · intro x
        exact ⟨rfl, by simp [detectClockRollover], fun _ => rfl, by simp⟩
    · have hcut := h₁.cut (expired_append (detectClockRollover m now).1 (rolledOver m now) now addr)
      obtain ⟨m', hfold, hinv, hall⟩ := expireAll_spec hcut now []
      have hmem : ∀ x, x ∈ expired (detectClockRollover m now).1 (rolledOver m now) now addr ↔
          x ∈ m.timers ∧ (rolledOver m now = true ∨ m.nextOf x ≤ now) :=
        fun x => mem_expired h₁ (rolledOver m now) now addr x
      refine ⟨m', expired (detectClockRollover m now).1 (rolledOver m now) now addr, ?_, hinv,
        hcut.nodup, ?_, ?_⟩
      · simp only [listExpiredCb, hm]
        exact (if_neg hnone).trans hfold
      · rw [← hm]
        exact hmem
      · intro x
        refine ⟨(hall x).kind, ?_, (hall x).kept, (hall x).moved⟩
        have hsplit : x ∈ m.timers ↔
            x ∈ expired (detectClockRollover m now).1 (rolledOver m now) now addr ∨
            x ∈ expiredEnd (detectClockRollover m now).1 (rolledOver m now) now addr := by
          rw [← List.mem_append, expired_append]
          rfl
        have hfresh := hcut.fresh x
        rw [(hall x).member]
        change (x ∈ expiredEnd _ _ _ _ ∨ _ ∧ (m.objects x).map Timer.recurring = some true) ↔ _
        tauto

end Lamb.TimerManager
