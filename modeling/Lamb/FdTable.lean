import Lamb.IoEvents

/-!
# The table of descriptor contexts under concurrent `addEvent` calls

`m_fdContexts` holds pointers to contexts, and a caller goes on with the pointer
that it found. `addEvent` compares the size under the read lock, releases it, and
resizes under the write lock to one and a half times its own descriptor, without a
second look at the size.
-/

set_option autoImplicit false

namespace Lamb.FdTable
open Lamb.Runs Lamb.IoEvents

/-- The contexts are numbered in the order of their allocation. `fdOf` and `events`
are the fields `fd` and `events` of a context. -/
structure Table where
  fdContexts : List ℕ
  allocated : ℕ
  fdOf : ℕ → ℕ
  events : ℕ → Event → Bool

def contextResize (m : Table) (size : ℕ) : Table :=
  { m with
    fdContexts := m.fdContexts.take size ++
      (List.range (size-m.fdContexts.length)).map (m.allocated+·)
    allocated := m.allocated+(size-m.fdContexts.length)
    fdOf := fun p => if p < m.allocated then m.fdOf p
      else m.fdContexts.length+(p-m.allocated) }

def Table.empty : Table where
  fdContexts := []
  allocated := 0
  fdOf := fun _ => 0
  events := fun _ _ => false

def Table.init : Table := contextResize Table.empty 32

/-- The conversion of a `size_t` to `int`. -/
def toInt (size : ℕ) : ℤ := (size : ℤ).bmod 4294967296

/-- The look at the table under the read lock, the same in all four functions. -/
def lookup (m : Table) (fd : ℕ) : Option ℕ :=
  if (fd : ℤ) < toInt m.fdContexts.length then m.fdContexts[fd]? else none

/-- Where a call stands between its locks: before the write lock, and with a
pointer before the lock of the context. -/
inductive Pc where
  | idle
  | resizing (fd : ℕ) (event : Event)
  | found (p fd : ℕ) (event : Event)
  | holding (p : ℕ)
  deriving DecidableEq, Repr

structure System where
  table : Table
  threads : List Pc

def System.init (threads : ℕ) : System where
  table := Table.init
  threads := List.replicate threads .idle

def System.goto (s : System) (t : ℕ) (p : Pc) : System := { s with threads := s.threads.set t p }

/-- `look` and `withdraw` are `delEvent`, `cancelEvent` and `cancelAll`: `gone` are
the events that they remove. -/
inductive Step where
  | check (t fd : ℕ) (event : Event)
  | resize (t : ℕ)
  | register (t : ℕ) (ctl : Bool)
  | look (t fd : ℕ)
  | withdraw (t : ℕ) (gone : Event → Bool)

def setEvents (m : Table) (p : ℕ) (events : Event → Bool) : Table :=
  { m with events := Function.update m.events p events }

/-- No next state where the code leaves the vector or fails an assertion. -/
def next (s : System) : Step → Option System
  | .check t fd event =>
    match s.threads[t]? with
    | some .idle =>
      match lookup s.table fd with
      | some p => some (s.goto t (.found p fd event))
      | none => some (s.goto t (.resizing fd event))
    | _ => none
  | .resize t =>
    match s.threads[t]? with
    | some (.resizing fd event) =>
      match (contextResize s.table (fd*3 / 2)).fdContexts[fd]? with
      | some p =>
        some ({ s with table := contextResize s.table (fd*3 / 2) }.goto t (.found p fd event))
      | none => none
    | _ => none
  | .register t ctl =>
    match s.threads[t]? with
    | some (.found p _ event) =>
      if s.table.events p event then none
      else if ctl then
        let events := Function.update (s.table.events p) event true
        some ({ s with table := setEvents s.table p events }.goto t .idle)
      else some (s.goto t .idle)
    | _ => none
  | .look t fd =>
    match s.threads[t]? with
    | some .idle =>
      match lookup s.table fd with
      | some p => some (s.goto t (.holding p))
      | none => some s
    | _ => none
  | .withdraw t gone =>
    match s.threads[t]? with
    | some (.holding p) =>
      let events := fun e => s.table.events p e && !gone e
      some ({ s with table := setEvents s.table p events }.goto t .idle)
    | _ => none

/-- A resize asks for no less than the table has, and for a size that `int` can
hold. -/
def Grows (s : System) : Step → Prop
  | .resize t => ∀ fd event, s.threads[t]? = some (.resizing fd event) →
      s.table.fdContexts.length ≤ fd*3 / 2 ∧ fd*3 / 2 < 2147483648
  | _ => True

/-! ## The table -/

theorem toInt_of_lt {size : ℕ} (h : size < 2147483648) : toInt size = size := by
  apply Int.bmod_eq_of_le
  · omega
  · omega

theorem lookup_of_lt {m : Table} (h : m.fdContexts.length < 2147483648) (fd : ℕ) :
    lookup m fd = m.fdContexts[fd]? := by
  rw [lookup, toInt_of_lt h]
  split_ifs with hlt
  · rfl
  · symm
    rw [List.getElem?_eq_none_iff]
    omega

/-- The contexts of the table after a resize are those that were there, as far as
the size goes, and new ones. -/
theorem contextResize_getElem? (m : Table) (size fd : ℕ) (h : fd < m.fdContexts.length) :
    (contextResize m size).fdContexts[fd]? = if fd < size then m.fdContexts[fd]? else none := by
  simp only [contextResize]
  split_ifs with hs
  · rw [List.getElem?_append_left (by rw [List.length_take]; omega), List.getElem?_take, if_pos hs]
  · rw [List.getElem?_eq_none_iff, List.length_append, List.length_take, List.length_map,
      List.length_range]
    omega

theorem contextResize_grows (m : Table) {size : ℕ} (h : m.fdContexts.length ≤ size) :
    (contextResize m size).fdContexts =
      m.fdContexts ++ (List.range (size-m.fdContexts.length)).map (m.allocated+·) := by
  simp only [contextResize]
  rw [List.take_of_length_le h]

/-- The context of every descriptor that has one is the same in `m'`. -/
def Keeps (m m' : Table) : Prop :=
  ∀ fd p : ℕ, m.fdContexts[fd]? = some p → m'.fdContexts[fd]? = some p

theorem Keeps.refl (m : Table) : Keeps m m := fun _ _ h => h

theorem Keeps.trans {m m' m'' : Table} (h : Keeps m m') (h' : Keeps m' m'') : Keeps m m'' :=
  fun fd p hp => h' fd p (h fd p hp)

/-- A resize keeps every context exactly when it does not shrink the table. -/
theorem contextResize_keeps_iff (m : Table) (size : ℕ) :
    Keeps m (contextResize m size) ↔ m.fdContexts.length ≤ size := by
  constructor
  · intro h
    by_contra hlt
    have hsize : size < m.fdContexts.length := by omega
    have hkeep := h size _ (List.getElem?_eq_getElem hsize)
    rw [contextResize_getElem? m size size hsize, if_neg (lt_irrefl size)] at hkeep
    cases hkeep
  · intro h fd p hp
    have hfd := (List.getElem?_eq_some_iff.mp hp).1
    rw [contextResize_getElem? m size fd hfd, if_pos (by omega)]
    exact hp

structure Sound (m : Table) : Prop where
  small : m.fdContexts.length < 2147483648
  below : ∀ p ∈ m.fdContexts, p < m.allocated
  named : ∀ fd p, m.fdContexts[fd]? = some p → m.fdOf p = fd
  visible : ∀ p event, m.events p event = true → m.fdContexts[m.fdOf p]? = some p

theorem contextResize_sound {m : Table} (h : Sound m) {size : ℕ} (hle : m.fdContexts.length ≤ size)
    (hsize : size < 2147483648) : Sound (contextResize m size) := by
  have htable := contextResize_grows m hle
  have hlen : (contextResize m size).fdContexts.length = size := by
    rw [htable, List.length_append, List.length_map, List.length_range]
    omega
  have hold : ∀ p, p < m.allocated → (contextResize m size).fdOf p = m.fdOf p := by
    intro p hp
    simp [contextResize, hp]
  constructor
  · rw [hlen]
    exact hsize
  · intro p hp
    rw [htable, List.mem_append, List.mem_map] at hp
    simp only [contextResize]
    rcases hp with hp | ⟨i, hi, rfl⟩
    · have := h.below p hp
      omega
    · have := List.mem_range.mp hi
      omega
  · intro fd p hp
    rw [htable] at hp
    by_cases hfd : fd < m.fdContexts.length
    · rw [List.getElem?_append_left hfd] at hp
      rw [hold p (h.below p (List.mem_of_getElem? hp))]
      exact h.named fd p hp
    · rw [List.getElem?_append_right (by omega), List.getElem?_map, Option.map_eq_some_iff] at hp
      obtain ⟨i, hi, rfl⟩ := hp
      have hi : fd-m.fdContexts.length = i := by
        obtain ⟨hlt, hget⟩ := List.getElem?_eq_some_iff.mp hi
        simpa using hget
      simp only [contextResize]
      rw [if_neg (by omega)]
      omega
  · intro p event hp
    have hvis := h.visible p event hp
    rw [hold p (h.below p (List.mem_of_getElem? hvis))]
    exact (contextResize_keeps_iff m size).mpr hle _ p hvis

theorem setEvents_sound {m : Table} (h : Sound m) {p : ℕ} {events : Event → Bool}
    (hp : (∃ e, events e = true) → m.fdContexts[m.fdOf p]? = some p) :
    Sound (setEvents m p events) := by
  refine ⟨h.small, h.below, h.named, ?_⟩
  intro q event hq
  by_cases hqp : q = p
  · subst hqp
    apply hp
    exact ⟨event, by simpa [setEvents] using hq⟩
  · apply h.visible q event
    simpa [setEvents, hqp] using hq

/-! ## Runs -/

structure Good (s : System) : Prop where
  table : Sound s.table
  found : ∀ (t p fd : ℕ) (event : Event), s.threads[t]? = some (.found p fd event) →
    s.table.fdContexts[fd]? = some p

/-- A thread moves on; a pointer that it takes along is that of the table. -/
theorem Good.goto {s : System} (h : Good s) {m : Table} (hm : Sound m) (hk : Keeps s.table m)
    (t : ℕ) {q : Pc} (hq : ∀ p fd event, q = Pc.found p fd event → m.fdContexts[fd]? = some p) :
    Good ({ s with table := m }.goto t q) := by
  refine ⟨hm, ?_⟩
  intro u p fd event hu
  simp only [System.goto, List.getElem?_set] at hu
  split_ifs at hu with htu hlt
  · exact hq p fd event (Option.some.inj hu)
  · exact hk fd p (h.found u p fd event hu)

theorem next_check {s s' : System} {t fd : ℕ} {event : Event} (h : Good s)
    (hn : next s (.check t fd event) = some s') : Good s' ∧ Keeps s.table s'.table := by
  simp only [next, lookup_of_lt h.table.small] at hn
  split at hn
  · split at hn
    · rename_i p hp
      obtain rfl := Option.some.inj hn
      refine ⟨h.goto h.table (Keeps.refl _) t ?_, Keeps.refl _⟩
      intro p' fd' event' he
      cases he
      exact hp
    · obtain rfl := Option.some.inj hn
      exact ⟨h.goto h.table (Keeps.refl _) t (by simp), Keeps.refl _⟩
  · cases hn

theorem next_resize {s s' : System} {t : ℕ} (h : Good s) (hg : Grows s (.resize t))
    (hn : next s (.resize t) = some s') : Good s' ∧ Keeps s.table s'.table := by
  simp only [next] at hn
  split at hn
  · rename_i fd event ht
    obtain ⟨hle, hsize⟩ := hg fd event ht
    have hk := (contextResize_keeps_iff s.table (fd*3 / 2)).mpr hle
    split at hn
    · rename_i p hp
      obtain rfl := Option.some.inj hn
      refine ⟨h.goto (contextResize_sound h.table hle hsize) hk t ?_, hk⟩
      intro p' fd' event' he
      cases he
      exact hp
    · cases hn
  · cases hn

theorem next_register {s s' : System} {t : ℕ} {ctl : Bool} (h : Good s)
    (hn : next s (.register t ctl) = some s') : Good s' ∧ Keeps s.table s'.table := by
  simp only [next] at hn
  split at hn
  · rename_i p fd event ht
    split_ifs at hn
    · obtain rfl := Option.some.inj hn
      have hp := h.found t p fd event ht
      have hsound :
          Sound (setEvents s.table p (Function.update (s.table.events p) event true)) := by
        apply setEvents_sound h.table
        intro _
        rw [h.table.named fd p hp]
        exact hp
      exact ⟨h.goto hsound (Keeps.refl _) t (by simp), Keeps.refl _⟩
    · obtain rfl := Option.some.inj hn
      exact ⟨h.goto h.table (Keeps.refl _) t (by simp), Keeps.refl _⟩
  · cases hn

theorem next_look {s s' : System} {t fd : ℕ} (h : Good s)
    (hn : next s (.look t fd) = some s') : Good s' ∧ Keeps s.table s'.table := by
  simp only [next, lookup_of_lt h.table.small] at hn
  split at hn
  · split at hn
    · obtain rfl := Option.some.inj hn
      exact ⟨h.goto h.table (Keeps.refl _) t (by simp), Keeps.refl _⟩
    · obtain rfl := Option.some.inj hn
      exact ⟨h, Keeps.refl _⟩
  · cases hn

theorem next_withdraw {s s' : System} {t : ℕ} {gone : Event → Bool} (h : Good s)
    (hn : next s (.withdraw t gone) = some s') : Good s' ∧ Keeps s.table s'.table := by
  simp only [next] at hn
  split at hn
  · rename_i p ht
    obtain rfl := Option.some.inj hn
    have hsound : Sound (setEvents s.table p fun e => s.table.events p e && !gone e) := by
      apply setEvents_sound h.table
      rintro ⟨e, he⟩
      have he : (s.table.events p e && !gone e) = true := he
      rw [Bool.and_eq_true] at he
      exact h.table.visible p e he.1
    exact ⟨h.goto hsound (Keeps.refl _) t (by simp), Keeps.refl _⟩
  · cases hn

theorem next_good {s s' : System} {a : Step} (h : Good s) (hg : Grows s a)
    (hn : next s a = some s') : Good s' ∧ Keeps s.table s'.table := by
  cases a with
  | check t fd event => exact next_check h hn
  | resize t => exact next_resize h hg hn
  | register t ctl => exact next_register h hn
  | look t fd => exact next_look h hn
  | withdraw t gone => exact next_withdraw h hn

theorem init_good (threads : ℕ) : Good (System.init threads) := by
  have hempty : Sound Table.empty :=
    ⟨by decide, by simp [Table.empty], by simp [Table.empty], by simp [Table.empty]⟩
  refine ⟨contextResize_sound hempty (by decide) (by decide), ?_⟩
  intro t p fd event ht
  simp [System.init, List.getElem?_replicate] at ht

theorem reaches_good {s s' : System} (h : Good s) (hr : Reaches next Grows s s') :
    Good s' ∧ Keeps s.table s'.table :=
  hr.invariant (I := fun s' => Good s' ∧ Keeps s.table s'.table) ⟨h, Keeps.refl _⟩
    fun _ _ _ hs hg hn => ⟨(next_good hs.1 hg hn).1, hs.2.trans (next_good hs.1 hg hn).2⟩

/-- As long as no resize shrinks the table or takes it beyond `int`, the context of
a descriptor stays the same and every registration is found by a lookup of its
descriptor. In each of these states, a resize step keeps all contexts exactly when
it does not shrink the table. -/
theorem table_only_grows (threads : ℕ) (s : System)
    (h : Reaches next Grows (System.init threads) s) :
    (∀ s', Reaches next Grows s s' → ∀ fd p : ℕ, s.table.fdContexts[fd]? = some p →
      s'.table.fdContexts[fd]? = some p) ∧
    (∀ p event, s.table.events p event = true → lookup s.table (s.table.fdOf p) = some p) ∧
    (∀ (t fd : ℕ) (event : Event) (s' : System), s.threads[t]? = some (.resizing fd event) →
      next s (.resize t) = some s' →
      (Keeps s.table s'.table ↔ s.table.fdContexts.length ≤ fd*3 / 2)) := by
  obtain ⟨hgood, -⟩ := reaches_good (init_good threads) h
  refine ⟨?_, ?_, ?_⟩
  · intro s' hr
    exact (reaches_good hgood hr).2
  · intro p event hp
    rw [lookup_of_lt hgood.table.small]
    exact hgood.table.visible p event hp
  · intro t fd event s' ht hn
    simp only [next, ht] at hn
    split at hn
    · obtain rfl := Option.some.inj hn
      exact contextResize_keeps_iff s.table (fd*3 / 2)
    · cases hn

theorem table_only_grows_once : ∃ s,
    after next [.check 0 100 .READ, .resize 0, .register 0 true] (System.init 1) = some s ∧
      s.table.events 100 .READ = true ∧ lookup s.table 100 = some 100 := by
  refine ⟨_, rfl, by decide, ?_⟩
  have hcheck : Reaches next Grows (System.init 1) _ :=
    Reaches.start.step (a := Step.check 0 100 .READ) trivial rfl
  have hresize := hcheck.step (a := Step.resize 0) (by
    intro fd event ht
    have ht : some (Pc.resizing 100 .READ) = some (Pc.resizing fd event) := ht
    cases ht
    exact ⟨by decide, by decide⟩) rfl
  have hregister := hresize.step (a := Step.register 0 true) trivial rfl
  exact (table_only_grows 1 _ hregister).2.1 100 .READ (by decide)

/-- Two threads have found the table too small. The one with the smaller
descriptor resizes last and cuts off the context of the other one's event. -/
theorem table_shrinks : ∃ s s',
    after next [.check 1 50 .READ, .check 0 100 .READ, .resize 0, .register 0 true]
      (System.init 2) = some s ∧ next s (.resize 1) = some s' ∧
      s.table.fdContexts[100]? = some 100 ∧ s.table.events 100 .READ = true ∧
      s'.table.events 100 .READ = true ∧ s'.table.fdContexts[100]? = none ∧
      lookup s'.table 100 = none := by
  refine ⟨_, _, rfl, rfl, ?_, ?_, ?_, ?_, ?_⟩
  · decide +kernel
  · decide +kernel
  · decide +kernel
  · decide +kernel
  · decide +kernel

end Lamb.FdTable
