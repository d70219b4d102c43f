import Lamb.FdTable
import Lamb.Library.Simulation
import Lamb.Library.Slots

/-!
# FdManager

The contexts of the descriptors stand in a vector. `get` looks under the read lock and creates
a missing context under the write lock; between the two the vector belongs to anybody. As long
as no two threads create a context for the same descriptor at once, `FdManager` is a map.
-/

set_option autoImplicit false

namespace Lamb.FdRegistry
open Lamb.Runs Lamb.Slots
open Lamb.FdTable (toInt toInt_of_lt)

variable {C : Type}

structure FdManager (C : Type) where
  datas : List (Option C)

def FdManager.new : FdManager C := ⟨List.replicate 64 none⟩

/-- What `get` finds under the read lock. -/
inductive Look (C : Type) where
  | result (ctx : Option C)
  | create
  | outside

/-- The part of `get` under the read lock. -/
def FdManager.look (m : FdManager C) (fd : ℤ) (autoCreate : Bool) : Look C :=
  if fd = -1 then .result none
  else if toInt m.datas.length ≤ fd then if autoCreate then .create else .result none
  else if fd < 0 then .outside
  else
    match m.datas[fd.toNat]? with
    | none => .outside
    | some (some ctx) => .result (some ctx)
    | some none => if autoCreate then .create else .result none

/-- `std::vector::resize`. -/
def resize (datas : List (Option C)) (n : ℕ) : List (Option C) :=
  datas.take n ++ List.replicate (n-datas.length) none

/-- `m_datas[fd] = ctx`, or nothing where `fd` is outside the vector. -/
def assign (datas : List (Option C)) (fd : ℤ) (ctx : Option C) : Option (FdManager C) :=
  if 0 ≤ fd ∧ fd.toNat < datas.length then some ⟨datas.set fd.toNat ctx⟩ else none

/-- The part of `get` under the write lock. -/
def FdManager.store (m : FdManager C) (fd : ℤ) (ctx : C) : Option (FdManager C) :=
  assign (if toInt m.datas.length ≤ fd then resize m.datas (fd*3 / 2).toNat else m.datas) fd
    (some ctx)

def FdManager.del (m : FdManager C) (fd : ℤ) : Option (FdManager C) :=
  if toInt m.datas.length ≤ fd then some m else assign m.datas fd none

def FdManager.context (m : FdManager C) (fd : ℤ) : Option C :=
  if fd < 0 then none else m.datas[fd.toNat]?.join

/-- A descriptor one and a half times of which is an `int`. -/
def Descriptor (fd : ℤ) : Prop := 0 ≤ fd ∧ fd ≤ 1431655765

instance (fd : ℤ) : Decidable (Descriptor fd) := inferInstanceAs (Decidable (_ ∧ _))

structure Sound (m : FdManager C) : Prop where
  room : 64 ≤ m.datas.length
  small : m.datas.length < 2147483648

theorem new_sound : Sound (FdManager.new : FdManager C) := by
  constructor <;> simp [FdManager.new]

theorem new_context (fd : ℤ) : (FdManager.new : FdManager C).context fd = none := by
  rw [FdManager.context, FdManager.new]
  split_ifs with h
  · rfl
  · rw [List.getElem?_replicate]
    split_ifs <;> rfl

theorem Sound.toInt {m : FdManager C} (h : Sound m) : toInt m.datas.length = m.datas.length :=
  toInt_of_lt h.small

section Vector

variable {m : FdManager C} {fd : ℤ}

theorem look_eq (h : Sound m) (hfd : Descriptor fd) (autoCreate : Bool) :
    m.look fd autoCreate = match m.context fd with
      | some ctx => .result (some ctx)
      | none => if autoCreate then .create else .result none := by
  have hminus : fd ≠ -1 := by
    have := hfd.1
    omega
  have hneg : ¬ fd < 0 := Int.not_lt.mpr hfd.1
  rw [FdManager.look, FdManager.context, h.toInt, if_neg hminus, if_neg hneg, if_neg hneg]
  split_ifs with hout hauto
  · have hnone : m.datas[fd.toNat]? = none := List.getElem?_eq_none (by omega)
    rw [hnone]
    rfl
  · have hnone : m.datas[fd.toNat]? = none := List.getElem?_eq_none (by omega)
    rw [hnone]
    rfl
  · have hlt : fd.toNat < m.datas.length := by omega
    rw [List.getElem?_eq_getElem hlt]
    cases m.datas[fd.toNat] <;> rfl
  · have hlt : fd.toNat < m.datas.length := by omega
    rw [List.getElem?_eq_getElem hlt]
    cases m.datas[fd.toNat] <;> rfl

theorem assign_context (datas : List (Option C)) (ctx : Option C) (h0 : 0 ≤ fd)
    (hlt : fd.toNat < datas.length) : ∃ m', assign datas fd ctx = some m' ∧
      m'.datas.length = datas.length ∧
      ∀ fd', m'.context fd' = if fd' = fd then ctx else (⟨datas⟩ : FdManager C).context fd' := by
  refine ⟨⟨datas.set fd.toNat ctx⟩, if_pos ⟨h0, hlt⟩, List.length_set, ?_⟩
  intro fd'
  simp only [FdManager.context]
  by_cases hneg : fd' < 0
  · have hne : fd' ≠ fd := by omega
    rw [if_pos hneg, if_neg hne, if_pos hneg]
  rw [if_neg hneg, if_neg hneg]
  split_ifs with heq
  · subst heq
    rw [List.getElem?_set_self hlt]
    rfl
  · rw [List.getElem?_set_ne (by omega)]

theorem resize_context (datas : List (Option C)) {n : ℕ} (hn : datas.length ≤ n) (fd : ℤ) :
    (⟨resize datas n⟩ : FdManager C).context fd = (⟨datas⟩ : FdManager C).context fd := by
  simp only [FdManager.context, resize]
  split_ifs with hneg
  · rfl
  rw [List.take_of_length_le hn]
  by_cases hlt : fd.toNat < datas.length
  · rw [List.getElem?_append_left hlt]
  · rw [List.getElem?_append_right (not_lt.mp hlt), List.getElem?_eq_none (not_lt.mp hlt),
      List.getElem?_replicate]
    split_ifs <;> rfl

theorem resize_length (datas : List (Option C)) {n : ℕ} (hn : datas.length ≤ n) :
    (resize datas n).length = n := by
  rw [resize, List.take_of_length_le hn, List.length_append, List.length_replicate,
    Nat.add_sub_cancel' hn]

theorem store_spec (h : Sound m) (hfd : Descriptor fd) (ctx : C) : ∃ m', m.store fd ctx = some m' ∧
    Sound m' ∧ ∀ fd', m'.context fd' = if fd' = fd then some ctx else m.context fd' := by
  have h0 := hfd.1
  have hmax := hfd.2
  have hroom := h.room
  rw [FdManager.store, h.toInt]
  split_ifs with hout
  · have hn : m.datas.length ≤ (fd*3 / 2).toNat := by omega
    have hlength := resize_length m.datas hn
    obtain ⟨m', hm', hlength', hcontext⟩ := assign_context (resize m.datas (fd*3 / 2).toNat)
      (some ctx) h0 (by omega)
    refine ⟨m', hm', ⟨by omega, by omega⟩, ?_⟩
    intro fd'
    rw [hcontext, resize_context m.datas hn]
  · obtain ⟨m', hm', hlength', hcontext⟩ := assign_context m.datas (some ctx) h0 (by omega)
    exact ⟨m', hm', ⟨by omega, by rw [hlength']; exact h.small⟩, hcontext⟩

theorem del_spec (h : Sound m) (hfd : Descriptor fd) : ∃ m', m.del fd = some m' ∧ Sound m' ∧
    ∀ fd', m'.context fd' = if fd' = fd then none else m.context fd' := by
  have h0 := hfd.1
  rw [FdManager.del, h.toInt]
  split_ifs with hout
  · refine ⟨m, rfl, h, ?_⟩
    intro fd'
    split_ifs with heq
    · rw [heq, FdManager.context, if_neg (Int.not_lt.mpr h0), List.getElem?_eq_none (by omega)]
      rfl
    · rfl
  · obtain ⟨m', hm', hlength, hcontext⟩ := assign_context m.datas none h0 (by omega)
    exact ⟨m', hm', ⟨by rw [hlength]; exact h.room, by rw [hlength]; exact h.small⟩, hcontext⟩

end Vector

/-! ## Threads -/

/-- Where a thread stands: outside, or in `get` between the two locks. -/
inductive Pc where
  | idle
  | creating (fd : ℤ)
  deriving DecidableEq

inductive Call where
  | get (fd : ℤ) (autoCreate : Bool)
  | del (fd : ℤ)
  deriving DecidableEq

/-- A call that has returned. What `get` returns is a pointer, `del` returns none. -/
structure Returned where
  thread : ℕ
  call : Call
  ctx : Option ℕ
  deriving DecidableEq

/-- The contexts are numbered in the order of their creation. `called` and `returned` are the
calls in the order in which they are made and in which they return. `outside` tells that `m_datas`
has been accessed outside its bounds. -/
structure System where
  manager : FdManager ℕ
  made : ℕ
  threads : List Pc
  called : List (ℕ × Call)
  returned : List Returned
  outside : Bool

def System.init (threads : ℕ) : System where
  manager := .new
  made := 0
  threads := List.replicate threads .idle
  called := []
  returned := []
  outside := false

inductive Step where
  | get (t : ℕ) (fd : ℤ) (autoCreate : Bool)
  | create (t : ℕ)
  | del (t : ℕ) (fd : ℤ)

def System.call (s : System) (t : ℕ) (c : Call) : System :=
  { s with called := s.called ++ [(t, c)] }

def System.return (s : System) (t : ℕ) (c : Call) (ctx : Option ℕ) : System :=
  { s with returned := s.returned ++ [⟨t, c, ctx⟩] }

def next (s : System) : Step → Option System
  | .get t fd autoCreate =>
    match s.threads[t]? with
    | some .idle =>
      match s.manager.look fd autoCreate with
      | .result ctx => some ((s.call t (.get fd autoCreate)).return t (.get fd autoCreate) ctx)
      | .create => some { s.call t (.get fd autoCreate) with
          threads := s.threads.set t (.creating fd) }
      | .outside => some { s.call t (.get fd autoCreate) with outside := true }
    | _ => none
  | .create t =>
    match s.threads[t]? with
    | some (.creating fd) =>
      match s.manager.store fd s.made with
      | some m => some { s.return t (.get fd true) (some s.made) with
          manager := m
          made := s.made+1
          threads := s.threads.set t .idle }
      | none => some { s with outside := true }
    | _ => none
  | .del t fd =>
    match s.threads[t]? with
    | some .idle =>
      match s.manager.del fd with
      | some m => some { (s.call t (.del fd)).return t (.del fd) none with manager := m }
      | none => some { s.call t (.del fd) with outside := true }
    | _ => none

/-- No call is made for what cannot be a descriptor, and no context is asked for while another
thread creates it. -/
def Owned (s : System) : Step → Prop
  | .get _ fd autoCreate => (fd = -1 ∨ Descriptor fd) ∧
      (autoCreate = true → ∀ t : ℕ, s.threads[t]? ≠ some (.creating fd))
  | .create _ => True
  | .del _ fd => Descriptor fd

/-! ## The map -/

/-- What `FdManager` is for: a map, the calls of which are one step each. -/
structure Registry where
  context : ℤ → Option ℕ
  made : ℕ
  returned : List Returned

def Registry.init : Registry := ⟨fun _ => none, 0, []⟩

def Registry.answer (r : Registry) : Call → Option ℕ × (ℤ → Option ℕ) × ℕ
  | .get fd autoCreate =>
    match r.context fd with
    | some ctx => (some ctx, r.context, r.made)
    | none =>
      if fd ≠ -1 ∧ autoCreate = true then
        (some r.made, Function.update r.context fd (some r.made), r.made+1)
      else (none, r.context, r.made)
  | .del fd => (none, Function.update r.context fd none, r.made)

def Registry.next (r : Registry) : ℕ × Call → Option Registry
  | (t, c) =>
    match r.answer c with
    | (ctx, context, made) => some ⟨context, made, r.returned ++ [⟨t, c, ctx⟩]⟩

def pending (threads : List Pc) (t : ℕ) : List Call :=
  match threads[t]? with
  | some (.creating fd) => [.get fd true]
  | _ => []

def callsOf (called : List (ℕ × Call)) (t : ℕ) : List Call :=
  (called.filter fun c => c.1 = t).map Prod.snd

def returnsOf (returned : List Returned) (t : ℕ) : List Call :=
  (returned.filter fun c => c.thread = t).map Returned.call

/-- The system stands for the map. A context that is being created is missing, and nobody else
creates it. -/
structure Stands (s : System) (r : Registry) : Prop where
  sound : Sound s.manager
  context : r.context = s.manager.context
  made : r.made = s.made
  returned : r.returned = s.returned
  complete : ∀ t, callsOf s.called t = returnsOf s.returned t ++ pending s.threads t
  inside : s.outside = false
  creating : ∀ (t : ℕ) (fd : ℤ), s.threads[t]? = some (.creating fd) →
    Descriptor fd ∧ s.manager.context fd = none
  alone : ∀ (t t' : ℕ) (fd : ℤ), s.threads[t]? = some (.creating fd) →
    s.threads[t']? = some (.creating fd) → t = t'

theorem init_stands (threads : ℕ) : Stands (System.init threads) Registry.init := by
  have hidle : ∀ (t : ℕ) (fd : ℤ), (System.init threads).threads[t]? ≠ some (.creating fd) := by
    intro t fd h
    simp only [System.init, List.getElem?_replicate] at h
    split_ifs at h
    cases h
  exact {
    sound := new_sound
    context := (funext new_context).symm
    made := rfl
    returned := rfl
    complete := fun t => by
      have hnone : pending (System.init threads).threads t = [] := by
        unfold pending
        split
        · exact absurd ‹_› (hidle t _)
        · rfl
      rw [hnone]
      rfl
    inside := rfl
    creating := fun t fd h => absurd h (hidle t fd)
    alone := fun t _ fd h => absurd h (hidle t fd) }

section Complete

variable {threads : List Pc} {called : List (ℕ × Call)} {returned : List Returned} {t : ℕ}

theorem callsOf_append (called : List (ℕ × Call)) (t t' : ℕ) (c : Call) :
    callsOf (called ++ [(t, c)]) t' = callsOf called t' ++ if t = t' then [c] else [] := by
  rw [callsOf, List.filter_append, List.map_append, ← callsOf]
  split_ifs with h <;> simp [h]

theorem returnsOf_append (returned : List Returned) (t t' : ℕ) (c : Call) (ctx : Option ℕ) :
    returnsOf (returned ++ [⟨t, c, ctx⟩]) t' =
      returnsOf returned t' ++ if t = t' then [c] else [] := by
  rw [returnsOf, List.filter_append, List.map_append, ← returnsOf]
  split_ifs with h <;> simp [h]

theorem pending_idle (ht : threads[t]? = some .idle) : pending threads t = [] := by
  rw [pending, ht]

theorem pending_set {pc pc' : Pc} (ht : threads[t]? = some pc) (t' : ℕ) :
    pending (threads.set t pc') t' = if t = t' then pending [pc'] 0 else pending threads t' := by
  split_ifs with h
  · subst h
    rw [pending, List.getElem?_set_self (List.getElem?_eq_some_iff.mp ht).1]
    rfl
  · rw [pending, List.getElem?_set_ne h, ← pending]

theorem complete_returned (ht : threads[t]? = some .idle)
    (h : ∀ t', callsOf called t' = returnsOf returned t' ++ pending threads t') (c : Call)
    (ctx : Option ℕ) (t' : ℕ) : callsOf (called ++ [(t, c)]) t' =
      returnsOf (returned ++ [⟨t, c, ctx⟩]) t' ++ pending threads t' := by
  rw [callsOf_append, returnsOf_append, h t']
  split_ifs with heq
  · subst heq
    rw [pending_idle ht, List.append_nil, List.append_nil]
  · rw [List.append_nil, List.append_nil]

theorem complete_entered (ht : threads[t]? = some .idle)
    (h : ∀ t', callsOf called t' = returnsOf returned t' ++ pending threads t') (fd : ℤ) (t' : ℕ) :
    callsOf (called ++ [(t, .get fd true)]) t' =
      returnsOf returned t' ++ pending (threads.set t (.creating fd)) t' := by
  rw [callsOf_append, pending_set ht, h t']
  split_ifs with heq
  · subst heq
    rw [pending_idle ht, List.append_nil]
    rfl
  · rw [List.append_nil]

theorem complete_left {fd : ℤ} (ht : threads[t]? = some (.creating fd))
    (h : ∀ t', callsOf called t' = returnsOf returned t' ++ pending threads t') (ctx : Option ℕ)
    (t' : ℕ) : callsOf called t' =
      returnsOf (returned ++ [⟨t, .get fd true, ctx⟩]) t' ++ pending (threads.set t .idle) t' := by
  rw [returnsOf_append, pending_set ht, h t']
  split_ifs with heq
  · subst heq
    rw [pending, ht, List.append_assoc]
    rfl
  · rw [List.append_nil]

end Complete

theorem alone_entered {threads : List Pc} {t t₁ t₂ : ℕ} {fd fd' : ℤ}
    (hnew : ∀ t : ℕ, threads[t]? ≠ some (.creating fd))
    (h : ∀ (t t' : ℕ) (fd : ℤ), threads[t]? = some (.creating fd) →
      threads[t']? = some (.creating fd) → t = t')
    (h₁ : (threads.set t (.creating fd))[t₁]? = some (.creating fd'))
    (h₂ : (threads.set t (.creating fd))[t₂]? = some (.creating fd')) : t₁ = t₂ := by
  rcases getElem?_set_cases h₁ with ⟨rfl, hpc₁⟩ | ⟨-, ho₁⟩
  · rcases getElem?_set_cases h₂ with ⟨rfl, -⟩ | ⟨-, ho₂⟩
    · rfl
    · obtain rfl := Pc.creating.inj hpc₁
      exact absurd ho₂ (hnew t₂)
  · rcases getElem?_set_cases h₂ with ⟨rfl, hpc₂⟩ | ⟨-, ho₂⟩
    · obtain rfl := Pc.creating.inj hpc₂
      exact absurd ho₁ (hnew t₁)
    · exact h t₁ t₂ fd' ho₁ ho₂

section Simulation

variable {s s' : System} {r : Registry}

theorem get_stands {t : ℕ} {fd : ℤ} {autoCreate : Bool} (h : Stands s r)
    (hg : Owned s (.get t fd autoCreate)) (hn : next s (.get t fd autoCreate) = some s') :
    ∃ r', Reaches Registry.next Free r r' ∧ Stands s' r' := by
  obtain ⟨hfd, halone⟩ := hg
  simp only [next] at hn
  split at hn
  · rename_i ht
    have hreturn : ∀ ctx, r.context fd = ctx → (ctx = none → fd = -1 ∨ autoCreate = false) →
        ∃ r', Reaches Registry.next Free r r' ∧
          Stands ((s.call t (.get fd autoCreate)).return t (.get fd autoCreate) ctx) r' := by
      intro ctx hctx hnone
      refine ⟨{ r with returned := r.returned ++ [⟨t, .get fd autoCreate, ctx⟩] }, ?_, ?_⟩
      · apply Reaches.single (a := (t, Call.get fd autoCreate)) trivial
        simp only [Registry.next, Registry.answer, hctx]
        cases ctx with
        | some ctx => rfl
        | none =>
          have hfails : ¬(fd ≠ -1 ∧ autoCreate = true) := by
            rintro ⟨hminus, hauto⟩
            rcases hnone rfl with h' | h'
            · exact hminus h'
            · rw [hauto] at h'
              cases h'
          simp only [if_neg hfails]
      · exact { h with
          returned := congrArg (· ++ [_]) h.returned
          complete := complete_returned ht h.complete _ _ }
    rcases hfd with rfl | hfd
    · simp only [FdManager.look, if_true] at hn
      obtain rfl := Option.some.inj hn
      refine hreturn none ?_ fun _ => .inl rfl
      rw [h.context]
      rfl
    · rw [look_eq h.sound hfd, ← h.context] at hn
      cases hctx : r.context fd with
      | some ctx =>
        rw [hctx] at hn
        obtain rfl := Option.some.inj hn
        exact hreturn (some ctx) hctx fun h => by cases h
      | none =>
        rw [hctx] at hn
        cases autoCreate with
        | false =>
          obtain rfl := Option.some.inj hn
          exact hreturn none hctx fun _ => .inr rfl
        | true =>
          obtain rfl := Option.some.inj hn
          refine ⟨r, .start, { h with
            complete := complete_entered ht h.complete fd, creating := ?_, alone := ?_ }⟩
          · intro t' fd' ht'
            rcases getElem?_set_cases ht' with ⟨-, hpc⟩ | ⟨-, ht'⟩
            · obtain rfl := Pc.creating.inj hpc
              exact ⟨hfd, h.context ▸ hctx⟩
            · exact h.creating t' fd' ht'
          · exact fun t₁ t₂ fd' h₁ h₂ => alone_entered (halone rfl) h.alone h₁ h₂
  · cases hn

theorem create_stands {t : ℕ} (h : Stands s r) (hn : next s (.create t) = some s') :
    ∃ r', Reaches Registry.next Free r r' ∧ Stands s' r' := by
  simp only [next] at hn
  split at hn
  · rename_i fd ht
    obtain ⟨hfd, hctx⟩ := h.creating t fd ht
    obtain ⟨m, hstore, hsound, hcontext⟩ := store_spec h.sound hfd s.made
    rw [hstore] at hn
    obtain rfl := Option.some.inj hn
    refine ⟨⟨Function.update r.context fd (some r.made), r.made+1,
      r.returned ++ [⟨t, .get fd true, some r.made⟩]⟩,
      Reaches.single (a := (t, Call.get fd true)) trivial ?_, ?_⟩
    · have hminus : fd ≠ -1 := by
        have := hfd.1
        omega
      simp only [Registry.next, Registry.answer, h.context, hctx, ne_eq, hminus,
        not_false_eq_true, and_self, if_true]
    · have hother : ∀ (t' : ℕ) (fd' : ℤ), (s.threads.set t Pc.idle)[t']? = some (.creating fd') →
          s.threads[t']? = some (.creating fd') ∧ fd' ≠ fd := by
        intro t' fd' ht'
        rcases getElem?_set_cases ht' with ⟨-, hpc⟩ | ⟨hne, ht'⟩
        · cases hpc
        · refine ⟨ht', ?_⟩
          rintro rfl
          exact hne (h.alone t' t fd' ht' ht)
      exact {
        sound := hsound
        context := by
          funext fd'
          simp only [hcontext, Function.update_apply, h.context, h.made]
        made := congrArg (·+1) h.made
        returned := by rw [h.returned, h.made, System.return]
        complete := complete_left ht h.complete _
        inside := h.inside
        creating := by
          intro t' fd' ht'
          obtain ⟨ht', hne⟩ := hother t' fd' ht'
          rw [hcontext, if_neg hne]
          exact h.creating t' fd' ht'
        alone := fun t₁ t₂ fd' h₁ h₂ =>
          h.alone t₁ t₂ fd' (hother t₁ fd' h₁).1 (hother t₂ fd' h₂).1 }
  · cases hn

theorem del_stands {t : ℕ} {fd : ℤ} (h : Stands s r) (hg : Owned s (.del t fd))
    (hn : next s (.del t fd) = some s') :
    ∃ r', Reaches Registry.next Free r r' ∧ Stands s' r' := by
  simp only [next] at hn
  split at hn
  · rename_i ht
    obtain ⟨m, hdel, hsound, hcontext⟩ := del_spec h.sound hg
    rw [hdel] at hn
    obtain rfl := Option.some.inj hn
    refine ⟨_, Reaches.single (a := (t, Call.del fd)) trivial rfl, { h with
      sound := hsound
      context := ?_
      returned := congrArg (· ++ [_]) h.returned
      complete := complete_returned ht h.complete _ _
      creating := ?_ }⟩
    · funext fd'
      simp only [hcontext, Function.update_apply, h.context]
    · intro t' fd' ht'
      obtain ⟨hfd', hctx⟩ := h.creating t' fd' ht'
      refine ⟨hfd', ?_⟩
      rw [hcontext]
      split_ifs
      · rfl
      · exact hctx
  · cases hn

theorem step_stands {a : Step} (h : Stands s r) (hg : Owned s a) (hn : next s a = some s') :
    ∃ r', Reaches Registry.next Free r r' ∧ Stands s' r' := by
  cases a with
  | get t fd autoCreate => exact get_stands h hg hn
  | create t => exact create_stands h hn
  | del t fd => exact del_stands h hg hn

end Simulation

/-- The calls of each thread return one after another, or the last of them is still in `get`; all
of them, with their arguments and in the order in which they return, are a run of the map, which
returns the same; the vector holds the contexts of the map, and no access is outside its bounds. -/
theorem manager_linearizable (threads : ℕ) (s : System)
    (h : Reaches next Owned (System.init threads) s) :
    s.outside = false ∧
    (∀ t, callsOf s.called t = returnsOf s.returned t ++ pending s.threads t) ∧
    ∃ r, Reaches Registry.next Free Registry.init r ∧ r.returned = s.returned ∧
      r.context = s.manager.context := by
  obtain ⟨r, hreach, hstands⟩ := Reaches.simulated (init_stands threads)
    (fun s a s' r h hg hn => step_stands h hg hn) h
  exact ⟨hstands.inside, hstands.complete, r, hreach, hstands.returned, hstands.context⟩

theorem shared_linearizable : ∃ s r,
    after next [.get 0 100 true, .get 1 100 false, .create 0, .get 1 100 true, .del 0 100,
      .get 1 100 false] (System.init 2) = some s ∧
    s.outside = false ∧ callsOf s.called 0 = [.get 100 true, .del 100] ∧
    Reaches Registry.next Free Registry.init r ∧
    r.returned = [⟨1, .get 100 false, none⟩, ⟨0, .get 100 true, some 0⟩,
      ⟨1, .get 100 true, some 0⟩, ⟨0, .del 100, none⟩, ⟨1, .get 100 false, none⟩] := by
  have hfd : Descriptor 100 := by decide
  have h₁ : Reaches next Owned (System.init 2) _ :=
    Reaches.start.step (a := Step.get 0 100 true)
      ⟨.inr hfd, fun _ t h => by rcases t with _ | _ | t <;> cases h⟩ rfl
  have h₂ := h₁.step (a := Step.get 1 100 false) ⟨.inr hfd, fun h => by cases h⟩ rfl
  have h₃ := h₂.step (a := Step.create 0) trivial rfl
  have h₄ := h₃.step (a := Step.get 1 100 true)
    ⟨.inr hfd, fun _ t h => by rcases t with _ | _ | t <;> cases h⟩ rfl
  have h₅ := h₄.step (a := Step.del 0 100) hfd rfl
  have h₆ := h₅.step (a := Step.get 1 100 false) ⟨.inr hfd, fun h => by cases h⟩ rfl
  obtain ⟨hinside, hcalls, r, hreach, hreturned, -⟩ := manager_linearizable 2 _ h₆
  exact ⟨_, r, rfl, hinside, hcalls 0, hreach, hreturned⟩

/-- Two threads that create the context of a descriptor at once get two contexts, the first of
which is in the vector no more. -/
theorem context_replaced : ∃ s,
    after next [.get 0 5 true, .get 1 5 true, .create 0, .create 1] (System.init 2) = some s ∧
    s.returned = [⟨0, .get 5 true, some 0⟩, ⟨1, .get 5 true, some 1⟩] ∧
    s.manager.context 5 = some 1 := by
  refine ⟨_, rfl, rfl, ?_⟩
  decide +kernel

end Lamb.FdRegistry
