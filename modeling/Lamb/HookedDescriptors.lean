import Lamb.FdRegistry
import Lamb.HookedFlags

/-!
# The life of hooked descriptors

Descriptors stand for open files in the kernel and for contexts in `FdManager`. The hooked
`socket`, `accept` and `close` keep the two together, `fcntl` and `ioctl` change them at once.
A context that outlives its descriptor is taken for that of the next file under the number.
-/

set_option autoImplicit false

namespace Lamb.HookedDescriptors
open Lamb.Runs Lamb.HookedFlags
open Lamb.FdRegistry (FdManager Sound look_eq store_spec del_spec assign_context)

structure OpenFile where
  isSocket : Bool
  flags : Flags

structure World where
  fds : ℤ → Option ℕ
  files : ℕ → OpenFile
  opened : ℕ
  manager : FdManager FdCtx

def World.init : World where
  fds := fun _ => none
  files := fun _ => ⟨false, 0⟩
  opened := 0
  manager := .new

def World.install (w : World) (fd : ℤ) (file : OpenFile) : World :=
  { w with
    fds := Function.update w.fds fd (some w.opened)
    files := Function.update w.files w.opened file
    opened := w.opened+1 }

def World.adopt (w : World) (i : ℕ) (flags : Flags) (m : FdManager FdCtx) : World :=
  { w with
    files := Function.update w.files i { w.files i with flags := flags }
    manager := m }

theorem adopt_same (w : World) (i : ℕ) (flags : Flags) (m : FdManager FdCtx) :
    ((w.adopt i flags m).files i).flags = flags := by
  simp only [World.adopt, Function.update_self]

theorem adopt_other (w : World) {i j : ℕ} (h : j ≠ i) (flags : Flags) (m : FdManager FdCtx) :
    (w.adopt i flags m).files j = w.files j := by
  simp only [World.adopt, Function.update_of_ne h]

/-- The creation in `get`, after `FdCtx::init`. -/
def World.create (w : World) (fd : ℤ) (i : ℕ) (d : Descriptor) : Option World :=
  match d.ctx with
  | none => none
  | some ctx => (w.manager.store fd ctx).map (w.adopt i d.flags)

/-- `FdMgr::GetInstance()->get(fd, true)` for an open descriptor. -/
def World.manage (w : World) (fd : ℤ) : Option World :=
  match w.manager.look fd true with
  | .result _ => some w
  | .create =>
    match w.fds fd with
    | none => none
    | some i => w.create fd i (FdCtx.init (w.files i).isSocket (w.files i).flags)
  | .outside => none

def refused : Call → Call
  | .setfl arg _ => .setfl arg false
  | .getfl => .getfl
  | .fionbio v _ => .fionbio v false

/-- The hooked `fcntl` and `ioctl`. The context is changed where it stands. -/
def World.call (w : World) (fd : ℤ) (call : Call) : World :=
  let manager := fun ctx => (⟨w.manager.datas.set fd.toNat ctx⟩ : FdManager FdCtx)
  match w.fds fd with
  | some i =>
    let d := call.run ⟨(w.files i).flags, w.manager.context fd⟩
    w.adopt i d.flags (manager d.ctx)
  | none => { w with manager := manager ((refused call).run ⟨0, w.manager.context fd⟩).ctx }

/-- What a program does with descriptors. `hooked` tells whether the hooks are enabled in the
calling thread; `fd'` is the number that the kernel gives to a new descriptor. `openOther` are
the calls that are not hooked, such as `open`, `pipe` and `socketpair`. -/
inductive Action where
  | socket (hooked : Bool) (fd' : ℤ) (flags : Flags)
  | accept (fd' : ℤ) (flags : Flags)
  | openOther (fd' : ℤ) (file : OpenFile)
  | dup (fd fd' : ℤ)
  | close (hooked : Bool) (fd : ℤ)
  | call (fd : ℤ) (call : Call)

def Unused (w : World) (fd : ℤ) : Prop := w.fds fd = none ∧ FdRegistry.Descriptor fd

instance (w : World) (fd : ℤ) : Decidable (Unused w fd) := inferInstanceAs (Decidable (_ ∧ _))

def next (w : World) : Action → Option World
  | .socket hooked fd' flags =>
    if Unused w fd' then
      if hooked then (w.install fd' ⟨true, flags⟩).manage fd'
      else some (w.install fd' ⟨true, flags⟩)
    else none
  | .accept fd' flags =>
    if Unused w fd' then (w.install fd' ⟨true, flags⟩).manage fd' else none
  | .openOther fd' file => if Unused w fd' then some (w.install fd' file) else none
  | .dup fd fd' =>
    match w.fds fd with
    | some i =>
      if Unused w fd' then some { w with fds := Function.update w.fds fd' (some i) } else none
    | none => none
  | .close hooked fd =>
    if FdRegistry.Descriptor fd then
      let w' := { w with fds := Function.update w.fds fd none }
      match w.manager.look fd false, hooked with
      | .result (some _), true => (w.manager.del fd).map fun m => { w' with manager := m }
      | _, _ => some w'
    else none
  | .call fd call => if FdRegistry.Descriptor fd then some (w.call fd call) else none

/-- Every context belongs to an open socket, which does not block in the kernel. -/
def Managed (w : World) : Prop := ∀ (fd : ℤ) (ctx : FdCtx), w.manager.context fd = some ctx →
  (∃ user, ctx = socketCtx user) ∧
    ∃ i, w.fds fd = some i ∧ hasNonblock (w.files i).flags = true

def Shared (w : World) (fd : ℤ) : Prop :=
  ∃ (i : ℕ) (fd' : ℤ) (ctx : FdCtx), w.fds fd = some i ∧ w.fds fd' = some i ∧
    w.manager.context fd' = some ctx

def Unstopped (w : World) (fd : ℤ) : Call → Prop
  | .setfl arg granted => granted = true ∧ hasNonblock arg = false ∧ w.manager.context fd = none
  | .getfl => False
  | .fionbio v granted => granted = true ∧ v = 0

/-- A managed descriptor is closed behind the back of the hooks, or its file is made to block
through a number that they do not manage, or by `FIONBIO`. -/
def Breaks (w : World) : Action → Prop
  | .close hooked fd => hooked = false ∧ ∃ ctx, w.manager.context fd = some ctx
  | .call fd call => Unstopped w fd call ∧ Shared w fd
  | _ => False

structure Sane (w : World) : Prop where
  sound : Sound w.manager
  fresh : ∀ fd i, w.fds fd = some i → i < w.opened

theorem init_sane : Sane World.init :=
  ⟨FdRegistry.new_sound, fun _ _ h => by cases h⟩

theorem init_managed : Managed World.init := by
  intro fd ctx h
  rw [World.init, FdRegistry.new_context] at h
  cases h

section Steps

variable {w w' : World}

theorem install_sane (h : Sane w) (fd : ℤ) (file : OpenFile) : Sane (w.install fd file) := by
  refine ⟨h.sound, ?_⟩
  intro fd' i hi
  simp only [World.install, Function.update_apply] at hi ⊢
  split_ifs at hi with heq
  · obtain rfl := Option.some.inj hi
    exact Nat.lt_succ_self _
  · exact (h.fresh fd' i hi).trans (Nat.lt_succ_self _)

theorem Managed.free (h : Managed w) {fd : ℤ} (hfd : w.fds fd = none) :
    w.manager.context fd = none := by
  cases hctx : w.manager.context fd with
  | none => rfl
  | some ctx =>
    obtain ⟨-, i, hi, -⟩ := h fd ctx hctx
    rw [hfd] at hi
    cases hi

theorem install_managed (hs : Sane w) (h : Managed w) {fd : ℤ} (hfd : w.fds fd = none)
    (file : OpenFile) : Managed (w.install fd file) := by
  intro fd' ctx hctx
  have hne : fd' ≠ fd := by
    rintro rfl
    have hnone : w.manager.context fd' = none := h.free hfd
    rw [show w.manager.context fd' = some ctx from hctx] at hnone
    cases hnone
  obtain ⟨huser, i, hi, hflags⟩ := h fd' ctx hctx
  have hold : i ≠ w.opened := Nat.ne_of_lt (hs.fresh fd' i hi)
  refine ⟨huser, i, ?_, ?_⟩
  · simp only [World.install, Function.update_of_ne hne, hi]
  · simp only [World.install, Function.update_of_ne hold, hflags]

theorem manage_socket (hs : Sane w) (h : Managed w) {fd : ℤ} {i : ℕ}
    (hfd : FdRegistry.Descriptor fd) (hi : w.fds fd = some i) (hnone : w.manager.context fd = none)
    (hsocket : (w.files i).isSocket = true)
    (halone : ∀ fd', w.fds fd' = some i → fd' = fd) :
    ∃ w', w.manage fd = some w' ∧ Sane w' ∧ Managed w' := by
  obtain ⟨m, hstore, hsound, hcontext⟩ := store_spec hs.sound hfd (socketCtx false)
  obtain ⟨flags, hmanage, hflags⟩ : ∃ flags, w.manage fd = some (w.adopt i flags m) ∧
      hasNonblock flags = true := by
    obtain ⟨hctx, hflags⟩ := init_socket (w.files i).flags
    generalize hd : FdCtx.init true (w.files i).flags = d at hctx hflags
    refine ⟨d.flags, ?_, hflags⟩
    simp only [World.manage, look_eq hs.sound hfd, hnone, if_true, hi, hsocket,
      hd, World.create, hctx, hstore, Option.map_some]
  refine ⟨_, hmanage, ⟨hsound, hs.fresh⟩, ?_⟩
  intro fd' ctx hctx'
  replace hctx' : m.context fd' = some ctx := hctx'
  rw [hcontext] at hctx'
  by_cases heq : fd' = fd
  · subst heq
    rw [if_pos rfl] at hctx'
    refine ⟨⟨false, (Option.some.inj hctx').symm⟩, i, hi, ?_⟩
    rw [adopt_same]
    exact hflags
  · rw [if_neg heq] at hctx'
    obtain ⟨huser, j, hj, hflags'⟩ := h fd' ctx hctx'
    have hij : j ≠ i := by
      rintro rfl
      exact heq (halone fd' hj)
    refine ⟨huser, j, hj, ?_⟩
    rw [adopt_other w hij]
    exact hflags'

/-! ## The calls one by one -/

theorem open_socket (hs : Sane w) (h : Managed w) {fd : ℤ} (hfd : Unused w fd) (flags : Flags) :
    ∃ w', (w.install fd ⟨true, flags⟩).manage fd = some w' ∧ Sane w' ∧ Managed w' := by
  apply manage_socket (i := w.opened) (install_sane hs fd _) (install_managed hs h hfd.1 _) hfd.2
  · simp only [World.install, Function.update_self]
  · exact h.free hfd.1
  · simp only [World.install, Function.update_self]
  · intro fd' hfd'
    by_contra hne
    simp only [World.install, Function.update_of_ne hne] at hfd'
    exact absurd (hs.fresh fd' w.opened hfd') (Nat.lt_irrefl _)

theorem dup_managed (hs : Sane w) (h : Managed w) {fd fd' : ℤ} {i : ℕ} (hi : w.fds fd = some i)
    (hfd' : w.fds fd' = none) :
    Sane { w with fds := Function.update w.fds fd' (some i) } ∧
      Managed { w with fds := Function.update w.fds fd' (some i) } := by
  refine ⟨⟨hs.sound, ?_⟩, ?_⟩
  · intro fd'' j hj
    simp only [Function.update_apply] at hj
    split_ifs at hj
    · obtain rfl := Option.some.inj hj
      exact hs.fresh fd i hi
    · exact hs.fresh fd'' j hj
  · intro fd'' ctx hctx
    have hne : fd'' ≠ fd' := by
      rintro rfl
      rw [h.free hfd'] at hctx
      cases hctx
    obtain ⟨huser, j, hj, hflags⟩ := h fd'' ctx hctx
    refine ⟨huser, j, ?_, hflags⟩
    simp only [Function.update_of_ne hne, hj]

theorem closed_sane (hs : Sane w) (fd : ℤ) {m : FdManager FdCtx} (hm : Sound m) :
    Sane { w with fds := Function.update w.fds fd none, manager := m } := by
  refine ⟨hm, ?_⟩
  intro fd' i hi
  simp only [Function.update_apply] at hi
  split_ifs at hi
  exact hs.fresh fd' i hi

theorem closed_managed (h : Managed w) (fd : ℤ) {m : FdManager FdCtx}
    (hcontext : ∀ fd', m.context fd' = if fd' = fd then none else w.manager.context fd') :
    Managed { w with fds := Function.update w.fds fd none, manager := m } := by
  intro fd' ctx hctx
  replace hctx : m.context fd' = some ctx := hctx
  rw [hcontext] at hctx
  split_ifs at hctx with heq
  obtain ⟨huser, i, hi, hflags⟩ := h fd' ctx hctx
  refine ⟨huser, i, ?_, hflags⟩
  simp only [Function.update_of_ne heq, hi]

theorem close_managed (hs : Sane w) (h : Managed w) {hooked : Bool} {fd : ℤ}
    (hn : next w (.close hooked fd) = some w') :
    Sane w' ∧ (Managed w' ↔ ¬ Breaks w (.close hooked fd)) := by
  rw [next] at hn
  split at hn
  · rename_i hfd
    rw [look_eq hs.sound hfd] at hn
    cases hctx : w.manager.context fd with
    | none =>
      have hsame : ∀ fd', w.manager.context fd' =
          if fd' = fd then none else w.manager.context fd' := by
        intro fd'
        split_ifs with heq
        · rw [heq, hctx]
        · rfl
      have hnot : ¬ Breaks w (.close hooked fd) := by
        rintro ⟨-, ctx, hsome⟩
        rw [hctx] at hsome
        cases hsome
      rw [hctx] at hn
      obtain rfl := Option.some.inj hn
      exact ⟨closed_sane hs fd hs.sound, iff_of_true (closed_managed h fd hsame) hnot⟩
    | some ctx =>
      rw [hctx] at hn
      cases hooked with
      | true =>
        obtain ⟨m, hdel, hsound, hcontext⟩ := del_spec hs.sound hfd
        simp only [hdel, Option.map_some, Option.some.injEq] at hn
        subst hn
        refine ⟨closed_sane hs fd hsound, iff_of_true (closed_managed h fd hcontext) ?_⟩
        rintro ⟨hfalse, -⟩
        cases hfalse
      | false =>
        obtain rfl := Option.some.inj hn
        refine ⟨closed_sane hs fd hs.sound, iff_of_false ?_ (not_not.mpr ⟨rfl, ctx, hctx⟩)⟩
        intro hmanaged
        obtain ⟨-, i, hi, -⟩ := hmanaged fd ctx hctx
        simp only [Function.update_self] at hi
        cases hi
  · cases hn

theorem set_context {m : FdManager FdCtx} {fd : ℤ} (h0 : 0 ≤ fd) {ctx : Option FdCtx}
    (hctx : m.context fd = none → ctx = none) (fd' : ℤ) :
    (⟨m.datas.set fd.toNat ctx⟩ : FdManager FdCtx).context fd' =
      if fd' = fd then ctx else m.context fd' := by
  by_cases hlt : fd.toNat < m.datas.length
  · obtain ⟨m', hm', -, hcontext⟩ := assign_context m.datas ctx h0 hlt
    rw [FdRegistry.assign, if_pos ⟨h0, hlt⟩] at hm'
    obtain rfl := Option.some.inj hm'
    exact hcontext fd'
  · have hnone : m.context fd = none := by
      rw [FdManager.context, if_neg (Int.not_lt.mpr h0),
        List.getElem?_eq_none (Nat.not_lt.mp hlt)]
      rfl
    rw [List.set_eq_of_length_le (Nat.not_lt.mp hlt)]
    split_ifs with heq
    · rw [heq, hctx hnone]
      exact hnone
    · rfl

theorem run_context (call : Call) (flags : Flags) (ctx : Option FdCtx)
    (hctx : ∀ c, ctx = some c → ∃ user, c = socketCtx user) :
    ((call.run ⟨flags, ctx⟩).ctx = none ↔ ctx = none) ∧
      ∀ c, (call.run ⟨flags, ctx⟩).ctx = some c → ∃ user, c = socketCtx user := by
  cases ctx with
  | none =>
    have hnone : (call.run ⟨flags, none⟩).ctx = none := by cases call <;> rfl
    refine ⟨iff_of_true hnone rfl, ?_⟩
    intro c hc
    rw [hnone] at hc
    cases hc
  | some c =>
    obtain ⟨user, rfl⟩ := hctx c rfl
    have hsome : ∃ user', (call.run ⟨flags, some (socketCtx user)⟩).ctx =
        some (socketCtx user') := by
      cases call with
      | setfl arg granted => exact ⟨hasNonblock arg, rfl⟩
      | getfl => exact ⟨user, rfl⟩
      | fionbio v granted => exact ⟨v ≠ 0, rfl⟩
    obtain ⟨user', hsome⟩ := hsome
    rw [hsome]
    refine ⟨iff_of_false (Option.some_ne_none _) (Option.some_ne_none _), ?_⟩
    intro c hc
    exact ⟨user', (Option.some.inj hc).symm⟩

theorem run_flags (h : Managed w) (call : Call) (fd : ℤ) {flags : Flags}
    (hflags : hasNonblock flags = true) :
    hasNonblock (call.run ⟨flags, w.manager.context fd⟩).flags = true ↔
      ¬ Unstopped w fd call := by
  cases hctx : w.manager.context fd with
  | some ctx =>
    obtain ⟨⟨user, rfl⟩, -⟩ := h fd ctx hctx
    rw [run_kernel call _ user rfl hflags, not_iff_not]
    cases call with
    | setfl arg granted => simp [Clears, Unstopped, hctx]
    | getfl => rfl
    | fionbio v granted => exact and_comm
  | none =>
    cases call with
    | setfl arg granted =>
      cases granted with
      | false => simp [Call.run, hookedSetfl, managed, setfl, Unstopped, hflags]
      | true =>
        simp only [Call.run, hookedSetfl, managed, Option.filter_none, hasNonblock_setfl,
          Unstopped, hctx, and_true, true_and, Bool.not_eq_false]
    | getfl => exact iff_of_true hflags fun h => h
    | fionbio v granted =>
      simp only [Call.run, hookedFionbio, managed, Option.filter_none, fionbio, Unstopped]
      cases granted with
      | false => simp [hflags]
      | true =>
        by_cases hv : v = 0
        · simp [hv, hasNonblock_and_not]
        · rw [if_pos rfl, if_pos hv]
          exact iff_of_true (hasNonblock_or _) fun h => hv h.2

theorem call_sane (hs : Sane w) (fd : ℤ) (call : Call) : Sane (w.call fd call) := by
  have hset : ∀ ctx, Sound (⟨w.manager.datas.set fd.toNat ctx⟩ : FdManager FdCtx) := by
    intro ctx
    refine ⟨?_, ?_⟩ <;> rw [List.length_set]
    · exact hs.sound.room
    · exact hs.sound.small
  unfold World.call
  cases w.fds fd with
  | none => exact ⟨hset _, hs.fresh⟩
  | some i => exact ⟨hset _, hs.fresh⟩

/-- A call on a descriptor that is not open changes nothing, as there is no context. -/
theorem call_unopened (h : Managed w) {fd : ℤ} (h0 : 0 ≤ fd) (hi : w.fds fd = none) (call : Call) :
    Managed (w.call fd call) := by
  have hnone := h.free hi
  have hctx : ((refused call).run ⟨0, w.manager.context fd⟩).ctx = none :=
    (run_context (refused call) 0 _ fun c hc => (h fd c hc).1).1.mpr hnone
  intro fd' c hc
  simp only [World.call, hi, hctx] at hc
  rw [set_context h0 (fun _ => rfl)] at hc
  split_ifs at hc with heq
  obtain ⟨huser, j, hj, hflags⟩ := h fd' c hc
  refine ⟨huser, j, ?_⟩
  simp only [World.call, hi]
  exact ⟨hj, hflags⟩

theorem call_managed (h : Managed w) {fd : ℤ} (h0 : 0 ≤ fd) (call : Call) :
    Managed (w.call fd call) ↔ ¬ Breaks w (.call fd call) := by
  cases hi : w.fds fd with
  | none =>
    refine iff_of_true (call_unopened h h0 hi call) ?_
    rintro ⟨-, i, fd', ctx, hi', -⟩
    rw [hi] at hi'
    cases hi'
  | some i =>
    obtain ⟨hnone, hsome⟩ := run_context call (w.files i).flags (w.manager.context fd)
      fun c hc => (h fd c hc).1
    have hflags := @run_flags w h call fd (w.files i).flags
    generalize hd : call.run ⟨(w.files i).flags, w.manager.context fd⟩ = d at hnone hsome hflags
    have hcall : w.call fd call = w.adopt i d.flags ⟨w.manager.datas.set fd.toNat d.ctx⟩ := by
      simp only [World.call, hi, hd]
    have hcontext := set_context h0 hnone.mpr
    rw [hcall]
    constructor
    · rintro hmanaged ⟨hunstopped, j, fd', ctx, hj, hj', hctx⟩
      obtain rfl := Option.some.inj (hi.symm.trans hj)
      obtain ⟨-, k, hk, hblocks⟩ := h fd' ctx hctx
      obtain rfl := Option.some.inj (hj'.symm.trans hk)
      -- The managed descriptor still has a context, and its file blocks now.
      have hctx' : ∃ c, (⟨w.manager.datas.set fd.toNat d.ctx⟩ : FdManager FdCtx).context fd' =
          some c := by
        rw [hcontext]
        split_ifs with heq
        · subst heq
          apply Option.ne_none_iff_exists'.mp
          rw [ne_eq, hnone, hctx]
          exact Option.some_ne_none ctx
        · exact ⟨ctx, hctx⟩
      obtain ⟨c, hc⟩ := hctx'
      obtain ⟨-, k, hk', hnonblock⟩ := hmanaged fd' c hc
      obtain rfl := Option.some.inj (hj'.symm.trans hk')
      rw [adopt_same] at hnonblock
      exact (hflags hblocks).mp hnonblock hunstopped
    · intro hkeeps fd' c hc
      replace hc : (⟨w.manager.datas.set fd.toNat d.ctx⟩ : FdManager FdCtx).context fd' = some c :=
        hc
      rw [hcontext] at hc
      have hold : ∃ ctx, w.manager.context fd' = some ctx ∧ ∃ user, c = socketCtx user := by
        split_ifs at hc with heq
        · have hne : w.manager.context fd ≠ none := by
            rw [ne_eq, ← hnone, hc]
            exact Option.some_ne_none c
          obtain ⟨ctx, hctx⟩ := Option.ne_none_iff_exists'.mp hne
          exact ⟨ctx, heq ▸ hctx, hsome c hc⟩
        · exact ⟨c, hc, (h fd' c hc).1⟩
      obtain ⟨ctx, hctx, huser⟩ := hold
      obtain ⟨-, j, hj, hblocks⟩ := h fd' ctx hctx
      refine ⟨huser, j, hj, ?_⟩
      by_cases heq : j = i
      · subst heq
        rw [adopt_same]
        exact (hflags hblocks).mpr fun hunstopped => hkeeps ⟨hunstopped, j, fd', ctx, hi, hj, hctx⟩
      · rw [adopt_other w heq]
        exact hblocks

theorem next_managed (hs : Sane w) (h : Managed w) {a : Action} (hn : next w a = some w') :
    Sane w' ∧ (Managed w' ↔ ¬ Breaks w a) := by
  have hopen : ∀ {fd : ℤ} {flags : Flags}, Unused w fd →
      (w.install fd ⟨true, flags⟩).manage fd = some w' → Sane w' ∧ Managed w' := by
    intro fd flags hfd hmanage
    obtain ⟨w'', hmanage', hsane, hmanaged⟩ := open_socket hs h hfd flags
    rw [hmanage] at hmanage'
    obtain rfl := Option.some.inj hmanage'
    exact ⟨hsane, hmanaged⟩
  have hinstall : ∀ {fd : ℤ} {file : OpenFile}, Unused w fd → some (w.install fd file) = some w' →
      Sane w' ∧ Managed w' := by
    intro fd file hfd hw'
    obtain rfl := Option.some.inj hw'
    exact ⟨install_sane hs fd file, install_managed hs h hfd.1 file⟩
  cases a with
  | socket hooked fd' flags =>
    rw [next] at hn
    split_ifs at hn with hfd hhook
    · exact ⟨(hopen hfd hn).1, iff_of_true (hopen hfd hn).2 fun h => h⟩
    · exact ⟨(hinstall hfd hn).1, iff_of_true (hinstall hfd hn).2 fun h => h⟩
  | accept fd' flags =>
    rw [next] at hn
    split_ifs at hn with hfd
    exact ⟨(hopen hfd hn).1, iff_of_true (hopen hfd hn).2 fun h => h⟩
  | openOther fd' file =>
    rw [next] at hn
    split_ifs at hn with hfd
    exact ⟨(hinstall hfd hn).1, iff_of_true (hinstall hfd hn).2 fun h => h⟩
  | dup fd fd' =>
    rw [next] at hn
    cases hi : w.fds fd with
    | none =>
      rw [hi] at hn
      cases hn
    | some i =>
      simp only [hi] at hn
      split_ifs at hn with hfd
      obtain rfl := Option.some.inj hn
      obtain ⟨hsane, hmanaged⟩ := dup_managed hs h hi hfd.1
      exact ⟨hsane, iff_of_true hmanaged fun h => h⟩
  | close hooked fd => exact close_managed hs h hn
  | call fd call =>
    rw [next] at hn
    split_ifs at hn with hfd
    obtain rfl := Option.some.inj hn
    exact ⟨call_sane hs fd call, call_managed h hfd.1 call⟩

end Steps

/-- As long as the program does none of the breaking calls, every context of `FdManager` belongs
to an open socket that does not block in the kernel, under whichever numbers the sockets come
and go. Every breaking call at once leaves a context that does not. -/
theorem descriptors_managed (w : World)
    (h : Reaches next (fun w a => ¬ Breaks w a) World.init w) :
    Managed w ∧ ∀ a w', next w a = some w' → (Managed w' ↔ ¬ Breaks w a) := by
  have hkept : Sane w ∧ Managed w :=
    Reaches.invariant (I := fun w => Sane w ∧ Managed w) ⟨init_sane, init_managed⟩
      (fun s a t hs hg hn =>
        let hstep := next_managed hs.1 hs.2 hn
        ⟨hstep.1, hstep.2.mpr hg⟩) h
  exact ⟨hkept.2, fun a w' hn => (next_managed hkept.1 hkept.2 hn).2⟩

/-! ## A number that is used twice -/

def taken (w : World) (a : Action) : World := (next w a).getD w

theorem next_taken {w : World} {a : Action} (h : (next w a).isSome = true) :
    next w a = some (taken w a) := by
  obtain ⟨w', hw'⟩ := Option.isSome_iff_exists.mp h
  rw [taken, hw', Option.getD_some]

def blocking : World := taken (taken World.init (.socket true 3 2)) (.call 3 (.setfl 0 true))

def reused : World := taken (taken blocking (.close true 3)) (.socket true 3 2)

/-- A close that the hooks do not see leaves the context of the second socket behind. -/
theorem socket_reused : Managed reused ∧
    ∃ w', next reused (.close false 3) = some w' ∧ ¬ Managed w' := by
  have h₁ : Reaches next (fun w a => ¬ Breaks w a) World.init _ :=
    Reaches.start.step (a := Action.socket true 3 2) (fun h => h) (next_taken (by decide +kernel))
  have hctx : (taken World.init (.socket true 3 2)).manager.context 3 ≠ none := by decide +kernel
  have h₂ := h₁.step (a := Action.call 3 (.setfl 0 true)) (fun h => hctx h.1.2.2)
    (next_taken (by decide +kernel))
  have h₃ := h₂.step (a := Action.close true 3) (fun h => by cases h.1)
    (next_taken (by decide +kernel))
  have h₄ := h₃.step (a := Action.socket true 3 2) (fun h => h) (next_taken (by decide +kernel))
  obtain ⟨hmanaged, hiff⟩ := descriptors_managed reused h₄
  have hclose : next reused (.close false 3) = some (taken reused (.close false 3)) :=
    next_taken (by decide +kernel)
  refine ⟨hmanaged, _, hclose, ?_⟩
  intro h
  exact (hiff _ _ hclose).mp h ⟨rfl, Option.isSome_iff_exists.mp (by decide +kernel)⟩

end Lamb.HookedDescriptors
