import Mathlib.Data.List.Induction
import Mathlib.Tactic.Common

/-!
# The blocking mode of a hooked socket

A socket that the hooks manage is non-blocking in the kernel, and its `FdCtx`
remembers what the user asked for. The hooked `fcntl` keeps the two apart; the
hooked `ioctl` hands the user's `FIONBIO` value on to the kernel. The kernel may
refuse a request, which then changes nothing there.
-/

set_option autoImplicit false

namespace Lamb.HookedFlags

abbrev Flags := BitVec 32

def O_NONBLOCK : Flags := 0x800

/-- The flags that `F_SETFL` can change: `O_APPEND`, `O_NONBLOCK`, `O_ASYNC`, `O_DIRECT`
and `O_NOATIME`. -/
def settable : Flags := 0x46c00

structure FdCtx where
  isInit : Bool
  isSocket : Bool
  sysNonblock : Bool
  userNonblock : Bool
  isClosed : Bool
  deriving DecidableEq

/-- One descriptor: its file status flags in the kernel and its context in
`FdManager`, if there is one. -/
structure Descriptor where
  flags : Flags
  ctx : Option FdCtx
  deriving DecidableEq

/-- `fcntl_f(fd, F_SETFL, arg)`, granted or refused by the kernel. -/
def setfl (granted : Bool) (arg flags : Flags) : Flags :=
  if granted then (flags &&& ~~~settable) ||| (arg &&& settable) else flags

/-- `ioctl_f(d, FIONBIO, &v)`. -/
def fionbio (granted : Bool) (v flags : Flags) : Flags :=
  if granted then if v ≠ 0 then flags ||| O_NONBLOCK else flags &&& ~~~O_NONBLOCK else flags

def hasNonblock (flags : Flags) : Bool := flags &&& O_NONBLOCK ≠ 0

/-- `FdCtx::init` on an open descriptor. The flags go through a `bool`, so that the
test never sees `O_NONBLOCK` and the kernel is always asked to set it. -/
def FdCtx.init (isSocket : Bool) (flags : Flags) : Descriptor :=
  let bool : Flags := if flags ≠ 0 then 1 else 0
  { flags := if isSocket ∧ ¬ hasNonblock bool then setfl true (bool ||| O_NONBLOCK) flags
      else flags
    ctx := some
      { isInit := true
        isSocket := isSocket
        sysNonblock := isSocket
        userNonblock := false
        isClosed := false } }

def managed (d : Descriptor) : Option FdCtx :=
  d.ctx.filter fun ctx => !ctx.isClosed && ctx.isSocket

/-- The hooked `fcntl` with `F_SETFL`. -/
def hookedSetfl (granted : Bool) (arg : Flags) (d : Descriptor) : Descriptor :=
  match managed d with
  | none => { d with flags := setfl granted arg d.flags }
  | some ctx =>
    let arg' := if ctx.sysNonblock then arg ||| O_NONBLOCK else arg &&& ~~~O_NONBLOCK
    { flags := setfl granted arg' d.flags
      ctx := some { ctx with userNonblock := hasNonblock arg } }

/-- The value that the hooked `fcntl` returns for `F_GETFL`. -/
def hookedGetfl (d : Descriptor) : Flags :=
  match managed d with
  | none => d.flags
  | some ctx => if ctx.userNonblock then d.flags ||| O_NONBLOCK else d.flags &&& ~~~O_NONBLOCK

/-- The hooked `ioctl` with `FIONBIO`. -/
def hookedFionbio (granted : Bool) (v : Flags) (d : Descriptor) : Descriptor :=
  match managed d with
  | none => { d with flags := fionbio granted v d.flags }
  | some ctx =>
    { flags := fionbio granted v d.flags
      ctx := some { ctx with userNonblock := v ≠ 0 } }

inductive Call where
  | setfl (arg : Flags) (granted : Bool)
  | getfl
  | fionbio (v : Flags) (granted : Bool)
  deriving DecidableEq

def Call.run : Call → Descriptor → Descriptor
  | .setfl arg granted, d => hookedSetfl granted arg d
  | .getfl, d => d
  | .fionbio v granted, d => hookedFionbio granted v d

def runAll (calls : List Call) (d : Descriptor) : Descriptor :=
  calls.foldl (fun d call => call.run d) d

def asked (calls : List Call) : Bool :=
  calls.foldl (fun user call => match call with
    | .setfl arg _ => hasNonblock arg
    | .getfl => user
    | .fionbio v _ => v ≠ 0) false

/-- The kernel never blocks, and the user finds what he asked for. -/
structure Kept (user : Bool) (d : Descriptor) : Prop where
  kernel : hasNonblock d.flags = true
  context : ∃ ctx, d.ctx = some ctx ∧ ctx.userNonblock = user
  report : hasNonblock (hookedGetfl d) = user

/-- The request that the kernel carries out and that the hook does not stop. -/
def Clears : Call → Prop
  | .fionbio v granted => v = 0 ∧ granted = true
  | _ => False

section Bits

theorem hasNonblock_eq (flags : Flags) : hasNonblock flags = flags.getLsbD 11 := by
  have h : O_NONBLOCK = BitVec.twoPow 32 11 := by decide
  rw [hasNonblock, h, BitVec.and_twoPow]
  cases flags.getLsbD 11 <;> decide

theorem hasNonblock_or (flags : Flags) : hasNonblock (flags ||| O_NONBLOCK) = true := by
  rw [hasNonblock_eq, BitVec.getLsbD_or]
  simp [O_NONBLOCK]

theorem hasNonblock_and_not (flags : Flags) : hasNonblock (flags &&& ~~~O_NONBLOCK) = false := by
  rw [hasNonblock_eq, BitVec.getLsbD_and]
  simp [O_NONBLOCK]

/-- `F_SETFL` takes `O_NONBLOCK` from its argument. -/
theorem hasNonblock_setfl (arg flags : Flags) :
    hasNonblock (setfl true arg flags) = hasNonblock arg := by
  simp [hasNonblock_eq, setfl, settable]

end Bits

section Runs

def socketCtx (user : Bool) : FdCtx where
  isInit := true
  isSocket := true
  sysNonblock := true
  userNonblock := user
  isClosed := false

theorem init_socket (flags : Flags) :
    (FdCtx.init true flags).ctx = some (socketCtx false) ∧
      hasNonblock (FdCtx.init true flags).flags = true := by
  have hbool : hasNonblock (if flags ≠ 0 then 1 else 0) = false := by split_ifs <;> decide
  refine ⟨rfl, ?_⟩
  simp only [FdCtx.init, hbool, Bool.false_eq_true, not_false_eq_true, and_self, if_true]
  rw [hasNonblock_setfl, hasNonblock_or]

theorem runAll_append (calls : List Call) (call : Call) (d : Descriptor) :
    runAll (calls ++ [call]) d = call.run (runAll calls d) := by
  rw [runAll, List.foldl_append]
  rfl

theorem run_ctx (call : Call) (calls : List Call) (d : Descriptor)
    (h : d.ctx = some (socketCtx (asked calls))) :
    (call.run d).ctx = some (socketCtx (asked (calls ++ [call]))) := by
  have hm : managed d = some (socketCtx (asked calls)) := by rw [managed, h]; rfl
  rw [asked, List.foldl_append]
  cases call with
  | setfl arg granted =>
    simp only [Call.run, hookedSetfl, hm]
    rfl
  | getfl => exact h
  | fionbio v granted =>
    simp only [Call.run, hookedFionbio, hm]
    rfl

theorem run_kernel (call : Call) (d : Descriptor) (user : Bool)
    (h : d.ctx = some (socketCtx user)) (hk : hasNonblock d.flags = true) :
    hasNonblock (call.run d).flags = true ↔ ¬ Clears call := by
  have hm : managed d = some (socketCtx user) := by rw [managed, h]; rfl
  cases call with
  | setfl arg granted =>
    refine iff_of_true ?_ (fun h => h)
    cases granted with
    | true =>
      simp only [Call.run, hookedSetfl, hm, socketCtx, if_true]
      rw [hasNonblock_setfl, hasNonblock_or]
    | false =>
      simp only [Call.run, hookedSetfl, hm]
      exact hk
  | getfl => exact iff_of_true hk (fun h => h)
  | fionbio v granted =>
    simp only [Call.run, hookedFionbio, hm, fionbio, Clears]
    cases granted with
    | false => simp [hk]
    | true =>
      by_cases hv : v = 0
      · simp [hv, hasNonblock_and_not]
      · rw [if_pos rfl, if_pos hv]
        exact iff_of_true (hasNonblock_or _) fun h => hv h.1

theorem runAll_ctx (calls : List Call) (flags : Flags) :
    (runAll calls (FdCtx.init true flags)).ctx = some (socketCtx (asked calls)) := by
  induction calls using List.reverseRecOn with
  | nil => exact (init_socket flags).1
  | append_singleton calls call ih =>
    rw [runAll_append]
    exact run_ctx call calls _ ih

theorem runAll_kernel (calls : List Call) (flags : Flags) (h : ∀ call ∈ calls, ¬ Clears call) :
    hasNonblock (runAll calls (FdCtx.init true flags)).flags = true := by
  induction calls using List.reverseRecOn with
  | nil => exact (init_socket flags).2
  | append_singleton calls call ih =>
    have hk := ih fun c hc => h c (List.mem_append_left _ hc)
    rw [runAll_append, run_kernel call _ _ (runAll_ctx calls flags) hk]
    exact h call (List.mem_append_right _ List.mem_cons_self)

/-- What the user sees does not depend on the kernel's flag. -/
theorem getfl_reports (d : Descriptor) (user : Bool) (h : d.ctx = some (socketCtx user)) :
    hasNonblock (hookedGetfl d) = user := by
  have hm : managed d = some (socketCtx user) := by rw [managed, h]; rfl
  cases user with
  | true => simp only [hookedGetfl, hm, socketCtx, if_true, hasNonblock_or]
  | false =>
    simp only [hookedGetfl, hm, socketCtx, Bool.false_eq_true, if_false, hasNonblock_and_not]

/-- After every call of a sequence a hooked socket is non-blocking in the kernel and
shows the user his own mode, exactly if no `FIONBIO` request in it clears the mode. -/
theorem hooked_socket_kept_iff (flags : Flags) (calls : List Call) :
    (∀ pre, pre <+: calls → Kept (asked pre) (runAll pre (FdCtx.init true flags))) ↔
      ∀ call ∈ calls, ¬ Clears call := by
  constructor
  · intro h call hcall
    obtain ⟨pre, post, rfl⟩ := List.append_of_mem hcall
    have hbefore := (h pre (List.prefix_append pre _)).kernel
    have hafter := (h (pre ++ [call]) ⟨post, by simp⟩).kernel
    rw [runAll_append] at hafter
    exact (run_kernel call _ _ (runAll_ctx pre flags) hbefore).mp hafter
  · rintro h pre ⟨post, rfl⟩
    have hctx := runAll_ctx pre flags
    exact ⟨runAll_kernel pre flags fun c hc => h c (List.mem_append_left _ hc),
      ⟨_, hctx, rfl⟩, getfl_reports _ _ hctx⟩

/-- A blocking mode asked for by `ioctl` makes the socket block in the kernel. -/
theorem fionbio_zero_blocks :
    ¬ Kept (asked [.fionbio 0 true]) (runAll [.fionbio 0 true] (FdCtx.init true 2)) := by
  intro h
  exact absurd h.kernel (by decide)

end Runs

end Lamb.HookedFlags
