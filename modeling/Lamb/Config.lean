import Lamb.Library.ByteString

/-!
# ConfigVar::fromString

The value of a variable is set between its conversion and its listeners. A listener may throw,
which ends the loop over the listeners and leaves the value as it is. What the caller learns
does not tell these outcomes apart.
-/

set_option autoImplicit false

namespace Lamb.Config
open Lamb.ByteString

variable {T σ : Type}

/-- A listener, called with the old and the new value: whether it throws a `std::exception`,
and what it makes of the rest of the program. -/
abbrev OnChange (T σ : Type) := T → T → σ → Bool × σ

structure ConfigVar (T σ : Type) where
  name : Bytes
  description : Bytes
  val : T
  cbs : List (ℕ × OnChange T σ)

structure Told (T : Type) where
  listener : ℕ
  oldVal : T
  newVal : T
  deriving DecidableEq

/-- What is left of a call that may throw: the variable, the rest of the program and the
listeners that were called. -/
structure Outcome (T σ : Type) where
  threw : Bool
  var : ConfigVar T σ
  world : σ
  told : List (Told T)

/-- The loop over the listeners in `setValue`. -/
def notify (oldVal newVal : T) : List (ℕ × OnChange T σ) → σ → Bool × σ × List (Told T)
  | [], w => (false, w, [])
  | i::cbs, w =>
    let told : Told T := { listener := i.1, oldVal := oldVal, newVal := newVal }
    let called := i.2 oldVal newVal w
    if called.1 then (true, called.2, [told])
    else
      let rest := notify oldVal newVal cbs called.2
      (rest.1, rest.2.1, told::rest.2.2)

/-- `ConfigVar::setValue`. `eq` is the `operator==` of the type. -/
def setValue (eq : T → T → Bool) (var : ConfigVar T σ) (v : T) (w : σ) : Outcome T σ :=
  if eq v var.val then { threw := false, var := var, world := w, told := [] }
  else
    let notified := notify var.val v var.cbs w
    if notified.1 then { threw := true, var := var, world := notified.2.1, told := notified.2.2 }
    else {
      threw := false
      var := { var with val := v }
      world := notified.2.1
      told := notified.2.2 }

/-- `ConfigVar::fromString`, whose value is the first component. `fromStr` has no value where
the conversion throws a `std::exception`. -/
def fromString (eq : T → T → Bool) (fromStr : Bytes → Option T) (var : ConfigVar T σ) (s : Bytes)
    (w : σ) : Bool × Outcome T σ :=
  match fromStr s with
  | none => (false, { threw := true, var := var, world := w, told := [] })
  | some v => (false, setValue eq var v w)

/-- A change happens as a whole or not at all: the caller gets true, the value is the new one
and every listener was called once unless the values were equal; or the caller gets false, the
value is the old one and no listener was called. -/
def AllOrNothing (eq : T → T → Bool) (fromStr : Bytes → Option T) (var : ConfigVar T σ)
    (s : Bytes) (w : σ) : Prop :=
  let r := fromString eq fromStr var s w
  (r.1 = true ∧ ∃ v, fromStr s = some v ∧ r.2.var.val = v ∧
    r.2.told = if eq v var.val then [] else
      var.cbs.map fun i => { listener := i.1, oldVal := var.val, newVal := v }) ∨
  (r.1 = false ∧ r.2.var.val = var.val ∧ r.2.told = [])

section Notify

variable {oldVal newVal : T} {cbs : List (ℕ × OnChange T σ)} {w : σ}

/-- The listeners that are called are the first ones, and all of them if none throws. -/
theorem notify_told (cbs : List (ℕ × OnChange T σ)) (w : σ) :
    ∃ called left, cbs = called ++ left ∧
      (notify oldVal newVal cbs w).2.2 =
        (called.map fun i => { listener := i.1, oldVal := oldVal, newVal := newVal }) ∧
      ((notify oldVal newVal cbs w).1 = false → left = []) := by
  induction cbs generalizing w with
  | nil => exact ⟨[], [], rfl, rfl, fun _ => rfl⟩
  | cons i cbs ih =>
    by_cases hthrows : (i.2 oldVal newVal w).1 = true
    · refine ⟨[i], cbs, rfl, by rw [notify, if_pos hthrows]; rfl, ?_⟩
      intro h
      rw [notify, if_pos hthrows] at h
      cases h
    · obtain ⟨called, left, heq, htold, hleft⟩ := ih (i.2 oldVal newVal w).2
      refine ⟨i::called, left, by rw [heq, List.cons_append], ?_, ?_⟩
      · rw [notify, if_neg hthrows]
        exact congrArg (List.cons _) htold
      · rw [notify, if_neg hthrows]
        exact hleft

theorem notify_nonempty (h : cbs ≠ []) : (notify oldVal newVal cbs w).2.2 ≠ [] := by
  cases cbs with
  | nil => exact absurd rfl h
  | cons i cbs =>
    rw [notify]
    split_ifs <;> exact List.cons_ne_nil _ _

end Notify

section FromString

variable {eq : T → T → Bool} {fromStr : Bytes → Option T} {var : ConfigVar T σ} {s : Bytes} {w : σ}

theorem fromString_false : (fromString eq fromStr var s w).1 = false := by
  rw [fromString]
  cases fromStr s <;> rfl

theorem fromString_changed {v : T} (hv : fromStr s = some v) (hne : eq v var.val = false)
    (hcbs : (notify var.val v var.cbs w).1 = false) :
    (fromString eq fromStr var s w).2.var.val = v := by
  rw [fromString, hv]
  simp only [setValue, hne, hcbs]
  rfl

theorem fromString_told {v : T} (hv : fromStr s = some v) (hne : eq v var.val = false) :
    (fromString eq fromStr var s w).2.told = (notify var.val v var.cbs w).2.2 := by
  rw [fromString, hv]
  simp only [setValue, hne]
  split_ifs <;> first | rfl | contradiction

end FromString

/-- A change is all or nothing where there is none: the conversion throws, or the new value
equals the old one. -/
theorem allOrNothing_iff (eq : T → T → Bool) (fromStr : Bytes → Option T) (var : ConfigVar T σ)
    (s : Bytes) (w : σ) : AllOrNothing eq fromStr var s w ↔
      ∀ v, fromStr s = some v → eq v var.val = true ∨ (v = var.val ∧ var.cbs = []) := by
  constructor
  · rintro (⟨htrue, -⟩ | ⟨-, hval, htold⟩)
    · rw [fromString_false] at htrue
      cases htrue
    · intro v hv
      by_cases heq : eq v var.val = true
      · exact Or.inl heq
      · have hne : eq v var.val = false := by simpa using heq
        right
        rw [fromString_told hv hne] at htold
        have hcbs : var.cbs = [] := by
          by_contra h
          exact notify_nonempty h htold
        rw [fromString_changed hv hne (by rw [hcbs]; rfl)] at hval
        exact ⟨hval, hcbs⟩
  · intro h
    refine Or.inr ⟨fromString_false, ?_⟩
    cases hv : fromStr s with
    | none =>
      rw [fromString, hv]
      exact ⟨rfl, rfl⟩
    | some v =>
      rcases h v hv with heq | ⟨hval, hcbs⟩
      · rw [fromString, hv]
        simp [setValue, heq]
      · by_cases heq : eq v var.val = true
        · rw [fromString, hv]
          simp [setValue, heq]
        · have hne : eq v var.val = false := by simpa using heq
          rw [fromString_changed hv hne (by rw [hcbs]; rfl), fromString_told hv hne, hcbs]
          exact ⟨hval, rfl⟩

/-- The size of the request buffer and the copy of it that its listener keeps. -/
theorem change_reports_failure : ¬AllOrNothing (σ := ℕ) (fun a b : ℕ => a == b) (fun _ => some 8192)
    { name := [], description := [], val := 4096, cbs := [(1, fun _ v _ => (false, v))] } [] 4096 := by
  rintro (⟨htrue, -⟩ | ⟨-, hval, -⟩)
  · cases htrue
  · cases hval

end Lamb.Config
