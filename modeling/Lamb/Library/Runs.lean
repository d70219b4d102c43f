import Mathlib.Data.List.Basic
import Mathlib.Tactic.Common

/-!
# Runs of a partial step function

A machine takes one action at a time, where the action is enabled. A guard
restricts the runs that are looked at; the states reached by runs all of whose
steps meet the guard satisfy every property that holds at the start and that such
steps preserve.
-/

set_option autoImplicit false

namespace Lamb.Runs

variable {σ ι : Type}

/-- The states reached from `init` when every step meets the guard in the state
before it. -/
inductive Reaches (next : σ → ι → Option σ) (guard : σ → ι → Prop) (init : σ) : σ → Prop
  | start : Reaches next guard init init
  | step {s t : σ} {a : ι} : Reaches next guard init s → guard s a → next s a = some t →
      Reaches next guard init t

theorem Reaches.invariant {next : σ → ι → Option σ} {guard : σ → ι → Prop} {init : σ}
    {I : σ → Prop} (hinit : I init)
    (hstep : ∀ s a t, I s → guard s a → next s a = some t → I t) {s : σ}
    (h : Reaches next guard init s) : I s := by
  induction h with
  | start => exact hinit
  | step _ hg hn ih => exact hstep _ _ _ ih hg hn

theorem Reaches.head_cases {next : σ → ι → Option σ} {guard : σ → ι → Prop} {s u : σ}
    (h : Reaches next guard s u) :
    u = s ∨ ∃ a t, guard s a ∧ next s a = some t ∧ Reaches next guard t u := by
  induction h with
  | start => exact .inl rfl
  | step h hg hn ih =>
    rcases ih with rfl | ⟨a, t, hga, hna, ht⟩
    · exact .inr ⟨_, _, hg, hn, .start⟩
    · exact .inr ⟨a, t, hga, hna, ht.step hg hn⟩

theorem Reaches.head {next : σ → ι → Option σ} {guard : σ → ι → Prop} {s t u : σ} {a : ι}
    (hg : guard s a) (hn : next s a = some t) (h : Reaches next guard t u) :
    Reaches next guard s u := by
  induction h with
  | start => exact .step .start hg hn
  | step _ hg' hn' ih => exact ih.step hg' hn'

def after (next : σ → ι → Option σ) : List ι → σ → Option σ
  | [], s => some s
  | a::as, s => (next s a).bind (after next as)

def Free : σ → ι → Prop := fun _ _ => True

theorem Reaches.after_all {next : σ → ι → Option σ} {guard : σ → ι → Prop} {init : σ}
    (as : List ι) (hg : ∀ a ∈ as, ∀ s, guard s a) {s t : σ} (h : Reaches next guard init s)
    (ht : after next as s = some t) : Reaches next guard init t := by
  induction as generalizing s with
  | nil =>
    obtain rfl : s = t := Option.some.inj ht
    exact h
  | cons a as ih =>
    obtain ⟨u, hu, hrest⟩ := Option.bind_eq_some_iff.mp ht
    exact ih (fun b hb => hg b (.tail a hb)) (h.step (hg a (.head as) s) hu) hrest

theorem Reaches.after {next : σ → ι → Option σ} {init : σ} (as : List ι) {s t : σ}
    (h : Reaches next Free init s) (ht : after next as s = some t) :
    Reaches next Free init t :=
  h.after_all as (fun _ _ _ => trivial) ht

end Lamb.Runs
