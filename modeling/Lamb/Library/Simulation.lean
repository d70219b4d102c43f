import Lamb.Library.Runs

/-!
# Simulation

A machine simulates another one where every step of the second from related states is matched
by a run of the first, which may be empty. What a run of the second reaches is then related to
what a run of the first reaches. Where every action is matched by the same action, with the same
output, a part of a machine can be looked at on its own.
-/

set_option autoImplicit false

namespace Lamb.Runs

variable {σ τ ι κ ω : Type}

theorem Reaches.trans {next : σ → ι → Option σ} {guard : σ → ι → Prop} {s t u : σ}
    (h : Reaches next guard s t) (h' : Reaches next guard t u) : Reaches next guard s u := by
  induction h' with
  | start => exact h
  | step _ hg hn ih => exact ih.step hg hn

theorem Reaches.single {next : σ → ι → Option σ} {guard : σ → ι → Prop} {s t : σ} {a : ι}
    (hg : guard s a) (hn : next s a = some t) : Reaches next guard s t :=
  Reaches.start.step hg hn

theorem Reaches.simulated {next : σ → ι → Option σ} {guard : σ → ι → Prop}
    {next' : τ → κ → Option τ} {guard' : τ → κ → Prop} {R : σ → τ → Prop} {s₀ : σ} {t₀ : τ}
    (hinit : R s₀ t₀)
    (hstep : ∀ s a s' t, R s t → guard s a → next s a = some s' →
      ∃ t', Reaches next' guard' t t' ∧ R s' t') {s : σ} (h : Reaches next guard s₀ s) :
    ∃ t, Reaches next' guard' t₀ t ∧ R s t := by
  induction h with
  | start => exact ⟨t₀, .start, hinit⟩
  | step _ hg hn ih =>
    obtain ⟨t, hreach, hrel⟩ := ih
    obtain ⟨t', hmatch, hrel'⟩ := hstep _ _ _ t hrel hg hn
    exact ⟨t', hreach.trans hmatch, hrel'⟩

inductive Along (next : σ → ι → Option σ) (guard : σ → ι → Prop) : List ι → σ → σ → Prop
  | nil (s : σ) : Along next guard [] s s
  | cons {s t u : σ} {a : ι} {as : List ι} (hg : guard s a) (hn : next s a = some t)
      (h : Along next guard as t u) : Along next guard (a::as) s u

def outputs (next : σ → ι → Option σ) (out : σ → ι → List ω) : List ι → σ → List ω
  | [], _ => []
  | a::as, s =>
    match next s a with
    | none => []
    | some t => out s a ++ outputs next out as t

theorem outputs_cons {next : σ → ι → Option σ} (out : σ → ι → List ω) {s t : σ} {a : ι}
    (hn : next s a = some t) (as : List ι) :
    outputs next out (a::as) s = out s a ++ outputs next out as t := by
  rw [outputs, hn]

theorem Along.projected {next : σ → ι → Option σ} {guard : σ → ι → Prop}
    {next' : τ → ι → Option τ} {out : σ → ι → List ω} {out' : τ → ι → List ω} {R : σ → τ → Prop}
    (hstep : ∀ s a s' t, R s t → guard s a → next s a = some s' →
      ∃ t', next' t a = some t' ∧ R s' t' ∧ out s a = out' t a)
    {as : List ι} {s s' : σ} (h : Along next guard as s s') {t : τ} (hR : R s t) :
    ∃ t', after next' as t = some t' ∧ R s' t' ∧
      outputs next out as s = outputs next' out' as t := by
  induction h generalizing t with
  | nil s => exact ⟨t, rfl, hR, rfl⟩
  | cons hg hn _ ih =>
    obtain ⟨t₁, hn', hR', hout⟩ := hstep _ _ _ t hR hg hn
    obtain ⟨t', hafter, hrel, houts⟩ := ih hR'
    refine ⟨t', ?_, hrel, ?_⟩
    · rw [after, hn']
      exact hafter
    · rw [outputs_cons out hn, outputs_cons out' hn', hout, houts]

end Lamb.Runs
