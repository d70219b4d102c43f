import Lamb.Library.ByteString
import Mathlib.Logic.Function.Basic

/-!
# Tokens reported piece by piece

A scanner reads its input once, in chunks. It marks where a token begins, reports
the bytes since the mark when the token ends, and notifies its user of other
events. A token that is still open at the end of a chunk is reported as far as it
goes. The order in which a scanner does these things is a grammar over phases;
properties of the user's data are proved once for every operation the grammar
admits.
-/

set_option autoImplicit false

namespace Lamb.Tokens
open Lamb.ByteString

variable {τ ν ι σ π : Type}

inductive Op (τ ν : Type) where
  | mark (t : τ)
  | report (t : τ) (inclusive : Bool)
  | notify (n : ν)
  deriving DecidableEq, Repr

/-- The user's handlers. They see a part `ι` of the scanner's state; a token
handler may fail. -/
structure Handlers (τ ν ι σ : Type) where
  token : τ → ι → Bytes → σ → Option σ
  event : ν → ι → σ → σ

structure Buffers (τ σ : Type) where
  marks : τ → Option Bytes
  data : σ

def Buffers.clear (d : σ) : Buffers τ σ := ⟨fun _ => none, d⟩

def Buffers.extend (b : Buffers τ σ) (ch : UInt8) : Buffers τ σ :=
  { b with marks := fun t => (b.marks t).map (· ++ [ch]) }

theorem Buffers.ext_marks {b c : Buffers τ σ} (hm : ∀ t, b.marks t = c.marks t)
    (hd : b.data = c.data) : b = c := by
  cases b
  cases c
  simp only [Buffers.mk.injEq]
  exact ⟨funext hm, hd⟩

def trace (next : π → Op τ ν → Option π) : List (Op τ ν) → π → Option π
  | [], p => some p
  | op::ops, p => (next p op).bind (trace next ops)

theorem trace_append (next : π → Op τ ν → Option π) (ops rest : List (Op τ ν)) (p : π) :
    trace next (ops ++ rest) p = (trace next ops p).bind (trace next rest) := by
  induction ops generalizing p with
  | nil => rfl
  | cons op ops ih =>
    simp only [List.cons_append, trace, Option.bind_assoc]
    congr 1
    funext q
    exact ih q

/-- A phase that one operation leads to is entered with that operation. -/
theorem trace_entered (next : π → Op τ ν → Option π) (o : Op τ ν) (r : π)
    (honly : ∀ p op, next p op = some r → op = o) (ops : List (Op τ ν)) (p : π)
    (h : trace next ops p = some r) (hp : p ≠ r) : o ∈ ops := by
  induction ops generalizing p with
  | nil => exact absurd (Option.some.inj h) hp
  | cons op ops ih =>
    obtain ⟨q, hq, hrest⟩ := Option.bind_eq_some_iff.mp h
    by_cases hr : q = r
    · rw [hr] at hq
      rw [honly p op hq]
      exact List.mem_cons_self
    · exact List.mem_cons_of_mem op (ih q hrest hr)

structure Divisible (h : Handlers τ ν ι σ) (t : τ) : Prop where
  total : ∀ i bs d, ∃ d', h.token t i bs d = some d'
  append : ∀ i x y d, h.token t i (x ++ y) d = (h.token t i x d).bind (h.token t i y)

/-- `c` differs from `b` in that the first part of the token `t` is reported already. -/
def Reported (h : Handlers τ ν ι σ) (i : ι) (t : τ) (b c : Buffers τ σ) : Prop :=
  ∃ x y, b.marks t = some (x ++ y) ∧ c.marks t = some y ∧
    (∀ u, u ≠ t → c.marks u = b.marks u) ∧ h.token t i x b.data = some c.data

def ReportedAll (h : Handlers τ ν ι σ) (i : ι) (t : τ) (b c : Buffers τ σ) : Prop :=
  ∃ x, b.marks t = some x ∧ c.marks t = none ∧
    (∀ u, u ≠ t → c.marks u = b.marks u) ∧ h.token t i x b.data = some c.data

theorem Reported.extend {h : Handlers τ ν ι σ} {i : ι} {t : τ} {b c : Buffers τ σ}
    (hr : Reported h i t b c) (ch : UInt8) : Reported h i t (b.extend ch) (c.extend ch) := by
  obtain ⟨x, y, hb, hc, hothers, hx⟩ := hr
  refine ⟨x, y ++ [ch], ?_, ?_, ?_, hx⟩
  · simp only [Buffers.extend, hb, Option.map_some, List.append_assoc]
  · simp only [Buffers.extend, hc, Option.map_some]
  · intro u hu
    simp only [Buffers.extend, hothers u hu]

variable [DecidableEq τ]

def Buffers.set (b : Buffers τ σ) (t : τ) (m : Option Bytes) : Buffers τ σ :=
  { b with marks := Function.update b.marks t m }

def runOp (h : Handlers τ ν ι σ) (i : ι) (ch : UInt8) (b : Buffers τ σ) :
    Op τ ν → Buffers τ σ × Option τ
  | .mark t =>
    match b.marks t with
    | some _ => (b, none)
    | none => (b.set t (some []), none)
  | .report t inclusive =>
    match b.marks t with
    | none => (b, none)
    | some bs =>
      match h.token t i (if inclusive then bs ++ [ch] else bs) b.data with
      | none => (b, some t)
      | some d => ({ b.set t none with data := d }, none)
  | .notify n => ({ b with data := h.event n i b.data }, none)

def runOps (h : Handlers τ ν ι σ) (i : ι) (ch : UInt8) :
    List (Op τ ν) → Buffers τ σ → Buffers τ σ × Option τ
  | [], b => (b, none)
  | op::ops, b =>
    match runOp h i ch b op with
    | (b', none) => runOps h i ch ops b'
    | (b', some t) => (b', some t)

def flush (h : Handlers τ ν ι σ) (i : ι) (order : List τ) (b : Buffers τ σ) :
    Buffers τ σ × Option τ :=
  runOps h i 0 (order.map fun t => .report t false) b

theorem runOps_invariant (next : π → Op τ ν → Option π) (h : Handlers τ ν ι σ) (i : ι)
    (ch : UInt8) (I : π → Buffers τ σ → Prop)
    (ops : List (Op τ ν)) (hop : ∀ op ∈ ops, ∀ p q b b', next p op = some q → I p b →
      runOp h i ch b op = (b', none) → I q b')
    (p q : π) (b b' : Buffers τ σ) (ht : trace next ops p = some q)
    (hI : I p b) (hr : runOps h i ch ops b = (b', none)) : I q b' := by
  induction ops generalizing p b with
  | nil =>
    obtain rfl : p = q := Option.some.inj ht
    obtain ⟨rfl, -⟩ := Prod.mk.inj hr
    exact hI
  | cons op ops ih =>
    obtain ⟨r, hr₁, hrest⟩ := Option.bind_eq_some_iff.mp ht
    rw [runOps] at hr
    split at hr
    case h_1 b₁ h₁ =>
      have hI₁ := hop op List.mem_cons_self p r b b₁ hr₁ hI h₁
      exact ih (fun op' hmem => hop op' (List.mem_cons_of_mem op hmem)) r b₁ hrest hI₁ hr
    case h_2 => cases (Prod.mk.inj hr).2

/-- Two users that no operation of the grammar tells apart: the same handler fails
for both, or none does. -/
theorem runOps_simulation (next : π → Op τ ν → Option π) (h : Handlers τ ν ι σ) (i : ι)
    (ch : UInt8) (R : π → Buffers τ σ → Buffers τ σ → Prop)
    (hop : ∀ p q op b c, next p op = some q → R p b c →
      (∃ b' c', runOp h i ch b op = (b', none) ∧ runOp h i ch c op = (c', none) ∧ R q b' c') ∨
      ∃ b' t, runOp h i ch b op = (b', some t) ∧ runOp h i ch c op = (b', some t))
    (ops : List (Op τ ν)) (p q : π) (b c : Buffers τ σ) (ht : trace next ops p = some q)
    (hR : R p b c) :
    (∃ b' c', runOps h i ch ops b = (b', none) ∧ runOps h i ch ops c = (c', none) ∧ R q b' c') ∨
    ∃ b' t, runOps h i ch ops b = (b', some t) ∧ runOps h i ch ops c = (b', some t) := by
  induction ops generalizing p b c with
  | nil =>
    obtain rfl : p = q := Option.some.inj ht
    exact .inl ⟨b, c, rfl, rfl, hR⟩
  | cons op ops ih =>
    obtain ⟨r, hr, hrest⟩ := Option.bind_eq_some_iff.mp ht
    rcases hop p r op b c hr hR with ⟨b₁, c₁, hb, hc, hR₁⟩ | ⟨b₁, t, hb, hc⟩
    · simp only [runOps, hb, hc]
      exact ih r b₁ c₁ hrest hR₁
    · simp only [runOps, hb, hc]
      exact .inr ⟨b₁, t, rfl, rfl⟩

@[simp] theorem Buffers.set_self (b : Buffers τ σ) (t : τ) (m : Option Bytes) :
    (b.set t m).marks t = m := by
  simp [Buffers.set]

@[simp] theorem Buffers.set_other (b : Buffers τ σ) (t u : τ) (m : Option Bytes) (h : u ≠ t) :
    (b.set t m).marks u = b.marks u := by
  simp [Buffers.set, h]

theorem runOp_report (h : Handlers τ ν ι σ) (i : ι) (ch : UInt8) (b : Buffers τ σ) (t : τ)
    (inclusive : Bool) (bs : Bytes) (d : σ) (hm : b.marks t = some bs)
    (hd : h.token t i (if inclusive then bs ++ [ch] else bs) b.data = some d) :
    runOp h i ch b (.report t inclusive) = ({ b.set t none with data := d }, none) := by
  simp only [runOp, hm, hd]

theorem Reported.report {h : Handlers τ ν ι σ} {i : ι} {t : τ} {b c : Buffers τ σ}
    (hr : Reported h i t b c) (ht : Divisible h t) (ch : UInt8) (inclusive : Bool) :
    ∃ b', runOp h i ch b (.report t inclusive) = (b', none) ∧
      runOp h i ch c (.report t inclusive) = (b', none) := by
  obtain ⟨x, y, hb, hc, hothers, hx⟩ := hr
  let z := if inclusive then y ++ [ch] else y
  have hz : (if inclusive then (x ++ y) ++ [ch] else x ++ y) = x ++ z := by
    cases inclusive <;> simp [z]
  obtain ⟨d, hd⟩ := ht.total i z c.data
  have hall : h.token t i (x ++ z) b.data = some d := by
    rw [ht.append, hx]
    exact hd
  refine ⟨_, runOp_report h i ch b t inclusive _ d hb (by rw [hz]; exact hall), ?_⟩
  rw [runOp_report h i ch c t inclusive y d hc hd]
  simp only [Prod.mk.injEq, and_true]
  refine Buffers.ext_marks (fun u => ?_) rfl
  by_cases hu : u = t
  · subst hu
    exact (Buffers.set_self c u none).trans (Buffers.set_self b u none).symm
  · exact (Buffers.set_other c t u none hu).trans
      ((hothers u hu).trans (Buffers.set_other b t u none hu).symm)

theorem ReportedAll.report {h : Handlers τ ν ι σ} {i : ι} {t : τ} {b c : Buffers τ σ}
    (hr : ReportedAll h i t b c) (ch : UInt8) :
    runOp h i ch b (.report t false) = (c, none) ∧
      runOp h i ch c (.report t false) = (c, none) := by
  obtain ⟨x, hb, hc, hothers, hx⟩ := hr
  constructor
  · rw [runOp_report h i ch b t false x c.data hb hx]
    simp only [Prod.mk.injEq, and_true]
    refine Buffers.ext_marks (fun u => ?_) rfl
    by_cases hu : u = t
    · subst hu
      exact (Buffers.set_self b u none).trans hc.symm
    · exact (Buffers.set_other b t u none hu).trans (hothers u hu).symm
  · simp only [runOp, hc]

/-- A mark that is set stays; where the token was reported it is set anew. -/
theorem Reported.mark {h : Handlers τ ν ι σ} {i : ι} {t : τ} {b c : Buffers τ σ}
    (hr : Reported h i t b c) (ch : UInt8) :
    runOp h i ch b (.mark t) = (b, none) ∧ runOp h i ch c (.mark t) = (c, none) := by
  obtain ⟨x, y, hb, hc, -, -⟩ := hr
  simp only [runOp, hb, hc, and_self]

theorem ReportedAll.mark {h : Handlers τ ν ι σ} {i : ι} {t : τ} {b c : Buffers τ σ}
    (hr : ReportedAll h i t b c) (ch : UInt8) :
    runOp h i ch b (.mark t) = (b, none) ∧
      ∃ c', runOp h i ch c (.mark t) = (c', none) ∧ Reported h i t b c' := by
  obtain ⟨x, hb, hc, hothers, hx⟩ := hr
  refine ⟨by simp only [runOp, hb], c.set t (some []), by simp only [runOp, hc], x, [],
    ?_, ?_, ?_, hx⟩
  · rw [List.append_nil, hb]
  · exact Buffers.set_self c t _
  · intro u hu
    rw [Buffers.set_other c t u _ hu, hothers u hu]

theorem flush_closed (h : Handlers τ ν ι σ) (i : ι) (order : List τ) (b : Buffers τ σ)
    (hb : ∀ t ∈ order, b.marks t = none) : flush h i order b = (b, none) := by
  induction order with
  | nil => rfl
  | cons t order ih =>
    have hrest := ih (fun u hu => hb u (List.mem_cons_of_mem t hu))
    simp only [flush, List.map_cons, runOps, runOp, hb t List.mem_cons_self] at hrest ⊢
    exact hrest

theorem flush_single (h : Handlers τ ν ι σ) (i : ι) (order : List τ) (b : Buffers τ σ) (t : τ)
    (hb : ∀ u, u ≠ t → b.marks u = none) (ht : t ∈ order) :
    flush h i order b = runOp h i 0 b (.report t false) := by
  induction order with
  | nil => cases ht
  | cons u order ih =>
    by_cases hu : u = t
    · subst hu
      cases hr : runOp h i 0 b (.report u false) with
      | mk b' failed =>
        cases failed with
        | some v => simp only [flush, List.map_cons, runOps, hr]
        | none =>
          have hclosed : ∀ v, b'.marks v = none := by
            intro v
            by_cases hv : v = u
            · subst hv
              simp only [runOp] at hr
              split at hr
              case h_1 hm =>
                obtain ⟨rfl, -⟩ := Prod.mk.inj hr
                exact hm
              case h_2 =>
                split at hr
                · cases (Prod.mk.inj hr).2
                · obtain ⟨rfl, -⟩ := Prod.mk.inj hr
                  exact Buffers.set_self b v none
            · simp only [runOp] at hr
              split at hr
              · obtain ⟨rfl, -⟩ := Prod.mk.inj hr
                exact hb v hv
              · split at hr
                · cases (Prod.mk.inj hr).2
                · obtain ⟨rfl, -⟩ := Prod.mk.inj hr
                  exact (Buffers.set_other b u v none hv).trans (hb v hv)
          have hrest := flush_closed h i order b' (fun v _ => hclosed v)
          simp only [flush, List.map_cons, runOps, hr] at hrest ⊢
          exact hrest
    · have hmem : t ∈ order := (List.mem_cons.mp ht).resolve_left (fun h => hu h.symm)
      have hrest := ih hmem
      simp only [flush, List.map_cons, runOps] at hrest ⊢
      rw [show runOp h i 0 b (.report u false) = (b, none) by simp only [runOp, hb u hu]]
      exact hrest

/-- A failure comes from the handler of a token that was to be reported. -/
theorem runOps_failed (h : Handlers τ ν ι σ) (i : ι) (ch : UInt8) (ops : List (Op τ ν))
    (b b' : Buffers τ σ) (t : τ) (hr : runOps h i ch ops b = (b', some t)) :
    ∃ inclusive bs d, .report t inclusive ∈ ops ∧ h.token t i bs d = none := by
  induction ops generalizing b with
  | nil => cases (Prod.mk.inj hr).2
  | cons op ops ih =>
    rw [runOps] at hr
    split at hr
    case h_1 b₁ h₁ =>
      obtain ⟨inclusive, bs, d, hmem, hd⟩ := ih b₁ hr
      exact ⟨inclusive, bs, d, List.mem_cons_of_mem op hmem, hd⟩
    case h_2 b₁ t₁ h₁ =>
      obtain ⟨-, ht⟩ := Prod.mk.inj hr
      obtain rfl := Option.some.inj ht
      cases op with
      | mark u =>
        simp only [runOp] at h₁
        split at h₁ <;> cases (Prod.mk.inj h₁).2
      | report u inclusive =>
        simp only [runOp] at h₁
        split at h₁
        · cases (Prod.mk.inj h₁).2
        case h_2 bs _ =>
          split at h₁
          case h_1 hd =>
            obtain rfl := Option.some.inj (Prod.mk.inj h₁).2
            exact ⟨inclusive, _, _, List.mem_cons_self, hd⟩
          case h_2 => cases (Prod.mk.inj h₁).2
      | notify n => cases (Prod.mk.inj h₁).2

structure Unnoticed (h : Handlers τ ν ι σ) (f : σ → σ) : Prop where
  token : ∀ t i bs d, h.token t i bs (f d) = (h.token t i bs d).map f
  event : ∀ n i d, h.event n i (f d) = f (h.event n i d)

def Buffers.mapData (f : σ → σ) (b : Buffers τ σ) : Buffers τ σ := { b with data := f b.data }

theorem runOp_mapData {h : Handlers τ ν ι σ} {f : σ → σ} (hf : Unnoticed h f) (i : ι) (ch : UInt8)
    (b : Buffers τ σ) (op : Op τ ν) : runOp h i ch (b.mapData f) op =
      ((runOp h i ch b op).1.mapData f, (runOp h i ch b op).2) := by
  cases op with
  | mark t =>
    simp only [runOp, Buffers.mapData]
    cases b.marks t <;> rfl
  | report t inclusive =>
    simp only [runOp, Buffers.mapData]
    cases b.marks t with
    | none => rfl
    | some bs =>
      simp only [hf.token]
      cases h.token t i (if inclusive then bs ++ [ch] else bs) b.data <;> rfl
  | notify n => simp only [runOp, Buffers.mapData, hf.event]

theorem runOps_mapData {h : Handlers τ ν ι σ} {f : σ → σ} (hf : Unnoticed h f) (i : ι) (ch : UInt8)
    (ops : List (Op τ ν)) (b : Buffers τ σ) : runOps h i ch ops (b.mapData f) =
      ((runOps h i ch ops b).1.mapData f, (runOps h i ch ops b).2) := by
  induction ops generalizing b with
  | nil => rfl
  | cons op ops ih =>
    simp only [runOps, runOp_mapData hf]
    cases hr : runOp h i ch b op with
    | mk b' failed =>
      cases failed with
      | none => exact ih b'
      | some t => rfl

/-! A scanner whose tokens do not overlap: at most one is open. -/

def Buffers.opened (d : σ) (t : τ) (bs : Bytes) : Buffers τ σ := (Buffers.clear d).set t (some bs)

omit [DecidableEq τ] in
@[simp] theorem extend_clear (d : σ) (ch : UInt8) :
    (Buffers.clear d : Buffers τ σ).extend ch = .clear d := rfl

@[simp] theorem extend_opened (d : σ) (t : τ) (bs : Bytes) (ch : UInt8) :
    (Buffers.opened d t bs).extend ch = .opened d t (bs ++ [ch]) := by
  refine Buffers.ext_marks (fun u => ?_) rfl
  by_cases hu : u = t
  · subst hu
    simp [Buffers.opened, Buffers.extend]
  · simp [Buffers.opened, Buffers.extend, hu, Buffers.clear]

theorem mark_clear (h : Handlers τ ν ι σ) (i : ι) (ch : UInt8) (d : σ) (t : τ) :
    runOp h i ch (.clear d) (.mark t) = (.opened d t [], none) := rfl

theorem mark_opened (h : Handlers τ ν ι σ) (i : ι) (ch : UInt8) (d : σ) (t : τ) (bs : Bytes) :
    runOp h i ch (.opened d t bs) (.mark t) = (.opened d t bs, none) := by
  simp [runOp, Buffers.opened]

theorem report_opened {h : Handlers τ ν ι σ} {i : ι} {ch : UInt8} {d d' : σ} {t : τ}
    {inclusive : Bool} {bs : Bytes}
    (hd : h.token t i (if inclusive then bs ++ [ch] else bs) d = some d') :
    runOp h i ch (.opened d t bs) (.report t inclusive) = (.clear d', none) := by
  rw [runOp_report h i ch (.opened d t bs) t inclusive bs d' (Buffers.set_self _ t _) hd]
  simp only [Prod.mk.injEq, and_true]
  refine Buffers.ext_marks (fun u => ?_) rfl
  by_cases hu : u = t
  · subst hu
    exact Buffers.set_self _ u none
  · simp [Buffers.opened, hu, Buffers.clear]

end Lamb.Tokens
