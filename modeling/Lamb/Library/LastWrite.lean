import Mathlib.Data.List.Induction
import Mathlib.Data.List.Nodup
import Mathlib.Logic.Function.Basic
import Mathlib.Tactic.Common

/-!
# Registrations over a history

Operations of a history enter values under keys and remove them. A value is live if its
operation is the last one on its key. A map that applies the operations holds the live values.
A list to whose end every new value goes holds them in the order of their operations, each key
once, so that a search from the front meets the oldest one first.
-/

set_option autoImplicit false

namespace Lamb.LastWrite

variable {Op K V : Type}

/-- The operation at place `i` of the history enters `v` under `k`, and no later one enters or
removes a value under this key. `effect` says what an operation does, if anything. -/
def Live (effect : Op → Option (K × Option V)) (h : List Op) (i : ℕ) (k : K) (v : V) : Prop :=
  ∃ front op back, h = front ++ op::back ∧ front.length = i ∧ effect op = some (k, some v) ∧
    ∀ op' ∈ back, ∀ o, effect op' ≠ some (k, o)

section Live

variable {effect : Op → Option (K × Option V)} {h : List Op} {op : Op} {i j : ℕ} {k : K} {v v' : V}

theorem not_live_nil : ¬Live effect [] i k v := by
  rintro ⟨front, op, back, heq, -⟩
  exact List.cons_ne_nil _ _ (List.append_eq_nil_iff.mp heq.symm).2

theorem live_lt (hl : Live effect h i k v) : i < h.length := by
  obtain ⟨front, op, back, rfl, rfl, -⟩ := hl
  simp

theorem live_concat : Live effect (h ++ [op]) i k v ↔
    (i = h.length ∧ effect op = some (k, some v)) ∨
    (Live effect h i k v ∧ ∀ o, effect op ≠ some (k, o)) := by
  constructor
  · rintro ⟨front, op', back, heq, hi, heffect, hback⟩
    rcases List.eq_nil_or_concat back with rfl | ⟨back, last, rfl⟩
    · obtain ⟨rfl, hop⟩ := List.append_inj' heq rfl
      rw [List.singleton_inj] at hop
      exact Or.inl ⟨hi.symm, hop ▸ heffect⟩
    · rw [List.concat_eq_append, ← List.cons_append, ← List.append_assoc] at heq
      obtain ⟨rfl, hop⟩ := List.append_inj' heq rfl
      rw [List.singleton_inj] at hop
      rw [List.concat_eq_append, List.forall_mem_append] at hback
      refine Or.inr ⟨⟨front, op', back, rfl, hi, heffect, hback.1⟩, ?_⟩
      rw [hop]
      exact hback.2 last (.head _)
  · rintro (⟨rfl, heffect⟩ | ⟨⟨front, op', back, rfl, hi, heffect, hback⟩, hop⟩)
    · exact ⟨h, op, [], rfl, rfl, heffect, by simp⟩
    · refine ⟨front, op', back ++ [op], by simp, hi, heffect, ?_⟩
      rw [List.forall_mem_append]
      exact ⟨hback, by simpa using hop⟩

theorem live_unique (hi : Live effect h i k v) (hj : Live effect h j k v') : i = j ∧ v = v' := by
  induction h using List.reverseRecOn with
  | nil => exact absurd hi not_live_nil
  | append_singleton h op ih =>
    rcases live_concat.mp hi with ⟨rfl, hop⟩ | ⟨hi, hother⟩
    · rcases live_concat.mp hj with ⟨rfl, hop'⟩ | ⟨-, hother'⟩
      · rw [hop] at hop'
        cases hop'
        exact ⟨rfl, rfl⟩
      · exact absurd hop (hother' _)
    · rcases live_concat.mp hj with ⟨-, hop'⟩ | ⟨hj, -⟩
      · exact absurd hop' (hother _)
      · exact ih hi hj

end Live

variable [DecidableEq K]

def applyMap (effect : Op → Option (K × Option V)) (m : K → Option V) (op : Op) : K → Option V :=
  match effect op with
  | some (k, o) => Function.update m k o
  | none => m

def eraseKey (k : K) (l : List (K × V)) : List (K × V) := l.eraseP fun e => e.1 = k

def applyList (effect : Op → Option (K × Option V)) (l : List (K × V)) (op : Op) : List (K × V) :=
  match effect op with
  | some (k, o) => eraseKey k l ++ o.toList.map fun v => (k, v)
  | none => l

section Runs

variable {effect : Op → Option (K × Option V)} {h : List Op}

theorem map_live (k : K) (v : V) :
    h.foldl (applyMap effect) (fun _ => none) k = some v ↔ ∃ i, Live effect h i k v := by
  induction h using List.reverseRecOn with
  | nil => simp [not_live_nil]
  | append_singleton h op ih =>
    rw [List.foldl_append, List.foldl_cons, List.foldl_nil]
    simp only [live_concat]
    rw [applyMap]
    cases hop : effect op with
    | none => simp [ih]
    | some e =>
      obtain ⟨key, o⟩ := e
      by_cases hk : k = key
      · subst hk
        simp
      · simp only [Function.update_of_ne hk, ih, ne_eq, Option.some.injEq, Prod.mk.injEq]
        simp [Ne.symm hk]

/-- Where a key stands once, erasing its first entry erases all of it. -/
theorem eraseKey_eq_filter {l : List (K × V)} (hl : (l.map Prod.fst).Nodup) (k : K) :
    eraseKey k l = l.filter fun e => e.1 ≠ k := by
  induction l with
  | nil => rfl
  | cons e l ih =>
    rw [List.map_cons, List.nodup_cons] at hl
    by_cases he : e.1 = k
    · rw [eraseKey, List.eraseP_cons_of_pos (by simpa using he),
        List.filter_cons_of_neg (by simpa using he)]
      symm
      rw [List.filter_eq_self]
      intro d hd
      simpa using fun hdk : d.1 = k => hl.1 (by rw [he, ← hdk]; exact List.mem_map_of_mem hd)
    · rw [eraseKey, List.eraseP_cons_of_neg (by simpa using he),
        List.filter_cons_of_pos (by simpa using he), ← ih hl.2]
      rfl

structure Stamped (effect : Op → Option (K × Option V)) (h : List Op) (l : List (K × V))
    (stamps : List (ℕ × K × V)) : Prop where
  entries : stamps.map Prod.snd = l
  sorted : stamps.Pairwise fun a b => a.1 < b.1
  live : ∀ i k v, (i, k, v) ∈ stamps ↔ Live effect h i k v

omit [DecidableEq K] in
theorem Stamped.keys {l : List (K × V)} {stamps : List (ℕ × K × V)}
    (hs : Stamped effect h l stamps) : (l.map Prod.fst).Nodup := by
  rw [← hs.entries, List.map_map, List.Nodup, List.pairwise_map]
  refine List.Pairwise.imp_of_mem ?_ hs.sorted
  rintro ⟨i, k, v⟩ ⟨j, k', v'⟩ ha hb hlt heq
  have hkeys : k = k' := heq
  subst hkeys
  have := (live_unique ((hs.live i k v).mp ha) ((hs.live j k v').mp hb)).1
  simp only at hlt
  omega

theorem Stamped.step {l : List (K × V)} {stamps : List (ℕ × K × V)} (hs : Stamped effect h l stamps)
    (op : Op) : ∃ stamps', Stamped effect (h ++ [op]) (applyList effect l op) stamps' := by
  rw [applyList]
  cases hop : effect op with
  | none =>
    refine ⟨stamps, hs.entries, hs.sorted, ?_⟩
    intro i k v
    rw [hs.live, live_concat]
    simp [hop]
  | some e =>
    obtain ⟨key, o⟩ := e
    refine ⟨stamps.filter (fun s => s.2.1 ≠ key) ++ o.toList.map fun v => (h.length, key, v),
      ?_, ?_, ?_⟩
    · change _ = eraseKey key l ++ _
      rw [List.map_append, eraseKey_eq_filter hs.keys, ← hs.entries, List.filter_map, List.map_map]
      rfl
    · rw [List.pairwise_append]
      refine ⟨hs.sorted.filter _, ?_, ?_⟩
      · cases o <;> simp
      · rintro ⟨i, k, v⟩ ha b hb
        obtain ⟨v', -, rfl⟩ := List.mem_map.mp hb
        exact live_lt ((hs.live i k v).mp (List.mem_filter.mp ha).1)
    · intro i k v
      have hnew : (i, k, v) ∈ o.toList.map (fun v => (h.length, key, v)) ↔
          i = h.length ∧ effect op = some (k, some v) := by
        rw [hop]
        cases o with
        | none => simp
        | some w =>
          simp only [Option.toList_some, List.map_singleton, List.mem_singleton, Prod.mk.injEq,
            Option.some.injEq]
          constructor
          · rintro ⟨hi, hk, hv⟩
            exact ⟨hi, hk.symm, hv.symm⟩
          · rintro ⟨hi, hk, hv⟩
            exact ⟨hi, hk.symm, hv.symm⟩
      have hold : (∀ o', effect op ≠ some (k, o')) ↔ k ≠ key := by
        rw [hop]
        constructor
        · rintro h rfl
          exact h o rfl
        · intro hne o' heq
          exact hne (congrArg Prod.fst (Option.some.inj heq)).symm
      rw [live_concat, List.mem_append, List.mem_filter, hs.live, hnew, hold, decide_eq_true_iff,
        or_comm]

theorem list_live (effect : Op → Option (K × Option V)) (h : List Op) :
    ∃ stamps, Stamped effect h (h.foldl (applyList effect) []) stamps := by
  induction h using List.reverseRecOn with
  | nil => exact ⟨[], rfl, List.Pairwise.nil, by simp [not_live_nil]⟩
  | append_singleton h op ih =>
    obtain ⟨stamps, hs⟩ := ih
    rw [List.foldl_append]
    exact hs.step op

omit [DecidableEq K] in
theorem find_least {stamps : List (ℕ × K × V)} (hs : stamps.Pairwise fun a b => a.1 < b.1)
    (p : K → Bool) (s : ℕ × K × V) : stamps.find? (fun s => p s.2.1) = some s ↔
      s ∈ stamps ∧ p s.2.1 = true ∧ ∀ t ∈ stamps, p t.2.1 = true → s.1 ≤ t.1 := by
  rw [List.find?_eq_some_iff_append]
  constructor
  · rintro ⟨hp, front, back, rfl, hfront⟩
    refine ⟨by simp, hp, ?_⟩
    intro t ht hpt
    rcases List.mem_append.mp ht with hmem | hmem
    · have := hfront t hmem
      simp [hpt] at this
    · rcases List.mem_cons.mp hmem with rfl | hback
      · exact Nat.le_refl _
      · have hsorted := (List.pairwise_append.mp hs).2.1
        exact Nat.le_of_lt ((List.pairwise_cons.mp hsorted).1 t hback)
  · rintro ⟨hmem, hp, hleast⟩
    obtain ⟨front, back, rfl⟩ := List.append_of_mem hmem
    refine ⟨hp, front, back, rfl, ?_⟩
    intro t ht
    by_contra hpt
    have hle := hleast t (List.mem_append_left _ ht) (by simpa using hpt)
    have hlt := (List.pairwise_append.mp hs).2.2 t ht s (.head _)
    omega

/-- A search from the front of the list finds the oldest live value that matches. -/
theorem find_oldest (p : K → Bool) (k : K) (v : V) :
    (h.foldl (applyList effect) []).find? (fun e => p e.1) = some (k, v) ↔
      ∃ i, Live effect h i k v ∧ p k = true ∧
        ∀ j k' v', Live effect h j k' v' → p k' = true → i ≤ j := by
  obtain ⟨stamps, hs⟩ := list_live effect h
  rw [← hs.entries, List.find?_map, Option.map_eq_some_iff]
  constructor
  · rintro ⟨⟨i, k', v'⟩, hfind, heq⟩
    cases heq
    obtain ⟨hmem, hp, hleast⟩ := (find_least hs.sorted p _).mp hfind
    refine ⟨i, (hs.live _ _ _).mp hmem, hp, ?_⟩
    intro j k' v' hl hp'
    exact hleast (j, k', v') ((hs.live _ _ _).mpr hl) hp'
  · rintro ⟨i, hl, hp, hleast⟩
    refine ⟨(i, k, v), (find_least hs.sorted p _).mpr ⟨(hs.live _ _ _).mpr hl, hp, ?_⟩, rfl⟩
    rintro ⟨j, k', v'⟩ hmem hp'
    exact hleast j k' v' ((hs.live _ _ _).mp hmem) hp'

end Runs

end Lamb.LastWrite
