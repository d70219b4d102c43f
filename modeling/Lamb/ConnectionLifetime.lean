import Lamb.ConnectionPool

/-!
# How long a pooled connection lives

`max_alive_time` is in milliseconds. `GetCurrentMS` counts microseconds, nothing sets
`m_createTime`, and both comparisons ask whether the lifetime has not passed yet. Ages
are therefore measured here with a clock reading taken at the creation, and the runs of
the pool are watched: which ages it hands out again, and which released connections it
should have kept.
-/

set_option autoImplicit false

namespace Lamb.ConnectionLifetime
open Lamb.Runs Lamb.ConnectionPool

/-- `max_alive_time` in the unit of the clock. -/
def lifetime (cfg : Config) : ℕ := 1000*cfg.maxAliveTime.toNat

def takenAge (cfg : Config) (s : Pool) (t : ℕ) (connected : ℕ → Bool) : Option ℕ :=
  match s.calls[t]? with
  | some (.entered now) => (scan cfg s.heap connected now s.conns).2.2.map (now-s.born ·)
  | _ => none

def Deserving (cfg : Config) (s : Pool) (c : ℕ) (connected : Bool) : Prop :=
  connected = true ∧ s.now-s.born c < lifetime cfg ∧
    (s.heap c).request+1 < cfg.maxRequest.toNat

instance decidableDeserving (cfg : Config) (s : Pool) (c : ℕ) (connected : Bool) :
    Decidable (Deserving cfg s c connected) :=
  inferInstanceAs (Decidable (_ ∧ _))

def deserving (cfg : Config) (s : Pool) (t : ℕ) (connected : Bool) : Option ℕ :=
  match s.calls[t]? with
  | some (.releasing c) => if Deserving cfg s c connected then some c else none
  | _ => none

def returning (s : Pool) (t : ℕ) : List (ℕ × ℕ) :=
  match s.calls[t]? with
  | some (.keeping c) => [(t, c)]
  | _ => []

/-- `taken` and `worth` are by call: the age of the pooled connection that it has
taken, and the connection that it should keep. `reused` has the ages of the pooled
connections handed out, `returned` what was put back. -/
structure Watched where
  pool : Pool
  taken : ℕ → Option ℕ
  worth : ℕ → Option ℕ
  reused : List ℕ
  returned : List (ℕ × ℕ)

def Watched.init (now : ℕ) : Watched := ⟨Pool.init now, fun _ => none, fun _ => none, [], []⟩

def Watched.note (cfg : Config) (w : Watched) (s : Pool) : Action → Watched
  | .scan t connected =>
    { w with pool := s, taken := Function.update w.taken t (takenAge cfg w.pool t connected) }
  | .hand t => { w with pool := s, reused := (w.taken t).toList ++ w.reused }
  | .judge t connected =>
    { w with pool := s, worth := Function.update w.worth t (deserving cfg w.pool t connected) }
  | .keep t => { w with pool := s, returned := returning w.pool t ++ w.returned }
  | _ => { w with pool := s }

def watch (cfg : Config) (w : Watched) (a : Action) : Option Watched :=
  (next cfg w.pool a).map (w.note cfg · a)

/-- No pooled connection is handed out past its lifetime, and a release of a
connection worth keeping is about to put it back or has put it back. -/
structure Lifetime (cfg : Config) (w : Watched) : Prop where
  young : ∀ age ∈ w.reused, age ≤ lifetime cfg
  kept : ∀ t c, w.worth t = some c → w.pool.calls[t]? = some (.keeping c) ∨
    (t, c) ∈ w.returned ∧ w.pool.calls[t]? = some .done

structure Sound (cfg : Config) (w : Watched) : Prop extends Lifetime cfg w where
  taken : ∀ t age, w.taken t = some age → age ≤ lifetime cfg

def Nondecreasing (s : Pool) : Action → Prop
  | .clock now => s.now ≤ now
  | _ => True

/-- At the start of `getConnection`: all pooled connections count as timed out, or the
first connected one is within its lifetime. At a release: the clock has passed
`max_alive_time` itself, or there is no reason to keep the connection. -/
def Cond (cfg : Config) (s : Pool) : Action → Prop
  | .scan t connected => ∀ now, s.calls[t]? = some (.entered now) →
      now < cfg.maxAliveTime.toNat ∨
        ∀ c, s.conns.find? connected = some c → now-s.born c ≤ lifetime cfg
  | .judge t connected => ∀ c, s.calls[t]? = some (.releasing c) →
      cfg.maxAliveTime.toNat < s.now ∨ ¬ Deserving cfg s c connected
  | _ => True

theorem next_createTime {cfg : Config} {s s' : Pool} {a : Action}
    (hs : ∀ c, (s.heap c).createTime = 0) (h : next cfg s a = some s') :
    ∀ c, (s'.heap c).createTime = 0 := by
  intro d
  cases Step.of_next h with
  | create hq =>
    simp only [Pool.goto, Function.update_apply]
    split_ifs
    · rfl
    · exact hs d
  | @judge t c connected hq =>
    simp only [Pool.goto, bump, Function.update_apply]
    split_ifs
    · exact hs c
    · exact hs d
  | _ => exact hs d

/-- Without creation times the loop takes the first connected connection, or none. -/
theorem scan_picks (cfg : Config) (heap : ℕ → HttpConnection) (connected : ℕ → Bool) (now : ℕ)
    (conns : List ℕ) (h : ∀ c, (heap c).createTime = 0) :
    (scan cfg heap connected now conns).2.2 =
      if now < cfg.maxAliveTime.toNat then none else conns.find? connected := by
  induction conns with
  | nil => simp [scan]
  | cons c rest ih =>
    by_cases hnow : now < cfg.maxAliveTime.toNat
    · rw [if_pos hnow] at ih ⊢
      rw [scan, if_pos (.inr (by rw [h c]; omega))]
      exact ih
    · rw [if_neg hnow] at ih ⊢
      have hinvalid : Invalid cfg heap connected now c ↔ connected c = false := by
        simp only [Invalid, h c]
        constructor
        · rintro (hc | hc)
          · exact hc
          · omega
        · exact .inl
      cases hc : connected c with
      | true =>
        rw [scan, if_neg (by rw [hinvalid, hc]; simp), List.find?_cons_of_pos hc]
      | false =>
        rw [scan, if_pos (hinvalid.mpr hc), List.find?_cons_of_neg (by simp [hc])]
        exact ih

section Steps

variable {cfg : Config} {s s' : Pool} {w : Watched} {a : Action} {t : ℕ} {p : Phase}

theorem goto_other {t' : ℕ} {q : Phase} (p' : Phase) (hq : s.calls[t']? = some q)
    (hp : s.calls[t]? = some p) (hne : q ≠ p) : (s.goto t' p').calls[t]? = some p := by
  have ht : t' ≠ t := by
    rintro rfl
    exact hne (Option.some.inj (hq.symm.trans hp))
  rw [Pool.goto, List.getElem?_set_ne ht]
  exact hp

theorem append_other (q : Phase) (hp : s.calls[t]? = some p) :
    (s.calls ++ [q])[t]? = some p := by
  rw [List.getElem?_append_left (List.getElem?_eq_some_iff.mp hp).1]
  exact hp

/-- A call that has ended or is about to put a connection back stays there until its
own last step. -/
theorem calls_stay (h : Step cfg s a s') (ha : a ≠ .keep t) (hp : s.calls[t]? = some p)
    (hlast : p = .done ∨ ∃ c, p = .keeping c) : s'.calls[t]? = some p := by
  cases h with
  | clock now => exact hp
  | enter => exact append_other _ hp
  | release hc => exact append_other _ hp
  | @keep t' c hq =>
    have ht : t' ≠ t := by
      rintro rfl
      exact ha rfl
    rw [Pool.goto, List.getElem?_set_ne ht]
    exact hp
  | scan _ hq | delete hq | subtract hq | fail hq | create hq | count hq | hand hq
  | judge _ hq | discard hq | uncount hq =>
    refine goto_other _ hq hp ?_
    rintro rfl
    rcases hlast with h0 | ⟨_, h0⟩ <;> cases h0

theorem Sound.plain (hw : Sound cfg w) (h : Step cfg w.pool a s') (ha : ∀ t, a ≠ .keep t) :
    Sound cfg { w with pool := s' } where
  young := hw.young
  taken := hw.taken
  kept := by
    intro t c hc
    rcases hw.kept t c hc with hk | ⟨hr, hd⟩
    · exact .inl (calls_stay h (ha t) hk (.inr ⟨c, rfl⟩))
    · exact .inr ⟨hr, calls_stay h (ha t) hd (.inl rfl)⟩

theorem Sound.hand (hw : Sound cfg w) (h : Step cfg w.pool (.hand t) s') :
    Sound cfg (w.note cfg s' (.hand t)) where
  toLifetime := by
    refine ⟨fun age hage => ?_, (hw.plain h (by simp)).kept⟩
    rcases List.mem_append.mp hage with hmem | hmem
    · exact hw.taken t age (Option.mem_toList.mp hmem)
    · exact hw.young age hmem
  taken := hw.taken

theorem Sound.keep (hw : Sound cfg w) (h : Step cfg w.pool (.keep t) s') :
    Sound cfg (w.note cfg s' (.keep t)) where
  toLifetime := by
    refine ⟨hw.young, fun t' c hc => ?_⟩
    by_cases ht : t' = t
    · subst ht
      right
      cases h with
      | @keep _ d hq =>
        have hdone : (w.pool.calls.set t' .done)[t']? = some .done :=
          List.getElem?_set_self (List.getElem?_eq_some_iff.mp hq).1
        refine ⟨?_, hdone⟩
        rcases hw.kept t' c hc with hk | ⟨hr, hd⟩
        · exact List.mem_append_left _ (by simp [returning, hk])
        · rw [hd] at hq
          cases hq
    · have hstay : ∀ p, w.pool.calls[t']? = some p → (p = .done ∨ ∃ c, p = .keeping c) →
          s'.calls[t']? = some p := fun p hp hl =>
        calls_stay h (by rintro ⟨⟩; exact ht rfl) hp hl
      rcases hw.kept t' c hc with hk | ⟨hr, hd⟩
      · exact .inl (hstay _ hk (.inr ⟨c, rfl⟩))
      · exact .inr ⟨List.mem_append_right _ hr, hstay _ hd (.inl rfl)⟩
  taken := hw.taken

theorem cond_scan (hcreate : ∀ c, (s.heap c).createTime = 0) (connected : ℕ → Bool) :
    Cond cfg s (.scan t connected) ↔
      ∀ age, takenAge cfg s t connected = some age → age ≤ lifetime cfg := by
  simp only [Cond, takenAge]
  constructor
  · intro h age hage
    split at hage
    next now hq =>
      rw [scan_picks cfg s.heap connected now s.conns hcreate] at hage
      obtain ⟨c, hc, rfl⟩ := Option.map_eq_some_iff.mp hage
      split_ifs at hc with hnow
      exact (h now hq).resolve_left hnow c hc
    next => cases hage
  · intro h now hq
    by_cases hnow : now < cfg.maxAliveTime.toNat
    · exact .inl hnow
    · refine .inr fun c hc => h _ ?_
      rw [hq]
      simp only [scan_picks cfg s.heap connected now s.conns hcreate, if_neg hnow, hc]
      rfl

theorem Sound.scan (hw : Sound cfg w) (hcreate : ∀ c, (w.pool.heap c).createTime = 0)
    {connected : ℕ → Bool} (h : Step cfg w.pool (.scan t connected) s') :
    Cond cfg w.pool (.scan t connected) ↔ Sound cfg (w.note cfg s' (.scan t connected)) := by
  rw [cond_scan hcreate]
  have hplain := hw.plain h (by simp)
  constructor
  · intro hc
    refine ⟨⟨hplain.young, hplain.kept⟩, fun t' age hage => ?_⟩
    simp only [Watched.note, Function.update_apply] at hage
    split_ifs at hage
    · exact hc age hage
    · exact hw.taken t' age hage
  · intro hs age hage
    apply hs.taken t age
    simp only [Watched.note, Function.update_self]
    exact hage

/-- `ReleasePtr` keeps a connection worth keeping when the clock has passed
`max_alive_time`. -/
theorem spent_iff {c : ℕ} {connected : Bool} (hcreate : (s.heap c).createTime = 0)
    (hd : Deserving cfg s c connected) :
    Spent cfg (bump s.heap c c) connected s.now ↔ s.now ≤ cfg.maxAliveTime.toNat := by
  obtain ⟨hconn, -, hreq⟩ := hd
  simp only [Spent, bump, Function.update_self, hcreate, hconn]
  constructor
  · rintro (h0 | h0 | h0)
    · cases h0
    · omega
    · omega
  · intro hnow
    exact .inr (.inl (by omega))

theorem Sound.judge (hw : Sound cfg w) (hcreate : ∀ c, (w.pool.heap c).createTime = 0)
    {connected : Bool} (h : Step cfg w.pool (.judge t connected) s') :
    Cond cfg w.pool (.judge t connected) ↔ Sound cfg (w.note cfg s' (.judge t connected)) := by
  have hplain := hw.plain h (by simp)
  cases h with
  | @judge _ c _ hq =>
    have hworth : deserving cfg w.pool t connected =
        if Deserving cfg w.pool c connected then some c else none := by
      simp only [deserving, hq]
    have hphase : ∀ p, (w.pool.calls.set t p)[t]? = some p := fun p =>
      List.getElem?_set_self (List.getElem?_eq_some_iff.mp hq).1
    constructor
    · intro hc
      refine ⟨⟨hplain.young, fun t' d hd => ?_⟩, hplain.taken⟩
      simp only [Watched.note, Function.update_apply] at hd
      split_ifs at hd with ht
      · subst ht
        rw [hworth] at hd
        split_ifs at hd with hdes
        obtain rfl := Option.some.inj hd
        have hlt := (hc c hq).resolve_right (not_not.mpr hdes)
        left
        simp only [Watched.note, Pool.goto]
        rw [if_neg (by rw [spent_iff (hcreate c) hdes]; omega)]
        exact hphase _
      · exact hplain.kept t' d hd
    · intro hs d hd
      obtain rfl : c = d := by
        rw [hq] at hd
        cases hd
        rfl
      by_contra hcon
      rw [not_or, not_not] at hcon
      obtain ⟨hnow, hdes⟩ := hcon
      have hkept := hs.kept t c (by
        simp only [Watched.note, Function.update_self]
        rw [hworth, if_pos hdes])
      simp only [Watched.note, Pool.goto] at hkept
      rw [if_pos ((spent_iff (hcreate c) hdes).mpr (not_lt.mp hnow)), hphase] at hkept
      rcases hkept with h0 | ⟨-, h0⟩ <;> cases h0

/-- The steps that meet the condition are those that keep the invariant. -/
theorem watch_sound {w' : Watched} (hw : Sound cfg w)
    (hcreate : ∀ c, (w.pool.heap c).createTime = 0) (h : watch cfg w a = some w') :
    Cond cfg w.pool a ↔ Sound cfg w' := by
  obtain ⟨s', hn, rfl⟩ := Option.map_eq_some_iff.mp h
  have hstep := Step.of_next hn
  cases a with
  | scan t connected => exact hw.scan hcreate hstep
  | judge t connected => exact hw.judge hcreate hstep
  | hand t => exact iff_of_true trivial (hw.hand hstep)
  | keep t => exact iff_of_true trivial (hw.keep hstep)
  | _ => exact iff_of_true trivial (hw.plain hstep (by simp))

end Steps

def Clocked (w : Watched) (a : Action) : Prop := Nondecreasing w.pool a

def Guard (cfg : Config) (w : Watched) (a : Action) : Prop := Clocked w a ∧ Cond cfg w.pool a

theorem reaches_sound {cfg : Config} {now : ℕ} {w : Watched}
    (h : Reaches (watch cfg) (Guard cfg) (Watched.init now) w) :
    Sound cfg w ∧ ∀ c, (w.pool.heap c).createTime = 0 := by
  refine h.invariant (I := fun w => Sound cfg w ∧ ∀ c, (w.pool.heap c).createTime = 0) ?_ ?_
  · refine ⟨⟨⟨?_, ?_⟩, ?_⟩, fun _ => rfl⟩
    · intro age hage
      cases hage
    · intro t c hc
      cases hc
    · intro t age hage
      cases hage
  · intro w a w' ⟨hw, hcreate⟩ hg hn
    refine ⟨(watch_sound hw hcreate hn).mp hg.2, ?_⟩
    obtain ⟨s', hs', rfl⟩ := Option.map_eq_some_iff.mp hn
    have hpool : (w.note cfg s' a).pool = s' := by cases a <;> rfl
    rw [hpool]
    exact next_createTime hcreate hs'

/-- In every run that meets the condition, nothing is handed out past its lifetime and
nothing worth keeping is deleted; the invariant behind it breaks at the steps that do
not meet the condition. -/
theorem connection_lifetime {cfg : Config} {now : ℕ} {w : Watched}
    (h : Reaches (watch cfg) (Guard cfg) (Watched.init now) w) :
    Lifetime cfg w ∧ ∀ a w', watch cfg w a = some w' → (Cond cfg w.pool a ↔ Sound cfg w') := by
  obtain ⟨hw, hcreate⟩ := reaches_sound h
  exact ⟨hw.toLifetime, fun a w' ha => watch_sound hw hcreate ha⟩

def plain : Action → Bool
  | .clock _ => false
  | .scan _ _ => false
  | .judge _ _ => false
  | _ => true

theorem guard_of_plain {cfg : Config} {as : List Action} (h : ∀ a ∈ as, plain a = true) :
    ∀ a ∈ as, ∀ w, Guard cfg w a := by
  intro a ha w
  have hp := h a ha
  cases a <;> first | exact ⟨trivial, trivial⟩ | cases hp

theorem cond_of_first {cfg : Config} {s : Pool} {t now c : ℕ} {connected : ℕ → Bool}
    (h : s.calls[t]? = some (.entered now)) (hfirst : s.conns.find? connected = some c)
    (hage : now-s.born c ≤ lifetime cfg) : Cond cfg s (.scan t connected) := by
  intro now' h'
  rw [h] at h'
  obtain rfl : now = now' := Phase.entered.inj (Option.some.inj h')
  refine .inr fun d hd => ?_
  rw [hfirst] at hd
  obtain rfl : c = d := Option.some.inj hd
  exact hage

/-- A connection is made, used and kept, and used again 10 microseconds later. -/
theorem connection_lifetime_reused :
    ∃ w, Reaches (watch ⟨30, 5⟩) (Guard ⟨30, 5⟩) (Watched.init 100) w ∧
      Lifetime ⟨30, 5⟩ w ∧ w.reused = [10] := by
  have h0 : Reaches (watch ⟨30, 5⟩) (Guard ⟨30, 5⟩) (Watched.init 100)
    (Watched.init 100) := .start
  have h1 := h0.step (a := Action.enter) ⟨trivial, trivial⟩ rfl
  have h2 := h1.step (a := Action.scan 0 fun _ => true)
    ⟨trivial, fun _ _ => .inr fun _ hc => by cases hc⟩ rfl
  have h3 := h2.after_all [.delete 0, .subtract 0, .create 0, .count 0, .hand 0, .release 0]
    (guard_of_plain (by decide)) rfl
  have h4 := h3.step (a := Action.judge 1 true)
    ⟨trivial, fun _ _ => .inl (by decide : (30 : UInt32).toNat < 100)⟩ rfl
  have h5 := h4.after_all [.keep 1] (guard_of_plain (by decide)) rfl
  have h6 := h5.step (a := Action.clock 110) ⟨(by decide : 100 ≤ 110), trivial⟩ rfl
  have h7 := h6.step (a := Action.enter) ⟨trivial, trivial⟩ rfl
  have h8 := h7.step (a := Action.scan 2 fun _ => true)
    ⟨trivial, cond_of_first rfl rfl (by decide : 110-100 ≤ 1000*(30 : UInt32).toNat)⟩ rfl
  have h9 := h8.after_all [.delete 2, .subtract 2, .hand 2] (guard_of_plain (by decide)) rfl
  exact ⟨_, h9, (connection_lifetime h9).1, rfl⟩

/-- With a lifetime of 30 s, a connection of the age of one minute is used again. -/
theorem aged_connection_reused :
    ∃ w, Reaches (watch ⟨30000, 5⟩) Clocked (Watched.init 1000000000) w ∧
      w.reused = [60000000] ∧ ¬ Lifetime ⟨30000, 5⟩ w := by
  have h0 : Reaches (watch ⟨30000, 5⟩) Clocked (Watched.init 1000000000)
    (Watched.init 1000000000) := .start
  have h1 := h0.after_all [.enter, .scan 0 fun _ => true, .delete 0, .subtract 0, .create 0,
    .count 0, .hand 0, .release 0, .judge 1 true, .keep 1] (by simp [Clocked, Nondecreasing]) rfl
  have h2 := h1.step (a := Action.clock 1060000000) (by decide : 1000000000 ≤ 1060000000) rfl
  have h3 := h2.after_all [.enter, .scan 2 fun _ => true, .delete 2, .subtract 2, .hand 2]
    (by simp [Clocked, Nondecreasing]) rfl
  refine ⟨_, h3, rfl, fun h => ?_⟩
  have hyoung : 60000000 ≤ 1000*(30000 : UInt32).toNat := h.young 60000000 (.head _)
  revert hyoung
  decide

end Lamb.ConnectionLifetime
