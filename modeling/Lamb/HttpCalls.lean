import Lamb.HttpTrace

/-!
# Calls of http_parser_execute

What holds at every byte of a call, whatever the callbacks do with their data: the
marks that are set are those of the phase, and an upgrade request is never followed
by another message. Two calls that read the same bytes agree while one of them is
interrupted between tokens, or inside a token whose callback takes it in pieces.
-/

set_option autoImplicit false

namespace Lamb.HttpCalls
open Lamb.ByteString Lamb.HttpUrl Lamb.HttpMachine Lamb.HttpParser Lamb.HttpTrace Lamb.Tokens

variable {σ : Type}

def home : Phase → Option Token
  | .url => some .url
  | .status => some .status
  | .fieldFresh => some .headerField
  | .field => some .headerField
  | .value => some .headerValue
  | .body => some .body
  | .bodyOpen => some .body
  | _ => none

/-- The open marks fit the phase; in phase `body` the mark may be missing. -/
structure Fits (q : Phase) (b : Buffers Token σ) : Prop where
  closed : ∀ t, home q ≠ some t → b.marks t = none
  opened : ∀ t, home q = some t → q ≠ .body → b.marks t ≠ none

theorem next_mark (p q : Phase) (t : Token) (h : nextPhase p (.mark t) = some q) :
    home q = some t ∧ q ≠ .body ∧ ∀ u, u ≠ t → home p ≠ some u := by
  cases p <;> cases t <;> cases h <;> simp [home, eq_comm]

theorem next_report (p q : Phase) (t : Token) (inclusive : Bool)
    (h : nextPhase p (.report t inclusive) = some q) : home p = some t ∧ home q = none := by
  cases p <;> cases t <;> cases inclusive <;> cases h <;> exact ⟨rfl, rfl⟩

theorem next_notify (p q : Phase) (n : Event) (h : nextPhase p (.notify n) = some q) :
    home p = none ∧ home q = none := by
  cases p <;> cases n <;> cases h <;> exact ⟨rfl, rfl⟩

theorem fits_op (h : Settings σ) (i : Info) (ch : UInt8) (op : Op) (p q : Phase)
    (b b' : Buffers Token σ) (hn : nextPhase p op = some q) (hb : Fits p b)
    (hr : runOp h i ch b op = (b', none)) : Fits q b' := by
  cases op with
  | mark t =>
    obtain ⟨hq, hbody, hp⟩ := next_mark p q t hn
    have hother : ∀ u, u ≠ t → b.marks u = none := fun u hu => hb.closed u (hp u hu)
    have hresult : b'.marks t ≠ none ∧ ∀ u, u ≠ t → b'.marks u = none := by
      simp only [runOp] at hr
      split at hr
      case h_1 bs hm =>
        obtain ⟨rfl, -⟩ := Prod.mk.inj hr
        exact ⟨by rw [hm]; exact Option.some_ne_none bs, hother⟩
      case h_2 =>
        obtain ⟨rfl, -⟩ := Prod.mk.inj hr
        refine ⟨by rw [Buffers.set_self]; exact Option.some_ne_none [], ?_⟩
        intro u hu
        rw [Buffers.set_other b t u _ hu]
        exact hother u hu
    constructor
    · intro u hu
      exact hresult.2 u (fun he => hu (by rw [hq, he]))
    · intro u hu _
      obtain rfl : t = u := Option.some.inj (hq.symm.trans hu)
      exact hresult.1
  | report t inclusive =>
    obtain ⟨hp, hq⟩ := next_report p q t inclusive hn
    have hother : ∀ u, u ≠ t → b.marks u = none := by
      intro u hu
      apply hb.closed
      rw [hp]
      exact fun he => hu (Option.some.inj he).symm
    have hnone : ∀ u, b'.marks u = none := by
      intro u
      simp only [runOp] at hr
      split at hr
      case h_1 hm =>
        obtain ⟨rfl, -⟩ := Prod.mk.inj hr
        by_cases hu : u = t
        · rw [hu]
          exact hm
        · exact hother u hu
      case h_2 =>
        split at hr
        · cases (Prod.mk.inj hr).2
        · obtain ⟨rfl, -⟩ := Prod.mk.inj hr
          by_cases hu : u = t
          · rw [hu]
            exact Buffers.set_self b t none
          · exact (Buffers.set_other b t u none hu).trans (hother u hu)
    exact ⟨fun u _ => hnone u, fun u hu => by rw [hq] at hu; cases hu⟩
  | notify n =>
    obtain ⟨hp, hq⟩ := next_notify p q n hn
    obtain ⟨rfl, -⟩ := Prod.mk.inj hr
    refine ⟨fun u _ => ?_, fun u hu => by rw [hq] at hu; cases hu⟩
    exact hb.closed u (by rw [hp]; intro he; cases he)

theorem settles_home (r q : Phase) (h : r.settles q = true) :
    (home q = home r ∧ r ≠ .body) ∨ (q = .body ∧ home r = none) := by
  cases r <;> cases q <;> first | exact absurd h (by decide) | simp [home]

theorem fits_settle (r q : Phase) (b : Buffers Token σ) (ch : UInt8) (hs : r.settles q = true)
    (hb : Fits r b) : Fits q (b.extend ch) := by
  rcases settles_home r q hs with ⟨hq, hr⟩ | ⟨rfl, hr⟩
  · constructor
    · intro t ht
      simp only [Buffers.extend, hb.closed t (hq ▸ ht), Option.map_none]
    · intro t ht _
      have ho := hb.opened t (hq ▸ ht) hr
      simpa [Buffers.extend] using ho
  · refine ⟨fun t _ => ?_, fun t _ hne => absurd rfl hne⟩
    simp only [Buffers.extend, hb.closed t (by rw [hr]; intro he; cases he),
      Option.map_none]

theorem reopen_home (s : State) : reopen s = home (phase s) ∨ phase s = .body := by
  cases s <;> first | exact .inl rfl | exact .inr rfl

theorem reopen_body (s : State) (h : phase s = .body) : reopen s = none := by
  cases s <;> first | rfl | cases h

theorem fits_openMarks (s : State) (d : σ) : Fits (phase s) (openMarks s d) := by
  unfold openMarks
  rcases reopen_home s with h | h
  · cases hr : reopen s with
    | none =>
      refine ⟨fun t _ => rfl, fun t ht => ?_⟩
      rw [← h, hr] at ht
      cases ht
    | some t =>
      rw [hr] at h
      constructor
      · intro u hu
        rw [← h] at hu
        exact Buffers.set_other _ t u _ (fun he => hu (by rw [he]))
      · intro u hu _
        obtain rfl : t = u := Option.some.inj (h.trans hu)
        rw [Buffers.set_self]
        exact Option.some_ne_none []
  · rw [reopen_body s h, h]
    exact ⟨fun t _ => rfl, fun t _ hne => absurd rfl hne⟩

def Phase.early : Phase → Bool
  | .start => true
  | .url => true
  | .status => true
  | _ => false

structure Sound (p : HttpMachine.HttpParser) (b : Buffers Token σ) : Prop where
  settled : Settled p
  fits : Fits (phase p.state) b
  fresh : Phase.early (phase p.state) = true → p.upgrade = false

/-- From a phase before the headers one byte does not get past them. -/
theorem early_trace (ops : List Op) (q r : Phase) (h : trace nextPhase ops q = some r)
    (hq : Phase.early q = true) :
    (Phase.early r = true ∨ r = .lineEnd) ∧ .notify .headersComplete ∉ ops := by
  have hline : ∀ ops r, trace nextPhase ops .lineEnd = some r → r = .lineEnd ∧ ops = [] := by
    intro ops r h
    cases ops with
    | nil => exact ⟨(Option.some.inj h).symm, rfl⟩
    | cons op ops =>
      obtain ⟨s, hs, -⟩ := Option.bind_eq_some_iff.mp h
      cases op <;> cases hs
  induction ops generalizing q with
  | nil =>
    obtain rfl : q = r := Option.some.inj h
    exact ⟨.inl hq, List.not_mem_nil⟩
  | cons op ops ih =>
    obtain ⟨s, hs, hrest⟩ := Option.bind_eq_some_iff.mp h
    have hop : op ≠ .notify .headersComplete := by
      rintro rfl
      cases q <;> first | exact absurd hq (by decide) | cases hs
    have hnext : Phase.early s = true ∨ s = .lineEnd := by
      unfold nextPhase at hs
      split at hs <;> cases hs <;>
        first | exact .inl rfl | exact .inr rfl | exact absurd hq (by decide)
    rcases hnext with hs' | rfl
    · obtain ⟨hr, hmem⟩ := ih s hrest hs'
      refine ⟨hr, ?_⟩
      rintro (- | ⟨-, hm⟩)
      · exact hop rfl
      · exact hmem hm
    · obtain ⟨rfl, rfl⟩ := hline ops r hrest
      refine ⟨.inr rfl, ?_⟩
      rw [List.mem_singleton]
      exact fun he => hop he.symm

/-- Once past the first line, a byte does not get to the next one. -/
theorem late_next (q s : Phase) (op : Op) (h : nextPhase q op = some s)
    (hq : Phase.early q = false) : Phase.early s = false := by
  unfold nextPhase at h
  split at h <;> cases h <;> first | rfl | exact absurd hq (by decide)

theorem late_trace (ops : List Op) (q r : Phase) (h : trace nextPhase ops q = some r)
    (hq : Phase.early q = false) : Phase.early r = false := by
  induction ops generalizing q with
  | nil =>
    obtain rfl : q = r := Option.some.inj h
    exact hq
  | cons op ops ih =>
    obtain ⟨s, hs, hrest⟩ := Option.bind_eq_some_iff.mp h
    exact ih s hrest (late_next q s op hs hq)

theorem url_early (ops : List Op) (q r : Phase) (inclusive : Bool)
    (h : trace nextPhase ops q = some r) (hmem : .report .url inclusive ∈ ops) :
    Phase.early q = true := by
  induction ops generalizing q with
  | nil => cases hmem
  | cons op ops ih =>
    obtain ⟨s, hs, hrest⟩ := Option.bind_eq_some_iff.mp h
    rcases List.mem_cons.mp hmem with rfl | hmem
    · obtain ⟨hq, -⟩ := next_report q s .url inclusive hs
      cases q <;> first | rfl | cases hq
    · have hs' := ih s hrest hmem
      cases hq : Phase.early q with
      | true => rfl
      | false => rw [late_next q s op hs hq] at hs'; cases hs'

theorem complete_trace (ops : List Op) (q : Phase) (h : trace nextPhase ops q = some .complete)
    (hq : q ≠ .complete) : .notify .messageComplete ∈ ops := by
  refine trace_entered nextPhase _ .complete ?_ ops q h hq
  intro p op hop
  unfold nextPhase at hop
  split at hop <;> first | rfl | cases hop

theorem early_settles (r q : Phase) (h : r.settles q = true) (hq : Phase.early q = true) :
    Phase.early r = true ∨ r = .complete := by
  cases r <;> cases q <;>
    first
    | exact .inl rfl
    | exact .inr rfl
    | exact absurd h (by decide)
    | exact absurd hq (by decide)

variable {cfg : Config} {h : Settings σ}

theorem step_live (m : Call σ) (ch : UInt8) (hl : (m.step cfg h ch).live = true) :
    m.live = true ∧ ∃ p ops b, byte cfg m.parser ch = .go p ops ∧
      runOps h (info p) ch ops m.buffers = (b, none) ∧
      m.step cfg h ch = ⟨p, b.extend ch, true, m.parsed+1⟩ := by
  by_cases hm : m.live = true
  · refine ⟨hm, ?_⟩
    simp only [Call.step, hm, Bool.not_true, Bool.false_eq_true, if_false] at hl ⊢
    cases hb : byte cfg m.parser ch with
    | go p ops =>
      simp only [hb] at hl ⊢
      cases hr : runOps h (info p) ch ops m.buffers with
      | mk b failed =>
        cases failed with
        | none => exact ⟨p, ops, b, rfl, hr, rfl⟩
        | some t =>
          simp only [hr, Call.callbackFailed] at hl
          cases hl
    | leave p ops =>
      simp only [hb] at hl
      split at hl <;> cases hl
    | error e p ops =>
      simp only [hb] at hl
      split at hl <;> cases hl
  · simp only [Call.step, hm, Bool.not_false, if_true] at hl
    cases hl

theorem callbackErrno_ne (t : Token) : callbackErrno t ≠ .OK := by
  cases t <;> decide

/-- A byte that was parsed and with which the loop was left without an error. -/
theorem step_left (m : Call σ) (ch : UInt8) (hm : m.live = true)
    (hl : (m.step cfg h ch).live = false) (hp : (m.step cfg h ch).parsed = m.parsed+1)
    (he : (m.step cfg h ch).parser.httpErrno = .OK) :
    ∃ p ops b, byte cfg m.parser ch = .leave p ops ∧
      runOps h (info p) ch ops m.buffers = (b, none) ∧
      m.step cfg h ch = ⟨p, b, false, m.parsed+1⟩ := by
  simp only [Call.step, hm, Bool.not_true, Bool.false_eq_true, if_false] at hl hp he ⊢
  cases hb : byte cfg m.parser ch with
  | go p ops =>
    simp only [hb] at hl he
    split at hl
    · cases hl
    · next hr =>
      simp only [hr, Call.callbackFailed] at he
      exact absurd he (callbackErrno_ne _)
  | leave p ops =>
    simp only [hb] at he ⊢
    cases hr : runOps h (info p) ch ops m.buffers with
    | mk b failed =>
      cases failed with
      | none => exact ⟨p, ops, b, rfl, hr, rfl⟩
      | some t =>
        simp only [hr, Call.callbackFailed] at he
        exact absurd he (callbackErrno_ne t)
  | error e p ops =>
    simp only [hb] at hp he
    split at hp
    · simp only at hp
      omega
    · next hr =>
      simp only [hr, Call.callbackFailed] at he
      exact absurd he (callbackErrno_ne _)

/-- The operations of a byte that ends in `p` keep the invariant. -/
theorem sound_of_step {p p' : HttpMachine.HttpParser} {b b' : Buffers Token σ} {ops : List Op}
    {ch : UInt8} (hs : Sound p b) (hstep : Step (phase p.state) p.upgrade ch p' ops)
    (hc : .notify .messageComplete ∈ ops → p'.upgrade = false)
    (hr : runOps h (info p') ch ops b = (b', none)) : Sound p' (b'.extend ch) := by
  obtain ⟨r, htrace, hsettles⟩ := hstep.traced
  refine ⟨hstep.settled, ?_, ?_⟩
  · have hfits := runOps_invariant nextPhase h (info p') ch Fits ops
      (fun op _ p q b b' => fits_op h (info p') ch op p q b b') _ r b b' htrace hs.fits hr
    exact fits_settle r _ b' ch hsettles hfits
  · intro hearly
    cases hq : Phase.early (phase p.state) with
    | true =>
      rw [hstep.kept (early_trace ops _ r htrace hq).2]
      exact hs.fresh hq
    | false =>
      rcases early_settles r _ hsettles hearly with hr' | rfl
      · rw [late_trace ops _ r htrace hq] at hr'
        cases hr'
      · refine hc (complete_trace ops _ htrace ?_)
        cases p.state <;> (intro he; cases he)

theorem sound_step (m : Call σ) (ch : UInt8) (hs : Sound m.parser m.buffers)
    (hl : (m.step cfg h ch).live = true) :
    Sound (m.step cfg h ch).parser (m.step cfg h ch).buffers := by
  obtain ⟨-, p, ops, b, hbyte, hrun, hstep⟩ := step_live m ch hl
  have hord := byte_ordered cfg m.parser ch hs.settled
  rw [hbyte] at hord
  rw [hstep]
  exact sound_of_step hs hord.1 hord.2 hrun

def read (cfg : Config) (h : Settings σ) (bs : Bytes) (m : Call σ) : Call σ :=
  bs.foldl (Call.step cfg h) m

theorem read_append (as bs : Bytes) (m : Call σ) :
    read cfg h (as ++ bs) m = read cfg h bs (read cfg h as m) :=
  List.foldl_append

theorem step_dead (m : Call σ) (ch : UInt8) (hm : m.live = false) : m.step cfg h ch = m := by
  simp [Call.step, hm]

theorem read_dead (bs : Bytes) (m : Call σ) (hm : m.live = false) : read cfg h bs m = m := by
  induction bs with
  | nil => rfl
  | cons ch bs ih =>
    calc read cfg h (ch::bs) m = read cfg h bs (m.step cfg h ch) := rfl
      _ = read cfg h bs m := by rw [step_dead m ch hm]
      _ = m := ih

theorem step_parsed (m : Call σ) (ch : UInt8) : (m.step cfg h ch).parsed ≤ m.parsed+1 := by
  unfold Call.step
  split_ifs
  · omega
  · split <;> split <;> simp [Call.callbackFailed]

theorem read_parsed (bs : Bytes) (m : Call σ) :
    (read cfg h bs m).parsed ≤ m.parsed+bs.length := by
  induction bs generalizing m with
  | nil => exact le_refl _
  | cons ch bs ih =>
    have hrest := ih (m.step cfg h ch)
    have hstep : (m.step cfg h ch).parsed ≤ m.parsed+1 := step_parsed m ch
    simp only [read, List.foldl_cons, List.length_cons] at hrest ⊢
    omega

/-- When a whole buffer is parsed, the loop goes on after each of its bytes but the
last one. -/
theorem read_before (as bs : Bytes) (m : Call σ) (hbs : bs ≠ [])
    (hp : (read cfg h (as ++ bs) m).parsed = m.parsed+(as ++ bs).length) :
    (read cfg h as m).live = true ∧ (read cfg h as m).parsed = m.parsed+as.length := by
  have hpos : 0 < bs.length := List.length_pos_iff.mpr hbs
  have has : (read cfg h as m).parsed ≤ _ := read_parsed as m
  have hrest : (read cfg h bs (read cfg h as m)).parsed ≤ _ := read_parsed bs _
  rw [read_append, List.length_append] at hp
  constructor
  · by_contra hl
    rw [read_dead bs _ (Bool.eq_false_of_not_eq_true hl)] at hp
    omega
  · omega

theorem read_cons_live (ch : UInt8) (bs : Bytes) (m : Call σ)
    (hl : (read cfg h (ch::bs) m).live = true) : (m.step cfg h ch).live = true := by
  by_contra hdead
  have hsame : read cfg h (ch::bs) m = m.step cfg h ch :=
    read_dead bs _ (Bool.eq_false_of_not_eq_true hdead)
  rw [hsame] at hl
  exact hdead hl

theorem read_sound (bs : Bytes) (m : Call σ) (hs : Sound m.parser m.buffers)
    (hl : (read cfg h bs m).live = true) :
    Sound (read cfg h bs m).parser (read cfg h bs m).buffers := by
  induction bs generalizing m with
  | nil => exact hs
  | cons ch bs ih =>
    have hstep := read_cons_live ch bs m hl
    exact ih (m.step cfg h ch) (sound_step m ch hs hstep) hl

structure Cuttable (cfg : Config) (h : Settings σ) (D : Token → Prop) : Prop where
  divisible : ∀ t, D t → Divisible h t
  headers : ∀ t, D t → t ≠ .headerField ∧ t ≠ .headerValue
  steady : ∀ t, D t → ∀ (p p' : HttpMachine.HttpParser) (ch : UInt8) (ops : List Op),
    home (phase p.state) = some t → (byte cfg p ch = .go p' ops ∨ byte cfg p ch = .leave p' ops) →
    h.token t (info p') = h.token t (info p)

def Agree (h : Settings σ) (D : Token → Prop) (i : Info) (q : Phase) (b c : Buffers Token σ) :
    Prop :=
  b = c ∨ ∃ t, D t ∧ home q = some t ∧
    (Reported h i t b c ∨ (q = .body ∧ ReportedAll h i t b c))

theorem agree_op {D : Token → Prop} (hD : ∀ t, D t → Divisible h t) (i : Info) (ch : UInt8)
    (p q : Phase) (op : Op) (b c : Buffers Token σ) (hn : nextPhase p op = some q)
    (ha : Agree h D i p b c) :
    (∃ b' c', runOp h i ch b op = (b', none) ∧ runOp h i ch c op = (c', none) ∧
      Agree h D i q b' c') ∨
    ∃ b' t, runOp h i ch b op = (b', some t) ∧ runOp h i ch c op = (b', some t) := by
  rcases ha with rfl | ⟨t, ht, hp, hrep⟩
  · cases hr : runOp h i ch b op with
    | mk b' failed =>
      cases failed with
      | none => exact .inl ⟨b', b', rfl, rfl, .inl rfl⟩
      | some t => exact .inr ⟨b', t, rfl, rfl⟩
  · left
    cases op with
    | mark u =>
      obtain ⟨hq, -, hu⟩ := next_mark p q u hn
      obtain rfl : t = u := by
        by_contra hne
        exact hu t hne hp
      rcases hrep with hrep | ⟨rfl, hrep⟩
      · exact ⟨b, c, (hrep.mark ch).1, (hrep.mark ch).2, .inr ⟨t, ht, hq, .inl hrep⟩⟩
      · obtain ⟨hb, c', hc, hrep'⟩ := hrep.mark ch
        exact ⟨b, c', hb, hc, .inr ⟨t, ht, hq, .inl hrep'⟩⟩
    | report u inclusive =>
      obtain ⟨hu, hq⟩ := next_report p q u inclusive hn
      obtain rfl : t = u := Option.some.inj (hp.symm.trans hu)
      rcases hrep with hrep | ⟨rfl, hrep⟩
      · obtain ⟨b', hb, hc⟩ := hrep.report (hD t ht) ch inclusive
        exact ⟨b', b', hb, hc, .inl rfl⟩
      · cases inclusive with
        | false => exact ⟨c, c, (hrep.report ch).1, (hrep.report ch).2, .inl rfl⟩
        | true => cases t <;> cases hn
    | notify n =>
      rw [(next_notify p q n hn).1] at hp
      cases hp

theorem agree_settle {D : Token → Prop} (i : Info) (r q : Phase) (b c : Buffers Token σ)
    (ch : UInt8) (hs : r.settles q = true) (ha : Agree h D i r b c) :
    Agree h D i q (b.extend ch) (c.extend ch) := by
  rcases ha with rfl | ⟨t, ht, hr, hrep⟩
  · exact .inl rfl
  · rcases settles_home r q hs with ⟨hq, hbody⟩ | ⟨-, hnone⟩
    · rcases hrep with hrep | ⟨rfl, -⟩
      · exact .inr ⟨t, ht, hq.trans hr, .inl (hrep.extend ch)⟩
      · exact absurd rfl hbody
    · rw [hnone] at hr
      cases hr

structure Sim (h : Settings σ) (D : Token → Prop) (u v : Call σ) : Prop where
  live : u.live = true
  live' : v.live = true
  parser : v.parser = u.parser
  sound : Sound u.parser u.buffers
  sound' : Sound u.parser v.buffers
  agree : Agree h D (info u.parser) (phase u.parser.state) u.buffers v.buffers

theorem agree_ops {D : Token → Prop} (hD : Cuttable cfg h D) {u v : Call σ} (hs : Sim h D u v)
    {p : HttpMachine.HttpParser} {ops : List Op} {ch : UInt8} {r : Phase} {b : Buffers Token σ}
    (hbyte : byte cfg u.parser ch = .go p ops ∨ byte cfg u.parser ch = .leave p ops)
    (ht : trace nextPhase ops (phase u.parser.state) = some r)
    (hr : runOps h (info p) ch ops u.buffers = (b, none)) :
    ∃ c, runOps h (info p) ch ops v.buffers = (c, none) ∧ Agree h D (info p) r b c := by
  have hagree : Agree h D (info p) (phase u.parser.state) u.buffers v.buffers := by
    rcases hs.agree with he | ⟨t, ht, hhome, hrep⟩
    · exact .inl he
    · refine .inr ⟨t, ht, hhome, ?_⟩
      have hsteady := hD.steady t ht u.parser p ch ops hhome hbyte
      simp only [Reported, ReportedAll, hsteady] at hrep ⊢
      exact hrep
  rcases runOps_simulation nextPhase h (info p) ch (Agree h D (info p))
      (fun p' q op b c => agree_op hD.divisible (info p) ch p' q op b c) ops _ r _ _ ht hagree with
    ⟨b', c, hb, hc, ha⟩ | ⟨b', t, hb, -⟩
  · obtain rfl : b = b' := (Prod.mk.inj (hr.symm.trans hb)).1
    exact ⟨c, hc, ha⟩
  · cases (Prod.mk.inj (hr.symm.trans hb)).2

theorem sim_step {D : Token → Prop} (hD : Cuttable cfg h D) {u v : Call σ} (ch : UInt8)
    (hs : Sim h D u v) (hl : (u.step cfg h ch).live = true) :
    Sim h D (u.step cfg h ch) (v.step cfg h ch) := by
  have hsound := sound_step u ch hs.sound hl
  obtain ⟨-, p, ops, b, hbyte, hrun, hstep⟩ := step_live u ch hl
  have hord := byte_ordered cfg u.parser ch hs.sound.settled
  rw [hbyte] at hord
  obtain ⟨r, htrace, hsettles⟩ := hord.1.traced
  obtain ⟨c, hc, hagree⟩ := agree_ops hD hs (.inl hbyte) htrace hrun
  have hv : v.step cfg h ch = ⟨p, c.extend ch, true, v.parsed+1⟩ := by
    simp only [Call.step, hs.live', Bool.not_true, Bool.false_eq_true, if_false, hs.parser, hbyte,
      hc]
  have hsound' := sound_of_step hs.sound' hord.1 hord.2 hc
  rw [hstep] at hsound ⊢
  rw [hv]
  exact ⟨rfl, rfl, rfl, hsound, hsound', agree_settle _ r _ b c ch hsettles hagree⟩

theorem sim_left {D : Token → Prop} (hD : Cuttable cfg h D) {u v : Call σ} (ch : UInt8)
    (hs : Sim h D u v) (hl : (u.step cfg h ch).live = false)
    (hp : (u.step cfg h ch).parsed = u.parsed+1)
    (he : (u.step cfg h ch).parser.httpErrno = .OK) :
    (v.step cfg h ch).live = false ∧ (v.step cfg h ch).parser = (u.step cfg h ch).parser ∧
      (v.step cfg h ch).buffers.data = (u.step cfg h ch).buffers.data := by
  obtain ⟨p, ops, b, hbyte, hrun, hstep⟩ := step_left u ch hs.live hl hp he
  have hord := byte_ordered cfg u.parser ch hs.sound.settled
  rw [hbyte] at hord
  obtain ⟨r, htrace, hsettles⟩ := hord.1.traced
  obtain ⟨c, hc, hagree⟩ := agree_ops hD hs (.inr hbyte) htrace hrun
  have hv : v.step cfg h ch = ⟨p, c, false, v.parsed+1⟩ := by
    simp only [Call.step, hs.live', Bool.not_true, Bool.false_eq_true, if_false, hs.parser, hbyte,
      hc]
  have hbc : b = c := by
    rcases hagree with hbc | ⟨t, -, hhome, -⟩
    · exact hbc
    · -- after a message no token is open
      rw [hord.2.2] at hsettles
      cases r <;> first | exact absurd hsettles (by decide) | cases hhome
  rw [hstep, hv, hbc]
  exact ⟨rfl, rfl, rfl⟩

theorem mem_flushOrder (t : Token) : t ∈ flushOrder := by
  cases t <;> decide

theorem Fits.only {q : Phase} {b : Buffers Token σ} {t : Token} (hb : Fits q b)
    (hq : home q = some t) : ∀ u, u ≠ t → b.marks u = none := by
  intro u hu
  apply hb.closed
  rw [hq]
  exact fun he => hu (Option.some.inj he).symm

/-- At the end of the buffer the open token is reported to the same effect. -/
theorem agree_flush {D : Token → Prop} (hD : ∀ t, D t → Divisible h t) (i : Info) (q : Phase)
    (b c : Buffers Token σ) (hb : Fits q b) (hc : Fits q c) (ha : Agree h D i q b c) :
    flush h i flushOrder b = flush h i flushOrder c := by
  rcases ha with rfl | ⟨t, ht, hq, hrep⟩
  · rfl
  · rw [flush_single h i flushOrder b t (hb.only hq) (mem_flushOrder t),
      flush_single h i flushOrder c t (hc.only hq) (mem_flushOrder t)]
    rcases hrep with hrep | ⟨-, hrep⟩
    · obtain ⟨b', hb', hc'⟩ := hrep.report (hD t ht) 0 false
      rw [hb', hc']
    · rw [(hrep.report 0).1, (hrep.report 0).2]

theorem cuttable_calm {D : Token → Prop} (hD : Cuttable cfg h D) {p : HttpMachine.HttpParser}
    (hp : Settled p) (hsafe : ∀ t, home (phase p.state) = some t → D t) : Calm p := by
  apply hp.calm
  · intro hs
    rw [hs] at hsafe
    exact (hD.headers _ (hsafe .headerField rfl)).1 rfl
  · intro hs
    rw [hs] at hsafe
    exact (hD.headers _ (hsafe .headerValue rfl)).2 rfl

theorem calm_eq {p : HttpMachine.HttpParser} (hp : Calm p) :
    { p with segment := 0, general := 0 } = p := by
  obtain ⟨hsegment, hgeneral, -⟩ := hp
  cases p
  simp only at hsegment hgeneral
  rw [hsegment, hgeneral]

theorem finish_calm (cfg : Config) (h : Settings σ) (m : Call σ) (hm : m.live = true)
    (hp : Calm m.parser) :
    (m.finish cfg h).buffers = (flush h (info m.parser) flushOrder m.buffers).1 ∧
      ((flush h (info m.parser) flushOrder m.buffers).2 = none →
        (m.finish cfg h).parser = m.parser) := by
  simp only [Call.finish, hm, Bool.not_true, Bool.false_eq_true, if_false, hp.1, ne_eq,
    not_true_eq_false, false_and, if_true]
  cases flush h (info m.parser) flushOrder m.buffers with
  | mk b failed =>
    cases failed with
    | none => exact ⟨rfl, fun _ => rfl⟩
    | some t => exact ⟨rfl, by intro he; cases he⟩

theorem finish_sim {D : Token → Prop} (hD : Cuttable cfg h D) {u v : Call σ} (hs : Sim h D u v) :
    (v.finish cfg h).parser = (u.finish cfg h).parser ∧
      (v.finish cfg h).buffers.data = (u.finish cfg h).buffers.data := by
  have hflush : ∀ i, i = info u.parser →
      flush h i flushOrder v.buffers = flush h i flushOrder u.buffers := by
    rintro i rfl
    exact (agree_flush hD.divisible _ _ _ _ hs.sound.fits hs.sound'.fits hs.agree).symm
  by_cases hcalm : u.parser.segment = 0
  · simp only [Call.finish, hs.live, hs.live', hs.parser, Bool.not_true, Bool.false_eq_true,
      if_false, hcalm, ne_eq, not_true_eq_false, false_and, if_true]
    rw [hflush _ rfl]
    cases flush h (info u.parser) flushOrder u.buffers with
    | mk b failed => cases failed <;> exact ⟨rfl, rfl⟩
  · -- inside a header both calls have the same data
    have heq : u.buffers = v.buffers := by
      rcases hs.agree with heq | ⟨t, ht, hhome, -⟩
      · exact heq
      · have hsafe : ∀ t', home (phase u.parser.state) = some t' → D t' := by
          intro t' ht'
          obtain rfl : t = t' := Option.some.inj (hhome.symm.trans ht')
          exact ht
        exact absurd (cuttable_calm hD hs.sound.settled hsafe).1 hcalm
    have hv : v.finish cfg h = { u.finish cfg h with parsed := (v.finish cfg h).parsed } := by
      simp only [Call.finish, hs.live, hs.live', hs.parser, Bool.not_true, Bool.false_eq_true,
        if_false, ← heq]
      split_ifs <;> (try rfl)
      all_goals
        split <;> rfl
    rw [hv]
    exact ⟨rfl, rfl⟩

/-- Without a token to open again, closed marks stay as they are. -/
theorem openMarks_closed {v : Buffers Token σ} {state : State} (hnone : ∀ t, v.marks t = none)
    (hre : reopen state = none) : openMarks state v.data = v := by
  simp only [openMarks, hre]
  exact Buffers.ext_marks (fun t => (hnone t).symm) rfl

/-- Everything since the mark of the uninterrupted call is reported at the end of the
buffer. -/
theorem Sim.reported_since {D : Token → Prop} {u v : Call σ} (hs : Sim h D u v) {t : Token}
    (hdivisible : Divisible h t) (hhome : home (phase u.parser.state) = some t) {y : Bytes}
    {d : σ} (hm : v.buffers.marks t = some y)
    (hd : h.token t (info u.parser) y v.buffers.data = some d) :
    ∃ x, u.buffers.marks t = some x ∧
      h.token t (info u.parser) x u.buffers.data = some d := by
  rcases hs.agree with heq | ⟨t', -, hhome', hrep⟩
  · exact ⟨y, by rw [heq, hm], by rw [heq]; exact hd⟩
  · obtain rfl : t = t' := Option.some.inj (hhome.symm.trans hhome')
    rcases hrep with ⟨x, y', hb, hc, -, hxd⟩ | ⟨-, x, -, hc, -⟩
    · obtain rfl : y = y' := Option.some.inj (hm.symm.trans hc)
      refine ⟨x ++ y, hb, ?_⟩
      rw [hdivisible.append, hxd]
      exact hd
    · rw [hc] at hm
      cases hm

/-- A call that opens its token again agrees with one that kept it open. -/
theorem agree_reopened {D : Token → Prop} {p : HttpMachine.HttpParser} {b : Buffers Token σ}
    {t : Token} (ht : D t) (hhome : home (phase p.state) = some t) (hfits : Fits (phase p.state) b)
    {x : Bytes} {d : σ} (hx : b.marks t = some x)
    (hxd : h.token t (info p) x b.data = some d) :
    Agree h D (info p) (phase p.state) b (openMarks p.state d) := by
  have hothers : ∀ t', t' ≠ t → b.marks t' = none := hfits.only hhome
  refine .inr ⟨t, ht, hhome, ?_⟩
  rcases reopen_home p.state with hr | hr
  · left
    rw [hhome] at hr
    refine ⟨x, [], by rw [List.append_nil]; exact hx, ?_, ?_, ?_⟩
    · simp only [openMarks, hr, Buffers.set_self]
    · intro t' ht'
      simp only [openMarks, hr]
      rw [Buffers.set_other _ t t' _ ht', hothers t' ht']
      rfl
    · simp only [openMarks, hr]
      exact hxd
  · right
    refine ⟨hr, x, hx, ?_, ?_, ?_⟩
    · simp only [openMarks, reopen_body _ hr]
      rfl
    · intro t' ht'
      simp only [openMarks, reopen_body _ hr]
      rw [hothers t' ht']
      rfl
    · simp only [openMarks, reopen_body _ hr]
      exact hxd

/-- What the callback of the open token makes of an interruption. -/
theorem agree_interrupt {D : Token → Prop} (hD : Cuttable cfg h D) {u v : Call σ}
    (hs : Sim h D u v) (hsafe : ∀ t, home (phase u.parser.state) = some t → D t) :
    ∃ c, flush h (info u.parser) flushOrder v.buffers = (c, none) ∧
      Agree h D (info u.parser) (phase u.parser.state) u.buffers
        (openMarks u.parser.state c.data) := by
  cases hhome : home (phase u.parser.state) with
  | none =>
    have hnone : ∀ t, v.buffers.marks t = none := by
      intro t
      apply hs.sound'.fits.closed
      rw [hhome]
      intro he
      cases he
    have hre : reopen u.parser.state = none := by
      rcases reopen_home u.parser.state with hr | hr
      · rw [hr, hhome]
      · exact reopen_body _ hr
    refine ⟨v.buffers, flush_closed _ _ _ _ (fun t _ => hnone t), ?_⟩
    rw [openMarks_closed hnone hre]
    exact hs.agree
  | some t =>
    have ht := hsafe t hhome
    have honly := hs.sound'.fits.only hhome
    rw [flush_single h _ flushOrder v.buffers t honly (mem_flushOrder t)]
    cases hm : v.buffers.marks t with
    | none =>
      have hnone : ∀ t', v.buffers.marks t' = none := by
        intro t'
        by_cases he : t' = t
        · rw [he]
          exact hm
        · exact honly t' he
      have hbody : phase u.parser.state = .body := by
        by_contra hne
        exact hs.sound'.fits.opened t hhome hne hm
      refine ⟨v.buffers, by simp only [runOp, hm], ?_⟩
      rw [openMarks_closed hnone (reopen_body _ hbody)]
      exact hs.agree
    | some y =>
      obtain ⟨d, hd⟩ := (hD.divisible t ht).total (info u.parser) y v.buffers.data
      obtain ⟨x, hx, hxd⟩ := hs.reported_since (hD.divisible t ht) hhome hm hd
      refine ⟨_, runOp_report h _ 0 v.buffers t false y d hm hd, ?_⟩
      exact agree_reopened ht hhome hs.sound.fits hx hxd

def resume (cfg : Config) (h : Settings σ) (s : HttpMachine.HttpParser × σ) (chunk : Bytes) :
    HttpMachine.HttpParser × σ :=
  let r := execute cfg h s.1 s.2 chunk
  (r.1, r.2.1)

def Call.result (m : Call σ) : HttpMachine.HttpParser × σ :=
  ({ m.parser with segment := 0, general := 0 }, m.buffers.data)

theorem execute_read (p : HttpMachine.HttpParser) (d : σ) (bs : Bytes) (he : p.httpErrno = .OK)
    (hbs : bs ≠ []) : execute cfg h p d bs =
      let m := (read cfg h bs (.begin p d)).finish cfg h
      ((Call.result m).1, (Call.result m).2, m.parsed) := by
  simp only [execute, he, ne_eq, not_true_eq_false, if_false, hbs]
  rfl

theorem resume_read (p : HttpMachine.HttpParser) (d : σ) (bs : Bytes) (he : p.httpErrno = .OK)
    (hbs : bs ≠ []) :
    resume cfg h (p, d) bs = Call.result ((read cfg h bs (.begin p d)).finish cfg h) := by
  simp only [resume]
  rw [execute_read p d bs he hbs]

theorem sim_read {D : Token → Prop} (hD : Cuttable cfg h D) (bs : Bytes) (u v : Call σ)
    (hs : Sim h D u v) (hl : (read cfg h bs u).live = true) :
    Sim h D (read cfg h bs u) (read cfg h bs v) := by
  induction bs generalizing u v with
  | nil => exact hs
  | cons ch bs ih =>
    have hstep := read_cons_live ch bs u hl
    exact ih _ _ (sim_step hD ch hs hstep) hl

/-- An interruption at a byte where no other token than a cuttable one is open. -/
theorem sim_interrupt {D : Token → Prop} (hD : Cuttable cfg h D) {u v : Call σ}
    (hs : Sim h D u v) (hsafe : ∀ t, home (phase u.parser.state) = some t → D t) :
    (Call.result (v.finish cfg h)).1 = u.parser ∧
      Sim h D u (.begin u.parser (Call.result (v.finish cfg h)).2) := by
  have hcalm := cuttable_calm hD hs.sound.settled hsafe
  obtain ⟨c, hc, hagree⟩ := agree_interrupt hD hs hsafe
  rw [← hs.parser] at hc hcalm
  obtain ⟨hbuf, hparser⟩ := finish_calm cfg h v hs.live' hcalm
  rw [hc] at hbuf hparser
  constructor
  · simp only [Call.result, hparser rfl, ← hs.parser]
    exact calm_eq hcalm
  · simp only [Call.result, hbuf]
    exact ⟨hs.live, rfl, rfl, hs.sound,
      ⟨hs.sound.settled, fits_openMarks _ _, hs.sound.fresh⟩, hagree⟩

theorem sim_end {D : Token → Prop} (hD : Cuttable cfg h D) (bs : Bytes) (u v : Call σ)
    (hs : Sim h D u v) (hbs : bs ≠ []) (hp : (read cfg h bs u).parsed = u.parsed+bs.length)
    (he : ((read cfg h bs u).finish cfg h).parser.httpErrno = .OK) :
    Call.result ((read cfg h bs v).finish cfg h) =
      Call.result ((read cfg h bs u).finish cfg h) := by
  obtain ⟨as, ch, rfl⟩ : ∃ as ch, bs = as ++ [ch] :=
    ⟨bs.dropLast, bs.getLast hbs, (List.dropLast_concat_getLast hbs).symm⟩
  obtain ⟨hl, hpas⟩ := read_before as [ch] u (List.cons_ne_nil ch []) hp
  have hsim := sim_read hD as u v hs hl
  have hresult : ∀ a b : Call σ, a.parser = b.parser → a.buffers.data = b.buffers.data →
      Call.result a = Call.result b := by
    intro a b hparser hdata
    simp only [Call.result, hparser, hdata]
  rw [read_append] at hp he ⊢
  rw [read_append]
  change ((read cfg h as u).step cfg h ch).parsed = _ at hp
  change (((read cfg h as u).step cfg h ch).finish cfg h).parser.httpErrno = _ at he
  change Call.result (((read cfg h as v).step cfg h ch).finish cfg h) =
    Call.result (((read cfg h as u).step cfg h ch).finish cfg h)
  cases hlast : ((read cfg h as u).step cfg h ch).live with
  | true =>
    obtain ⟨hparser, hdata⟩ := finish_sim hD (sim_step hD ch hsim hlast)
    exact hresult _ _ hparser hdata
  | false =>
    have hdone : ∀ m : Call σ, m.live = false → m.finish cfg h = m := by
      intro m hm
      simp only [Call.finish, hm, Bool.not_false, if_true]
    rw [hdone _ hlast] at he ⊢
    have hp' : ((read cfg h as u).step cfg h ch).parsed = (read cfg h as u).parsed+1 := by
      rw [hp, hpas, List.length_append, List.length_singleton, Nat.add_assoc]
    obtain ⟨hl', hparser, hdata⟩ := sim_left hD ch hsim hlast hp' he
    rw [hdone _ hl']
    exact hresult _ _ hparser hdata

/-- Successive calls leave behind what one call leaves behind that reads all of it. -/
theorem chunks_sim {D : Token → Prop} (hD : Cuttable cfg h D) (chunks : List Bytes) (u : Call σ)
    (d : σ) (hne : ∀ c ∈ chunks, c ≠ []) (hchunks : chunks ≠ [])
    (hs : Sim h D u (.begin u.parser d))
    (hsafe : ∀ i, 0 < i → i < chunks.length →
      ∀ t, home (phase (read cfg h (chunks.take i).flatten u).parser.state) = some t → D t)
    (hp : (read cfg h chunks.flatten u).parsed = u.parsed+chunks.flatten.length)
    (he : ((read cfg h chunks.flatten u).finish cfg h).parser.httpErrno = .OK) :
    chunks.foldl (resume cfg h) (u.parser, d) =
      Call.result ((read cfg h chunks.flatten u).finish cfg h) := by
  induction chunks generalizing u d with
  | nil => exact absurd rfl hchunks
  | cons c rest ih =>
    have hc : c ≠ [] := hne c List.mem_cons_self
    rw [List.foldl_cons, resume_read u.parser d c hs.sound.settled.errno hc]
    by_cases hrest : rest = []
    · subst hrest
      simp only [List.flatten_cons, List.flatten_nil, List.append_nil, List.foldl_nil] at hp he ⊢
      exact sim_end hD c u _ hs hc hp he
    · have hflat : rest.flatten ≠ [] := by
        obtain ⟨c', hc'⟩ := List.exists_mem_of_ne_nil rest hrest
        intro hnil
        exact hne c' (List.mem_cons_of_mem c hc') (List.flatten_eq_nil_iff.mp hnil c' hc')
      simp only [List.flatten_cons] at hp he ⊢
      obtain ⟨hl, hpc⟩ := read_before c rest.flatten u hflat hp
      have hsim := sim_read hD c u _ hs hl
      have hlen : 1 < (c::rest).length := by
        have := List.length_pos_iff.mpr hrest
        simp only [List.length_cons]
        omega
      have hsafe₁ := hsafe 1 Nat.one_pos hlen
      simp only [List.take_succ_cons, List.take_zero, List.flatten_cons, List.flatten_nil,
        List.append_nil] at hsafe₁
      obtain ⟨hparser, hsim'⟩ := sim_interrupt hD hsim hsafe₁
      rw [read_append] at hp he ⊢
      have htail := ih (read cfg h c u) _ (fun c' hc' => hne c' (List.mem_cons_of_mem c hc')) hrest
        hsim' ?_ (by rw [hp, hpc, List.length_append, Nat.add_assoc]) he
      · rw [← htail, ← hparser]
      · intro i hi hlt
        have := hsafe (i+1) (Nat.succ_pos i) (by simp only [List.length_cons]; omega)
        rw [List.take_succ_cons, List.flatten_cons, read_append] at this
        exact this

end Lamb.HttpCalls
