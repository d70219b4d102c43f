import Lamb.HttpSegmentation

/-!
# What a whole call keeps

Two kinds of facts about the data of a call. Until a token is reported a message is
not finished. A property that each operation of the grammar keeps in its phase holds
after the call.
-/

set_option autoImplicit false

namespace Lamb.HttpCallInvariants
open Lamb.ByteString Lamb.HttpUrl Lamb.HttpMachine Lamb.HttpParser Lamb.HttpTrace Lamb.HttpCalls
open Lamb.HttpSegmentation Lamb.Tokens

variable {σ : Type} {cfg : Config} {h : Settings σ}

/-- The data is marked as finished by `on_message_complete` only. -/
structure Finishes (h : Settings σ) (fin : σ → Bool) : Prop where
  token : ∀ t i bs d d', h.token t i bs d = some d' → fin d' = fin d
  event : ∀ n i d, n ≠ .messageComplete → fin (h.event n i d) = fin d

variable {fin : σ → Bool}

theorem Finishes.op (hfin : Finishes h fin) (i : Info) (ch : UInt8) (op : Op)
    (hop : op ≠ .notify .messageComplete) (b : Buffers Token σ) :
    fin (runOp h i ch b op).1.data = fin b.data := by
  cases op with
  | mark t =>
    simp only [runOp]
    split <;> rfl
  | report t inclusive =>
    simp only [runOp]
    split
    · rfl
    · split
      · rfl
      case h_2 d hd => exact hfin.token t i _ _ d hd
  | notify n => exact hfin.event n i b.data (fun hn => hop (by rw [hn]))

theorem Finishes.ops (hfin : Finishes h fin) (i : Info) (ch : UInt8) (ops : List Op)
    (hops : .notify .messageComplete ∉ ops) (b : Buffers Token σ) :
    fin (runOps h i ch ops b).1.data = fin b.data := by
  induction ops generalizing b with
  | nil => rfl
  | cons op ops ih =>
    have hop := hfin.op i ch op (fun he => hops (by rw [he]; exact List.mem_cons_self)) b
    have hrest := ih fun hmem => hops (List.mem_cons_of_mem op hmem)
    simp only [runOps]
    split
    case h_1 b' hr =>
      rw [hr] at hop
      rw [hrest b', hop]
    case h_2 b' t hr =>
      rw [hr] at hop
      exact hop

theorem Finishes.finish (hfin : Finishes h fin) (m : Call σ) :
    fin (m.finish cfg h).buffers.data = fin m.buffers.data := by
  cases hm : m.live with
  | false => simp only [Call.finish, hm, Bool.not_false, if_true]
  | true =>
    rcases @finish_live σ cfg h m hm with ⟨-, -, hb⟩ | ⟨n, b, failed, hr, hfinish⟩
    · rw [hb]
    · have hflush := hfin.ops (info m.parser) 0 (flushOrder.map fun t => .report t false)
        (by decide) m.buffers
      have hb : (m.finish cfg h).buffers = b := by
        rw [hfinish]
        cases failed <;> rfl
      change runOps _ _ _ _ _ = _ at hr
      rw [hr] at hflush
      rw [hb]
      exact hflush

def Leading (U : State → Prop) (t : Token) (s : State) : Outcome → Prop
  | .go p ops => (U p.state ∧ .notify .messageComplete ∉ ops) ∨
      (reopen s = some t ∧ ops = [.report t false])
  | .leave _ _ => False
  | .error _ _ _ => True

def Leads (cfg : Config) (U : State → Prop) (t : Token) : Prop :=
  ∀ p ch, U p.state → Leading U t p.state (byte cfg p ch)

theorem find_report (hfin : Finishes h fin) {U : State → Prop} {t : Token} (hU : Leads cfg U t)
    (bs : Bytes) (m : Call σ) (hm : m.live = true) (hstate : U m.parser.state)
    (hf : fin m.buffers.data = false) (hp : (read cfg h bs m).parsed = m.parsed+bs.length)
    (he : ((read cfg h bs m).finish cfg h).parser.httpErrno = .OK)
    (hdone : fin ((read cfg h bs m).finish cfg h).buffers.data = true) :
    ∃ as ch rest p, bs = as ++ ch::rest ∧ (read cfg h as m).live = true ∧
      reopen (read cfg h as m).parser.state = some t ∧
      byte cfg (read cfg h as m).parser ch = .go p [.report t false] := by
  induction bs generalizing m with
  | nil =>
    rw [hfin.finish, show read cfg h [] m = m from rfl, hf] at hdone
    cases hdone
  | cons ch bs ih =>
    have hread : read cfg h (ch::bs) m = read cfg h bs (m.step cfg h ch) := rfl
    rw [hread] at hp he hdone
    rw [List.length_cons] at hp
    cases hl : (m.step cfg h ch).live with
    | false =>
      rw [read_dead bs _ hl] at hp he
      have hparsed : (m.step cfg h ch).parsed ≤ _ := step_parsed m ch
      have herrno : (m.step cfg h ch).parser.httpErrno = .OK := by
        simpa only [Call.finish, hl, Bool.not_false, if_true] using he
      obtain ⟨p, ops, -, hbyte, -⟩ := step_left m ch hm hl (by omega) herrno
      have hlead := hU m.parser ch hstate
      rw [hbyte] at hlead
      exact hlead.elim
    | true =>
      obtain ⟨-, p, ops, b, hbyte, hrun, hstep⟩ := step_live m ch hl
      have hlead := hU m.parser ch hstate
      rw [hbyte] at hlead
      rcases hlead with ⟨hp', hops⟩ | ⟨hopen, rfl⟩
      · have hdata := hfin.ops (info p) ch ops hops m.buffers
        rw [hrun] at hdata
        obtain ⟨as, c, rest, p', hbs, hlive, hopen, hreport⟩ := ih (m.step cfg h ch) hl
          (by rw [hstep]; exact hp') (by rw [hstep]; exact hdata.trans hf)
          (by rw [hp, hstep]; simp only; omega) he hdone
        exact ⟨ch::as, c, rest, p', by rw [hbs]; rfl, hlive, hopen, hreport⟩
      · exact ⟨[], ch, bs, p, rfl, hm, hopen, hbyte⟩

theorem fresh_trace (ops : List Op) (q : Phase) (h : trace nextPhase ops q = some .fieldFresh)
    (hq : q ≠ .fieldFresh) : .mark .headerField ∈ ops := by
  refine trace_entered nextPhase _ .fieldFresh ?_ ops q h hq
  intro p op hop
  unfold nextPhase at hop
  split at hop <;> first | rfl | cases hop

structure Kept (h : Settings σ) (I : Phase → Buffers Token σ → Prop) : Prop where
  op : ∀ i ch op q r b b', nextPhase q op = some r → Fits q b → I q b →
    runOp h i ch b op = (b', none) → I r b'
  settle : ∀ r q b ch, r.settles q = true → (r = .fieldFresh → ch ≠ 0) → I r b →
    I q (b.extend ch)

variable {I : Phase → Buffers Token σ → Prop}

theorem Kept.ops (hI : Kept h I) {i : Info} {ch : UInt8} {ops : List Op} {q r : Phase}
    {b b' : Buffers Token σ} (ht : trace nextPhase ops q = some r) (hf : Fits q b) (hb : I q b)
    (hr : runOps h i ch ops b = (b', none)) : I r b' := by
  refine (runOps_invariant nextPhase h i ch (fun q b => Fits q b ∧ I q b) ops ?_ q r b b' ht
    ⟨hf, hb⟩ hr).2
  intro op _ q r b b' hn hqb hop
  exact ⟨fits_op h i ch op q r b b' hn hqb.1 hop, hI.op i ch op q r b b' hn hqb.1 hqb.2 hop⟩

theorem Kept.step (hI : Kept h I) (m : Call σ) (ch : UInt8) (hs : Sound m.parser m.buffers)
    (hm : m.live = true) (hb : I (phase m.parser.state) m.buffers)
    (he : (m.step cfg h ch).parser.httpErrno = .OK) :
    ((m.step cfg h ch).live = true ∧
      I (phase (m.step cfg h ch).parser.state) (m.step cfg h ch).buffers) ∨
    ((m.step cfg h ch).live = false ∧ ∃ r, I r (m.step cfg h ch).buffers) := by
  have hord := byte_ordered cfg m.parser ch hs.settled
  simp only [Call.step, hm, Bool.not_true, Bool.false_eq_true, if_false] at he ⊢
  cases hbyte : byte cfg m.parser ch with
  | go p ops =>
    rw [hbyte] at hord
    simp only [hbyte] at he ⊢
    obtain ⟨r, htrace, hsettles⟩ := hord.1.traced
    cases hr : runOps h (info p) ch ops m.buffers with
    | mk b failed =>
      cases failed with
      | some t =>
        simp only [hr] at he
        exact absurd he (callbackErrno_ne t)
      | none =>
        refine .inl ⟨rfl, hI.settle r _ b ch hsettles ?_ (hI.ops htrace hs.fits hb hr)⟩
        rintro rfl
        refine hord.1.fieldByte (fresh_trace ops _ htrace ?_)
        cases m.parser.state <;> (intro he; cases he)
  | leave p ops =>
    rw [hbyte] at hord
    simp only [hbyte] at he ⊢
    obtain ⟨r, htrace, -⟩ := hord.1.traced
    cases hr : runOps h (info p) ch ops m.buffers with
    | mk b failed =>
      cases failed with
      | some t =>
        simp only [hr] at he
        exact absurd he (callbackErrno_ne t)
      | none => exact .inr ⟨rfl, r, hI.ops htrace hs.fits hb hr⟩
  | error e p ops =>
    rw [hbyte] at hord
    simp only [hbyte] at he
    split at he
    · exact absurd he hord.1
    · exact absurd he (callbackErrno_ne _)

theorem Kept.read (hI : Kept h I) (bs : Bytes) (m : Call σ) (hs : Sound m.parser m.buffers)
    (hm : m.live = true) (hb : I (phase m.parser.state) m.buffers)
    (he : (read cfg h bs m).parser.httpErrno = .OK) :
    ((HttpCalls.read cfg h bs m).live = true ∧
      I (phase (HttpCalls.read cfg h bs m).parser.state) (HttpCalls.read cfg h bs m).buffers) ∨
    ((HttpCalls.read cfg h bs m).live = false ∧ ∃ r, I r (HttpCalls.read cfg h bs m).buffers) := by
  induction bs generalizing m with
  | nil => exact .inl ⟨hm, hb⟩
  | cons ch bs ih =>
    have hread : HttpCalls.read cfg h (ch::bs) m = HttpCalls.read cfg h bs (m.step cfg h ch) := rfl
    rw [hread] at he ⊢
    cases hl : (m.step cfg h ch).live with
    | true =>
      have hsound := sound_step m ch hs hl
      rcases hI.step m ch hs hm hb hsound.settled.errno with ⟨-, hstep⟩ | ⟨hdead, -⟩
      · exact ih _ hsound hl hstep he
      · rw [hl] at hdead
        cases hdead
    | false =>
      rw [read_dead bs _ hl] at he ⊢
      exact hI.step m ch hs hm hb he

theorem home_report (s : State) (t : Token) (ht : home (phase s) = some t) :
    ∃ r, nextPhase (phase s) (.report t false) = some r := by
  cases s <;> cases ht <;> exact ⟨_, rfl⟩

/-- What is kept at every byte holds in some phase after the call. -/
theorem Kept.call (hI : Kept h I) (bs : Bytes) (m : Call σ) (hs : Sound m.parser m.buffers)
    (hm : m.live = true) (hb : I (phase m.parser.state) m.buffers)
    (he : ((HttpCalls.read cfg h bs m).finish cfg h).parser.httpErrno = .OK) :
    ∃ r, I r ((HttpCalls.read cfg h bs m).finish cfg h).buffers := by
  cases hl : (HttpCalls.read cfg h bs m).live with
  | false =>
    have hdone : (HttpCalls.read cfg h bs m).finish cfg h = HttpCalls.read cfg h bs m := by
      simp only [Call.finish, hl, Bool.not_false, if_true]
    rw [hdone] at he ⊢
    rcases hI.read bs m hs hm hb he with ⟨hlive, -⟩ | ⟨-, hleft⟩
    · rw [hl] at hlive
      cases hlive
    · exact hleft
  | true =>
    have hsound := read_sound bs m hs hl
    rcases hI.read bs m hs hm hb hsound.settled.errno with ⟨-, hb'⟩ | ⟨hdead, -⟩
    · rcases @finish_live σ cfg h _ hl with ⟨hover, -⟩ | ⟨n, b, failed, hr, hfinish⟩
      · exact absurd (hover.symm.trans he) (by decide)
      · cases failed with
        | some t =>
          rw [hfinish] at he
          exact absurd he (callbackErrno_ne t)
        | none =>
          rw [hfinish]
          cases hq : home (phase (HttpCalls.read cfg h bs m).parser.state) with
          | none =>
            rw [flush_closed h _ flushOrder _ fun u _ => hsound.fits.closed u (by simp [hq])] at hr
            obtain ⟨rfl, -⟩ := Prod.mk.inj hr
            exact ⟨_, hb'⟩
          | some t =>
            rw [flush_single h _ flushOrder _ t (hsound.fits.only hq) (mem_flushOrder t)] at hr
            obtain ⟨r, hn⟩ := home_report _ t hq
            exact ⟨r, hI.op _ 0 _ _ r _ b hn hsound.fits hb' hr⟩
    · rw [hl] at hdead
      cases hdead

end Lamb.HttpCallInvariants
