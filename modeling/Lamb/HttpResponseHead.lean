import Lamb.HttpCalls

/-!
# The head of a response under the response parser

What the header lines of a response say about its body is a fold over the lines: a
`Frame`. The parser computes that fold byte by byte. Its counters of header bytes do
not matter as long as there is room, so a run over part of a head is a triple over
the other variables of the parser, and the callbacks of a head leave the body of the
response alone.
-/

set_option autoImplicit false

namespace Lamb.HttpResponseHead
open Lamb.ByteString Lamb.Http Lamb.HttpUrl Lamb.HttpMachine Lamb.HttpParser Lamb.Tokens
open Lamb.HttpCalls

variable {cfg : Config}

/-- The operations of a head before `on_headers_complete`. -/
def HeadOp : Op → Prop
  | .mark t => t ≠ .body
  | .report t _ => t ≠ .body
  | .notify n => n = .messageBegin

inductive HeadRun (cfg : Config) : HttpMachine.HttpParser → Bytes → HttpMachine.HttpParser → Prop
  | nil (p : HttpMachine.HttpParser) : HeadRun cfg p [] p
  | cons {p q r : HttpMachine.HttpParser} {ch : UInt8} {bs : Bytes} {ops : List Op}
      (h : byte cfg p ch = .go q ops) (hops : ∀ op ∈ ops, HeadOp op) (rest : HeadRun cfg q bs r) :
      HeadRun cfg p (ch::bs) r

inductive HeadFails (cfg : Config) : HttpMachine.HttpParser → Bytes → Prop
  | here {p q : HttpMachine.HttpParser} {ch : UInt8} {e : Errno} {ops : List Op} (bs : Bytes)
      (h : byte cfg p ch = .error e q ops) (he : e ≠ .OK) : HeadFails cfg p (ch::bs)
  | later {p q : HttpMachine.HttpParser} {ch : UInt8} {bs : Bytes} {ops : List Op}
      (h : byte cfg p ch = .go q ops) (hops : ∀ op ∈ ops, HeadOp op) (rest : HeadFails cfg q bs) :
      HeadFails cfg p (ch::bs)

theorem HeadRun.append {p q r : HttpMachine.HttpParser} {as bs : Bytes} (h : HeadRun cfg p as q)
    (h' : HeadRun cfg q bs r) : HeadRun cfg p (as ++ bs) r := by
  induction h with
  | nil p => exact h'
  | cons hb hops _ ih => exact .cons hb hops (ih h')

theorem HeadRun.fails {p q : HttpMachine.HttpParser} {as bs : Bytes} (h : HeadRun cfg p as q)
    (h' : HeadFails cfg q bs) : HeadFails cfg p (as ++ bs) := by
  induction h with
  | nil p => exact h'
  | cons hb hops _ ih => exact .later hb hops (ih h')

theorem HeadFails.append {p : HttpMachine.HttpParser} {as : Bytes} (h : HeadFails cfg p as)
    (bs : Bytes) : HeadFails cfg p (as ++ bs) := by
  induction h with
  | here as hb he => exact .here (as ++ bs) hb he
  | later hb hops _ ih => exact .later hb hops ih

/-! ## The callbacks -/

structure Bodyless (b : Buffers Token ResponseSink) : Prop where
  mark : b.marks .body = none
  body : b.data.data.body = []
  unfinished : b.data.finished = false

theorem headOp_bodyless {b : Buffers Token ResponseSink} (hb : Bodyless b) (i : Info) (ch : UInt8)
    {op : Op} (hop : HeadOp op) :
    ∃ b', runOp responseSettings i ch b op = (b', none) ∧ Bodyless b' := by
  cases op with
  | mark t =>
    simp only [runOp]
    split
    · exact ⟨b, rfl, hb⟩
    · exact ⟨_, rfl, (Buffers.set_other b t .body _ (Ne.symm hop)).trans hb.mark, hb.body,
        hb.unfinished⟩
  | report t inclusive =>
    simp only [runOp]
    split
    · exact ⟨b, rfl, hb⟩
    · have hmark : (b.set t none).marks .body = none :=
        (Buffers.set_other b t .body _ (Ne.symm hop)).trans hb.mark
      cases t with
      | body => exact absurd rfl hop
      | _ => exact ⟨_, rfl, hmark, hb.body, hb.unfinished⟩
  | notify n =>
    obtain rfl : n = .messageBegin := hop
    exact ⟨_, rfl, hb⟩

theorem headOps_bodyless (i : Info) (ch : UInt8) (ops : List Op) (hops : ∀ op ∈ ops, HeadOp op)
    {b : Buffers Token ResponseSink} (hb : Bodyless b) :
    ∃ b', runOps responseSettings i ch ops b = (b', none) ∧ Bodyless b' := by
  induction ops generalizing b with
  | nil => exact ⟨b, rfl, hb⟩
  | cons op ops ih =>
    obtain ⟨b₁, h₁, hb₁⟩ := headOp_bodyless hb i ch (hops op (.head ops))
    obtain ⟨b₂, h₂, hb₂⟩ := ih (fun op' h => hops op' (.tail op h)) hb₁
    exact ⟨b₂, by rw [runOps, h₁]; exact h₂, hb₂⟩

theorem ops_done (i : Info) (ch : UInt8) (ops : List Op) (b : Buffers Token ResponseSink) :
    ∃ b', runOps responseSettings i ch ops b = (b', none) := by
  cases h : runOps responseSettings i ch ops b with
  | mk b' failed =>
    cases failed with
    | none => exact ⟨b', rfl⟩
    | some t =>
      obtain ⟨_, bs, d, -, hnone⟩ := runOps_failed responseSettings i ch ops b b' t h
      cases t <;> cases hnone

structure InHead (m : Call ResponseSink) (p : HttpMachine.HttpParser) : Prop where
  live : m.live = true
  parser : m.parser = p
  bodyless : Bodyless m.buffers

theorem step_go {m : Call ResponseSink} {p q : HttpMachine.HttpParser} {ch : UInt8} {ops : List Op}
    (hm : m.live = true) (hp : m.parser = p) (h : byte cfg p ch = .go q ops)
    {b : Buffers Token ResponseSink}
    (hb : runOps responseSettings (info q) ch ops m.buffers = (b, none)) :
    m.step cfg responseSettings ch =
      { parser := q, buffers := b.extend ch, live := true, parsed := m.parsed+1 } := by
  simp only [Call.step, hm, hp, h, hb, Bool.not_true, Bool.false_eq_true, if_false]

theorem extend_bodyless {b : Buffers Token ResponseSink} (hb : Bodyless b) (ch : UInt8) :
    Bodyless (b.extend ch) :=
  ⟨by simp only [Buffers.extend, hb.mark, Option.map_none], hb.body, hb.unfinished⟩

theorem HeadRun.read {p q : HttpMachine.HttpParser} {bs : Bytes} (h : HeadRun cfg p bs q)
    {m : Call ResponseSink} (hm : InHead m p) :
    InHead (HttpCalls.read cfg responseSettings bs m) q ∧
      (HttpCalls.read cfg responseSettings bs m).parsed = m.parsed+bs.length := by
  induction h generalizing m with
  | nil p => exact ⟨hm, rfl⟩
  | @cons p q r ch bs ops hb hops _ ih =>
    obtain ⟨b, hrun, hbody⟩ := headOps_bodyless (info q) ch ops hops hm.bodyless
    have hstep := step_go hm.live hm.parser hb hrun
    have hrest := @ih (m.step cfg responseSettings ch)
      (by rw [hstep]; exact ⟨rfl, rfl, extend_bodyless hbody ch⟩)
    have hone : (m.step cfg responseSettings ch).parsed = m.parsed+1 := by rw [hstep]
    refine ⟨hrest.1, hrest.2.trans ?_⟩
    rw [hone, List.length_cons]
    omega

theorem HeadFails.read {p : HttpMachine.HttpParser} {bs : Bytes} (h : HeadFails cfg p bs)
    {m : Call ResponseSink} (hm : InHead m p) :
    (HttpCalls.read cfg responseSettings bs m).live = false ∧
      (HttpCalls.read cfg responseSettings bs m).parser.httpErrno ≠ .OK := by
  induction h generalizing m with
  | @here p q ch e ops bs hb he =>
    obtain ⟨b, hrun⟩ := ops_done (info q) ch ops m.buffers
    have hstep : m.step cfg responseSettings ch =
        { parser := { q with httpErrno := e }, buffers := b, live := false,
          parsed := m.parsed } := by
      simp only [Call.step, hm.live, hm.parser, hb, hrun, Bool.not_true, Bool.false_eq_true,
        if_false]
    change (HttpCalls.read cfg responseSettings bs (m.step cfg responseSettings ch)).live = false ∧
      (HttpCalls.read cfg responseSettings bs (m.step cfg responseSettings ch)).parser.httpErrno ≠
        .OK
    rw [hstep, read_dead bs _ rfl]
    exact ⟨rfl, he⟩
  | @later p q ch bs ops hb hops _ ih =>
    obtain ⟨b, hrun, hbody⟩ := headOps_bodyless (info q) ch ops hops hm.bodyless
    have hstep := step_go hm.live hm.parser hb hrun
    exact @ih (m.step cfg responseSettings ch)
      (by rw [hstep]; exact ⟨rfl, rfl, extend_bodyless hbody ch⟩)

/-! ## Triples -/

structure View where
  state : State
  headerState : HeaderState
  index : ℕ
  chunked : Bool
  hasLength : Bool
  contentLength : ℕ
  statusCode : ℕ

def view (p : HttpMachine.HttpParser) : View where
  state := p.state
  headerState := p.headerState
  index := p.index
  chunked := p.flags.chunked
  hasLength := p.flags.contentlength
  contentLength := p.contentLength
  statusCode := p.statusCode

structure Steady (p : HttpMachine.HttpParser) : Prop where
  type : p.type = .response
  method : p.method = .DELETE
  errno : p.httpErrno = .OK
  upgrade : p.upgrade = false
  skipbody : p.flags.skipbody = false
  trailing : p.flags.trailing = false

theorem Steady.same {p q : HttpMachine.HttpParser} (hp : Steady p)
    (h : (q.type, q.method, q.httpErrno, q.upgrade, q.flags.skipbody, q.flags.trailing) =
      (p.type, p.method, p.httpErrno, p.upgrade, p.flags.skipbody, p.flags.trailing)) :
    Steady q := by
  simp only [Prod.mk.injEq] at h
  obtain ⟨htype, hmethod, herrno, hupgrade, hskipbody, htrailing⟩ := h
  exact ⟨htype.trans hp.type, hmethod.trans hp.method, herrno.trans hp.errno,
    hupgrade.trans hp.upgrade, hskipbody.trans hp.skipbody, htrailing.trans hp.trailing⟩

def spent (p : HttpMachine.HttpParser) : ℕ := p.nread+(p.segment-1)

structure Reading (cfg : Config) (n : ℕ) (p : HttpMachine.HttpParser) : Prop extends Steady p where
  room : spent p+n ≤ cfg.maxHeaderSize
  word : spent p+n < 2^32
  ahead : p.general ≤ spent p
  home : p.state ≠ .headerField → p.state ≠ .headerValue → p.segment = 0
  heading : parsingHeader p.state = true

/-- The same after the byte has been counted. -/
structure Counted (cfg : Config) (n : ℕ) (p : HttpMachine.HttpParser) : Prop extends Steady p where
  room : p.nread+p.segment+n ≤ cfg.maxHeaderSize
  word : p.nread+p.segment+n < 2^32
  ahead : p.general < p.nread+p.segment
  home : p.state ≠ .headerField → p.state ≠ .headerValue → p.segment = 0

theorem byte_counted {n : ℕ} {p : HttpMachine.HttpParser} (hp : Reading cfg (n+1) p) (ch : UInt8) :
    ∃ p', byte cfg p ch = reexecute cfg p' ch ∧ Counted cfg n p' ∧ view p' = view p := by
  have hroom := hp.room
  have hword := hp.word
  have hahead := hp.ahead
  simp only [spent] at hroom hword hahead
  by_cases hs : p.segment = 0
  · refine ⟨{ p with nread := p.nread+1 }, ?_, ⟨⟨hp.type, hp.method, hp.errno, hp.upgrade,
      hp.skipbody, hp.trailing⟩, ?_, ?_, ?_, hp.home⟩, rfl⟩
    · have hmod : (p.nread+1) % 2^32 = p.nread+1 := Nat.mod_eq_of_lt (by omega)
      rw [byte, if_pos ⟨hp.heading, hs⟩]
      simp only [countHeaderSize, hmod]
      rw [if_neg (by omega)]
    · simp only [hs]
      omega
    · simp only [hs]
      omega
    · simp only [hs] at hahead ⊢
      omega
  · refine ⟨p, ?_, ⟨hp.toSteady, by omega, by omega, by omega, hp.home⟩, rfl⟩
    rw [byte, if_neg (fun h => hs h.2)]

/-- `bs` takes the parser from `V` to `W`. -/
def Goes (cfg : Config) (V : View → Prop) (bs : Bytes) (W : View → Prop) : Prop :=
  ∀ n p, Reading cfg (n+bs.length) p → V (view p) →
    ∃ q, HeadRun cfg p bs q ∧ Reading cfg n q ∧ W (view q)

def Fails (cfg : Config) (V : View → Prop) (bs : Bytes) : Prop :=
  ∀ n p, Reading cfg (n+bs.length) p → V (view p) → HeadFails cfg p bs

section Triples

variable {V W X : View → Prop} {as bs : Bytes} {ch : UInt8}

theorem Goes.append (h : Goes cfg V as W) (h' : Goes cfg W bs X) : Goes cfg V (as ++ bs) X := by
  intro n p hp hv
  rw [List.length_append, Nat.add_comm as.length, ← Nat.add_assoc] at hp
  obtain ⟨q, hrun, hq, hw⟩ := h _ p hp hv
  obtain ⟨r, hrun', hr, hx⟩ := h' n q hq hw
  exact ⟨r, hrun.append hrun', hr, hx⟩

theorem Goes.fails (h : Goes cfg V as W) (h' : Fails cfg W bs) : Fails cfg V (as ++ bs) := by
  intro n p hp hv
  rw [List.length_append, Nat.add_comm as.length, ← Nat.add_assoc] at hp
  obtain ⟨q, hrun, hq, hw⟩ := h _ p hp hv
  exact hrun.fails (h' n q hq hw)

theorem Goes.cons (h : Goes cfg V [ch] W) (h' : Goes cfg W bs X) : Goes cfg V (ch::bs) X :=
  h.append h'

theorem Goes.fails_cons (h : Goes cfg V [ch] W) (h' : Fails cfg W bs) : Fails cfg V (ch::bs) :=
  h.fails h'

theorem Fails.append (h : Fails cfg V as) (bs : Bytes) : Fails cfg V (as ++ bs) := by
  intro n p hp hv
  rw [List.length_append, Nat.add_comm as.length, ← Nat.add_assoc] at hp
  exact (h _ p hp hv).append bs

theorem Goes.weaken (h : Goes cfg V bs W) (h' : ∀ v, W v → X v) : Goes cfg V bs X := by
  intro n p hp hv
  obtain ⟨q, hrun, hq, hw⟩ := h n p hp hv
  exact ⟨q, hrun, hq, h' _ hw⟩

theorem Goes.strengthen (h : Goes cfg W bs X) (h' : ∀ v, V v → W v) : Goes cfg V bs X :=
  fun n p hp hv => h n p hp (h' _ hv)

theorem Fails.strengthen (h : Fails cfg W bs) (h' : ∀ v, V v → W v) : Fails cfg V bs :=
  fun n p hp hv => h n p hp (h' _ hv)

theorem goes_nil : Goes cfg V [] V := fun _ p hp hv => ⟨p, .nil p, hp, hv⟩

theorem goes_byte (h : ∀ n p, Counted cfg n p → V (view p) → ∃ q ops,
      reexecute cfg p ch = .go q ops ∧ (∀ op ∈ ops, HeadOp op) ∧ Reading cfg n q ∧ W (view q)) :
    Goes cfg V [ch] W := by
  intro n p hp hv
  obtain ⟨p', hbyte, hp', hview⟩ := byte_counted hp ch
  obtain ⟨q, ops, hgo, hops, hq, hw⟩ := h n p' hp' (hview ▸ hv)
  exact ⟨q, .cons (hbyte.trans hgo) hops (.nil q), hq, hw⟩

theorem fails_byte (h : ∀ n p, Counted cfg n p → V (view p) → ∃ e q ops,
      reexecute cfg p ch = .error e q ops ∧ e ≠ .OK) (bs : Bytes) : Fails cfg V (ch::bs) := by
  intro n p hp hv
  rw [List.length_cons, ← Nat.add_assoc] at hp
  obtain ⟨p', hbyte, hp', hview⟩ := byte_counted hp ch
  obtain ⟨e, q, ops, herror, he⟩ := h _ p' hp' (hview ▸ hv)
  exact .here bs (hbyte.trans herror) he

theorem goes_all (h : ∀ ch ∈ bs, Goes cfg V [ch] V) : Goes cfg V bs V := by
  induction bs with
  | nil => exact goes_nil
  | cons ch bs ih =>
    exact (h ch (.head bs)).append (ih fun c hc => h c (.tail ch hc))

/-- A run that keeps an invariant about the bytes behind it. -/
theorem goes_prefix (I : Bytes → View → Prop)
    (h : ∀ pre ch, ch ∈ bs → Goes cfg (I pre) [ch] (I (pre ++ [ch]))) (pre : Bytes) :
    Goes cfg (I pre) bs (I (pre ++ bs)) := by
  induction bs generalizing pre with
  | nil =>
    rw [List.append_nil]
    exact goes_nil
  | cons ch bs ih =>
    have hrest := ih (fun pre c hc => h pre c (.tail ch hc)) (pre ++ [ch])
    rw [List.append_assoc] at hrest
    exact (h pre ch (.head bs)).append hrest

end Triples

theorem Counted.reading {n : ℕ} {p q : HttpMachine.HttpParser} (hp : Counted cfg n p)
    (hhome : p.state ≠ .headerField ∧ p.state ≠ .headerValue) (hq : Steady q)
    (hnread : q.nread = p.nread) (hsegment : q.segment = p.segment)
    (hgeneral : q.general = p.general) (hheading : parsingHeader q.state = true) :
    Reading cfg n q := by
  have hs : p.segment = 0 := hp.home hhome.1 hhome.2
  have hroom := hp.room
  have hword := hp.word
  have hahead := hp.ahead
  rw [hs] at hroom hword hahead
  refine ⟨hq, ?_, ?_, ?_, fun _ _ => hsegment.trans hs, hheading⟩
  · simp only [spent, hnread, hsegment, hs]
    omega
  · simp only [spent, hnread, hsegment, hs]
    omega
  · simp only [spent, hnread, hsegment, hs, hgeneral]
    omega

/-! ## The status line -/

/-- What the header lines so far say about the body: a chunked transfer coding, and
the value of `content-length`. -/
structure Frame where
  chunked : Bool
  length : Option ℕ
  deriving DecidableEq

def Frame.none : Frame := ⟨false, .none⟩

structure Framed (fr : Frame) (v : View) : Prop where
  chunked : v.chunked = fr.chunked
  hasLength : v.hasLength = fr.length.isSome
  contentLength : v.contentLength = fr.length.getD ullongMax

def At (s : State) (fr : Frame) (code : ℕ) (v : View) : Prop :=
  v.state = s ∧ Framed fr v ∧ v.statusCode = code

section StatusLine

variable {fr : Frame} {code : ℕ} {s t : State} {ch : UInt8}

theorem goes_goto {c : UInt8} (hs : s ≠ .headerField ∧ s ≠ .headerValue)
    (ht : parsingHeader t = true)
    (h : ∀ p : HttpMachine.HttpParser, p.state = s → ∃ i a b ops, reexecute cfg p c =
      .go { p with state := t, index := i, httpMajor := a, httpMinor := b } ops ∧
        ∀ op ∈ ops, HeadOp op) :
    Goes cfg (At s fr code) [c] (At t fr code) := by
  refine goes_byte fun n p hp hv => ?_
  obtain ⟨hstate, hframe, hcode⟩ := hv
  obtain ⟨i, a, b, ops, hgo, hops⟩ := h p hstate
  have hstate' : p.state = s := hstate
  refine ⟨_, ops, hgo, hops, hp.reading (by rwa [hstate']) ?_ rfl rfl rfl ht, rfl, ?_, hcode⟩
  · exact hp.same rfl
  · exact ⟨hframe.chunked, hframe.hasLength, hframe.contentLength⟩

theorem goes_expect {c : UInt8} (hs : s ≠ .headerField ∧ s ≠ .headerValue)
    (ht : parsingHeader t = true)
    (h : ∀ p : HttpMachine.HttpParser, p.state = s → reexecute cfg p c = expect cfg p c c t) :
    Goes cfg (At s fr code) [c] (At t fr code) := by
  refine goes_goto hs ht fun p hp => ⟨p.index, p.httpMajor, p.httpMinor, [], ?_, by simp⟩
  rw [h p hp, expect, strictCheck, if_neg (by simp)]
  rfl

/-- `HTTP/1.1` up to the status code. -/
theorem goes_version : Goes cfg (fun v => v.state = .startRes) (ascii "HTTP/1.1 ")
    (fun v => v.state = .resFirstStatusCode ∧ Framed .none v) := by
  have hstart : Goes cfg (fun v => v.state = .startRes) [72]
      (fun v => ∃ code, At .resH .none code v) := by
    refine goes_byte fun n p hp hstate => ?_
    have hstate' : p.state = .startRes := hstate
    have hgo : reexecute cfg p 72 =
        .go { p with flags := .none, contentLength := ullongMax, state := .resH }
          [.notify .messageBegin] := by
      rw [reexecute, hstate']
      rfl
    refine ⟨_, _, hgo, by simp [HeadOp], hp.reading (by rw [hstate']; decide) ?_ rfl rfl rfl rfl,
      p.statusCode, rfl, ⟨rfl, rfl, rfl⟩, rfl⟩
    exact ⟨hp.type, hp.method, hp.errno, hp.upgrade, rfl, rfl⟩
  refine hstart.cons ?_
  rintro n p hp ⟨code, hv⟩
  have hrest : Goes cfg (At .resH .none code) (ascii "TTP/1.1 ")
      (At .resFirstStatusCode .none code) :=
    (goes_expect (s := .resH) (t := .resHT) (by decide) rfl fun p hp => by
      rw [reexecute, hp]; rfl).append <|
    (goes_expect (s := .resHT) (t := .resHTT) (by decide) rfl fun p hp => by
      rw [reexecute, hp]; rfl).append <|
    (goes_expect (s := .resHTT) (t := .resHTTP) (by decide) rfl fun p hp => by
      rw [reexecute, hp]; rfl).append <|
    (goes_expect (s := .resHTTP) (t := .resHttpMajor) (by decide) rfl fun p hp => by
      rw [reexecute, hp]; rfl).append <|
    (goes_goto (s := .resHttpMajor) (t := .resHttpDot) (c := 49) (by decide) rfl fun p hp =>
      ⟨p.index, 1, p.httpMinor, [], by rw [reexecute, hp]; rfl, by simp⟩).append <|
    (goes_goto (s := .resHttpDot) (t := .resHttpMinor) (c := 46) (by decide) rfl fun p hp =>
      ⟨p.index, p.httpMajor, p.httpMinor, [], by rw [reexecute, hp]; rfl, by simp⟩).append <|
    (goes_goto (s := .resHttpMinor) (t := .resHttpEnd) (c := 49) (by decide) rfl fun p hp =>
      ⟨p.index, p.httpMajor, 1, [], by rw [reexecute, hp]; rfl, by simp⟩).append <|
    goes_goto (s := .resHttpEnd) (c := 32) (by decide) rfl fun p hp =>
      ⟨p.index, p.httpMajor, p.httpMinor, [], by rw [reexecute, hp]; rfl, by simp⟩
  obtain ⟨q, hrun, hq, hw⟩ := hrest n p hp hv
  exact ⟨q, hrun, hq, hw.1, hw.2.1⟩

def digit (d : ℕ) : UInt8 := UInt8.ofNat (48+d)

theorem digit_num {d : ℕ} (h : d < 10) : isNum (digit d) = true := by
  revert d
  decide

theorem digit_value {d : ℕ} (h : d < 10) : (digit d-48).toNat = d := by
  revert d
  decide

theorem goes_first_digit {d : ℕ} (h : d < 10) :
    Goes cfg (fun v => v.state = .resFirstStatusCode ∧ Framed fr v) [digit d]
      (At .resStatusCode fr d) := by
  refine goes_byte fun n p hp hv => ?_
  obtain ⟨hstate, hframe⟩ := hv
  have hstate' : p.state = .resFirstStatusCode := hstate
  have hgo : reexecute cfg p (digit d) =
      .go { p with statusCode := d, state := .resStatusCode } [] := by
    rw [reexecute, hstate']
    simp only [resFirstStatusCode, digit_num h, digit_value h, if_true]
  refine ⟨_, _, hgo, by simp, hp.reading (by rw [hstate']; decide) ?_ rfl rfl rfl rfl, rfl, ?_, rfl⟩
  · exact hp.same rfl
  · exact ⟨hframe.chunked, hframe.hasLength, hframe.contentLength⟩

theorem goes_digit {d : ℕ} (h : d < 10) (hcode : code*10+d ≤ 999) :
    Goes cfg (At .resStatusCode fr code) [digit d] (At .resStatusCode fr (code*10+d)) := by
  refine goes_byte fun n p hp hv => ?_
  obtain ⟨hstate, hframe, hc⟩ := hv
  have hstate' : p.state = .resStatusCode := hstate
  have hc' : p.statusCode = code := hc
  have hgo : reexecute cfg p (digit d) = .go { p with statusCode := code*10+d } [] := by
    have hswitch : reexecute cfg p (digit d) = resStatusCode p (digit d) := by
      rw [reexecute, hstate']
    rw [hswitch]
    simp only [resStatusCode, digit_num h, digit_value h, hc', if_true]
    rw [if_neg (by omega)]
  refine ⟨_, _, hgo, by simp, hp.reading (by rw [hstate']; decide) ?_ rfl rfl rfl
    (by rw [hstate']; rfl), hstate, ?_, rfl⟩
  · exact hp.same rfl
  · exact ⟨hframe.chunked, hframe.hasLength, hframe.contentLength⟩

theorem goes_code (h : code < 1000) :
    Goes cfg (fun v => v.state = .resFirstStatusCode ∧ Framed fr v)
      [digit (code/100), digit (code/10%10), digit (code%10), 32]
      (At .resStatusStart fr code) := by
  have hspace : Goes cfg (At .resStatusCode fr code) [32] (At .resStatusStart fr code) :=
    goes_goto (by decide) rfl fun p hp =>
      ⟨p.index, p.httpMajor, p.httpMinor, [], by rw [reexecute, hp]; rfl, by simp⟩
  have hlast : Goes cfg (At .resStatusCode fr (code/100*10+code/10%10)) [digit (code%10)]
      (At .resStatusCode fr code) := by
    have hd := @goes_digit cfg fr (code/100*10+code/10%10) (code%10) (by omega) (by omega)
    rwa [show (code/100*10+code/10%10)*10+code%10 = code by omega] at hd
  exact (goes_first_digit (by omega)).append
    ((goes_digit (by omega) (by omega)).append (hlast.append hspace))

theorem goes_reason {reason : Bytes} (h : ∀ c ∈ reason, c ≠ CR ∧ c ≠ LF) :
    Goes cfg (At .resStatusStart fr code) (reason ++ [CR, LF]) (At .headerFieldStart fr code) := by
  have hline : Goes cfg (At .resLineAlmostDone fr code) [LF] (At .headerFieldStart fr code) :=
    goes_expect (by decide) rfl fun p hp => by rw [reexecute, hp]
  have hend : Goes cfg (At .resStatus fr code) [CR] (At .resLineAlmostDone fr code) :=
    goes_goto (by decide) rfl fun p hp => ⟨p.index, p.httpMajor, p.httpMinor,
      [.report .status false], by rw [reexecute, hp]; rfl, by simp [HeadOp]⟩
  cases reason with
  | nil =>
    have hempty : Goes cfg (At .resStatusStart fr code) [CR] (At .resLineAlmostDone fr code) :=
      goes_goto (by decide) rfl fun p hp => ⟨0, p.httpMajor, p.httpMinor,
        [.mark .status, .report .status false], by rw [reexecute, hp]; rfl, by simp [HeadOp]⟩
    exact hempty.append hline
  | cons c rest =>
    have hfirst : Goes cfg (At .resStatusStart fr code) [c] (At .resStatus fr code) := by
      obtain ⟨hcr, hlf⟩ := h c (.head rest)
      refine goes_goto (by decide) rfl fun p hp => ⟨0, p.httpMajor, p.httpMinor,
        [.mark .status], ?_, by simp [HeadOp]⟩
      rw [reexecute, hp]
      simp only [resStatusStart, hcr, hlf, or_self, if_false]
    have hmore : ∀ ch ∈ rest, Goes cfg (At .resStatus fr code) [ch] (At .resStatus fr code) := by
      intro ch hch
      obtain ⟨hcr, hlf⟩ := h ch (.tail c hch)
      refine goes_goto (by decide) rfl fun p hp =>
        ⟨p.index, p.httpMajor, p.httpMinor, [], ?_, by simp⟩
      have hswitch : reexecute cfg p ch = resStatus p ch := by rw [reexecute, hp]
      rw [hswitch, ← hp]
      simp only [resStatus, hcr, hlf, if_false]
    exact hfirst.cons ((goes_all hmore).append (hend.append hline))

end StatusLine

end Lamb.HttpResponseHead
