import Lamb.ByteStream
import Lamb.HttpResponseDump

/-!
# From HttpResponse::dump to HttpConnection::recvResponse

The client takes the response when the parser has seen its end in the bytes
themselves, for the end of the stream is an error to it. A response arrives when
parser and server agree on where the body ends.
-/

set_option autoImplicit false

namespace Lamb.HttpResponseDelivery
open Lamb.ByteString Lamb.ByteStream Lamb.Http Lamb.HttpUrl Lamb.HttpMachine Lamb.HttpParser
open Lamb.Tokens Lamb.HttpCalls Lamb.HttpResponseHead Lamb.HttpHeaderNames Lamb.HttpHeaderValues
open Lamb.HttpHeaderLines Lamb.HttpResponseDump

/-- What becomes of `recvResponse`: it waits in a read, returns `nullptr`, or returns
a response. -/
inductive Received where
  | waiting
  | null
  | response (r : HttpResponse)
  deriving DecidableEq

/-- The loop of `recvResponse`; `data` are the first `offset` bytes of the buffer. The
read of a drained stream waits unless the peer has `ended` it. Every iteration that
goes on has read a byte. -/
def recvLoop (cfg : Config) (buffSize : ℕ) (ended : Bool) :
    ℕ → HttpResponseParser → Bytes → Stream → Received × Stream
  | 0, _, _, s => (.waiting, s)
  | fuel+1, parser, data, s =>
    if s.pending = [] ∧ s.closed = false ∧ ended = false then (.waiting, s) else
    match s.read (buffSize-data.length) with
    | (len, got, s') =>
      if len ≤ 0 then (.null, s'.close)
      else match parser.execute cfg (data ++ got) with
      | (parser', nparse) =>
        if parser'.hasError then (.null, s'.close)
        else
          let data' := (data ++ got).drop nparse
          if toInt data'.length = toInt buffSize then (.null, s'.close)
          else if parser'.sink.finished then (.response parser'.sink.data, s')
          else recvLoop cfg buffSize ended fuel parser' data' s'

/-- `HttpConnection::recvResponse`. -/
def recvResponse (cfg : Config) (buffSize : ℕ) (ended : Bool) (s : Stream) : Received × Stream :=
  recvLoop cfg buffSize ended (s.pending.length+2) .new [] s

/-! ## The end of the head -/

section HeadEnd

variable {cfg : Config} {n code : ℕ} {fr : Frame} {p : HttpMachine.HttpParser}

theorem wantsUpgrade_false (hp : Steady p) (hcode : p.statusCode = code) (hfinal : 200 ≤ code) :
    p.wantsUpgrade = false := by
  have h101 : ¬ p.statusCode = 101 := by omega
  simp only [HttpMachine.HttpParser.wantsUpgrade, hp.type, hp.method, h101]
  split_ifs <;> rfl

/-- The line feed of the blank line: with chunks and a length it is an error. -/
theorem head_end_error (hp : Reading cfg (n+1) p) (hv : At .headersAlmostDone fr code (view p))
    (hchunked : fr.chunked = true) (hlength : fr.length ≠ none) :
    ∃ q ops, byte cfg p LF = .error .UNEXPECTED_CONTENT_LENGTH q ops := by
  obtain ⟨p', hbyte, hp', hview⟩ := byte_counted hp LF
  rw [← hview] at hv
  have hstate : p'.state = .headersAlmostDone := hv.1
  have h1 : p'.flags.chunked = true := hv.2.1.chunked.trans hchunked
  have h2 : p'.flags.contentlength = true :=
    hv.2.1.hasLength.trans (Option.isSome_iff_ne_none.mpr hlength)
  refine ⟨p', [], ?_⟩
  rw [hbyte, reexecute, hstate]
  simp only [headersAlmostDone, strictCheck, hp'.trailing, h1, h2, and_self, ne_eq,
    not_true_eq_false, decide_false, Bool.and_false, Bool.false_eq_true, if_false, if_true]
  rfl

theorem head_end (hp : Reading cfg (n+1) p) (hv : At .headersAlmostDone fr code (view p))
    (hfinal : 200 ≤ code) (hone : ¬ (fr.chunked = true ∧ fr.length ≠ none)) :
    ∃ q : HttpMachine.HttpParser,
      byte cfg p LF = (headersDone cfg q LF).after [.notify .headersComplete] ∧
      Steady q ∧ q.segment = 0 ∧ Framed fr (view q) ∧ q.statusCode = code := by
  obtain ⟨p', hbyte, hp', hview⟩ := byte_counted hp LF
  rw [← hview] at hv
  have hstate : p'.state = .headersAlmostDone := hv.1
  have hflags : ¬ (p'.flags.chunked = true ∧ p'.flags.contentlength = true) := by
    rintro ⟨h1, h2⟩
    exact hone ⟨hv.2.1.chunked.symm.trans h1,
      Option.isSome_iff_ne_none.mp (hv.2.1.hasLength.symm.trans h2)⟩
  have hup := wantsUpgrade_false hp'.toSteady hv.2.2 hfinal
  refine ⟨{ p' with state := .headersDone, upgrade := p'.wantsUpgrade }, ?_, ?_,
    hp'.home (by rw [hstate]; decide) (by rw [hstate]; decide), ?_, hv.2.2⟩
  · rw [hbyte, reexecute, hstate]
    simp only [headersAlmostDone, strictCheck, hp'.trailing, hflags, ne_eq,
      not_true_eq_false, decide_false, Bool.and_false, Bool.false_eq_true, if_false]
  · exact ⟨hp'.type, hp'.method, hp'.errno, hup, hp'.skipbody, hp'.trailing⟩
  · exact ⟨hv.2.1.chunked, hv.2.1.hasLength, hv.2.1.contentLength⟩

def EndsAtHead (fr : Frame) (code : ℕ) : Prop :=
  fr.chunked = false ∧ (fr.length = some 0 ∨ fr.length = none ∧ (code = 204 ∨ code = 304))

/-- The branches of `s_headers_done` that a response can take. -/
theorem headersDone_response {q : HttpMachine.HttpParser} (hq : Steady q) :
    headersDone cfg q LF =
      let p := { q with nread := 0 }
      let p' := { p with state := p.newMessage cfg }
      if q.flags.chunked then p.goto .chunkSizeStart
      else if q.contentLength = 0 then .go p' [.notify .messageComplete]
      else if q.contentLength ≠ ullongMax then p.goto .bodyIdentity
      else if !p.messageNeedsEof then .go p' [.notify .messageComplete]
      else p.goto .bodyIdentityEof := by
  have hstrict : ¬ (cfg.strict && decide (LF ≠ LF)) = true := by simp
  have hup : ∀ P : Prop, ¬ (q.upgrade = true ∧ P) := fun P h => by
    rw [hq.upgrade] at h
    exact absurd h.1 (by decide)
  have hskip : ¬ q.flags.skipbody = true := by
    rw [hq.skipbody]
    decide
  simp only [headersDone, strictCheck]
  rw [if_neg hstrict, if_neg (hup _), if_neg hskip]

/-- A response without a length lasts until the end of the stream, unless its status
allows no body. -/
theorem messageNeedsEof_response {q : HttpMachine.HttpParser} (hq : Steady q)
    (hcode : q.statusCode = code) (hfinal : 200 ≤ code) (hchunked : q.flags.chunked = false)
    (hmax : q.contentLength = ullongMax) :
    q.messageNeedsEof = !decide (code = 204 ∨ code = 304) := by
  have hresponse : ¬ q.type = .request := by
    rw [hq.type]
    decide
  have hinfo : ¬ q.statusCode/100 = 1 := by omega
  have hskip : ¬ q.flags.skipbody = true := by
    rw [hq.skipbody]
    decide
  have hlast : ¬ (q.flags.chunked = true ∨ q.contentLength ≠ ullongMax) := by
    rw [hchunked]
    exact not_or.mpr ⟨by decide, not_not.mpr hmax⟩
  rw [HttpMachine.HttpParser.messageNeedsEof, if_neg hresponse, if_neg hlast]
  by_cases hbody : code = 204 ∨ code = 304
  · rw [if_pos (by rw [hcode]; tauto), decide_eq_true hbody]
    rfl
  · rw [if_neg (by rw [hcode] at hinfo ⊢; tauto), decide_eq_false hbody]
    rfl

theorem headersDone_ends {q : HttpMachine.HttpParser} (hq : Steady q) (hframe : Framed fr (view q))
    (hcode : q.statusCode = code) (hfinal : 200 ≤ code) (hends : EndsAtHead fr code) :
    ∃ s, headersDone cfg q LF =
      .go { q with nread := 0, state := s } [.notify .messageComplete] := by
  obtain ⟨hchunked, hlength⟩ := hends
  have h1 : q.flags.chunked = false := hframe.chunked.trans hchunked
  have h2 : q.contentLength = fr.length.getD ullongMax := hframe.contentLength
  rw [headersDone_response hq]
  simp only
  rw [if_neg (by rw [h1]; decide)]
  rcases hlength with hzero | ⟨hnone, hnobody⟩
  · rw [if_pos (by rw [h2, hzero]; rfl)]
    exact ⟨_, rfl⟩
  · have hmax : q.contentLength = ullongMax := by
      rw [h2, hnone]
      rfl
    have heof := messageNeedsEof_response (q := { q with nread := 0 })
      (hq.same rfl) hcode hfinal h1 hmax
    rw [if_neg (by rw [hmax]; decide), if_neg (not_not.mpr hmax),
      if_pos (by rw [heof, decide_eq_true hnobody]; rfl)]
    exact ⟨_, rfl⟩

/-- In all other cases the parser waits for more, for the body if there is a length. -/
theorem headersDone_waits {q : HttpMachine.HttpParser} (hq : Steady q) (hframe : Framed fr (view q))
    (hcode : q.statusCode = code) (hfinal : 200 ≤ code)
    (hlt : ∀ m, fr.length = some m → m < ullongMax) (hends : ¬ EndsAtHead fr code) :
    ∃ s, headersDone cfg q LF = .go { q with nread := 0, state := s } [] ∧
      (fr.chunked = false → fr.length ≠ none → s = .bodyIdentity) := by
  have h1 : q.flags.chunked = fr.chunked := hframe.chunked
  have h2 : q.contentLength = fr.length.getD ullongMax := hframe.contentLength
  rw [headersDone_response hq]
  simp only
  cases hchunked : fr.chunked with
  | true =>
    rw [if_pos (h1.trans hchunked)]
    exact ⟨.chunkSizeStart, rfl, fun h => by cases h⟩
  | false =>
    rw [if_neg (by rw [h1, hchunked]; decide)]
    cases hlength : fr.length with
    | some m =>
      have hm : q.contentLength = m := by
        rw [h2, hlength]
        rfl
      have hpos : ¬ q.contentLength = 0 := by
        intro h0
        exact hends ⟨hchunked, .inl (hlength.trans (congrArg some (hm.symm.trans h0)))⟩
      have hmax : q.contentLength ≠ ullongMax := by
        rw [hm]
        exact Nat.ne_of_lt (hlt m hlength)
      rw [if_neg hpos, if_pos hmax]
      exact ⟨.bodyIdentity, rfl, fun _ _ => rfl⟩
    | none =>
      have hmax : q.contentLength = ullongMax := by
        rw [h2, hlength]
        rfl
      have hbody : ¬ (code = 204 ∨ code = 304) := fun h => hends ⟨hchunked, .inr ⟨hlength, h⟩⟩
      have heof := messageNeedsEof_response (q := { q with nread := 0 })
        (hq.same rfl) hcode hfinal (h1.trans hchunked) hmax
      rw [if_neg (by rw [hmax]; decide), if_neg (not_not.mpr hmax),
        if_neg (by rw [heof, decide_eq_false hbody]; decide)]
      exact ⟨.bodyIdentityEof, rfl, fun _ h => absurd rfl h⟩

end HeadEnd

/-! ## The body -/

section Body

variable {cfg : Config} {code left : ℕ} {body : Bytes}

structure Through (m : Call ResponseSink) (code : ℕ) (finished : Bool) (body : Bytes) : Prop where
  live : m.live = true
  errno : m.parser.httpErrno = .OK
  segment : m.parser.segment = 0
  statusCode : m.parser.statusCode = code
  mark : m.buffers.marks .body = none
  status : m.buffers.data.data.status = code
  body : m.buffers.data.data.body = body
  finished : m.buffers.data.finished = finished

/-- A call in a body of which `left` bytes are to come; `body` is before them. -/
structure InBody (m : Call ResponseSink) (code left : ℕ) (body : Bytes) : Prop where
  live : m.live = true
  steady : Steady m.parser
  segment : m.parser.segment = 0
  statusCode : m.parser.statusCode = code
  state : m.parser.state = .bodyIdentity
  left : m.parser.contentLength = left
  status : m.buffers.data.data.status = code
  body : m.buffers.data.data.body ++ (m.buffers.marks .body).getD [] = body

theorem body_byte {p : HttpMachine.HttpParser} (hstate : p.state = .bodyIdentity) (ch : UInt8) :
    byte cfg p ch = bodyIdentity cfg p := by
  have hhead : ¬ (parsingHeader p.state = true ∧ p.segment = 0) := fun h => by
    rw [hstate] at h
    cases h.1
  rw [byte, if_neg hhead, reexecute, hstate]

theorem mark_body (i : Info) (ch : UInt8) (b : Buffers Token ResponseSink) :
    ∃ b', runOp responseSettings i ch b (.mark .body) = (b', none) ∧
      b'.marks .body = some ((b.marks .body).getD []) ∧ b'.data = b.data := by
  simp only [runOp]
  cases hm : b.marks .body with
  | some bs => exact ⟨b, rfl, hm, rfl⟩
  | none => exact ⟨_, rfl, Buffers.set_self b .body _, rfl⟩

theorem body_step {m : Call ResponseSink} (hm : InBody m code (left+2) body) (ch : UInt8) :
    InBody (m.step cfg responseSettings ch) code (left+1) (body ++ [ch]) ∧
      (m.step cfg responseSettings ch).parsed = m.parsed+1 := by
  let q := { m.parser with contentLength := m.parser.contentLength-1 }
  have hleft : q.contentLength = left+1 := by
    change m.parser.contentLength-1 = left+1
    rw [hm.left]
    rfl
  have hgo : byte cfg m.parser ch = .go q [.mark .body] := by
    rw [body_byte hm.state, bodyIdentity]
    exact if_neg (by rw [hleft]; omega)
  obtain ⟨b, hmark, hbody, hdata⟩ := mark_body (info q) ch m.buffers
  have hops : runOps responseSettings (info q) ch [.mark .body] m.buffers = (b, none) := by
    simp only [runOps, hmark]
  rw [step_go hm.live rfl hgo hops]
  refine ⟨⟨rfl, ?_, hm.segment, hm.statusCode, hm.state, hleft, ?_, ?_⟩, rfl⟩
  · exact hm.steady.same rfl
  · exact (congrArg (fun d : ResponseSink => d.data.status) hdata).trans hm.status
  · simp only [Buffers.extend, hbody, hdata, Option.map_some, Option.getD_some]
    rw [← List.append_assoc, hm.body]

theorem body_last {m : Call ResponseSink} (hm : InBody m code 1 body) (ch : UInt8) :
    Through (m.step cfg responseSettings ch) code true (body ++ [ch]) ∧
      (m.step cfg responseSettings ch).parsed = m.parsed+1 := by
  let p := { m.parser with contentLength := m.parser.contentLength-1, state := .messageDone }
  let q := { p with state := p.newMessage cfg }
  have hgo : byte cfg m.parser ch =
      .go q [.mark .body, .report .body true, .notify .messageComplete] := by
    rw [body_byte hm.state, bodyIdentity]
    refine (if_pos (by rw [hm.left])).trans ?_
    rw [messageDone, if_neg (by rw [hm.steady.upgrade]; decide)]
    rfl
  obtain ⟨b, hmark, hbody, hdata⟩ := mark_body (info q) ch m.buffers
  let d := b.data.data.appendBody ((m.buffers.marks .body).getD [] ++ [ch])
  have hreport : runOp responseSettings (info q) ch b (.report .body true) =
      ({ b.set .body none with data := { b.data with data := d } }, none) :=
    runOp_report responseSettings (info q) ch b .body true _ _ hbody rfl
  have hops : runOps responseSettings (info q) ch
      [.mark .body, .report .body true, .notify .messageComplete] m.buffers =
      ({ b.set .body none with data := { b.data with data := d, finished := true } }, none) := by
    simp only [runOps, hmark, hreport]
    rfl
  rw [step_go hm.live rfl hgo hops]
  refine ⟨⟨rfl, hm.steady.errno, hm.segment, hm.statusCode, ?_, ?_, ?_, rfl⟩, rfl⟩
  · exact congrArg (Option.map (· ++ [ch])) (Buffers.set_self b .body none)
  · exact (congrArg (fun d : ResponseSink => d.data.status) hdata).trans hm.status
  · change b.data.data.body ++ _ = _
    rw [hdata, ← List.append_assoc, hm.body]

theorem body_read {bs : Bytes} (hbs : bs ≠ []) {m : Call ResponseSink}
    (hm : InBody m code bs.length body) :
    Through (HttpCalls.read cfg responseSettings bs m) code true (body ++ bs) ∧
      (HttpCalls.read cfg responseSettings bs m).parsed = m.parsed+bs.length := by
  induction bs generalizing m body with
  | nil => exact absurd rfl hbs
  | cons ch rest ih =>
    cases rest with
    | nil => exact body_last hm ch
    | cons c rest =>
      obtain ⟨hone, hparsed⟩ := @body_step cfg _ _ _ _ hm ch
      obtain ⟨hrest, hall⟩ := ih (by simp) hone
      rw [List.append_assoc] at hrest
      refine ⟨hrest, hall.trans ?_⟩
      rw [hparsed, @List.length_cons _ ch]
      omega

end Body

/-! ## The blank line -/

section BlankLine

variable {cfg : Config} {n code : ℕ} {fr : Frame} {p : HttpMachine.HttpParser}
  {m : Call ResponseSink}

theorem line_feed_fails (hm : InHead m p) (hp : Reading cfg (n+1) p)
    (hv : At .headersAlmostDone fr code (view p)) (hchunked : fr.chunked = true)
    (hlength : fr.length ≠ none) (bs : Bytes) :
    (HttpCalls.read cfg responseSettings (LF::bs) m).live = false ∧
      (HttpCalls.read cfg responseSettings (LF::bs) m).parser.httpErrno ≠ .OK := by
  obtain ⟨q, ops, hbyte⟩ := head_end_error hp hv hchunked hlength
  exact (HeadFails.here bs hbyte (by decide)).read hm

theorem line_feed_ends (hm : InHead m p) (hp : Reading cfg (n+1) p)
    (hv : At .headersAlmostDone fr code (view p)) (hfinal : 200 ≤ code)
    (hends : EndsAtHead fr code) :
    Through (m.step cfg responseSettings LF) code true [] ∧
      (m.step cfg responseSettings LF).parsed = m.parsed+1 := by
  have hone : ¬ (fr.chunked = true ∧ fr.length ≠ none) := fun h => by
    rw [hends.1] at h
    cases h.1
  obtain ⟨q, hbyte, hq, hsegment, hframe, hcode⟩ := head_end hp hv hfinal hone
  obtain ⟨s, hdone⟩ := @headersDone_ends cfg _ _ _ hq hframe hcode hfinal hends
  have hgo : byte cfg p LF = .go { q with nread := 0, state := s }
      [.notify .headersComplete, .notify .messageComplete] := by
    rw [hbyte, hdone]
    rfl
  rw [step_go hm.live hm.parser hgo rfl]
  have hmark : ((m.buffers.marks .body).map (· ++ [LF])) = none := by
    rw [hm.bodyless.mark]
    rfl
  exact ⟨⟨rfl, hq.errno, hsegment, hcode, hmark, hcode, hm.bodyless.body, rfl⟩, rfl⟩

/-- Behind a head that does not end the message the parser waits; with a length and no
chunks it waits for the body. -/
theorem line_feed_waits (hm : InHead m p) (hp : Reading cfg (n+1) p)
    (hv : At .headersAlmostDone fr code (view p)) (hfinal : 200 ≤ code)
    (hlt : ∀ m, fr.length = some m → m < ullongMax)
    (hone : ¬ (fr.chunked = true ∧ fr.length ≠ none)) (hends : ¬ EndsAtHead fr code) :
    Through (m.step cfg responseSettings LF) code false [] ∧
      (∀ left, fr.chunked = false → fr.length = some left →
        InBody (m.step cfg responseSettings LF) code left []) ∧
      (m.step cfg responseSettings LF).parsed = m.parsed+1 := by
  obtain ⟨q, hbyte, hq, hsegment, hframe, hcode⟩ := head_end hp hv hfinal hone
  obtain ⟨s, hdone, hstate⟩ := @headersDone_waits cfg _ _ _ hq hframe hcode hfinal hlt hends
  have hgo : byte cfg p LF = .go { q with nread := 0, state := s } [.notify .headersComplete] := by
    rw [hbyte, hdone]
    rfl
  rw [step_go hm.live hm.parser hgo rfl]
  have hmark : ((m.buffers.marks .body).map (· ++ [LF])) = none := by
    rw [hm.bodyless.mark]
    rfl
  refine ⟨⟨rfl, hq.errno, hsegment, hcode, hmark, hcode, hm.bodyless.body,
    hm.bodyless.unfinished⟩, fun left hchunked hlength => ?_, rfl⟩
  have hleft : q.contentLength = left := by
    rw [show q.contentLength = fr.length.getD ullongMax from hframe.contentLength, hlength]
    rfl
  refine ⟨rfl, hq.same rfl, hsegment, hcode, ?_, hleft, hcode, ?_⟩
  · exact hstate hchunked (by rw [hlength]; exact Option.some_ne_none left)
  · change m.buffers.data.data.body ++ ((m.buffers.marks .body).map (· ++ [LF])).getD [] = []
    rw [hmark, hm.bodyless.body]
    rfl

end BlankLine

/-! ## The dump under the parser -/

def head (statusText : ℕ → Bytes) (r : ServerResponse) : Bytes :=
  statusLine statusText r ++ (headerList r).flatMap headerLine

/-- What the server sends about the end of `r` is what the parser goes by. -/
def Delimited (r : ServerResponse) : Prop :=
  announcesChunks r.headers = false ∧
    if r.body = [] then
      (∃ v, lengths r.headers = [v] ∧ lengthValue v = some 0) ∨
        lengths r.headers = [] ∧ (r.status = 204 ∨ r.status = 304)
    else lengths r.headers = []

def start : Call ResponseSink :=
  .begin HttpResponseParser.new.parser HttpResponseParser.new.sink

section Dump

variable {cfg : Config} {statusText : ℕ → Bytes} {r : ServerResponse} {fr : Frame}

theorem dump_head (hr : Legal statusText r) :
    dump statusText r = (head statusText r ++ [CR]) ++ LF::r.body := by
  rw [dump_eq hr, head]
  simp [crlf]

theorem start_inHead : InHead start HttpResponseParser.new.parser :=
  ⟨rfl, rfl, rfl, rfl, rfl⟩

theorem start_reading {n : ℕ} (hroom : n ≤ cfg.maxHeaderSize) (hword : n < 2^32) :
    Reading cfg n HttpResponseParser.new.parser := by
  have hspent : spent HttpResponseParser.new.parser = 0 := rfl
  refine ⟨⟨rfl, rfl, rfl, rfl, rfl, rfl⟩, ?_, ?_, Nat.zero_le _, fun _ _ => rfl, rfl⟩
  · rwa [hspent, Nat.zero_add]
  · rwa [hspent, Nat.zero_add]

theorem goes_statusLine (hr : Legal statusText r) :
    Goes cfg (fun v => v.state = .startRes) (statusLine statusText r) (Bound .none r.status) := by
  have hreason : ∀ c ∈ (if r.reason.isEmpty then statusText r.status else r.reason),
      c ≠ CR ∧ c ≠ LF := by
    have htext : ∀ c ∈ (if r.reason.isEmpty then statusText r.status else r.reason),
        textChar c = true := by
      split_ifs
      · exact hr.text
      · exact hr.reason
    exact fun c hc => ⟨textChar_ne (htext c hc) (by decide), textChar_ne (htext c hc) (by decide)⟩
  rw [statusLine, List.append_assoc]
  exact goes_version.append <| (goes_code hr.final.2).append <|
    (goes_reason hreason).weaken fun v hv => ⟨hv.2.2, .inl ⟨hv.1, hv.2.1⟩⟩

theorem goes_head (hr : Legal statusText r) (hframe : frame r = some fr) :
    Goes cfg (fun v => v.state = .startRes) (head statusText r ++ [CR])
      (At .headersAlmostDone fr r.status) :=
  ((goes_statusLine hr).append (goes_lines (headerList_legal hr) hframe)).append
    (goes_blank_line fr r.status)

theorem fails_head (hr : Legal statusText r) (hframe : frame r = none) :
    Fails cfg (fun v => v.state = .startRes) (head statusText r ++ [CR]) := by
  rw [head, List.append_assoc]
  exact (goes_statusLine hr).fails
    (fails_lines (headerList_legal hr) hframe ⟨by decide, by decide⟩ [])

section Room

variable (hr : Legal statusText r) (hroom : (head statusText r).length+2 ≤ cfg.maxHeaderSize)
  (hword : (head statusText r).length+2 < 2^32)
include hr hroom hword

/-- The call after the head, before the line feed of the blank line. -/
theorem head_read (hframe : frame r = some fr) :
    ∃ p, InHead (HttpCalls.read cfg responseSettings (head statusText r ++ [CR]) start) p ∧
      (HttpCalls.read cfg responseSettings (head statusText r ++ [CR]) start).parsed =
        (head statusText r ++ [CR]).length ∧
      Reading cfg 1 p ∧ At .headersAlmostDone fr r.status (view p) := by
  have hstart : Reading cfg (1+(head statusText r ++ [CR]).length)
      HttpResponseParser.new.parser := by
    refine start_reading ?_ ?_ <;>
    · rw [List.length_append, List.length_singleton]
      omega
  obtain ⟨p, hrun, hp, hv⟩ := goes_head hr hframe 1 _ hstart rfl
  obtain ⟨hm, hparsed⟩ := hrun.read start_inHead
  exact ⟨p, hm, hparsed.trans (Nat.zero_add _), hp, hv⟩

/-- Two lengths, one that is no number, or a length with chunks. -/
theorem dump_rejected
    (h : ∀ fr, frame r = some fr → fr.chunked = true ∧ fr.length ≠ none) :
    (HttpCalls.read cfg responseSettings (dump statusText r) start).live = false ∧
      (HttpCalls.read cfg responseSettings (dump statusText r) start).parser.httpErrno ≠ .OK := by
  rw [dump_head hr]
  cases hframe : frame r with
  | none =>
    have hstart : Reading cfg (1+(head statusText r ++ [CR]).length)
        HttpResponseParser.new.parser := by
      refine start_reading ?_ ?_ <;>
      · rw [List.length_append, List.length_singleton]
        omega
    exact ((fails_head hr hframe 1 _ hstart rfl).append _).read start_inHead
  | some fr =>
    obtain ⟨hchunked, hlength⟩ := h fr hframe
    obtain ⟨p, hm, -, hp, hv⟩ := head_read hr hroom hword hframe
    rw [read_append]
    exact line_feed_fails hm hp hv hchunked hlength r.body

theorem dump_delimited (hsize : r.body.length < 2^31) (h : Delimited r) :
    Through (HttpCalls.read cfg responseSettings (dump statusText r) start) r.status true r.body ∧
      (HttpCalls.read cfg responseSettings (dump statusText r) start).parsed =
        (dump statusText r).length := by
  have hfinal : 200 ≤ r.status := hr.final.1
  obtain ⟨hchunks, hlengths⟩ := h
  by_cases hbody : r.body = []
  · rw [if_pos hbody] at hlengths
    have hends : ∃ fr, frame r = some fr ∧ EndsAtHead fr r.status := by
      rw [frame_empty hr hbody, hchunks]
      rcases hlengths with ⟨v, hv, hzero⟩ | ⟨hnone, hcode⟩
      · rw [hv]
        exact ⟨⟨false, some 0⟩, by simp only [lengthOf, hzero, Option.map_some], rfl, .inl rfl⟩
      · rw [hnone]
        exact ⟨⟨false, none⟩, rfl, rfl, .inr ⟨rfl, hcode⟩⟩
    obtain ⟨fr, hframe, hends⟩ := hends
    obtain ⟨p, hm, hparsed, hp, hv⟩ := head_read hr hroom hword hframe
    obtain ⟨hthrough, hone⟩ := line_feed_ends hm hp hv hfinal hends
    rw [dump_head hr, read_append, hbody]
    refine ⟨hthrough, hone.trans ?_⟩
    rw [hparsed, @List.length_append _ _ [LF]]
    rfl
  · rw [if_neg hbody] at hlengths
    have hframe := frame_body hr hbody (by omega)
    rw [if_pos hlengths, hchunks] at hframe
    have hpos : r.body.length ≠ 0 := fun h0 => hbody (List.length_eq_zero_iff.mp h0)
    have hends : ¬ EndsAtHead ⟨false, some r.body.length⟩ r.status := by
      rintro ⟨-, h0 | ⟨h0, -⟩⟩
      · exact hpos (Option.some.inj h0)
      · cases h0
    obtain ⟨p, hm, hparsed, hp, hv⟩ := head_read hr hroom hword hframe
    obtain ⟨-, hin, hone⟩ := line_feed_waits hm hp hv hfinal (fun _ => frame_lt hframe)
      (fun h0 => by cases h0.1) hends
    obtain ⟨hthrough, hall⟩ := body_read hbody (hin _ rfl rfl)
    rw [dump_head hr, read_append]
    refine ⟨hthrough, hall.trans ?_⟩
    rw [hone, hparsed, @List.length_append _ _ (LF::r.body), List.length_cons]
    omega

/-- In all other cases there is an error, or the parser waits for more behind the head. -/
theorem dump_undelimited (hsize : r.body.length < 2^31) (h : ¬ Delimited r)
    (hlive : ¬ ∀ fr, frame r = some fr → fr.chunked = true ∧ fr.length ≠ none) :
    Through (HttpCalls.read cfg responseSettings (dump statusText r) start) r.status false [] ∧
      (HttpCalls.read cfg responseSettings (dump statusText r) start).parsed =
        (dump statusText r).length := by
  obtain ⟨fr, hone⟩ := not_forall.mp hlive
  obtain ⟨hframe, hone⟩ := Classical.not_imp.mp hone
  have hbody : r.body = [] := by
    by_contra hbody
    have hsome := frame_body hr hbody (by omega)
    rw [hframe] at hsome
    split_ifs at hsome with hlengths
    obtain rfl := Option.some.inj hsome
    refine h ⟨?_, by rwa [if_neg hbody]⟩
    exact Bool.eq_false_of_not_eq_true fun hchunks => hone ⟨hchunks, Option.some_ne_none _⟩
  have hends : ¬ EndsAtHead fr r.status := by
    intro hends
    have hsome := frame_empty hr hbody
    rw [hframe] at hsome
    obtain ⟨l, hl, rfl⟩ := Option.map_eq_some_iff.mp hsome.symm
    refine h ⟨hends.1, ?_⟩
    rw [if_pos hbody]
    rcases lengthOf_some hl with ⟨hnone, rfl⟩ | ⟨v, n, hv, hn, rfl⟩
    · rcases hends.2 with h0 | ⟨-, hcode⟩
      · cases h0
      · exact .inr ⟨hnone, hcode⟩
    · rcases hends.2 with h0 | ⟨h0, -⟩
      · obtain rfl := Option.some.inj h0
        exact .inl ⟨v, hv, hn⟩
      · cases h0
  obtain ⟨p, hm, hparsed, hp, hv⟩ := head_read hr hroom hword hframe
  obtain ⟨hthrough, -, hlast⟩ := line_feed_waits hm hp hv hr.final.1 (fun _ => frame_lt hframe)
    hone hends
  rw [dump_head hr, read_append, hbody]
  refine ⟨hthrough, hlast.trans ?_⟩
  rw [hparsed, @List.length_append _ _ [LF]]
  rfl

end Room

end Dump

/-! ## The end of the buffer -/

/-- The report of the open tokens leaves status and body alone. -/
theorem flush_keeps (i : Info) (order : List Token) {b : Buffers Token ResponseSink} {body : Bytes}
    {finished : Bool} (hmark : b.marks .body = none) (hstatus : b.data.data.status = i.statusCode)
    (hbody : b.data.data.body = body) (hfinished : b.data.finished = finished) :
    ∃ b', flush responseSettings i order b = (b', none) ∧
      b'.data.data.status = i.statusCode ∧ b'.data.data.body = body ∧
        b'.data.finished = finished := by
  induction order generalizing b with
  | nil => exact ⟨b, rfl, hstatus, hbody, hfinished⟩
  | cons t order ih =>
    have hone : ∃ b₁, runOp responseSettings i 0 b (.report t false) = (b₁, none) ∧
        b₁.marks .body = none ∧ b₁.data.data.status = i.statusCode ∧
          b₁.data.data.body = body ∧ b₁.data.finished = finished := by
      simp only [runOp]
      cases hm : b.marks t with
      | none => exact ⟨b, rfl, hmark, hstatus, hbody, hfinished⟩
      | some bs =>
        have hne : t ≠ .body := by
          rintro rfl
          rw [hmark] at hm
          cases hm
        have hmark' : (b.set t none).marks .body = none :=
          (Buffers.set_other b t .body _ (Ne.symm hne)).trans hmark
        cases t with
        | body => exact absurd rfl hne
        | status => exact ⟨_, rfl, hmark', rfl, hbody, hfinished⟩
        | _ => exact ⟨_, rfl, hmark', hstatus, hbody, hfinished⟩
    obtain ⟨b₁, hrun, h1, h2, h3, h4⟩ := hone
    obtain ⟨b₂, hflush, hrest⟩ := ih h1 h2 h3 h4
    refine ⟨b₂, ?_, hrest⟩
    simp only [flush, List.map_cons, runOps, hrun] at hflush ⊢
    exact hflush

section Buffer

variable {cfg : Config} {code buffSize : ℕ} {finished : Bool} {body bs : Bytes}

/-- No header field is open, so the end of the buffer leaves the parser as it is. -/
theorem finish_through {m : Call ResponseSink} (h : Through m code finished body) :
    ∃ b, m.finish cfg responseSettings = { m with buffers := b } ∧ b.data.data.status = code ∧
      b.data.data.body = body ∧ b.data.finished = finished := by
  obtain ⟨b, hflush, hstatus, hbody, hfinished⟩ := flush_keeps (info m.parser) flushOrder h.mark
    (h.status.trans h.statusCode.symm) h.body h.finished
  refine ⟨b, ?_, hstatus.trans h.statusCode, hbody, hfinished⟩
  have hno : ¬ (m.parser.segment ≠ 0 ∧
      cfg.maxHeaderSize < (m.parser.nread+(m.parser.segment-1)) % 2^32) := fun h0 =>
    h0.1 h.segment
  simp only [Call.finish, h.live, Bool.not_true, Bool.false_eq_true, if_false]
  rw [if_neg hno, if_pos h.segment, hflush]

theorem execute_start (hbs : bs ≠ []) {m : Call ResponseSink}
    (hfinish : (HttpCalls.read cfg responseSettings bs start).finish cfg responseSettings = m) :
    HttpParser.execute cfg responseSettings HttpResponseParser.new.parser
      HttpResponseParser.new.sink bs =
        ({ m.parser with segment := 0, general := 0 }, m.buffers.data, m.parsed) := by
  rw [← hfinish]
  exact execute_read _ _ _ rfl hbs

theorem execute_through (hbs : bs ≠ [])
    (h : Through (HttpCalls.read cfg responseSettings bs start) code finished body)
    (hparsed : (HttpCalls.read cfg responseSettings bs start).parsed = bs.length) :
    ∃ q, HttpResponseParser.new.execute cfg bs = (q, bs.length) ∧ q.hasError = false ∧
      q.sink.finished = finished ∧ q.sink.data.status = code ∧ q.sink.data.body = body := by
  obtain ⟨b, hfinish, hstatus, hbody, hfinished⟩ := @finish_through cfg _ _ _ _ h
  let p := (HttpCalls.read cfg responseSettings bs start).parser
  refine ⟨⟨{ p with segment := 0, general := 0 }, b.data, .OK⟩, ?_, rfl, hfinished, hstatus,
    hbody⟩
  rw [HttpResponseParser.execute, execute_start hbs hfinish, ← hparsed]
  exact if_neg (not_not.mpr h.errno)

/-- An error of `http_parser_execute` is an error of the parser. -/
theorem execute_failed (hbs : bs ≠ [])
    (hlive : (HttpCalls.read cfg responseSettings bs start).live = false)
    (herrno : (HttpCalls.read cfg responseSettings bs start).parser.httpErrno ≠ .OK) :
    (HttpResponseParser.new.execute cfg bs).1.hasError = true := by
  let m := HttpCalls.read cfg responseSettings bs start
  have hfinish : m.finish cfg responseSettings = m := by
    rw [Call.finish, hlive]
    rfl
  rw [HttpResponseParser.execute, execute_start hbs hfinish]
  change (if m.parser.httpErrno ≠ .OK then _ else _ : HttpResponseParser × ℕ).1.hasError = true
  rw [if_pos herrno]
  exact decide_eq_true herrno

/-! ## One read -/

def delivered (bs : Bytes) (hbs : bs ≠ []) : Stream := ⟨[⟨bs, hbs⟩], [], [], false⟩

def drained : Stream := ⟨[], [], [], false⟩

theorem read_delivered (hbs : bs ≠ []) (hle : bs.length ≤ buffSize) :
    (delivered bs hbs).read buffSize = ((bs.length:ℤ), bs, drained) := by
  simp only [Stream.read, delivered, drained, Bool.false_eq_true, if_false]
  exact dif_neg (Nat.not_lt.mpr hle)

theorem toInt_zero_iff (n : ℕ) : toInt 0 = toInt n ↔ n % 2^32 = 0 := by
  unfold toInt
  rw [Int.bmod_def, Int.bmod_def]
  omega

theorem recvResponse_first {ended : Bool} (hbs : bs ≠ []) (hle : bs.length ≤ buffSize) :
    recvResponse cfg buffSize ended (delivered bs hbs) =
      match HttpResponseParser.new.execute cfg bs with
      | (q, nparse) =>
        if q.hasError then (.null, drained.close)
        else
          let data := bs.drop nparse
          if toInt data.length = toInt buffSize then (.null, drained.close)
          else if q.sink.finished then (.response q.sink.data, drained)
          else recvLoop cfg buffSize ended (bs.length+1) q data drained := by
  have hpending : (delivered bs hbs).pending = bs := by simp [Stream.pending, delivered]
  have hpos : ¬ ((bs.length:ℤ) ≤ 0) := by
    have := List.length_pos_iff.mpr hbs
    omega
  rw [recvResponse, hpending, recvLoop, if_neg (fun h => hbs (hpending.symm.trans h.1)),
    List.length_nil, Nat.sub_zero, read_delivered hbs hle]
  exact if_neg hpos

/-- What the loop does with a buffer that the parser has read through. -/
theorem recvResponse_through {ended : Bool} (hbs : bs ≠ []) (hle : bs.length ≤ buffSize)
    {q : HttpResponseParser} (hexecute : HttpResponseParser.new.execute cfg bs = (q, bs.length))
    (herror : q.hasError = false) : recvResponse cfg buffSize ended (delivered bs hbs) =
      if buffSize % 2^32 = 0 then (.null, drained.close)
      else if q.sink.finished then (.response q.sink.data, drained)
      else recvLoop cfg buffSize ended (bs.length+1) q [] drained := by
  rw [recvResponse_first hbs hle, hexecute]
  simp only [herror, Bool.false_eq_true, if_false, List.drop_length, List.length_nil,
    toInt_zero_iff]

theorem recvResponse_failed {ended : Bool} (hbs : bs ≠ []) (hle : bs.length ≤ buffSize)
    (herror : (HttpResponseParser.new.execute cfg bs).1.hasError = true) :
    recvResponse cfg buffSize ended (delivered bs hbs) = (.null, drained.close) := by
  rw [recvResponse_first hbs hle]
  exact if_pos herror

/-- With nothing more to read, the client waits; the end of the stream is an error to it,
and the parser does not hear of it. -/
theorem recvLoop_drained (ended : Bool) (fuel : ℕ) (q : HttpResponseParser) :
    recvLoop cfg buffSize ended (fuel+1) q [] drained =
      if ended then (.null, drained.close) else (.waiting, drained) := by
  rw [recvLoop]
  cases ended with
  | false => rfl
  | true =>
    rw [read_drained drained _ rfl rfl]
    rfl

end Buffer

/-! ## What the client makes of the dump -/

section Dump

variable {cfg : Config} {statusText : ℕ → Bytes} {buffSize : ℕ} {r : ServerResponse}

theorem dump_ne (hr : Legal statusText r) : dump statusText r ≠ [] := by
  rw [dump_head hr]
  simp

theorem dump_length (hr : Legal statusText r) :
    (dump statusText r).length = (head statusText r).length+2+r.body.length := by
  rw [dump_head hr]
  simp only [List.length_append, List.length_cons, List.length_nil]
  omega

section Room

variable (hr : Legal statusText r)
  (hroom : (dump statusText r).length ≤ cfg.maxHeaderSize+r.body.length)
  (hone : (dump statusText r).length ≤ buffSize) (hint : (dump statusText r).length < 2^31)
include hr hroom hone hint

theorem delimited_received (h : Delimited r) :
    ∃ q, recvResponse cfg buffSize r.close (delivered (dump statusText r) (dump_ne hr)) =
      (if buffSize % 2^32 = 0 then (.null, drained.close) else (.response q, drained)) ∧
        q.status = r.status ∧ q.body = r.body := by
  have hlength := dump_length hr
  obtain ⟨hthrough, hparsed⟩ := @dump_delimited cfg _ _ hr (by omega) (by omega) (by omega) h
  obtain ⟨q, hexecute, herror, hfinished, hstatus, hbody⟩ :=
    execute_through (dump_ne hr) hthrough hparsed
  refine ⟨q.sink.data, ?_, hstatus, hbody⟩
  rw [recvResponse_through (dump_ne hr) hone hexecute herror, hfinished]
  rfl

/-- Without an agreement on the end, the client gives up, or waits for a server that
keeps the connection. -/
theorem undelimited_lost (h : ¬ Delimited r) :
    recvResponse cfg buffSize r.close (delivered (dump statusText r) (dump_ne hr)) =
        (.null, drained.close) ∨
      r.close = false ∧
        recvResponse cfg buffSize r.close (delivered (dump statusText r) (dump_ne hr)) =
          (.waiting, drained) := by
  have hlength := dump_length hr
  by_cases hlive : ∀ fr, frame r = some fr → fr.chunked = true ∧ fr.length ≠ none
  · obtain ⟨hdead, herrno⟩ := @dump_rejected cfg _ _ hr (by omega) (by omega) hlive
    exact .inl (recvResponse_failed (dump_ne hr) hone (execute_failed (dump_ne hr) hdead herrno))
  · obtain ⟨hthrough, hparsed⟩ :=
      @dump_undelimited cfg _ _ hr (by omega) (by omega) (by omega) h hlive
    obtain ⟨q, hexecute, herror, hfinished, -, -⟩ :=
      execute_through (dump_ne hr) hthrough hparsed
    rw [recvResponse_through (dump_ne hr) hone hexecute herror, hfinished, recvLoop_drained]
    by_cases hsize : buffSize % 2^32 = 0
    · rw [if_pos hsize]
      exact .inl rfl
    · rw [if_neg hsize]
      cases r.close with
      | true => exact .inl rfl
      | false => exact .inr ⟨rfl, rfl⟩

end Room

/-- A response whose dump comes in one read arrives just when the parser sees its end:
without a body the server writes no `content-length` of its own, and the end of the
stream never reaches the parser. -/
theorem response_received_iff (hr : Legal statusText r)
    (hroom : (dump statusText r).length ≤ cfg.maxHeaderSize+r.body.length)
    (hone : (dump statusText r).length ≤ buffSize) (hint : (dump statusText r).length < 2^31) :
    (∃ q s, recvResponse cfg buffSize r.close (delivered (dump statusText r) (dump_ne hr)) =
      (.response q, s) ∧ q.status = r.status ∧ q.body = r.body) ↔
        buffSize % 2^32 ≠ 0 ∧ Delimited r := by
  constructor
  · rintro ⟨q, s, hreceived, -, -⟩
    by_cases h : Delimited r
    · refine ⟨fun hsize => ?_, h⟩
      obtain ⟨q', hq, -, -⟩ := delimited_received hr hroom hone hint h
      rw [hq, if_pos hsize] at hreceived
      cases hreceived
    · rcases undelimited_lost hr hroom hone hint h with hlost | ⟨-, hlost⟩ <;>
      · rw [hlost] at hreceived
        cases hreceived
  · rintro ⟨hsize, h⟩
    obtain ⟨q, hq, hstatus, hbody⟩ := delimited_received hr hroom hone hint h
    exact ⟨q, drained, hq.trans (if_neg hsize), hstatus, hbody⟩

/-- What `HttpStatusToString` gives for 200. -/
def okText (_ : ℕ) : Bytes := ascii "OK"

/-- `200 OK` with a body, and `connection: close`. -/
def okResponse (body : Bytes) : ServerResponse where
  toHttpResponse := { HttpResponse.new with body := body }
  reason := []
  cookies := []

theorem okResponse_legal (body : Bytes) : Legal okText (okResponse body) where
  final := ⟨Nat.le_refl 200, by change 200 < 1000; decide⟩
  version := rfl
  plain := rfl
  headers := fun h hmem => by cases hmem
  cookies := fun c hmem => by cases hmem
  reason := fun c hmem => by cases hmem
  text := text_legal (by change (ascii "OK").all textChar = true; decide)

theorem okResponse_received : ∃ q s, recvResponse Config.standard 4096 true
    (delivered (dump okText (okResponse (ascii "hello"))) (dump_ne (okResponse_legal _))) =
      (.response q, s) ∧ q.status = 200 ∧ q.body = ascii "hello" :=
  (response_received_iff (okResponse_legal (ascii "hello")) (by decide) (by decide)
    (by decide)).mpr ⟨by decide, rfl, rfl⟩

/-- Without a body there is no `content-length`: the client reads on, and gives up at the
end of the stream that would have told it. -/
theorem okResponse_empty_lost : (okResponse []).close = true ∧
    recvResponse Config.standard 4096 (okResponse []).close
      (delivered (dump okText (okResponse [])) (dump_ne (okResponse_legal []))) =
        (.null, drained.close) := by
  have hdelimited : ¬ Delimited (okResponse []) := by
    rintro ⟨-, ⟨v, hv, -⟩ | ⟨-, hcode | hcode⟩⟩
    · cases hv
    · cases hcode
    · cases hcode
  refine ⟨rfl, ?_⟩
  rcases @undelimited_lost Config.standard okText 4096 _ (okResponse_legal []) (by decide)
    (by decide) (by decide) hdelimited with hlost | ⟨hclose, -⟩
  · exact hlost
  · cases hclose

end Dump

end Lamb.HttpResponseDelivery
