import Lamb.HttpRequestLine
import Lamb.HttpSession
import Lamb.HttpResponseDelivery

/-!
# From HttpRequest::dump to HttpSession::recvRequest

A request that the client writes is read by the server as the same request: the method,
the target and the version come back from the first line, each header from its line, and
the body is as long as the `content-length` that the dump adds.
-/

set_option autoImplicit false

namespace Lamb.HttpRequestDelivery
open Lamb.ByteString Lamb.ByteStream Lamb.Http Lamb.HttpUrl Lamb.HttpMachine Lamb.HttpParser
open Lamb.Tokens Lamb.HttpResponseHead Lamb.HttpHeaderNames Lamb.HttpHeaderValues
open Lamb.HttpHeaderLines Lamb.HttpResponseDump Lamb.HttpRequestDump Lamb.HttpRequestHead
open Lamb.HttpRequestLine Lamb.HttpSession

/-! ## The lines of the dump -/

def requestHeaders (q : HttpRequest) : List (Bytes × Bytes) :=
  (if q.websocket then []
    else [(ascii "connection",
      ascii " " ++ if q.close then ascii "close" else ascii "keep-alive")]) ++
  (q.headers.filter fun i => !leavesOut q i) ++
  (if q.body = [] then [] else [(ascii "content-length", ascii " " ++ decimal q.body.length)])

def requestHead (q : HttpRequest) : Bytes :=
  requestLine methodName q ++ crlf ++ (requestHeaders q).flatMap fieldLine

theorem dump_eq (q : HttpRequest) :
    dump methodName q = (requestHead q ++ [CR]) ++ LF::q.body := by
  have hconnection : ascii "connection: " = ascii "connection" ++ ascii ":" ++ ascii " " := by
    decide
  have hlength : ascii "content-length: " = ascii "content-length" ++ ascii ":" ++ ascii " " := by
    decide
  have hheaders : (q.headers.filter fun i => !leavesOut q i).flatMap
      (fun i => i.1 ++ ascii ":" ++ i.2 ++ crlf) =
        (q.headers.filter fun i => !leavesOut q i).flatMap fieldLine := rfl
  have hstart : CrlfLines.unlines [requestLine methodName q] =
      requestLine methodName q ++ crlf := List.append_nil _
  rw [request_lines, requestParts, ← List.singleton_append, unlines_append, unlines_append,
    unlines_map, connection_lines, ending_eq, hheaders, hstart, requestHead, requestHeaders,
    hconnection, hlength]
  cases hbody : q.body <;> cases q.websocket <;> simp [fieldLine, crlf]

theorem dump_length (q : HttpRequest) :
    (dump methodName q).length = (requestHead q).length+2+q.body.length := by
  have hhead : (requestHead q ++ [CR]).length = (requestHead q).length+1 := List.length_append
  rw [dump_eq, List.length_append, hhead, List.length_cons]
  omega

/-! ## What the headers say about the body -/

/-- A request that the parser reads as it is meant: a first line as it should be, legal
headers that announce no chunks, and no length but that of the body. -/
structure Legal (strict : Bool) (q : HttpRequest) : Prop where
  line : LegalLine strict q
  headers : ∀ h ∈ q.headers, LegalHeader h
  unchunked : announcesChunks q.headers = false
  empty : q.body = [] → lengths q.headers = [] ∨
    ∃ v, lengths q.headers = [v] ∧ lengthValue v = some 0

section Frame

variable {strict : Bool} {q : HttpRequest}

theorem requestHeaders_legal (hq : Legal strict q) : ∀ h ∈ requestHeaders q, LegalHeader h := by
  have hconnection : LegalName (ascii "connection") := by decide
  have hlength : LegalName (ascii "content-length") := by decide
  intro h hmem
  simp only [requestHeaders, List.mem_append] at hmem
  rcases hmem with (hmem | hmem) | hmem
  · split_ifs at hmem
    · cases hmem
    all_goals
      obtain rfl := List.mem_singleton.mp hmem
      exact ⟨hconnection, text_legal (by decide)⟩
  · exact hq.headers h (List.mem_of_mem_filter hmem)
  · split_ifs at hmem
    · cases hmem
    · obtain rfl := List.mem_singleton.mp hmem
      refine ⟨hlength, fun c hc => ?_⟩
      rcases List.mem_append.mp hc with hc | hc
      · exact text_legal (by decide) c hc
      · exact decimal_text _ c hc

/-- Among the user's headers only those of an empty body are asked for a length. -/
theorem lengths_written (hq : Legal strict q) : lengths (q.headers.filter fun i => !leavesOut q i) =
    if q.body = [] then lengths q.headers else [] := by
  have hname : ∀ h ∈ q.headers, lowerName h.1 = lengthName →
      folded h.1 = ascii "content-length" ∧ folded h.1 ≠ ascii "connection" := by
    intro h hmem hlength
    rw [folded_lower (hq.headers h hmem).1, hlength]
    decide
  by_cases hbody : q.body = []
  · rw [if_pos hbody, lengths, List.filter_filter]
    refine congrArg _ (List.filter_congr fun h hmem => ?_)
    by_cases hlength : lowerName h.1 = lengthName
    · simp [hlength, leavesOut, hbody, (hname h hmem hlength).2]
    · simp [hlength]
  · rw [if_neg hbody, lengths, List.filter_filter, List.map_eq_nil_iff, List.filter_eq_nil_iff]
    intro h hmem
    by_cases hlength : lowerName h.1 = lengthName
    · simp [leavesOut, hbody, (hname h hmem hlength).1]
    · simp [hlength]

theorem lengths_requestHeaders (hq : Legal strict q) : lengths (requestHeaders q) =
    if q.body = [] then lengths q.headers else [ascii " " ++ decimal q.body.length] := by
  have happend : ∀ a b, lengths (a ++ b) = lengths a ++ lengths b := fun a b => by
    simp [lengths]
  have hconnection : lowerName (ascii "connection") ≠ lengthName := by decide
  have hlength : lowerName (ascii "content-length") = lengthName := by decide
  have hfirst : ∀ v, lengths (if q.websocket then [] else [(ascii "connection", v)]) = [] := by
    intro v
    split_ifs <;> simp [lengths, hconnection]
  rw [requestHeaders, happend, happend, hfirst, lengths_written hq]
  split_ifs <;> simp [lengths, hlength]

theorem chunks_requestHeaders (hq : Legal strict q) :
    announcesChunks (requestHeaders q) = false := by
  have hconnection : lowerName (ascii "connection") ≠ codingName := by decide
  have hlength : lowerName (ascii "content-length") ≠ codingName := by decide
  have hwritten : announcesChunks (q.headers.filter fun i => !leavesOut q i) = false := by
    have hall := hq.unchunked
    simp only [announcesChunks, List.any_eq_false] at hall ⊢
    exact fun h hmem => hall h (List.mem_of_mem_filter hmem)
  have hall : ∀ h ∈ requestHeaders q, ¬ (decide (lowerName h.1 = codingName) &&
      decide (ChunkedText (bare h.2))) = true := by
    intro h hmem
    simp only [requestHeaders, List.mem_append] at hmem
    rcases hmem with (hmem | hmem) | hmem
    · split_ifs at hmem
      · cases hmem
      all_goals
        obtain rfl := List.mem_singleton.mp hmem
        simp [hconnection]
    · exact List.any_eq_false.mp hwritten h hmem
    · split_ifs at hmem
      · cases hmem
      · obtain rfl := List.mem_singleton.mp hmem
        simp [hlength]
  exact List.any_eq_false.mpr hall

theorem frame_request (hq : Legal strict q) (hsize : q.body.length < 2^63) :
    ∃ l, framing .none (requestHeaders q) = some ⟨false, l⟩ ∧ l.getD 0 = q.body.length := by
  rw [Frame.none, framing_eq, lengths_requestHeaders hq, chunks_requestHeaders hq]
  by_cases hbody : q.body = []
  · rw [if_pos hbody, hbody]
    rcases hq.empty hbody with hnone | ⟨v, hv, hzero⟩
    · rw [hnone]
      exact ⟨none, rfl, rfl⟩
    · rw [hv]
      exact ⟨some 0, by simp only [lengthOf, hzero]; rfl, rfl⟩
  · have hvalue : lengthValue (ascii " " ++ decimal q.body.length) = some q.body.length := by
      have hbare : bare (ascii " " ++ decimal q.body.length) = bare (decimal q.body.length) := rfl
      rw [lengthValue, hbare]
      exact lengthValue_decimal (List.length_pos_iff.mpr hbody) hsize
    rw [if_neg hbody]
    exact ⟨some q.body.length, by simp only [lengthOf, hvalue]; rfl, rfl⟩

end Frame

/-! ## The end of the head -/

/-- What `on_request_headers_complete_cb` sets. -/
def headData (i : Info) (d : RequestSink) : RequestSink :=
  { d with data := { d.data with
      version := version i
      method := i.method } }

structure Ended (m : Call RequestSink) (d : RequestSink) (k : ℕ) : Prop where
  errno : m.parser.httpErrno = .OK
  segment : m.parser.segment = 0
  buffers : m.buffers = .clear d
  parsed : m.parsed = k

section Outcomes

variable {cfg : Config} {p q : HttpMachine.HttpParser} {ch : UInt8} {ops : List Op}
  {b b' : Buffers Token RequestSink} {k : ℕ}

theorem step_going (h : byte cfg p ch = .go q ops)
    (hrun : runOps (requestSettings cfg) (info q) ch ops b = (b', none)) :
    Call.step cfg (requestSettings cfg) ⟨p, b, true, k⟩ ch = ⟨q, b'.extend ch, true, k+1⟩ := by
  simp only [Call.step, h, hrun, Bool.not_true, Bool.false_eq_true, if_false]

/-- The last byte of a message, whether the parser goes on behind it or not. -/
theorem step_ended {d : RequestSink} (h : byte cfg p ch = .go q ops ∨ byte cfg p ch = .leave q ops)
    (hrun : runOps (requestSettings cfg) (info q) ch ops b = (.clear d, none))
    (herrno : q.httpErrno = .OK) (hsegment : q.segment = 0) :
    Ended (Call.step cfg (requestSettings cfg) ⟨p, b, true, k⟩ ch) d (k+1) := by
  rcases h with h | h
  · rw [step_going h hrun]
    exact ⟨herrno, hsegment, rfl, rfl⟩
  · simp only [Call.step, h, hrun, Bool.not_true, Bool.false_eq_true, if_false]
    exact ⟨herrno, hsegment, rfl, rfl⟩

end Outcomes

section HeadEnd

variable {cfg : Config} {i : Info} {p : HttpMachine.HttpParser} {l : Option ℕ} {d : RequestSink}
  {k : ℕ}

theorem request_line_feed (hp : Reading cfg 1 p)
    (hv : At .headersAlmostDone ⟨false, l⟩ i.statusCode (view p)) :
    ∃ r : HttpMachine.HttpParser, byte cfg (asRequest i p) LF =
        (headersDone cfg r LF).after [.notify .headersComplete] ∧
      info r = i ∧ r.type = .request ∧ r.httpErrno = .OK ∧ r.segment = 0 ∧
      r.flags.skipbody = false ∧ r.flags.chunked = false ∧ r.contentLength = l.getD ullongMax := by
  have hstate : p.state = .headersAlmostDone := hv.1
  have hsegment : p.segment = 0 := hp.home (by rw [hstate]; decide) (by rw [hstate]; decide)
  have hroom := hp.room
  have hword := hp.word
  simp only [spent, hsegment] at hroom hword
  have hmod : (p.nread+1) % 2^32 = p.nread+1 := Nat.mod_eq_of_lt (by omega)
  let c : HttpMachine.HttpParser := { asRequest i p with nread := p.nread+1 }
  have hcount : byte cfg (asRequest i p) LF = headersAlmostDone cfg c LF := by
    have hheading : parsingHeader (asRequest i p).state = true ∧ (asRequest i p).segment = 0 :=
      ⟨by change parsingHeader p.state = true; rw [hstate]; rfl, hsegment⟩
    rw [byte, if_pos hheading]
    have hover : ¬ cfg.maxHeaderSize < p.nread+1 := by omega
    change (if cfg.maxHeaderSize < (p.nread+1) % 2^32 then _ else
      reexecute cfg { asRequest i p with nread := (p.nread+1) % 2^32 } LF) = _
    rw [hmod, if_neg hover]
    have hdone : c.state = .headersAlmostDone := hstate
    have hswitch : reexecute cfg c LF = headersAlmostDone cfg c LF := by rw [reexecute, hdone]
    exact hswitch
  have htrailing : ¬ c.flags.trailing = true := by
    change ¬ p.flags.trailing = true
    rw [hp.trailing]
    decide
  have hchunked : c.flags.chunked = false := hv.2.1.chunked
  refine ⟨{ c with state := .headersDone, upgrade := c.wantsUpgrade }, ?_, rfl, rfl, hp.errno,
    hsegment, hp.skipbody, hchunked, hv.2.1.contentLength⟩
  rw [hcount, headersAlmostDone]
  simp only [strictCheck, ne_eq, not_true_eq_false, decide_false, Bool.and_false,
    Bool.false_eq_true, if_false, if_neg htrailing, hchunked, false_and]

/-- The branches of `s_headers_done` that a request can take. -/
theorem headersDone_request {r : HttpMachine.HttpParser} (htype : r.type = .request)
    (hmethod : r.method ≠ .CONNECT) (hskipbody : r.flags.skipbody = false)
    (hchunked : r.flags.chunked = false) :
    if r.contentLength = 0 ∨ r.contentLength = ullongMax then
      ∃ s, headersDone cfg r LF = .go { r with nread := 0, state := s } [.notify .messageComplete] ∨
        headersDone cfg r LF = .leave { r with nread := 0, state := s } [.notify .messageComplete]
    else headersDone cfg r LF = .go { r with nread := 0, state := .bodyIdentity } [] := by
  have hstrict : ¬ (cfg.strict && decide (LF ≠ LF)) = true := by simp
  have hskip : ¬ r.flags.skipbody = true := by
    rw [hskipbody]
    decide
  have hchunks : ¬ r.flags.chunked = true := by
    rw [hchunked]
    decide
  have heof : HttpMachine.HttpParser.messageNeedsEof { r with nread := 0 } = false := if_pos htype
  have hdone : headersDone cfg r LF =
      let p := { r with nread := 0 }
      let p' := { p with state := p.newMessage cfg }
      if r.upgrade = true ∧ (r.contentLength = 0 ∨ r.contentLength = ullongMax) then
        .leave p' [.notify .messageComplete]
      else if r.contentLength = 0 then .go p' [.notify .messageComplete]
      else if r.contentLength = ullongMax then .go p' [.notify .messageComplete]
      else p.goto .bodyIdentity := by
    simp only [headersDone, strictCheck]
    rw [if_neg hstrict, if_neg hskip, if_neg hchunks, heof]
    simp [hskipbody, hchunked, hmethod]
  rw [hdone]
  split_ifs with hlast hup hzero hmax hzero hmax
  · exact ⟨_, .inr rfl⟩
  · exact ⟨_, .inl rfl⟩
  · exact ⟨_, .inl rfl⟩
  all_goals tauto

end HeadEnd

/-! ## The body -/

section Body

variable {cfg : Config} {r : HttpMachine.HttpParser} {d : RequestSink}

/-- The data at the end of a message with the body `body`. -/
def endData (body : Bytes) (d : RequestSink) : RequestSink :=
  { d with
    data := d.data.appendBody body
    finished := true }

structure InBody (r : HttpMachine.HttpParser) (left : ℕ) : Prop where
  state : r.state = .bodyIdentity
  errno : r.httpErrno = .OK
  segment : r.segment = 0
  left : r.contentLength = left

theorem body_step {left : ℕ} (hr : InBody r (left+2)) (ch : UInt8) :
    ∃ q, byte cfg r ch = .go q [.mark .body] ∧ InBody q (left+1) := by
  refine ⟨{ r with contentLength := r.contentLength-1 }, ?_, hr.state, hr.errno, hr.segment, ?_⟩
  · rw [HttpResponseDelivery.body_byte hr.state, bodyIdentity]
    exact if_neg (by rw [hr.left]; simp)
  · change r.contentLength-1 = left+1
    rw [hr.left]
    rfl

theorem body_end (hr : InBody r 1) (ch : UInt8) :
    ∃ q, (byte cfg r ch = .go q [.mark .body, .report .body true, .notify .messageComplete] ∨
        byte cfg r ch = .leave q [.mark .body, .report .body true, .notify .messageComplete]) ∧
      q.httpErrno = .OK ∧ q.segment = 0 := by
  let c := { r with contentLength := r.contentLength-1, state := .messageDone }
  have hdone : byte cfg r ch = (messageDone cfg c).after [.mark .body, .report .body true] := by
    rw [HttpResponseDelivery.body_byte hr.state, bodyIdentity]
    exact if_pos (by rw [hr.left])
  refine ⟨{ c with state := c.newMessage cfg }, ?_, hr.errno, hr.segment⟩
  rw [hdone, messageDone]
  split_ifs
  · exact .inr rfl
  · exact .inl rfl

/-- The bytes of a body, the mark of which is set at the first one. -/
theorem body_read (bs : Bytes) (hbs : bs ≠ []) (hr : InBody r bs.length) (pre : Bytes)
    (b : Buffers Token RequestSink) (hb : ∀ i ch, runOp (requestSettings cfg) i ch b (.mark .body) =
      (.opened d .body pre, none)) (hd : b.data.finished = false) (k : ℕ) :
    Ended (HttpCalls.read cfg (requestSettings cfg) bs ⟨r, b, true, k⟩) (endData (pre ++ bs) d)
        (k+bs.length) ∧
      Unfinished cfg bs ⟨r, b, true, k⟩ := by
  induction bs generalizing r pre b k with
  | nil => exact absurd rfl hbs
  | cons ch rest ih =>
    cases rest with
    | nil =>
      obtain ⟨q, hbyte, herrno, hsegment⟩ := @body_end cfg _ hr ch
      have hreport : runOp (requestSettings cfg) (info q) ch (.opened d .body pre)
          (.report .body true) =
            (.clear { d with data := d.data.appendBody (pre ++ [ch]) }, none) := report_opened rfl
      refine ⟨step_ended hbyte ?_ herrno hsegment, unfinished_byte hd⟩
      simp only [runOps, hb, hreport]
      rfl
    | cons c rest =>
      obtain ⟨q, hbyte, hq⟩ := @body_step cfg _ _ hr ch
      have hone : Call.step cfg (requestSettings cfg) ⟨r, b, true, k⟩ ch =
          ⟨q, (Buffers.opened d Token.body pre).extend ch, true, k+1⟩ :=
        step_going hbyte (by simp only [runOps, hb])
      rw [extend_opened] at hone
      have hfinished : d.finished = false := by
        have hop := (@HttpTokenCuts.request_finishes cfg).op (info q) ch (.mark .body)
          (by decide) b
        rw [hb] at hop
        exact hop.trans hd
      obtain ⟨hended, hrest⟩ := ih (List.cons_ne_nil c rest) hq (pre ++ [ch])
        (.opened d .body (pre ++ [ch])) (fun i e => mark_opened _ i e d Token.body _) hfinished
        (k+1)
      rw [List.append_assoc, List.singleton_append] at hended
      have hread : ∀ w, HttpCalls.read cfg (requestSettings cfg) (ch::w) ⟨r, b, true, k⟩ =
          HttpCalls.read cfg (requestSettings cfg) w
            ⟨q, .opened d .body (pre ++ [ch]), true, k+1⟩ :=
        fun w => congrArg (HttpCalls.read cfg (requestSettings cfg) w) hone
      constructor
      · rw [hread, @List.length_cons _ ch, Nat.add_comm (c::rest).length, ← Nat.add_assoc]
        exact hended
      · refine (unfinished_byte hd).append ?_
        rw [hread []]
        exact hrest

end Body

/-! ## The whole dump -/

section Whole

variable {cfg : Config} {i : Info} {p : HttpMachine.HttpParser} {l : Option ℕ} {d : RequestSink}
  {q : HttpRequest} {k : ℕ}

/-- The last byte of the head, and the body that its length announces. -/
theorem end_read (body : Bytes) (hp : Reading cfg 1 p)
    (hv : At .headersAlmostDone ⟨false, l⟩ i.statusCode (view p)) (hmethod : i.method ≠ .CONNECT)
    (hlength : l.getD 0 = body.length) (hsize : body.length < 2^63) (hd : d.finished = false) :
    Ended (HttpCalls.read cfg (requestSettings cfg) (LF::body) ⟨asRequest i p, .clear d, true, k⟩)
        (endData body (headData i d)) (k+(LF::body).length) ∧
      Unfinished cfg (LF::body) ⟨asRequest i p, .clear d, true, k⟩ := by
  obtain ⟨r, hbyte, hinfo, htype, herrno, hsegment, hskipbody, hchunked, hleft⟩ :=
    request_line_feed hp hv
  have hdone := @headersDone_request cfg r htype
    (fun h => hmethod ((congrArg Info.method hinfo).symm.trans h)) hskipbody hchunked
  have hhead : ∀ j, runOps (requestSettings cfg) i LF (.notify .headersComplete::j) (.clear d) =
      runOps (requestSettings cfg) i LF j (.clear (headData i d)) := fun j => rfl
  cases hbody : body with
  | nil =>
    have hlast : r.contentLength = 0 ∨ r.contentLength = ullongMax := by
      rw [hbody] at hlength
      rw [hleft]
      cases l with
      | none => exact .inr rfl
      | some n => exact .inl hlength
    rw [if_pos hlast] at hdone
    obtain ⟨s, hdone⟩ := hdone
    have hend : endData [] (headData i d) = { headData i d with finished := true } := by
      simp [endData, HttpRequest.appendBody]
    refine ⟨?_, unfinished_byte hd⟩
    refine @step_ended cfg _ { r with nread := 0, state := s } LF
      [.notify .headersComplete, .notify .messageComplete] _ _ _ ?_ ?_ herrno hsegment
    · rw [hbyte]
      rcases hdone with h | h <;> rw [h]
      · exact .inl rfl
      · exact .inr rfl
    · have hsame : info { r with nread := 0, state := s } = i := hinfo
      rw [hsame, hhead, hend]
      rfl
  | cons c rest =>
    have hsome : l = some (c::rest).length := by
      cases l with
      | none =>
        rw [hbody] at hlength
        cases hlength
      | some n => rw [← hbody]; exact congrArg some hlength
    have hcontent : r.contentLength = (c::rest).length := by
      rw [hleft, hsome]
      rfl
    have hmore : ¬ (r.contentLength = 0 ∨ r.contentLength = ullongMax) := by
      rw [hbody] at hsize
      rw [hcontent, ullongMax]
      rintro (h | h)
      · cases h
      · omega
    rw [if_neg hmore] at hdone
    have hinbody : InBody { r with nread := 0, state := .bodyIdentity } (c::rest).length :=
      ⟨rfl, herrno, hsegment, hcontent⟩
    have hone : Call.step cfg (requestSettings cfg) ⟨asRequest i p, .clear d, true, k⟩ LF =
        ⟨{ r with nread := 0, state := .bodyIdentity }, .clear (headData i d), true, k+1⟩ := by
      rw [← extend_clear (headData i d) LF]
      refine @step_going cfg _ _ LF [.notify .headersComplete] _ _ _ ?_ ?_
      · rw [hbyte, hdone]
        rfl
      · have hsame : info { r with nread := 0, state := State.bodyIdentity } = i := hinfo
        rw [hsame, hhead]
        rfl
    obtain ⟨hended, hrest⟩ := @body_read cfg _ (headData i d) (c::rest) (List.cons_ne_nil c rest)
      hinbody [] (.clear (headData i d)) (fun j e => mark_clear _ j e _ Token.body) hd (k+1)
    constructor
    · change Ended (HttpCalls.read cfg (requestSettings cfg) (c::rest)
        (Call.step cfg (requestSettings cfg) _ LF)) _ _
      rw [hone, @List.length_cons _ LF, Nat.add_comm (c::rest).length, ← Nat.add_assoc]
      exact hended
    · have hfirst : Unfinished cfg [LF] ⟨asRequest i p, .clear d, true, k⟩ := unfinished_byte hd
      refine hfirst.append ?_
      change Unfinished cfg (c::rest) (Call.step cfg (requestSettings cfg)
        ⟨asRequest i p, .clear d, true, k⟩ LF)
      rw [hone]
      exact hrest

theorem step_congr {p p' : HttpMachine.HttpParser} {c : UInt8} (h : byte cfg p c = byte cfg p' c)
    (b : Buffers Token RequestSink) (k : ℕ) :
    Call.step cfg (requestSettings cfg) ⟨p, b, true, k⟩ c =
      Call.step cfg (requestSettings cfg) ⟨p', b, true, k⟩ c := by
  simp only [Call.step, Call.callbackFailed, h, Bool.not_true, Bool.false_eq_true, if_false]

/-- The parser starts out as the line has it but for the length, which the first letter
sets. -/
theorem begin_step (d : RequestSink) {c : UInt8} (hc : c ≠ CR ∧ c ≠ LF)
    (hroom : 1 ≤ cfg.maxHeaderSize) :
    Call.step cfg (requestSettings cfg) (.begin (.init .request) d) c =
      Call.step cfg (requestSettings cfg) (Line.call ⟨.startReq, .DELETE, 0, 0, 0⟩ 0 (.clear d))
        c := by
  have hover : ¬ cfg.maxHeaderSize < 1 := Nat.not_lt.mpr hroom
  have hend : ¬ (c = CR ∨ c = LF) := not_or.mpr hc
  have hnew : byte cfg (.init .request) c =
      startReq { HttpMachine.HttpParser.init .request with nread := 1 } c := if_neg hover
  have hline : byte cfg (Line.parser ⟨.startReq, .DELETE, 0, 0, 0⟩ 0) c =
      startReq (Line.parser ⟨.startReq, .DELETE, 0, 0, 0⟩ 1) c := if_neg hover
  have hsame : startReq { HttpMachine.HttpParser.init .request with nread := 1 } c =
      startReq (Line.parser ⟨.startReq, .DELETE, 0, 0, 0⟩ 1) c := by
    rw [startReq, startReq, if_neg hend, if_neg hend]
    rfl
  exact step_congr (hnew.trans (hsame.trans hline.symm)) (.clear d) 0

theorem begin_read (d : RequestSink) {bs : Bytes} (hbs : ∃ c rest, bs = c::rest ∧ c ≠ CR ∧ c ≠ LF)
    (hroom : 1 ≤ cfg.maxHeaderSize) :
    HttpCalls.read cfg (requestSettings cfg) bs (.begin (.init .request) d) =
        HttpCalls.read cfg (requestSettings cfg) bs
          (Line.call ⟨.startReq, .DELETE, 0, 0, 0⟩ 0 (.clear d)) := by
  obtain ⟨c, rest, rfl, hc⟩ := hbs
  change HttpCalls.read cfg (requestSettings cfg) rest (Call.step cfg _ _ c) = _
  rw [begin_step d hc hroom]
  rfl

def sentData (q : HttpRequest) (d : RequestSink) : RequestSink :=
  endData q.body (headData ⟨q.version >>> 4, q.version &&& 0x0F, q.method, 0⟩
    ((requestHeaders q).foldl withHeader (lineData q d)))

/-- The header lines are read as those of a response with the same headers. -/
theorem block_read {hs : List (Bytes × Bytes)} {fr : Frame} (hlegal : ∀ h ∈ hs, LegalHeader h)
    (hframe : framing .none hs = some fr) (m : HttpMethod) (j a b n : ℕ)
    (hroom : n+((hs.flatMap fieldLine).length+2) ≤ cfg.maxHeaderSize)
    (hword : n+((hs.flatMap fieldLine).length+2) < 2^32) :
    ∃ p, HttpCalls.read cfg (requestSettings cfg) (hs.flatMap fieldLine ++ [CR])
        (Line.call ⟨.headerFieldStart, m, j, a, b⟩ n (.clear d)) =
          ⟨asRequest ⟨a, b, m, 0⟩ p, .clear (hs.foldl withHeader d), true,
            n+((hs.flatMap fieldLine).length+1)⟩ ∧
      Reading cfg 1 p ∧ At .headersAlmostDone fr 0 (view p) ∧
      (d.finished = false → Unfinished cfg (hs.flatMap fieldLine ++ [CR])
        (Line.call ⟨.headerFieldStart, m, j, a, b⟩ n (.clear d))) := by
  have hlength : (hs.flatMap fieldLine ++ [CR]).length = (hs.flatMap fieldLine).length+1 :=
    List.length_append
  let p₀ : HttpMachine.HttpParser := { Line.parser ⟨.headerFieldStart, m, j, a, b⟩ n with
    type := .response
    method := .DELETE
    httpMajor := 0
    httpMinor := 0 }
  have hcall : Line.call ⟨.headerFieldStart, m, j, a, b⟩ n (.clear d) =
      ⟨asRequest ⟨a, b, m, 0⟩ p₀, .clear d, true, n⟩ := rfl
  have hreading : Reading cfg (1+(hs.flatMap fieldLine ++ [CR]).length) p₀ := by
    have hspent : spent p₀ = n := rfl
    refine ⟨⟨rfl, rfl, rfl, rfl, rfl, rfl⟩, ?_, ?_, Nat.zero_le _, fun _ _ => rfl, rfl⟩ <;>
      rw [hspent, hlength] <;> omega
  have hbound : Bound .none 0 (view p₀) := ⟨rfl, .inl ⟨rfl, rfl, rfl, rfl⟩⟩
  have hblock : Goes cfg (Bound .none 0) (hs.flatMap fieldLine ++ [CR])
      (At .headersAlmostDone fr 0) := (goes_fieldLines hlegal hframe).append (goes_blank_line fr 0)
  obtain ⟨p, hrun, hp, hv⟩ := hblock 1 p₀ hreading hbound
  have hstart : InBlock p₀.state := .inl (.inr List.mem_cons_self)
  have hheader := request_run ⟨a, b, m, 0⟩ hrun hreading hstart
  have hfold : (hs.flatMap fieldLine ++ [CR]).foldl (tokenStep cfg)
      (.headerFieldStart, .clear d) = (.headersAlmostDone, .clear (hs.foldl withHeader d)) := by
    rw [List.foldl_append]
    exact fold_blank_line (fold_lines hlegal (.first d))
  have hread := (hheader.read (.clear d) n).1
  have hstate : (asRequest ⟨a, b, m, 0⟩ p₀).state = .headerFieldStart := rfl
  rw [hstate, hfold, hlength] at hread
  exact ⟨p, hread, hp, hv, fun hd => hheader.unfinished hd n⟩

theorem dump_starts (q : HttpRequest) :
    ∃ c rest, dump methodName q = c::rest ∧ c ≠ CR ∧ c ≠ LF := by
  have hname := methodOf_name q.method
  cases hw : methodName q.method with
  | nil =>
    rw [hw] at hname
    cases hname
  | cons c rest =>
    rw [hw, methodOf] at hname
    split_ifs at hname with halpha
    refine ⟨c, _, by simp only [HttpRequestDump.dump, hw, List.cons_append]; rfl, ?_, ?_⟩ <;>
    · rintro rfl
      exact absurd halpha (by decide)

theorem finished_foldl (hs : List (Bytes × Bytes)) (d : RequestSink) :
    (hs.foldl withHeader d).finished = d.finished := by
  induction hs generalizing d with
  | nil => rfl
  | cons h hs ih => exact ih (withHeader d h)

section Room

variable (hnames : cfg.methodString = methodName) (hq : Legal cfg.strict q)
  (hroom : (requestHead q).length+2 ≤ cfg.maxHeaderSize)
  (hword : (requestHead q).length+2 < 2^32)
include hnames hq hroom hword

theorem head_read (hd : d.finished = false) {fr : Frame}
    (hframe : framing .none (requestHeaders q) = some fr) :
    ∃ p, HttpCalls.read cfg (requestSettings cfg) (requestHead q ++ [CR])
        (Line.call ⟨.startReq, .DELETE, 0, 0, 0⟩ 0 (.clear d)) =
          ⟨asRequest ⟨q.version >>> 4, q.version &&& 0x0F, q.method, 0⟩ p,
            .clear ((requestHeaders q).foldl withHeader (lineData q d)), true,
            (requestHead q).length+1⟩ ∧
      Reading cfg 1 p ∧ At .headersAlmostDone fr 0 (view p) ∧
      Unfinished cfg (requestHead q ++ [CR])
        (Line.call ⟨.startReq, .DELETE, 0, 0, 0⟩ 0 (.clear d)) := by
  have hlength : (requestHead q).length = (HttpRequestDump.requestLine methodName q ++ crlf).length+
      ((requestHeaders q).flatMap fieldLine).length := List.length_append
  have hline := passes_line hnames hq.line d
  have hread := hline.read 0 (by omega) (by omega)
  obtain ⟨p, hblock, hp, hv, hrest⟩ := @block_read cfg (lineData q d) _ _ (requestHeaders_legal hq)
    hframe q.method ((methodName q.method).length+1) (q.version >>> 4) (q.version &&& 0x0F)
    (0+(HttpRequestDump.requestLine methodName q ++ crlf).length) (by omega) (by omega)
  have hparsed : 0+(HttpRequestDump.requestLine methodName q ++ crlf).length+
      (((requestHeaders q).flatMap fieldLine).length+1) = (requestHead q).length+1 := by omega
  rw [hparsed] at hblock
  have hsplit : requestHead q ++ [CR] = (HttpRequestDump.requestLine methodName q ++ crlf) ++
      ((requestHeaders q).flatMap fieldLine ++ [CR]) := List.append_assoc _ _ _
  refine ⟨p, ?_, hp, hv, ?_⟩
  · rw [hsplit, HttpCalls.read_append, hread, hblock]
  · rw [hsplit]
    refine (hline.unfinished hd 0 (by omega) (by omega)).append ?_
    rw [hread]
    exact hrest hd

theorem dump_read (hsize : q.body.length < 2^63) (hd : d.finished = false) :
    Ended (HttpCalls.read cfg (requestSettings cfg) (dump methodName q) (.begin (.init .request) d))
        (sentData q d) (dump methodName q).length ∧
      Unfinished cfg (dump methodName q) (.begin (.init .request) d) := by
  obtain ⟨c, rest, hfirst, hc⟩ := dump_starts q
  obtain ⟨l, hframe, hlength⟩ := frame_request hq hsize
  obtain ⟨p, hhead, hp, hv, hopen⟩ := head_read hnames hq hroom hword hd hframe
  have hbegin : ∀ w, HttpCalls.read cfg (requestSettings cfg) (c::w) (.begin (.init .request) d) =
      HttpCalls.read cfg (requestSettings cfg) (c::w)
        (Line.call ⟨.startReq, .DELETE, 0, 0, 0⟩ 0 (.clear d)) := fun w =>
    begin_read d ⟨c, w, rfl, hc⟩ (by omega)
  have hdata : ((requestHeaders q).foldl withHeader (lineData q d)).finished = false := by
    rw [finished_foldl]
    exact hd
  let i : Info := ⟨q.version >>> 4, q.version &&& 0x0F, q.method, 0⟩
  obtain ⟨hended, hrest⟩ := @end_read cfg i _ _ _ ((requestHead q).length+1) q.body hp hv
    hq.line.method hlength hsize hdata
  have hparsed : (requestHead q).length+1+(LF::q.body).length = (dump methodName q).length := by
    rw [dump_length, List.length_cons]
    omega
  rw [hparsed, ← hhead, ← HttpCalls.read_append, ← dump_eq, hfirst, ← hbegin, ← hfirst] at hended
  refine ⟨hended, ?_⟩
  have hline : Unfinished cfg (dump methodName q)
      (Line.call ⟨.startReq, .DELETE, 0, 0, 0⟩ 0 (.clear d)) := by
    rw [dump_eq]
    refine hopen.append ?_
    rw [hhead]
    exact hrest
  intro as has hne
  cases as with
  | nil => exact hd
  | cons a as =>
    obtain rfl : a = c := by
      rw [hfirst] at has
      exact (List.cons_prefix_cons.mp has).1
    rw [hbegin]
    exact hline _ has hne

end Room

end Whole

/-! ## One call -/

section Executed

variable {cfg : Config} {q : HttpRequest} {d : RequestSink} {m : Call RequestSink} {k : ℕ}

theorem finish_ended (h : Ended m d k) : m.finish cfg (requestSettings cfg) = m := by
  have hno : ¬ (m.parser.segment ≠ 0 ∧
      cfg.maxHeaderSize < (m.parser.nread+(m.parser.segment-1)) % 2^32) := fun h0 =>
    h0.1 h.segment
  have hflush : flush (requestSettings cfg) (info m.parser) flushOrder m.buffers =
      (m.buffers, none) := by
    rw [h.buffers]
    rfl
  cases hlive : m.live with
  | false => rw [Call.finish, hlive]; rfl
  | true =>
    simp only [Call.finish, hlive, Bool.not_true, Bool.false_eq_true, if_false]
    rw [if_neg hno, if_pos h.segment, hflush]
    rw [← hlive]

/-- What `HttpRequestParser::execute` does with the result besides noting it. -/
theorem execute_sink (bs : Bytes) :
    (HttpRequestParser.new.execute cfg bs).1.sink.finished =
        (HttpParser.execute cfg (requestSettings cfg) (.init .request)
          HttpRequestParser.new.sink bs).2.1.finished ∧
      content (HttpRequestParser.new.execute cfg bs).1.sink.data =
        content (HttpParser.execute cfg (requestSettings cfg) (.init .request)
          HttpRequestParser.new.sink bs).2.1.data := by
  simp only [HttpRequestParser.execute]
  split_ifs <;> exact ⟨rfl, rfl⟩

theorem execute_accepts {bs : Bytes} {p : HttpMachine.HttpParser} {s : RequestSink} {n : ℕ}
    (h : HttpParser.execute cfg (requestSettings cfg) (.init .request)
      HttpRequestParser.new.sink bs = (p, s, n)) (herrno : p.httpErrno = .OK) :
    (HttpRequestParser.new.execute cfg bs).1.hasError = false ∧
      (HttpRequestParser.new.execute cfg bs).2 = n := by
  have hnew : HttpRequestParser.new.parser = .init .request := rfl
  simp only [HttpRequestParser.execute, hnew, h]
  rw [if_neg (not_not.mpr herrno)]
  split_ifs <;> exact ⟨rfl, rfl⟩

section Room

variable (hnames : cfg.methodString = methodName) (hq : Legal cfg.strict q)
  (hroom : (requestHead q).length+2 ≤ cfg.maxHeaderSize)
  (hword : (requestHead q).length+2 < 2^32) (hsize : q.body.length < 2^63)
include hnames hq hroom hword hsize

theorem execute_dump : HttpParser.execute cfg (requestSettings cfg) (.init .request)
    HttpRequestParser.new.sink (dump methodName q) =
      ({ (HttpCalls.read cfg (requestSettings cfg) (dump methodName q)
          (.begin (.init .request) HttpRequestParser.new.sink)).parser with
            segment := 0, general := 0 },
        sentData q HttpRequestParser.new.sink, (dump methodName q).length) := by
  obtain ⟨c, rest, hfirst, -⟩ := dump_starts q
  obtain ⟨hended, -⟩ := dump_read hnames hq hroom hword hsize
    (d := HttpRequestParser.new.sink) rfl
  have hne : dump methodName q ≠ [] := by
    rw [hfirst]
    exact List.cons_ne_nil c rest
  refine (HttpCalls.execute_read _ _ _ rfl hne).trans ?_
  simp only [finish_ended hended, HttpCalls.Call.result, hended.buffers, hended.parsed]
  rfl

theorem complete_dump : CompleteRequest cfg (dump methodName q) where
  accepts := execute_accepts (execute_dump hnames hq hroom hword hsize)
    (dump_read hnames hq hroom hword hsize (d := HttpRequestParser.new.sink) rfl).1.errno
  finished := by
    rw [(execute_sink _).1, execute_dump hnames hq hroom hword hsize]
    rfl
  unfinished := by
    intro i hi
    rw [(execute_sink _).1]
    obtain ⟨-, hopen⟩ := dump_read hnames hq hroom hword hsize
      (d := HttpRequestParser.new.sink) rfl
    have hopened := hopen _ (List.take_prefix i (dump methodName q)) (by
      intro h
      have hlength := congrArg List.length h
      rw [List.length_take] at hlength
      omega)
    by_cases hnil : (dump methodName q).take i = []
    · rw [hnil]
      rfl
    · rw [HttpCalls.execute_read _ _ _ rfl hnil]
      exact (HttpTokenCuts.request_finishes.finish _).trans hopened

end Room

end Executed

/-! ## What the server gets -/

/-- The server has what the client sent. The blanks in front of a value are not part of it,
and the dump has headers of its own for the connection and the length. -/
structure Received (q r : HttpRequest) : Prop where
  method : r.method = q.method
  version : r.version = q.version
  target : r.path = q.path ∧ r.query = q.query ∧ r.fragment = q.fragment
  body : r.body = q.body
  close : q.websocket = false → r.close = q.close
  header : ∀ key, folded key ≠ ascii "connection" → folded key ≠ ascii "content-length" →
    r.getHeader key = bare (q.getHeader key)

section Sent

variable {q : HttpRequest} {d : RequestSink}

def sent (q : HttpRequest) : HttpRequest := (sentData q HttpRequestParser.new.sink).data

theorem data_foldl (hs : List (Bytes × Bytes)) (d : RequestSink) :
    (hs.foldl withHeader d).data = { d.data with
      headers := hs.foldl (fun m e => OrderedMap.assign bytesLess folded e.1 (bare e.2) m)
        d.data.headers } := by
  induction hs generalizing d with
  | nil => rfl
  | cons h hs ih =>
    rw [List.foldl_cons, ih (withHeader d h), List.foldl_cons, ← assign_eq]
    rfl

theorem sent_eq (q : HttpRequest) : sent q =
    { q with
      version := (q.version >>> 4) <<< 4 ||| (q.version &&& 0x0F)
      close := true
      websocket := false
      headers := (requestHeaders q).foldl
        (fun m e => OrderedMap.assign bytesLess folded e.1 (bare e.2) m) [] } := by
  simp only [sent, sentData, endData, headData, data_foldl, lineData, HttpRequest.appendBody]
  have hquery : (if q.query = [] then HttpRequestParser.new.sink.data.query else q.query) =
      q.query := by
    split_ifs with h
    · exact h.symm
    · rfl
  have hfragment : (if q.fragment = [] then HttpRequestParser.new.sink.data.fragment
      else q.fragment) = q.fragment := by
    split_ifs with h
    · exact h.symm
    · rfl
  rw [hquery, hfragment]
  rfl

theorem version_parts (v : ℕ) : (v >>> 4) <<< 4 ||| (v &&& 0x0F) = v := by
  have hmask : v &&& 0x0F = v % 2^4 := Nat.and_two_pow_sub_one_eq_mod v 4
  have hlow : v % 2^4 < 2^4 := Nat.mod_lt v (by decide)
  rw [hmask, ← Nat.shiftLeft_add_eq_or_of_lt hlow, Nat.shiftLeft_eq, Nat.shiftRight_eq_div_pow]
  exact Nat.div_add_mod' v (2^4)

theorem sent_header (hsorted : OrderedMap.Sorted bytesLess folded q.headers) {key : Bytes}
    (hconnection : folded key ≠ ascii "connection")
    (hlength : folded key ≠ ascii "content-length") :
    (sent q).getHeader key = bare (q.getHeader key) := by
  have hc : folded (ascii "connection") = ascii "connection" := by decide
  have hl : folded (ascii "content-length") = ascii "content-length" := by decide
  have hsub : OrderedMap.Sorted bytesLess folded (q.headers.filter fun i => !leavesOut q i) :=
    List.Pairwise.sublist List.filter_sublist hsorted
  have hkept : ∀ e ∈ q.headers, folded e.1 = folded key → (!leavesOut q e) = true := by
    intro e _ he
    simp [leavesOut, he, hconnection, hlength]
  rw [HttpRequest.getHeader, HttpRequest.getHeader, find_eq, find_eq, sent_eq, requestHeaders,
    List.foldl_append, List.foldl_append,
    OrderedMap.find_foldl_other bytesLess_order key bare _ _ ?_,
    OrderedMap.find_foldl bytesLess_order key bare _ _ hsub,
    OrderedMap.find_filter bytesLess_order key _ q.headers hsorted hkept,
    OrderedMap.find_foldl_other bytesLess_order key bare _ _ ?_]
  · cases OrderedMap.find bytesLess folded key q.headers <;> rfl
  · intro e he
    split_ifs at he
    · cases he
    all_goals
      obtain rfl := List.mem_singleton.mp he
      exact fun h => hconnection (h.symm.trans hc)
  · intro e he
    split_ifs at he
    · cases he
    · obtain rfl := List.mem_singleton.mp he
      exact fun h => hlength (h.symm.trans hl)

theorem sent_connection (hq : q.websocket = false) : (sent q).getHeader (ascii "connection") =
    if q.close then ascii "close" else ascii "keep-alive" := by
  have hc : folded (ascii "connection") = ascii "connection" := by decide
  have hl : folded (ascii "content-length") ≠ ascii "connection" := by decide
  rw [HttpRequest.getHeader, find_eq, sent_eq, requestHeaders, List.foldl_append,
    List.foldl_append, OrderedMap.find_foldl_other bytesLess_order _ bare _ _ ?_,
    OrderedMap.find_foldl_other bytesLess_order _ bare _ _ ?_, hq]
  · cases q.close <;> decide
  · intro e he
    have hkept := (List.mem_filter.mp he).2
    intro h
    simp [leavesOut, hq, h, hc] at hkept
  · intro e he
    split_ifs at he
    · cases he
    · obtain rfl := List.mem_singleton.mp he
      exact fun h => hl (h.trans hc)

theorem sent_close (hq : q.websocket = false) : (sent q).init.close = q.close := by
  have hclose : (ascii "close").isEmpty = false ∧ folded (ascii "close") ≠ ascii "keep-alive" := by
    decide
  have hkeep : (ascii "keep-alive").isEmpty = false ∧
      folded (ascii "keep-alive") = ascii "keep-alive" := by
    decide
  rw [HttpRequest.init, sent_connection hq]
  cases q.close with
  | true => simp [hclose]
  | false => simp [hkeep]

/-- `init` sets the flag of the connection only. -/
theorem init_eq (r : HttpRequest) : r.init = { r with close := r.init.close } := by
  simp only [HttpRequest.init]
  split_ifs <;> rfl

theorem sent_received (hsorted : OrderedMap.Sorted bytesLess folded q.headers) {r : HttpRequest}
    (hr : content r = content (sent q).init) : Received q r := by
  rw [init_eq] at hr
  simp only [content, HttpRequest.mk.injEq] at hr
  obtain ⟨hmethod, hversion, hclose, -, hpath, hquery, hfragment, hbody, hheaders⟩ := hr
  refine ⟨?_, ?_, ⟨?_, ?_, ?_⟩, ?_, fun hq => ?_, fun key hc hl => ?_⟩
  · rw [hmethod, sent_eq]
  · rw [hversion, sent_eq]
    exact version_parts q.version
  · rw [hpath, sent_eq]
  · rw [hquery, sent_eq]
  · rw [hfragment, sent_eq]
  · rw [hbody, sent_eq]
  · rw [hclose, sent_close hq]
  · rw [← sent_header hsorted hc hl, HttpRequest.getHeader, hheaders, HttpRequest.getHeader]

end Sent

theorem delivery_received {cfg : Config} {q : HttpRequest} (hnames : cfg.methodString = methodName)
    (hq : Legal cfg.strict q) (hsorted : OrderedMap.Sorted bytesLess folded q.headers)
    (hroom : (requestHead q).length+2 ≤ cfg.maxHeaderSize)
    (hword : (requestHead q).length+2 < 2^32) (hsize : q.body.length < 2^63) (d : Delivery cfg)
    (hd : d.reads.flatten = dump methodName q) {r : HttpRequest}
    (hr : content r = content d.request) : Received q r := by
  refine sent_received hsorted (hr.trans (content_init _ _ ?_))
  rw [hd, (execute_sink _).2, execute_dump hnames hq hroom hword hsize]
  rfl

/-- What the client writes for a request is what the server gets, however the bytes are cut
between tokens, and the bytes behind it stay on the connection. -/
theorem request_delivered {cfg : Config} {q : HttpRequest} (hnames : cfg.methodString = methodName)
    (hq : Legal cfg.strict q) (hsorted : OrderedMap.Sorted bytesLess folded q.headers)
    (hroom : (requestHead q).length+2 ≤ cfg.maxHeaderSize)
    (hword : (requestHead q).length+2 < 2^32) (hsize : q.body.length < 2^63) {cs : List Bytes}
    (hne : ∀ c ∈ cs, c ≠ []) (hcs : cs.flatten = dump methodName q)
    (hbetween : HttpTokenCuts.CutBetween cfg .request cs) {buffSize : ℕ} (hbuff : buffSize < 2^31)
    {s s' : Stream} (hreads : Reads buffSize s cs s') :
    ∃ r, recvRequest cfg buffSize s = (some r, s') ∧ Received q r := by
  have hcomplete := complete_dump hnames hq hroom hword hsize
  let d : Delivery cfg := ⟨cs, hne, hcs ▸ hcomplete, hbetween⟩
  have hbuff' : toInt buffSize ≠ 0 := by
    have hpos := buffSize_pos d buffSize s s' hreads
    rw [toInt_small buffSize hbuff]
    omega
  obtain ⟨r, hrecv, hcontent⟩ := recvRequest_ok d buffSize hbuff' s s' hreads
  exact ⟨r, hrecv, delivery_received hnames hq hsorted hroom hword hsize d hcs hcontent⟩

def postRequest : HttpRequest where
  method := .POST
  version := 0x11
  close := false
  websocket := false
  path := ascii "/form"
  query := ascii "k=v"
  fragment := ascii "top"
  body := ascii "a=1"
  headers := [(ascii "Host", ascii "localhost"), (ascii "X-Tag", ascii " red")]

theorem postRequest_legal : Legal Config.standard.strict postRequest where
  line := {
    method := by decide
    legalTarget := ⟨⟨ascii "form", by decide +kernel, by decide +kernel⟩, by decide +kernel,
      by decide +kernel, by decide +kernel⟩
    short := by decide
    version := by decide }
  headers := by
    intro h hmem
    have hnames : LegalName (ascii "Host") ∧ LegalName (ascii "X-Tag") := by decide
    rcases List.mem_cons.mp hmem with rfl | hmem
    · exact ⟨hnames.1, text_legal (by decide)⟩
    · obtain rfl := List.mem_singleton.mp hmem
      exact ⟨hnames.2, text_legal (by decide)⟩
  unchunked := by decide
  empty := fun h => absurd h (by decide)

def postHead : Bytes :=
  ascii "POST /form?k=v#top HTTP/1.1\r\nconnection: keep-alive\r\nHost:localhost\r\n" ++
    ascii "X-Tag: red\r\ncontent-length: 3\r\n\r\n"

theorem postHead_nonempty : postHead ≠ [] := by decide +kernel

theorem postRequest_delivered : ∃ r, recvRequest Config.standard 4096
    ⟨[⟨postHead, postHead_nonempty⟩, ⟨ascii "a=1", by decide⟩], [], [], false⟩ =
      (some r, ⟨[], [], [], false⟩) ∧ Received postRequest r := by
  have hcut : HttpTokenCuts.CutBetween Config.standard .request [postHead, ascii "a=1"] := by
    intro i hi hlt
    obtain rfl : i = 1 := by
      simp only [List.length_cons, List.length_nil] at hlt
      omega
    decide +kernel
  refine request_delivered rfl postRequest_legal ?_ (by decide +kernel) (by decide +kernel)
    (by decide) (by decide +kernel) (by decide +kernel) hcut (by decide) ?_
  · exact List.pairwise_pair.mpr (by decide)
  · exact .read _ _ _ _ _ _ rfl (by decide +kernel) <|
      .read _ _ _ _ _ _ rfl (by decide +kernel) (.done _)

end Lamb.HttpRequestDelivery
