import Lamb.HttpServing
import Lamb.PooledRequest

/-!
# A call of HttpConnection::DoRequest on HttpServer

The client writes its request, the server answers it, and the client takes the response: the
two ends of the library agree on the request, on the response and on where each of them ends.
-/

set_option autoImplicit false

namespace Lamb.HttpExchange
open Lamb.ByteString Lamb.ByteStream Lamb.Http Lamb.HttpMachine Lamb.HttpParser
open Lamb.HttpHeaderNames Lamb.HttpHeaderLines Lamb.HttpRequestDump Lamb.HttpRequestLine
open Lamb.HttpRequestDelivery Lamb.HttpResponseDelivery Lamb.HttpSession Lamb.HttpServing
open Lamb.PooledRequest
open Lamb.WsHandshake (Uri)

variable {cfg : Config}

/-- `HttpResult::Error`, as far as a connected socket can give it, with the response. `waiting`
stands for a read that does not return. -/
inductive HttpResult where
  | ok (response : HttpResponse)
  | sendCloseByPeer
  | sendSocketError
  | timeout
  | waiting

/-- `HttpConnection::DoRequest` on a connected socket. -/
def doRequest (cfg : Config) (buffSize : ℕ) (ended : Bool) (req : HttpRequest) (s : Stream) :
    HttpResult × Stream :=
  match s.writeFixSize (sendRequest cfg.methodString req) with
  | (rt, s') =>
    if rt = 0 then (.sendCloseByPeer, s')
    else if rt < 0 then (.sendSocketError, s')
    else match recvResponse cfg buffSize ended s' with
    | (.response rsp, s'') => (.ok rsp, s'')
    | (.null, s'') => (.timeout, s'')
    | (.waiting, s'') => (.waiting, s'')

/-! ## The request -/

def Extra (h : Bytes × Bytes) : Prop :=
  LegalHeader h ∧ lowerName h.1 ≠ lengthName ∧ lowerName h.1 ≠ codingName

theorem extra_setHeader {r : HttpRequest} {h : Bytes × Bytes} (hh : Extra h)
    (hr : ∀ e ∈ r.headers, Extra e) : ∀ e ∈ (r.setHeader h.1 h.2).headers, Extra e := by
  intro e he
  rw [HttpRequest.setHeader, assign_eq] at he
  have hname : LegalName e.1 ∧ lowerName e.1 ≠ lengthName ∧ lowerName e.1 ≠ codingName := by
    rcases OrderedMap.key_of_mem_assign h.1 h.2 r.headers e he with hkey | ⟨e', he', hkey⟩
    · rw [hkey]
      exact ⟨hh.1.1, hh.2⟩
    · rw [← hkey]
      exact ⟨(hr e' he').1.1, (hr e' he').2⟩
  have hvalue : ∀ c ∈ e.2, HttpHeaderValues.textChar c = true := by
    rcases OrderedMap.val_of_mem_assign h.1 h.2 r.headers e he with hval | ⟨e', he', hval⟩
    · rw [hval]
      exact hh.1.2
    · rw [← hval]
      exact (hr e' he').1.2
  exact ⟨⟨hname.1, hvalue⟩, hname.2⟩

structure Made (base req : HttpRequest) : Prop where
  rest : req = { base with
    close := req.close
    headers := req.headers }
  extra : ∀ e ∈ req.headers, Extra e
  sorted : OrderedMap.Sorted bytesLess folded req.headers

theorem made_setHeader {base req : HttpRequest} (h : Made base req) {e : Bytes × Bytes}
    (he : Extra e) : Made base (req.setHeader e.1 e.2) where
  rest := by
    have hrest := h.rest
    rw [HttpRequest.setHeader]
    rw [hrest]
  extra := extra_setHeader he h.extra
  sorted := by
    rw [HttpRequest.setHeader, assign_eq]
    exact OrderedMap.sorted_assign bytesLess_order e.1 e.2 _ h.sorted

theorem made_scan {base : HttpRequest} (hs : List (Bytes × Bytes)) (hextra : ∀ h ∈ hs, Extra h)
    {s : Scan} (h : Made base s.req) : Made base (hs.foldl PooledRequest.scanHeader s).req := by
  induction hs generalizing s with
  | nil => exact h
  | cons e hs ih =>
    refine ih (fun e' he => hextra e' (.tail e he)) ?_
    rw [PooledRequest.scanHeader]
    by_cases hconnection : folded e.1 = ascii "connection"
    · rw [if_pos hconnection]
      split_ifs
      · exact ⟨by rw [h.rest], h.extra, h.sorted⟩
      · exact h
    · rw [if_neg hconnection]
      exact made_setHeader h (hextra e (.head hs))

/-- The arguments of a call that the server reads as they are meant. -/
structure Call (cfg : Config) where
  method : HttpMethod
  uri : Uri
  headers : List (Bytes × Bytes)
  body : Bytes
  plain : method ≠ .CONNECT
  host : ∀ c ∈ uri.host, HttpHeaderValues.textChar c = true
  target : LegalTarget cfg.strict
    (PooledRequest.HttpConnection.doRequest method uri headers body)
  short : (HttpRequestLine.target
    (PooledRequest.HttpConnection.doRequest method uri headers body)).length < 2^16
  extra : ∀ h ∈ headers, Extra h
  room : (requestHead (PooledRequest.HttpConnection.doRequest method uri headers
    body)).length+2 ≤ cfg.maxHeaderSize
  size : (dump methodName (PooledRequest.HttpConnection.doRequest method uri headers
    body)).length < 2^31

def Call.request (c : Call cfg) : HttpRequest :=
  PooledRequest.HttpConnection.doRequest c.method c.uri c.headers c.body

theorem Call.made (c : Call cfg) : Made { HttpRequest.new with
    path := c.uri.getPath
    query := c.uri.query
    fragment := c.uri.fragment
    method := c.method
    body := c.body } c.request := by
  have hname : LegalName (ascii "Host") ∧ lowerName (ascii "Host") ≠ lengthName ∧
      lowerName (ascii "Host") ≠ codingName := by
    decide
  have hhost : Extra (ascii "Host", c.uri.host) := ⟨⟨hname.1, c.host⟩, hname.2⟩
  let base : HttpRequest := { HttpRequest.new with
    path := c.uri.getPath
    query := c.uri.query
    fragment := c.uri.fragment
    method := c.method }
  have hstart : Made base base := ⟨rfl, (by simp [base, HttpRequest.new]), List.Pairwise.nil⟩
  have hscan := made_scan c.headers c.extra (s := ⟨false, base⟩) hstart
  have hbody : ∀ req, Made base req →
      Made { base with body := c.body } { req with body := c.body } := fun req h =>
    ⟨by rw [h.rest], h.extra, h.sorted⟩
  rw [Call.request, PooledRequest.HttpConnection.doRequest]
  refine hbody _ ?_
  split_ifs
  · exact hscan
  · exact made_setHeader hscan hhost

theorem Call.legal (c : Call cfg) : Legal cfg.strict c.request where
  line := {
    method := by
      rw [c.made.rest]
      exact c.plain
    legalTarget := c.target
    short := c.short
    version := by
      rw [c.made.rest]
      change 0x11 >>> 4 < 10 ∧ 0x11 &&& 0x0F < 10
      decide }
  headers := fun h hmem => (c.made.extra h hmem).1
  unchunked := by
    simp only [announcesChunks, List.any_eq_false]
    intro h hmem
    simp [(c.made.extra h hmem).2.2]
  empty := by
    intro _
    left
    simp only [lengths, List.map_eq_nil_iff, List.filter_eq_nil_iff]
    intro h hmem
    simp [(c.made.extra h hmem).2.1]

/-! ## The response -/

section Response

variable {buffSize : ℕ} {ended : Bool} {statusText : ℕ → Bytes} {rsp : ServerResponse}

theorem recvLoop_rebase (fuel : ℕ) (parser : HttpResponseParser) (data : Bytes) {s t : Stream}
    (hinbox : t.inbox = s.inbox) (hclosed : t.closed = s.closed) :
    (HttpResponseDelivery.recvLoop cfg buffSize ended fuel parser data t).1 =
        (HttpResponseDelivery.recvLoop cfg buffSize ended fuel parser data s).1 ∧
      (HttpResponseDelivery.recvLoop cfg buffSize ended fuel parser data t).2.outbox =
        t.outbox := by
  obtain ⟨inbox, grants, outbox, closed⟩ := t
  obtain rfl : inbox = s.inbox := hinbox
  obtain rfl : closed = s.closed := hclosed
  induction fuel generalizing parser data s with
  | zero => exact ⟨rfl, rfl⟩
  | succ fuel ih =>
    have hpending : Stream.pending ⟨s.inbox, grants, outbox, s.closed⟩ = s.pending := rfl
    have hread : Stream.read ⟨s.inbox, grants, outbox, s.closed⟩ (buffSize-data.length) = _ :=
      read_rebase (s := s) (buffSize-data.length) rfl rfl
    have hsame := read_closed s (buffSize-data.length)
    rcases hs : s.read (buffSize-data.length) with ⟨len, got, s'⟩
    rw [hs] at hread hsame
    have hclosed : s'.closed = s.closed := hsame
    have hrest := fun q w => ih q w (s := s')
    rw [hclosed] at hrest
    simp only [HttpResponseDelivery.recvLoop, hpending, hread, hs]
    split_ifs
    all_goals first
      | exact ⟨rfl, rfl⟩
      | exact hrest _ _

structure Deliverable (cfg : Config) (buffSize : ℕ) (statusText : ℕ → Bytes)
    (rsp : ServerResponse) : Prop where
  legal : HttpResponseDump.Legal statusText rsp
  delimited : Delimited rsp
  room : (HttpResponseDump.dump statusText rsp).length ≤ cfg.maxHeaderSize+rsp.body.length
  one : (HttpResponseDump.dump statusText rsp).length ≤ buffSize

theorem response_taken (hbuff : buffSize < 2^31) (h : Deliverable cfg buffSize statusText rsp)
    {s : Stream} (hopen : s.closed = false)
    (hinbox : s.inbox.map Piece.bytes = [HttpResponseDump.dump statusText rsp]) :
    ∃ q, (recvResponse cfg buffSize ended s).1 = .response q ∧ q.status = rsp.status ∧
      q.body = rsp.body := by
  have hne := dump_ne h.legal
  have hlength := dump_length h.legal
  have hroom := h.room
  have hone := h.one
  have hpos := List.length_pos_iff.mpr hne
  obtain ⟨hthrough, hparsed⟩ := @dump_delimited cfg _ _ h.legal (by omega) (by omega) (by omega)
    h.delimited
  obtain ⟨q, hexecute, herror, hfinished, hstatus, hbody⟩ := execute_through hne hthrough hparsed
  have hsame : s.inbox = (delivered (HttpResponseDump.dump statusText rsp) hne).inbox := by
    obtain ⟨⟨bytes, hb⟩, hin, hbytes⟩ := List.map_eq_singleton_iff.mp hinbox
    obtain rfl : bytes = HttpResponseDump.dump statusText rsp := hbytes
    exact hin
  have hpending : s.pending = (delivered (HttpResponseDump.dump statusText rsp) hne).pending := by
    rw [Stream.pending, hsame]
    rfl
  refine ⟨q.sink.data, ?_, hstatus, hbody⟩
  have hloop := (@recvLoop_rebase cfg buffSize ended
    ((delivered (HttpResponseDump.dump statusText rsp) hne).pending.length+2) .new [] _ _ hsame
    hopen).1
  rw [recvResponse, hpending, hloop]
  change (recvResponse cfg buffSize ended (delivered _ hne)).1 = _
  rw [recvResponse_through hne hone hexecute herror, if_neg (by omega), hfinished]
  rfl

end Response

/-! ## The call -/

section Exchange

variable {S Cb C : Type} {app : Application S Cb C} {srv : HttpServer S Cb C} {buffSize : ℕ}
  {ended : Bool}

/-- The client writes the request and takes the response that it receives. -/
theorem doRequest_open (hnames : cfg.methodString = methodName) (c : Call cfg) {s : Stream}
    (hopen : s.closed = false) : ∃ s', s'.closed = false ∧ s'.inbox = s.inbox ∧
      (doRequest cfg buffSize ended c.request s).2.outbox = s.outbox ++ dump methodName c.request ∧
      ∀ q, (recvResponse cfg buffSize ended s').1 = .response q →
        (doRequest cfg buffSize ended c.request s).1 = .ok q := by
  obtain ⟨b, rest, hfirst, -⟩ := dump_starts c.request
  have hsize : (dump methodName c.request).length < 2^31 := c.size
  have hpos : 0 < (dump methodName c.request).length := by
    rw [hfirst, List.length_cons]
    omega
  obtain ⟨s', hwrite, hout, hclosed, hinbox⟩ :=
    writeFixSize_ok s (dump methodName c.request) hopen (by omega)
  have hkept := (@recvLoop_rebase cfg buffSize ended (s'.pending.length+2) .new [] s' s' rfl rfl).2
  have hdo : doRequest cfg buffSize ended c.request s =
      match recvResponse cfg buffSize ended s' with
      | (.response rsp, s'') => (.ok rsp, s'')
      | (.null, s'') => (.timeout, s'')
      | (.waiting, s'') => (.waiting, s'') := by
    rw [doRequest, sendRequest, hnames, hwrite, toInt_small _ hsize]
    exact (if_neg (by omega)).trans (if_neg (by omega))
  rw [← recvResponse] at hkept
  refine ⟨s', hclosed, hinbox, ?_, ?_⟩
  · rw [hdo, ← hout, ← hkept]
    rcases recvResponse cfg buffSize ended s' with ⟨received, s''⟩
    cases received <;> rfl
  · rw [hdo]
    rcases recvResponse cfg buffSize ended s' with ⟨received, s''⟩
    intro q hq
    obtain rfl : received = .response q := hq
    rfl

theorem call_served (hnames : cfg.methodString = methodName) (c : Call cfg)
    (hbuff : buffSize < 2^31)
    (hsmall : ∀ r, Received c.request r →
      (HttpResponseDump.dump app.statusText (respond app srv r)).length < 2^63)
    {s s' : Stream} {cs : List Bytes} (hne : ∀ b ∈ cs, b ≠ [])
    (hcs : cs.flatten = dump methodName c.request)
    (hbetween : HttpTokenCuts.CutBetween cfg .request cs) (hreads : Reads buffSize s cs s')
    (hdrained : s'.pending = []) :
    ∃ r, Received c.request r ∧ (handleClient cfg buffSize app srv s).outbox =
      s.outbox ++ HttpResponseDump.dump app.statusText (respond app srv r) := by
  have hsize : (dump methodName c.request).length < 2^31 := c.size
  have hlength := HttpRequestDelivery.dump_length c.request
  let w : Sent cfg :=
    { request := c.request
      reads := cs
      legal := c.legal
      plain := by rw [c.made.rest]; rfl
      sorted := c.made.sorted
      room := c.room
      word := by omega
      size := by omega
      nonempty := hne
      whole := hcs
      between := hbetween }
  have hone : answered srv [w] = [w] := by
    rw [answered]
    split_ifs <;> rfl
  have hsmall' : ∀ w' ∈ [w], Small app srv w' := by
    intro w' hw'
    obtain rfl := List.mem_singleton.mp hw'
    exact hsmall
  have hreads' : Reads buffSize s ([w].flatMap Sent.reads) s' := by
    rw [List.flatMap_singleton]
    exact hreads
  obtain ⟨rs, hrs, hserved, -⟩ := serveLoop_sent hnames hbuff [w] hsmall' hreads' (.inl hdrained)
    (Nat.lt_succ_self _)
  rw [hone] at hrs
  cases hrs with
  | cons hr hnil =>
    cases hnil
    refine ⟨_, hr, ?_⟩
    rw [answers, List.flatMap_singleton] at hserved
    exact hserved

/-- A call of the client on a server of the library: the server's application gets the request
that the client has made, and the client gets the status and the body of its response. -/
theorem exchange_ok (hnames : cfg.methodString = methodName) (c : Call cfg)
    (hbuff : buffSize < 2^31)
    (hdeliver : ∀ r, Received c.request r →
      Deliverable cfg buffSize app.statusText (respond app srv r))
    {client server server' : Stream} {cs : List Bytes} (hopen : client.closed = false)
    (hclient : client.outbox = []) (hserver : server.outbox = []) (hne : ∀ b ∈ cs, b ≠ [])
    (hcs : cs.flatten = (doRequest cfg buffSize ended c.request client).2.outbox)
    (hbetween : HttpTokenCuts.CutBetween cfg .request cs)
    (hreads : Reads buffSize server cs server') (hdrained : server'.pending = [])
    (hinbox : client.inbox.map Piece.bytes = [(handleClient cfg buffSize app srv server).outbox]) :
    ∃ r q, Received c.request r ∧ (doRequest cfg buffSize ended c.request client).1 = .ok q ∧
      q.status = (respond app srv r).status ∧ q.body = (respond app srv r).body := by
  obtain ⟨s', hclosed, hin, hout, hok⟩ := @doRequest_open cfg buffSize ended hnames c _ hopen
  rw [hout, hclient, List.nil_append] at hcs
  have hsmall : ∀ r, Received c.request r →
      (HttpResponseDump.dump app.statusText (respond app srv r)).length < 2^63 := by
    intro r hr
    have hfits := (hdeliver r hr).one
    omega
  obtain ⟨r, hr, hserved⟩ := call_served hnames c hbuff hsmall hne hcs hbetween hreads hdrained
  rw [hserved, hserver, List.nil_append, ← hin] at hinbox
  obtain ⟨q, hq, hstatus, hbody⟩ := @response_taken cfg buffSize ended _ _ hbuff (hdeliver r hr)
    s' hclosed hinbox
  exact ⟨r, q, hr, hok q hq, hstatus, hbody⟩

end Exchange

/-! ## A search on a server without servlets -/

def searchCall : Call Config.standard where
  method := .GET
  uri := ⟨ascii "/a", ascii "k=v", [], ascii "localhost"⟩
  headers := [(ascii "X-Tag", ascii "red")]
  body := []
  plain := by decide
  host := HttpResponseDump.text_legal (by decide)
  target :=
    ⟨⟨ascii "a", by decide +kernel, by decide +kernel⟩, by decide +kernel, by decide +kernel⟩
  short := by decide +kernel
  extra := by
    have hname : LegalName (ascii "X-Tag") ∧ lowerName (ascii "X-Tag") ≠ lengthName ∧
        lowerName (ascii "X-Tag") ≠ codingName := by
      decide
    intro h hmem
    obtain rfl := List.mem_singleton.mp hmem
    exact ⟨⟨hname.1, HttpResponseDump.text_legal (by decide)⟩, hname.2⟩
  room := by decide +kernel
  size := by decide +kernel

def missing : ServerResponse :=
  respond bareApplication (.new true) { HttpRequest.new with close := true }

theorem missing_deliverable :
    Deliverable Config.standard 4096 bareApplication.statusText missing where
  legal := {
    final := by decide +kernel
    version := rfl
    plain := rfl
    headers := by
      have hheaders : missing.headers = [(ascii "Content-Type", ascii "text/html"),
          (ascii "Server", ascii "lamb/1.0.0")] := by
        decide +kernel
      have hnames : LegalName (ascii "Content-Type") ∧ LegalName (ascii "Server") := by decide
      rw [hheaders]
      intro h hmem
      rcases List.mem_cons.mp hmem with rfl | hmem
      · exact ⟨hnames.1, HttpResponseDump.text_legal (by decide)⟩
      · obtain rfl := List.mem_singleton.mp hmem
        exact ⟨hnames.2, HttpResponseDump.text_legal (by decide)⟩
    cookies := fun c hmem => by cases hmem
    reason := fun c hmem => by cases hmem
    text := HttpResponseDump.text_legal (by decide) }
  delimited := by
    have hbody : missing.body ≠ [] := by decide +kernel
    rw [Delimited, if_neg hbody]
    decide +kernel
  room := by decide +kernel
  one := by decide +kernel

theorem search_missing {r : HttpRequest} (hr : Received searchCall.request r) :
    respond bareApplication (.new true) r = missing := by
  have hrequest : searchCall.request.version = 0x11 ∧ searchCall.request.close = true := by
    decide +kernel
  have hversion : r.version = 0x11 := hr.version.trans hrequest.1
  have hclose : r.close = true := (hr.close (by decide +kernel)).trans hrequest.2
  simp only [respond, hversion, hclose]
  rfl

def searchServer : Stream where
  inbox := [⟨dump methodName searchCall.request, by decide +kernel⟩]
  grants := [3]
  outbox := []
  closed := false

def searchClient : Stream where
  inbox := [⟨(handleClient Config.standard 4096 bareApplication (.new true) searchServer).outbox,
    by decide +kernel⟩]
  grants := [5, 6]
  outbox := []
  closed := false

theorem search_exchanged : ∃ r q, Received searchCall.request r ∧
    (doRequest Config.standard 4096 true searchCall.request searchClient).1 = .ok q ∧
      q.status = (respond bareApplication (.new true) r).status ∧
      q.body = (respond bareApplication (.new true) r).body := by
  have hbetween : HttpTokenCuts.CutBetween Config.standard .request
      [dump methodName searchCall.request] := by
    intro i hi hlt
    simp only [List.length_cons, List.length_nil] at hlt
    omega
  have hread := @read_piece searchServer 4096 _ _ rfl rfl (by decide +kernel)
  have hreads := Reads.read _ _ _ _ _ _ hread (by decide +kernel) (Reads.done _)
  have hinbox : searchClient.inbox.map Piece.bytes = [(handleClient Config.standard 4096
      bareApplication (.new true) searchServer).outbox] := by
    simp only [searchClient, List.map_cons, List.map_nil]
  refine exchange_ok rfl searchCall (by decide) (fun r hr => ?_) rfl rfl rfl ?_ ?_ hbetween
    hreads rfl hinbox
  · rw [search_missing hr]
    exact missing_deliverable
  · decide +kernel
  · decide +kernel

end Lamb.HttpExchange
