import Lamb.HttpRequestDelivery
import Lamb.Servlets

/-!
# HttpServer

`handleClient` answers the requests of a connection one after the other until one of them
closes it or none can be received. The answers are written in the order of the requests.
-/

set_option autoImplicit false

namespace Lamb.HttpServing
open Lamb.ByteString Lamb.ByteStream Lamb.Http Lamb.HttpMachine Lamb.HttpParser
open Lamb.HttpRequestDump Lamb.HttpRequestLine Lamb.HttpRequestDelivery Lamb.HttpSession
open Lamb.Servlets

variable {S Cb C : Type}

structure HttpServer (S Cb C : Type) where
  isKeepalive : Bool
  name : Bytes
  dispatch : ServletDispatch S Cb C

/-- The constructor. The name is that of `TcpServer`. -/
def HttpServer.new (keepalive : Bool) : HttpServer S Cb C where
  isKeepalive := keepalive
  name := ascii "lamb/1.0.0"
  dispatch := .new

def HttpServer.setName (srv : HttpServer S Cb C) (v : Bytes) : HttpServer S Cb C :=
  { srv with
    name := v
    dispatch := Servlets.setDefault srv.dispatch (.notFound v) }

/-- What the user plugs in: his servlets and callbacks, which fill in the response, the
creators, `fnmatch`, and the texts of the statuses. -/
structure Application (S Cb C : Type) where
  user : S → HttpRequest → ServerResponse → ServerResponse
  callback : Cb → HttpRequest → ServerResponse → ServerResponse
  make : C → Servlet S Cb
  fnmatch : Bytes → Bytes → Bool
  statusText : ℕ → Bytes

def setHeader (rsp : ServerResponse) (key val : Bytes) : ServerResponse :=
  { rsp with toHttpResponse := rsp.toHttpResponse.setHeader key val }

/-- `m_content` of `NotFoundServlet`. -/
def notFoundContent (name : Bytes) : Bytes :=
  ascii "<html><head><title>404 Not Found" ++
    ascii "</title></head><body><center><h1>404 Not Found</h1></center>" ++
    ascii "<hr><center>" ++ name ++ ascii "</center></body></html>"

/-- `NotFoundServlet::handle`. -/
def notFound (name : Bytes) (rsp : ServerResponse) : ServerResponse :=
  let rsp := setHeader { rsp with status := 404 } (ascii "Server") (ascii "lamb/1.0.0")
  { setHeader rsp (ascii "Content-Type") (ascii "text/html") with body := notFoundContent name }

/-- `Servlet::handle`. -/
def handle (app : Application S Cb C) (slt : Servlet S Cb) (req : HttpRequest)
    (rsp : ServerResponse) : ServerResponse :=
  match slt with
  | .user slt => app.user slt req rsp
  | .function cb => app.callback cb req rsp
  | .notFound name => notFound name rsp

/-- The response that `handleClient` sends for a request. -/
def respond (app : Application S Cb C) (srv : HttpServer S Cb C) (req : HttpRequest) :
    ServerResponse :=
  let rsp : ServerResponse :=
    { toHttpResponse := { HttpResponse.new with
        version := req.version
        close := req.close || !srv.isKeepalive }
      reason := []
      cookies := [] }
  handle app (getMatchedServlet srv.dispatch req.path app.make app.fnmatch) req
    (setHeader rsp (ascii "Server") srv.name)

/-- `HttpSession::sendResponse`. -/
def sendResponse (app : Application S Cb C) (rsp : ServerResponse) (s : Stream) : ℤ × Stream :=
  s.writeFixSize (HttpResponseDump.dump app.statusText rsp)

/-- The loop of `handleClient`. Every turn that goes on has read a byte. -/
def serveLoop (cfg : Config) (buffSize : ℕ) (app : Application S Cb C) (srv : HttpServer S Cb C) :
    ℕ → Stream → Stream
  | 0, s => s
  | fuel+1, s =>
    match recvRequest cfg buffSize s with
    | (none, s') => s'
    | (some req, s') =>
      let s'' := (sendResponse app (respond app srv req) s').2
      if !srv.isKeepalive || req.close then s'' else serveLoop cfg buffSize app srv fuel s''

/-- `HttpServer::handleClient`. -/
def handleClient (cfg : Config) (buffSize : ℕ) (app : Application S Cb C)
    (srv : HttpServer S Cb C) (s : Stream) : Stream :=
  (serveLoop cfg buffSize app srv (s.pending.length+1) s).close

/-! ## The stream besides what is read -/

/-- A read looks at the incoming bytes, and changes nothing else. -/
theorem read_rebase {s t : Stream} (n : ℕ) (hinbox : t.inbox = s.inbox)
    (hclosed : t.closed = s.closed) : t.read n =
      ((s.read n).1, (s.read n).2.1, { t with inbox := (s.read n).2.2.inbox }) := by
  obtain ⟨inbox, grants, outbox, closed⟩ := t
  obtain rfl : inbox = s.inbox := hinbox
  obtain rfl : closed = s.closed := hclosed
  unfold Stream.read
  cases hin : s.inbox with
  | nil => cases hc : s.closed <;> simp [hin]
  | cons p rest =>
    cases hc : s.closed with
    | true => simp [hin]
    | false =>
      simp only [Bool.false_eq_true, if_false]
      split_ifs <;> rfl

theorem read_piece {s : Stream} {n : ℕ} {p : Piece} {rest : List Piece} (hin : s.inbox = p::rest)
    (hopen : s.closed = false) (hfits : p.bytes.length ≤ n) :
    s.read n = ((p.bytes.length : ℤ), p.bytes, { s with inbox := rest }) := by
  rw [Stream.read, hopen, hin]
  exact dif_neg (Nat.not_lt.mpr hfits)

theorem read_closed (s : Stream) (n : ℕ) : (s.read n).2.2.closed = s.closed := by
  rw [congrArg (fun x => x.2.2.closed) (read_rebase n rfl rfl)]

theorem reads_rebase {n : ℕ} {s s' t : Stream} {cs : List Bytes} (h : Reads n s cs s')
    (hinbox : t.inbox = s.inbox) (hclosed : t.closed = s.closed) :
    Reads n t cs { t with inbox := s'.inbox } := by
  induction h generalizing t with
  | done s =>
    rw [← hinbox]
    exact .done t
  | read s s₁ s' len c cs hread hlen hrest ih =>
    have hone := read_rebase n hinbox hclosed
    rw [hread] at hone
    have hsame : s₁.closed = s.closed := by
      have hc := read_closed s n
      rw [hread] at hc
      exact hc
    exact .read t _ _ len c cs hone hlen (ih rfl (hclosed.trans hsame.symm))

/-- Bytes that were read leave the connection open and what was written on it as it is. -/
theorem reads_keep {n : ℕ} {s s' : Stream} {cs : List Bytes} (h : Reads n s cs s') :
    s'.closed = s.closed ∧ s'.outbox = s.outbox := by
  induction h with
  | done s => exact ⟨rfl, rfl⟩
  | read s s₁ s' len c cs hread hlen hrest ih =>
    have hone := congrArg (fun x => (x.2.2.closed, x.2.2.outbox)) (read_rebase (s := s) n rfl rfl)
    rw [hread] at hone
    obtain ⟨hclosed, houtbox⟩ := Prod.mk.inj hone
    exact ⟨ih.1.trans hclosed, ih.2.trans houtbox⟩

theorem reads_open {n : ℕ} {s s' : Stream} {cs : List Bytes} (h : Reads n s cs s')
    (hcs : cs ≠ []) : s.closed = false := by
  cases h with
  | done => exact absurd rfl hcs
  | read _ s₁ _ len c _ hread hlen _ =>
    have hone := read_closed s n
    rw [hread] at hone
    exact hone.symm.trans (read_pending s s₁ n len c hread hlen).2.2

/-! ## The requests of a connection -/

/-- A request that a client writes, with the reads in which its bytes arrive. -/
structure Sent (cfg : Config) where
  request : HttpRequest
  reads : List Bytes
  legal : Legal cfg.strict request
  plain : request.websocket = false
  sorted : OrderedMap.Sorted bytesLess folded request.headers
  room : (requestHead request).length+2 ≤ cfg.maxHeaderSize
  word : (requestHead request).length+2 < 2^32
  size : request.body.length < 2^63
  nonempty : ∀ c ∈ reads, c ≠ []
  whole : reads.flatten = dump methodName request
  between : HttpTokenCuts.CutBetween cfg .request reads

section Serve

variable {cfg : Config} {buffSize : ℕ} {app : Application S Cb C} {srv : HttpServer S Cb C}

def Sent.last (srv : HttpServer S Cb C) (w : Sent cfg) : Bool :=
  !srv.isKeepalive || w.request.close

/-- The requests up to the first one that closes the connection. -/
def answered (srv : HttpServer S Cb C) : List (Sent cfg) → List (Sent cfg)
  | [] => []
  | w::ws => if w.last srv then [w] else w::answered srv ws

def answers (app : Application S Cb C) (srv : HttpServer S Cb C) (rs : List HttpRequest) : Bytes :=
  rs.flatMap fun r => HttpResponseDump.dump app.statusText (respond app srv r)

def Sent.delivery (hnames : cfg.methodString = methodName) (w : Sent cfg) : Delivery cfg where
  reads := w.reads
  nonempty := w.nonempty
  complete := w.whole ▸ complete_dump hnames w.legal w.room w.word w.size
  between := w.between

theorem Sent.reads_ne (hnames : cfg.methodString = methodName) (w : Sent cfg) : w.reads ≠ [] := by
  intro h
  have hfinished := (w.delivery hnames).complete.finished
  have hnil : (w.delivery hnames).reads = [] := h
  rw [hnil] at hfinished
  cases hfinished

theorem recv_sent (hnames : cfg.methodString = methodName) (hbuff : buffSize < 2^31)
    (w : Sent cfg) {s s' : Stream} (hreads : Reads buffSize s w.reads s') :
    ∃ r, recvRequest cfg buffSize s = (some r, s') ∧ Received w.request r := by
  have hbuff' : toInt buffSize ≠ 0 := by
    have hpos := buffSize_pos (w.delivery hnames) buffSize s s' hreads
    rw [toInt_small buffSize hbuff]
    omega
  obtain ⟨r, hrecv, hcontent⟩ := recvRequest_ok (w.delivery hnames) buffSize hbuff' s s' hreads
  exact ⟨r, hrecv, delivery_received hnames w.legal w.sorted w.room w.word w.size _ w.whole
    hcontent⟩

theorem answers_cons (r : HttpRequest) (rs : List HttpRequest) :
    answers app srv (r::rs) = answers app srv [r] ++ answers app srv rs := by
  rw [answers, List.flatMap_cons, answers, List.flatMap_singleton, answers]

theorem recvRequest_drained (s : Stream) (hs : s.pending = []) :
    recvRequest cfg buffSize s = (none, s.close) := by
  cases hclosed : s.closed with
  | false =>
    have hread := read_drained s (buffSize-([] : Bytes).length) hclosed hs
    rw [recvRequest, recvLoop, hread]
    rfl
  | true =>
    have hread : s.read (buffSize-([] : Bytes).length) = (-1, [], s) := by
      rw [Stream.read, if_pos hclosed]
    rw [recvRequest, recvLoop, hread]
    rfl

def Small (app : Application S Cb C) (srv : HttpServer S Cb C) (w : Sent cfg) : Prop :=
  ∀ r, Received w.request r →
    (HttpResponseDump.dump app.statusText (respond app srv r)).length < 2^63

variable (hnames : cfg.methodString = methodName) (hbuff : buffSize < 2^31)
include hnames hbuff

theorem serve_sent (w : Sent cfg) (hsmall : Small app srv w) {s s' : Stream}
    (hreads : Reads buffSize s w.reads s') (fuel : ℕ) : ∃ r s'', Received w.request r ∧
      serveLoop cfg buffSize app srv (fuel+1) s =
        (if w.last srv then s'' else serveLoop cfg buffSize app srv fuel s'') ∧
      s''.outbox = s.outbox ++ answers app srv [r] ∧ s''.closed = false ∧
      s''.inbox = s'.inbox := by
  obtain ⟨r, hrecv, hreceived⟩ := recv_sent hnames hbuff w hreads
  have hopen := reads_open hreads (w.reads_ne hnames)
  obtain ⟨hclosed, houtbox⟩ := reads_keep hreads
  obtain ⟨s'', hwrite, hout, hclosed', hinbox⟩ := writeFixSize_ok s'
    (HttpResponseDump.dump app.statusText (respond app srv r)) (hclosed.trans hopen)
    (hsmall r hreceived)
  refine ⟨r, s'', hreceived, ?_, ?_, hclosed', hinbox⟩
  · simp only [serveLoop, hrecv, sendResponse, hwrite, Sent.last, hreceived.close w.plain]
    rfl
  · rw [hout, houtbox, answers, List.flatMap_singleton]

theorem serveLoop_sent (ws : List (Sent cfg)) (hsmall : ∀ w ∈ ws, Small app srv w)
    {s s' : Stream} {fuel : ℕ} (hreads : Reads buffSize s (ws.flatMap Sent.reads) s')
    (hend : s'.pending = [] ∨ ∃ w ∈ ws, w.last srv = true) (hfuel : s.pending.length < fuel) :
    ∃ rs, List.Forall₂ (fun w r => Received w.request r) (answered srv ws) rs ∧
      (serveLoop cfg buffSize app srv fuel s).outbox = s.outbox ++ answers app srv rs ∧
      s.pending = ((answered srv ws).flatMap Sent.reads).flatten ++
        (serveLoop cfg buffSize app srv fuel s).pending := by
  induction ws generalizing s s' fuel with
  | nil =>
    have hsame : s = s' := by
      cases hreads
      rfl
    have hpending : s.pending = [] := by
      rw [hsame]
      rcases hend with h | ⟨w, hw, -⟩
      · exact h
      · cases hw
    obtain ⟨fuel, rfl⟩ := Nat.exists_eq_succ_of_ne_zero (Nat.ne_zero_of_lt hfuel)
    refine ⟨[], .nil, ?_, ?_⟩ <;> rw [serveLoop, recvRequest_drained s hpending]
    · exact (List.append_nil _).symm
    · rfl
  | cons w ws ih =>
    rw [List.flatMap_cons] at hreads
    obtain ⟨s₁, hfirst, hrest⟩ := reads_append buffSize w.reads _ s s' hreads
    obtain ⟨fuel, rfl⟩ := Nat.exists_eq_succ_of_ne_zero (Nat.ne_zero_of_lt hfuel)
    obtain ⟨r, s₂, hreceived, hserve, hout, hclosed, hinbox⟩ :=
      serve_sent hnames hbuff w (hsmall w (.head ws)) hfirst fuel
    have hpending := reads_pending buffSize s s₁ w.reads hfirst
    have hpending₂ : s₂.pending = s₁.pending := by rw [Stream.pending, hinbox]; rfl
    rw [hserve, answered]
    cases hlast : w.last srv with
    | true =>
      refine ⟨[r], .cons hreceived .nil, hout, ?_⟩
      rw [if_pos rfl, if_pos rfl, hpending₂, hpending, List.flatMap_singleton]
    | false =>
      have hend' : ({ s₂ with inbox := s'.inbox } : Stream).pending = [] ∨
          ∃ w ∈ ws, w.last srv = true := by
        rcases hend with h | ⟨w', hw', h⟩
        · exact .inl h
        · rcases List.mem_cons.mp hw' with rfl | hw'
          · rw [hlast] at h
            cases h
          · exact .inr ⟨w', hw', h⟩
      have hsame : s₂.closed = s₁.closed :=
        hclosed.trans ((reads_keep hfirst).1.trans (reads_open hfirst (w.reads_ne hnames))).symm
      have hlength : s₂.pending.length < fuel := by
        have hlength := congrArg List.length hpending
        have hpos := length_le_flatten w.reads w.nonempty
        have hne := List.length_pos_iff.mpr (w.reads_ne hnames)
        rw [List.length_append] at hlength
        rw [hpending₂]
        omega
      have hnext : Reads buffSize s₂ (ws.flatMap Sent.reads) { s₂ with inbox := s'.inbox } :=
        reads_rebase hrest hinbox hsame
      obtain ⟨rs, hall, houtbox, hrest⟩ :=
        ih (fun w' hw => hsmall w' (.tail w hw)) hnext hend' hlength
      refine ⟨r::rs, .cons hreceived hall, ?_, ?_⟩
      · rw [if_neg (by decide), houtbox, hout, List.append_assoc, ← answers_cons]
      · rw [if_neg (by decide), if_neg (by decide), hpending, ← hpending₂, hrest,
          List.flatMap_cons, List.flatten_append, List.append_assoc]

/-- The requests that arrive on a connection are answered in their order, each of them once and
as it was sent, up to the first one that closes the connection. The bytes behind it are not
read, and the connection is closed. -/
theorem requests_served (ws : List (Sent cfg)) (hsmall : ∀ w ∈ ws, Small app srv w)
    {s s' : Stream} (hreads : Reads buffSize s (ws.flatMap Sent.reads) s')
    (hend : s'.pending = [] ∨ ∃ w ∈ ws, w.last srv = true) :
    ∃ rs, List.Forall₂ (fun w r => Received w.request r) (answered srv ws) rs ∧
      (handleClient cfg buffSize app srv s).outbox = s.outbox ++ answers app srv rs ∧
      (handleClient cfg buffSize app srv s).closed = true ∧
      s.pending = ((answered srv ws).flatMap Sent.reads).flatten ++
        (handleClient cfg buffSize app srv s).pending := by
  obtain ⟨rs, hall, hout, hpending⟩ :=
    serveLoop_sent hnames hbuff ws hsmall hreads hend (Nat.lt_succ_self _)
  exact ⟨rs, hall, hout, rfl, hpending⟩

end Serve

/-! ## Two requests -/

def bareApplication : Application Empty Empty Empty where
  user := Empty.elim
  callback := Empty.elim
  make := Empty.elim
  fnmatch := fun _ _ => false
  statusText := fun _ => ascii "Not Found"

def stopRequest : HttpRequest := { HttpRequest.new with path := ascii "/stop" }

def postSent : Sent Config.standard where
  request := postRequest
  reads := [postHead, ascii "a=1"]
  legal := postRequest_legal
  plain := rfl
  sorted := List.pairwise_pair.mpr (by decide)
  room := by decide +kernel
  word := by decide +kernel
  size := by decide
  nonempty := by decide +kernel
  whole := by decide +kernel
  between := by
    intro i hi hlt
    obtain rfl : i = 1 := Nat.le_antisymm (Nat.le_of_lt_succ hlt) hi
    decide +kernel

def stopSent : Sent Config.standard where
  request := stopRequest
  reads := [ascii "GET /stop HTTP/1.1\r\nconnection: close\r\n\r\n"]
  legal := {
    line := {
      method := by decide
      legalTarget := ⟨⟨ascii "stop", by decide +kernel, by decide +kernel⟩, by decide +kernel,
        by decide +kernel, by decide +kernel⟩
      short := by decide
      version := by decide }
    headers := by simp [stopRequest, HttpRequest.new]
    unchunked := rfl
    empty := fun _ => .inl rfl }
  plain := rfl
  sorted := .nil
  room := by decide +kernel
  word := by decide +kernel
  size := by decide
  nonempty := by decide +kernel
  whole := by decide +kernel
  between := by
    intro i hi hlt
    exact absurd hlt (Nat.not_lt.mpr hi)

def stopStream : Stream where
  inbox := [⟨postHead, postHead_nonempty⟩, ⟨ascii "a=1", by decide⟩,
    ⟨ascii "GET /stop HTTP/1.1\r\nconnection: close\r\n\r\n", by decide +kernel⟩,
    ⟨[65], by decide⟩]
  grants := []
  outbox := []
  closed := false

theorem bare_small (w : Sent Config.standard) (hversion : w.request.version = 0x11) :
    Small bareApplication (HttpServer.new true) w := by
  intro r hr
  have hrespond : respond bareApplication (HttpServer.new true) r =
      respond bareApplication (HttpServer.new true)
        { HttpRequest.new with close := w.request.close } := by
    have hv : r.version = 0x11 := hr.version.trans hversion
    simp only [respond, hv, hr.close w.plain]
    rfl
  rw [hrespond]
  cases w.request.close <;> decide +kernel

theorem stop_served : ∃ rs, List.Forall₂ (fun (w : Sent Config.standard) r =>
      Received w.request r) [postSent, stopSent] rs ∧
    (handleClient Config.standard 4096 bareApplication (.new true) stopStream).outbox =
      answers bareApplication (.new true) rs ∧
    (handleClient Config.standard 4096 bareApplication (.new true) stopStream).closed = true ∧
    stopStream.pending = ([postSent, stopSent].flatMap Sent.reads).flatten ++
      (handleClient Config.standard 4096 bareApplication (.new true) stopStream).pending := by
  have hreads : Reads 4096 stopStream ([postSent, stopSent].flatMap Sent.reads)
      { stopStream with inbox := [⟨[65], by decide⟩] } := by
    refine .read _ _ _ _ _ _ rfl (by decide +kernel) ?_
    refine .read _ _ _ _ _ _ rfl (by decide +kernel) ?_
    exact .read _ _ _ _ _ _ rfl (by decide +kernel) (.done _)
  have hsmall : ∀ w ∈ [postSent, stopSent], Small bareApplication (HttpServer.new true) w := by
    intro w hw
    rcases List.mem_cons.mp hw with rfl | hw
    · exact bare_small postSent rfl
    · obtain rfl := List.mem_singleton.mp hw
      exact bare_small stopSent rfl
  exact requests_served rfl (by decide) [postSent, stopSent] hsmall hreads
    (.inr ⟨stopSent, .tail _ (.head _), rfl⟩)

end Lamb.HttpServing
