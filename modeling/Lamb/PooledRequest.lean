import Lamb.HttpRequestDump
import Lamb.WsHandshake

/-!
# Requests of the pool and of a single connection

A single connection sets the path, the query and the fragment of a request apart; the
pool joins them first and sets the result as the path. Both go through the headers in
the same way. The two requests stay in one relation during the loop, and requests in
that relation have the same text.
-/

set_option autoImplicit false

namespace Lamb.PooledRequest
open Lamb.ByteString Lamb.Http Lamb.HttpRequestDump
open Lamb.WsHandshake (Uri)

/-- The variables `has_host` and `req` of the loop over the headers. -/
structure Scan where
  hasHost : Bool
  req : HttpRequest

def scanHeader (s : Scan) (i : Bytes × Bytes) : Scan :=
  if folded i.1 = ascii "connection" then
    if folded i.2 = ascii "keep-alive" then { s with req := { s.req with close := false } } else s
  else
    { hasHost := if !s.hasHost && folded i.1 = ascii "host" then !i.2.isEmpty else s.hasHost
      req := s.req.setHeader i.1 i.2 }

namespace HttpConnection

/-- The request that `HttpConnection::DoRequest` sends. -/
def doRequest (method : HttpMethod) (uri : Uri) (headers : List (Bytes × Bytes))
    (body : Bytes) : HttpRequest :=
  let req := { HttpRequest.new with
    path := uri.getPath
    query := uri.query
    fragment := uri.fragment
    method := method }
  let s := headers.foldl scanHeader ⟨false, req⟩
  let req := if s.hasHost then s.req else s.req.setHeader (ascii "Host") uri.host
  { req with body := body }

def doGet (uri : Uri) (headers : List (Bytes × Bytes)) (body : Bytes) : HttpRequest :=
  doRequest .GET uri headers body

def doPost (uri : Uri) (headers : List (Bytes × Bytes)) (body : Bytes) : HttpRequest :=
  doRequest .POST uri headers body

end HttpConnection

structure HttpConnectionPool where
  host : Bytes
  vhost : Bytes

/-- The stream in the functions of the pool that take a `Uri`. -/
def joinedUri (uri : Uri) : Bytes :=
  uri.getPath ++ (if uri.query.isEmpty then [] else ascii "?") ++ uri.query ++
    (if uri.fragment.isEmpty then [] else ascii "#") ++ uri.fragment

namespace HttpConnectionPool

variable (pool : HttpConnectionPool)

/-- The request that `HttpConnectionPool::doRequest` sends for a text. -/
def doRequest (method : HttpMethod) (url : Bytes) (headers : List (Bytes × Bytes))
    (body : Bytes) : HttpRequest :=
  let req := { HttpRequest.new with
    path := url
    method := method }
  let s := headers.foldl scanHeader ⟨false, req⟩
  let req :=
    if s.hasHost then s.req
    else if pool.vhost.isEmpty then s.req.setHeader (ascii "Host") pool.host
    else s.req.setHeader (ascii "Host") pool.vhost
  { req with body := body }

def doRequestUri (method : HttpMethod) (uri : Uri) (headers : List (Bytes × Bytes))
    (body : Bytes) : HttpRequest := pool.doRequest method (joinedUri uri) headers body

def doGet (url : Bytes) (headers : List (Bytes × Bytes)) (body : Bytes) : HttpRequest :=
  pool.doRequest .GET url headers body

def doGetUri (uri : Uri) (headers : List (Bytes × Bytes)) (body : Bytes) : HttpRequest :=
  pool.doGet (joinedUri uri) headers body

def doPost (url : Bytes) (headers : List (Bytes × Bytes)) (body : Bytes) : HttpRequest :=
  pool.doRequest .POST url headers body

def doPostUri (uri : Uri) (headers : List (Bytes × Bytes)) (body : Bytes) : HttpRequest :=
  pool.doPost (joinedUri uri) headers body

end HttpConnectionPool

/-- The `data` that `sendRequest` writes. -/
def sendRequest (methodText : HttpMethod → Bytes) (req : HttpRequest) : Bytes :=
  dump methodText req

section Joined

structure Joined (a b : HttpRequest) : Prop where
  path : b.path = a.path ++ (if a.query.isEmpty then [] else ascii "?") ++ a.query ++
    (if a.fragment.isEmpty then [] else ascii "#") ++ a.fragment
  query : b.query = []
  fragment : b.fragment = []
  method : b.method = a.method
  version : b.version = a.version
  close : b.close = a.close
  websocket : b.websocket = a.websocket
  headers : b.headers = a.headers
  body : b.body = a.body

structure ScanJoined (s t : Scan) : Prop where
  hasHost : t.hasHost = s.hasHost
  req : Joined s.req t.req

theorem joined_setHeader {a b : HttpRequest} (h : Joined a b) (key val : Bytes) :
    Joined (a.setHeader key val) (b.setHeader key val) :=
  { h with headers := congrArg (MapType.assign key val) h.headers }

theorem joined_body {a b : HttpRequest} (h : Joined a b) (body : Bytes) :
    Joined { a with body := body } { b with body := body } := { h with body := rfl }

theorem scanHeader_joined {s t : Scan} (h : ScanJoined s t) (i : Bytes × Bytes) :
    ScanJoined (scanHeader s i) (scanHeader t i) := by
  rw [scanHeader, scanHeader]
  by_cases hconn : folded i.1 = ascii "connection"
  · rw [if_pos hconn, if_pos hconn]
    by_cases hkeep : folded i.2 = ascii "keep-alive"
    · rw [if_pos hkeep, if_pos hkeep]
      exact ⟨h.hasHost, { h.req with close := rfl }⟩
    · rw [if_neg hkeep, if_neg hkeep]
      exact h
  · rw [if_neg hconn, if_neg hconn]
    exact ⟨by rw [h.hasHost], joined_setHeader h.req i.1 i.2⟩

theorem scan_joined {s t : Scan} (h : ScanJoined s t) (headers : List (Bytes × Bytes)) :
    ScanJoined (headers.foldl scanHeader s) (headers.foldl scanHeader t) := by
  induction headers generalizing s t with
  | nil => exact h
  | cons i headers ih => exact ih (scanHeader_joined h i)

theorem dump_joined (methodText : HttpMethod → Bytes) {a b : HttpRequest} (h : Joined a b) :
    dump methodText b = dump methodText a := by
  have hskip : leavesOut b = leavesOut a := by
    funext i
    rw [leavesOut, leavesOut, h.websocket, h.body]
  have hline : requestLine methodText b = requestLine methodText a := by
    rw [requestLine, requestLine, h.method, h.path, h.query, h.fragment, h.version]
    simp
  rw [request_lines, request_lines, requestParts, requestParts, hline, hskip, h.websocket, h.close,
    h.headers, h.body]

end Joined

section Same

variable (pool : HttpConnectionPool) (uri : Uri) (headers : List (Bytes × Bytes)) (body : Bytes)

theorem doRequest_joined (method : HttpMethod) (hhost : pool.host = uri.host)
    (hvhost : pool.vhost = []) :
    Joined (HttpConnection.doRequest method uri headers body)
      (pool.doRequestUri method uri headers body) := by
  have hstart : ScanJoined
      ⟨false, { HttpRequest.new with
        path := uri.getPath
        query := uri.query
        fragment := uri.fragment
        method := method }⟩
      ⟨false, { HttpRequest.new with
        path := joinedUri uri
        method := method }⟩ := ⟨rfl, rfl, rfl, rfl, rfl, rfl, rfl, rfl, rfl, rfl⟩
  have hscan := scan_joined hstart headers
  rw [HttpConnection.doRequest, HttpConnectionPool.doRequestUri, HttpConnectionPool.doRequest]
  simp only [hscan.hasHost, hvhost, List.isEmpty_nil, if_true, hhost]
  apply joined_body
  split_ifs
  · exact hscan.req
  · exact joined_setHeader hscan.req _ _

/-- A pool for the host of the `Uri` writes the same bytes as a connection of its own. -/
theorem pooled_same_bytes (methodText : HttpMethod → Bytes) (method : HttpMethod)
    (hhost : pool.host = uri.host) (hvhost : pool.vhost = []) :
    sendRequest methodText (pool.doRequestUri method uri headers body) =
        sendRequest methodText (HttpConnection.doRequest method uri headers body) ∧
      sendRequest methodText (pool.doGetUri uri headers body) =
        sendRequest methodText (HttpConnection.doGet uri headers body) ∧
      sendRequest methodText (pool.doPostUri uri headers body) =
        sendRequest methodText (HttpConnection.doPost uri headers body) := by
  have hsend : ∀ m : HttpMethod, sendRequest methodText (pool.doRequestUri m uri headers body) =
      sendRequest methodText (HttpConnection.doRequest m uri headers body) := fun m =>
    dump_joined methodText (doRequest_joined pool uri headers body m hhost hvhost)
  exact ⟨hsend method, hsend .GET, hsend .POST⟩

def searchUri : Uri := ⟨[], ascii "q=1", ascii "top", ascii "lamb.top"⟩

def nameText (_ : HttpMethod) : Bytes := ascii "GET"

theorem pooled_same_search :
    sendRequest nameText (HttpConnectionPool.doGetUri ⟨ascii "lamb.top", []⟩ searchUri
        [(ascii "Connection", ascii "Keep-Alive"), (ascii "host", [])] []) =
      sendRequest nameText (HttpConnection.doGet searchUri
        [(ascii "Connection", ascii "Keep-Alive"), (ascii "host", [])] []) :=
  (pooled_same_bytes ⟨ascii "lamb.top", []⟩ searchUri
    [(ascii "Connection", ascii "Keep-Alive"), (ascii "host", [])] [] nameText .GET rfl rfl).2.1

end Same

end Lamb.PooledRequest
