import Lamb.Http

/-!
# The WebSocket handshake of the library with itself

The client side builds an upgrade request from a `Uri` and extra headers; the
server side checks a received request and answers it. The server asks for a
`Connection` header that the client never sets, so the two never shake hands.
-/

set_option autoImplicit false

namespace Lamb.WsHandshake
open Lamb.ByteString Lamb.Http

structure Uri where
  path : Bytes
  query : Bytes
  fragment : Bytes
  host : Bytes

def Uri.getPath (uri : Uri) : Bytes := if uri.path.isEmpty then ascii "/" else uri.path

structure Scan where
  hasHost : Bool
  hasConn : Bool
  req : HttpRequest

def scanHeader (s : Scan) (i : Bytes × Bytes) : Scan :=
  { hasConn := s.hasConn || folded i.1 = ascii "connection"
    hasHost := if folded i.1 = ascii "connection" then s.hasHost
      else if !s.hasHost && folded i.1 = ascii "host" then !i.2.isEmpty else s.hasHost
    req := s.req.setHeader i.1 i.2 }

/-- The request that `WSConnection::Create` sends; `key` is the encoded random string. -/
def createRequest (uri : Uri) (headers : List (Bytes × Bytes)) (key : Bytes) : HttpRequest :=
  let req := { HttpRequest.new with
    path := uri.getPath
    query := uri.query
    fragment := uri.fragment
    method := .GET }
  let s := headers.foldl scanHeader ⟨false, false, req⟩
  let req := { s.req with websocket := true }
  let req := if s.hasConn then req else req.setHeader (ascii "connection") (ascii "Upgrade")
  let req := req.setHeader (ascii "Upgrade") (ascii "websocket")
  let req := req.setHeader (ascii "Sec-webSocket-Version") (ascii "13")
  let req := req.setHeader (ascii "Sec-webSocket-Key") key
  if s.hasHost then req else req.setHeader (ascii "Host") uri.host

/-- `getHeaderAs` with the conversion `boost::lexical_cast<int>`, which may throw. -/
def getHeaderAsInt (lexicalCast : Bytes → Option ℤ) (req : HttpRequest) (key : Bytes) : ℤ :=
  ((req.headers.find key).bind lexicalCast).getD 0

/-- `WSSession::handleShake` on the received request: the request that it returns and
the response that it sends, or nothing. `encoded` is `base64encode` of `sha1sum`. -/
def handleShake (lexicalCast : Bytes → Option ℤ) (encoded : Bytes → Bytes)
    (received : Option HttpRequest) : Option (HttpRequest × ServerResponse) :=
  match received with
  | none => none
  | some req =>
    if folded (req.getHeader (ascii "Connection")) ≠ ascii "keep-alive, upgrade" then none
    else if folded (req.getHeader (ascii "Upgrade")) ≠ ascii "websocket" then none
    else if getHeaderAsInt lexicalCast req (ascii "Sec-webSocket-Version") ≠ 13 then none
    else
      let key := req.getHeader (ascii "Sec-webSocket-Key")
      if key.isEmpty then none
      else
        let v := encoded (key ++ ascii "258EAFA5-E914-47DA-95CA-C5AB0DC85B11")
        let req := { req with websocket := true }
        let rsp := req.createResponse
        let headers := rsp.headers.assign (ascii "Upgrade") (ascii "websocket")
        let headers := headers.assign (ascii "Connection") (ascii "Upgrade")
        let headers := headers.assign (ascii "Sec-WebSocket-Accept") v
        some (req, { rsp with
          status := 101
          websocket := true
          reason := ascii "Web Socket Protocol Handshake"
          headers := headers })

/-- The handshake succeeds: the server returns the request and answers 101. -/
def Shakes (lexicalCast : Bytes → Option ℤ) (encoded : Bytes → Bytes) (req : HttpRequest) : Prop :=
  ∃ req' rsp, handleShake lexicalCast encoded (some req) = some (req', rsp) ∧ rsp.status = 101

/-- A header that the caller may add: none of those that the client sets itself. -/
def Extra (name : Bytes) : Prop :=
  folded name ≠ ascii "connection" ∧ folded name ≠ ascii "upgrade" ∧
    ¬ (ascii "sec-websocket-" <+: folded name)

theorem scan_noConn (headers : List (Bytes × Bytes)) (s : Scan)
    (h : ∀ i ∈ headers, folded i.1 ≠ ascii "connection") :
    (headers.foldl scanHeader s).hasConn = s.hasConn := by
  induction headers generalizing s with
  | nil => rfl
  | cons i rest ih =>
    obtain ⟨hi, hrest⟩ := List.forall_mem_cons.mp h
    rw [List.foldl_cons, ih _ hrest]
    simp [scanHeader, hi]

/-- The client always sends `Upgrade` for `Connection`. -/
theorem createRequest_connection (uri : Uri) (headers : List (Bytes × Bytes)) (key : Bytes)
    (h : ∀ i ∈ headers, folded i.1 ≠ ascii "connection") :
    (createRequest uri headers key).getHeader (ascii "Connection") = ascii "Upgrade" := by
  have hother : ∀ name, folded name ≠ ascii "connection" →
      folded (ascii "Connection") ≠ folded name := by
    intro name hname heq
    exact hname (heq.symm.trans (by decide))
  have hconn := fun s => scan_noConn headers s h
  unfold createRequest
  simp only [hconn, Bool.false_eq_true, if_false]
  split_ifs
  · rw [getHeader_setHeader_other _ _ _ _ (hother _ (by decide)),
      getHeader_setHeader_other _ _ _ _ (hother _ (by decide)),
      getHeader_setHeader_other _ _ _ _ (hother _ (by decide)),
      getHeader_setHeader_same _ _ _ _ (by decide)]
  · rw [getHeader_setHeader_other _ _ _ _ (hother _ (by decide)),
      getHeader_setHeader_other _ _ _ _ (hother _ (by decide)),
      getHeader_setHeader_other _ _ _ _ (hother _ (by decide)),
      getHeader_setHeader_other _ _ _ _ (hother _ (by decide)),
      getHeader_setHeader_same _ _ _ _ (by decide)]

/-- The server refuses a request whose `Connection` is `Upgrade`. -/
theorem handleShake_upgrade (lexicalCast : Bytes → Option ℤ) (encoded : Bytes → Bytes)
    (req : HttpRequest) (h : req.getHeader (ascii "Connection") = ascii "Upgrade") :
    handleShake lexicalCast encoded (some req) = none := by
  rw [handleShake, h, if_pos (by decide)]

/-- No request of the library's client passes the checks of the library's server. -/
theorem handshake_never (lexicalCast : Bytes → Option ℤ) (encoded : Bytes → Bytes) (uri : Uri)
    (headers : List (Bytes × Bytes)) (key : Bytes) (h : ∀ i ∈ headers, Extra i.1) :
    ¬ Shakes lexicalCast encoded (createRequest uri headers key) := by
  rintro ⟨req', rsp, hs, -⟩
  have hconn := createRequest_connection uri headers key fun i hi => (h i hi).1
  rw [handleShake_upgrade lexicalCast encoded _ hconn] at hs
  cases hs

def versionCast (s : Bytes) : Option ℤ := if s = ascii "13" then some 13 else none

def chatUri : Uri := ⟨ascii "/chat", [], [], ascii "127.0.0.1"⟩

theorem handshake_never_chat :
    ¬ Shakes versionCast id
      (createRequest chatUri [(ascii "Origin", ascii "null")] (ascii "a2V5")) :=
  handshake_never versionCast id chatUri _ _ (List.forall_mem_singleton.mpr (by
    refine ⟨by decide, by decide, by decide⟩))

/-- The plainest request is refused as well. -/
theorem plain_handshake_refused :
    handleShake versionCast id (some (createRequest chatUri [] (ascii "a2V5"))) = none ∧
      ¬ Shakes versionCast id (createRequest chatUri [] (ascii "a2V5")) := by
  have hrefused :
      handleShake versionCast id (some (createRequest chatUri [] (ascii "a2V5"))) = none :=
    handleShake_upgrade versionCast id _
      (createRequest_connection chatUri [] _ fun _ hi => by cases hi)
  refine ⟨hrefused, ?_⟩
  rintro ⟨req', rsp, hs, -⟩
  rw [hrefused] at hs
  cases hs

end Lamb.WsHandshake
