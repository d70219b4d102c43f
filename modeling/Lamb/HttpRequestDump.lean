import Lamb.HttpResponseDump
import Lamb.Library.CrlfLines

/-!
# HttpRequest::dump

The client writes `content-length` when there is a body, in place of the one among its
headers; the connection header comes from the flag. In lines, the dump is a start line,
those headers, and an ending that depends on the body alone.
-/

set_option autoImplicit false

namespace Lamb.HttpRequestDump
open Lamb.ByteString Lamb.Http Lamb.CrlfLines Lamb.HttpHeaderLines Lamb.HttpResponseDump

/-- `HttpRequest::dump`. `methodText` is `HttpMethodToString`. -/
def dump (methodText : HttpMethod → Bytes) (q : HttpRequest) : Bytes :=
  methodText q.method ++ ascii " " ++ q.path ++
    (if q.query.isEmpty then [] else ascii "?") ++ q.query ++
    (if q.fragment.isEmpty then [] else ascii "#") ++ q.fragment ++
    ascii " HTTP/" ++ decimal (q.version >>> 4) ++ ascii "." ++ decimal (q.version &&& 0x0F) ++
    crlf ++
  (if !q.websocket then
    ascii "connection: " ++ (if q.close then ascii "close" else ascii "keep-alive") ++ crlf
  else []) ++
  q.headers.flatMap (fun i =>
    if !q.websocket && folded i.1 = ascii "connection" then []
    else if !q.body.isEmpty && folded i.1 = ascii "content-length" then []
    else i.1 ++ ascii ":" ++ i.2 ++ crlf) ++
  (if !q.body.isEmpty then
    ascii "content-length: " ++ decimal q.body.length ++ crlf ++ crlf ++ q.body
  else crlf)

/-! ## The dumps in lines -/

def connectionLine (close : Bool) : Bytes :=
  ascii "connection: " ++ if close then ascii "close" else ascii "keep-alive"

def lengthLine (n : ℕ) : Bytes := ascii "content-length: " ++ decimal n

def ending (body : Bytes) : Bytes :=
  if body = [] then crlf else unlines [lengthLine body.length, []] ++ body

def requestLine (methodText : HttpMethod → Bytes) (q : HttpRequest) : Bytes :=
  methodText q.method ++ ascii " " ++ q.path ++
    (if q.query.isEmpty then [] else ascii "?") ++ q.query ++
    (if q.fragment.isEmpty then [] else ascii "#") ++ q.fragment ++
    ascii " HTTP/" ++ decimal (q.version >>> 4) ++ ascii "." ++ decimal (q.version &&& 0x0F)

def leavesOut (q : HttpRequest) (i : Bytes × Bytes) : Bool :=
  (!q.websocket && folded i.1 = ascii "connection") ||
    (!q.body.isEmpty && folded i.1 = ascii "content-length")

def requestParts (methodText : HttpMethod → Bytes) (q : HttpRequest) : List Bytes :=
  requestLine methodText q::(if q.websocket then [] else [connectionLine q.close]) ++
    (q.headers.filter fun i => !leavesOut q i).map fun i => i.1 ++ ascii ":" ++ i.2

def responseLine (statusText : ℕ → Bytes) (r : ServerResponse) : Bytes :=
  ascii "HTTP/" ++ decimal (r.version >>> 4) ++ ascii "." ++ decimal (r.version &&& 0x0F) ++
    ascii " " ++ decimal r.status ++ ascii " " ++
    (if r.reason.isEmpty then statusText r.status else r.reason)

def responseParts (statusText : ℕ → Bytes) (r : ServerResponse) : List Bytes :=
  responseLine statusText r::
    (r.headers.filter fun i => !(!r.websocket && folded i.1 = ascii "connection")).map
      (fun i => i.1 ++ ascii ": " ++ i.2) ++
    r.cookies.map (fun i => ascii "Set-Cookie: " ++ i) ++
    (if r.websocket then [] else [connectionLine r.close])

theorem unlines_append (ls ls' : List Bytes) : unlines (ls ++ ls') = unlines ls ++ unlines ls' :=
  List.flatMap_append

theorem unlines_map {α : Type} (f : α → Bytes) (l : List α) :
    unlines (l.map f) = l.flatMap fun i => f i ++ crlf := by
  rw [unlines, List.flatMap_map]
  rfl

theorem crlf_bytes : crlf = [13, 10] := by decide

theorem ending_eq (body : Bytes) :
    ending body = if !body.isEmpty then
      ascii "content-length: " ++ decimal body.length ++ crlf ++ crlf ++ body else crlf := by
  cases body with
  | nil => rfl
  | cons b body => simp [ending, unlines, lengthLine, crlf_bytes]

theorem connection_lines (websocket close : Bool) :
    unlines (if websocket then [] else [connectionLine close]) =
      if !websocket then
        ascii "connection: " ++ (if close then ascii "close" else ascii "keep-alive") ++ crlf
      else [] := by
  cases websocket with
  | true => rfl
  | false => exact List.append_nil _

theorem request_lines (methodText : HttpMethod → Bytes) (q : HttpRequest) :
    dump methodText q = unlines (requestParts methodText q) ++ ending q.body := by
  have hheaders : q.headers.flatMap (fun i =>
      if !q.websocket && folded i.1 = ascii "connection" then []
      else if !q.body.isEmpty && folded i.1 = ascii "content-length" then []
      else i.1 ++ ascii ":" ++ i.2 ++ crlf) =
      (q.headers.filter fun i => !leavesOut q i).flatMap
        fun i => i.1 ++ ascii ":" ++ i.2 ++ crlf := by
    rw [← flatMap_skip]
    congr 1
    funext i
    cases h : (!q.websocket && decide (folded i.1 = ascii "connection")) <;>
      simp [leavesOut, h]
  have hstart : unlines [requestLine methodText q] = requestLine methodText q ++ crlf :=
    List.append_nil _
  rw [requestParts, ← List.singleton_append, unlines_append, unlines_append, unlines_map,
    connection_lines, hstart, ← hheaders, ending_eq, dump]
  rfl

theorem response_lines (statusText : ℕ → Bytes) (r : ServerResponse) :
    HttpResponseDump.dump statusText r =
      unlines (responseParts statusText r) ++ ending r.body := by
  have hstart : unlines [responseLine statusText r] = responseLine statusText r ++ crlf :=
    List.append_nil _
  rw [responseParts, ← List.singleton_append, unlines_append, unlines_append, unlines_append,
    unlines_map, unlines_map, connection_lines, hstart, ← flatMap_skip, ending_eq,
    HttpResponseDump.dump]
  simp only [responseLine, headerLine, List.append_assoc]

end Lamb.HttpRequestDump
