import Lamb.Library.ByteString
import Lamb.Library.OrderedMap

/-!
# HTTP messages

The parts of `HttpRequest` and `HttpResponse` that the parsers fill in. Header
maps are ordered by the case-insensitive comparison of their keys, as the
`std::map` they stand for; an assignment to a key that is already there under
another spelling keeps the spelling.
-/

set_option autoImplicit false

namespace Lamb.Http
open Lamb.ByteString

def ascii (s : String) : Bytes := s.toUTF8.data.toList

/-- `HTTP_METHOD_MAP`. -/
inductive HttpMethod where
  | DELETE | GET | HEAD | POST | PUT | CONNECT | OPTIONS | TRACE | COPY | LOCK | MKCOL | MOVE
  | PROPFIND | PROPPATCH | SEARCH | UNLOCK | BIND | REBIND | UNBIND | ACL | REPORT | MKACTIVITY
  | CHECKOUT | MERGE | MSEARCH | NOTIFY | SUBSCRIBE | UNSUBSCRIBE | PATCH | PURGE | MKCALENDAR
  | LINK | UNLINK | SOURCE
  deriving DecidableEq, Repr

/-- `tolower` in the C locale. -/
def toLower (c : UInt8) : UInt8 := if 65 ≤ c ∧ c ≤ 90 then c+32 else c

/-- What `strcasecmp` sees of a `std::string` through `c_str()`. -/
def folded (s : Bytes) : Bytes := (s.takeWhile (· ≠ 0)).map toLower

def caseInsensitiveLess (lhs rhs : Bytes) : Bool := decide (folded lhs < folded rhs)

abbrev MapType := List (Bytes × Bytes)

/-- `m[key] = val`. -/
def MapType.assign (key val : Bytes) : MapType → MapType
  | [] => [(key, val)]
  | (k, v)::rest =>
    if caseInsensitiveLess key k then (key, val)::(k, v)::rest
    else if caseInsensitiveLess k key then (k, v)::MapType.assign key val rest
    else (k, val)::rest

/-- `m.find(key)`. -/
def MapType.find (key : Bytes) : MapType → Option Bytes
  | [] => none
  | (k, v)::rest =>
    if caseInsensitiveLess key k then none
    else if caseInsensitiveLess k key then MapType.find key rest
    else some v

def bytesLess (a b : Bytes) : Bool := decide (a < b)

theorem bytesLess_order : OrderedSet.LinearLess bytesLess := OrderedSet.lexicographic

theorem assign_eq (key val : Bytes) (m : MapType) :
    MapType.assign key val m = OrderedMap.assign bytesLess folded key val m := by
  induction m with
  | nil => rfl
  | cons e rest ih =>
    rw [MapType.assign, OrderedMap.assign, ih]
    rfl

theorem find_eq (key : Bytes) (m : MapType) :
    MapType.find key m = OrderedMap.find bytesLess folded key m := by
  induction m with
  | nil => rfl
  | cons e rest ih =>
    rw [MapType.find, OrderedMap.find, ih]
    rfl

structure HttpRequest where
  method : HttpMethod
  version : ℕ
  close : Bool
  websocket : Bool
  path : Bytes
  query : Bytes
  fragment : Bytes
  body : Bytes
  headers : MapType
  deriving DecidableEq

/-- `new HttpRequest`. -/
def HttpRequest.new : HttpRequest where
  method := .GET
  version := 0x11
  close := true
  websocket := false
  path := [47]
  query := []
  fragment := []
  body := []
  headers := []

def HttpRequest.getHeader (r : HttpRequest) (key : Bytes) : Bytes := (r.headers.find key).getD []

def HttpRequest.setHeader (r : HttpRequest) (key val : Bytes) : HttpRequest :=
  { r with headers := r.headers.assign key val }

def HttpRequest.appendBody (r : HttpRequest) (v : Bytes) : HttpRequest :=
  { r with body := r.body ++ v }

/-- `HttpRequest::init`. -/
def HttpRequest.init (r : HttpRequest) : HttpRequest :=
  let conn := r.getHeader (ascii "connection")
  if conn.isEmpty then r
  else { r with close := folded conn ≠ ascii "keep-alive" }

structure HttpResponse where
  status : ℕ
  version : ℕ
  close : Bool
  websocket : Bool
  body : Bytes
  headers : MapType
  deriving DecidableEq

/-- `new HttpResponse`. -/
def HttpResponse.new : HttpResponse where
  status := 200
  version := 0x11
  close := true
  websocket := false
  body := []
  headers := []

def HttpResponse.setHeader (r : HttpResponse) (key val : Bytes) : HttpResponse :=
  { r with headers := r.headers.assign key val }

def HttpResponse.appendBody (r : HttpResponse) (v : Bytes) : HttpResponse :=
  { r with body := r.body ++ v }

structure ServerResponse extends HttpResponse where
  reason : Bytes
  cookies : List Bytes
  deriving DecidableEq

/-- `HttpRequest::createResponse`. -/
def HttpRequest.createResponse (r : HttpRequest) : ServerResponse where
  toHttpResponse := { HttpResponse.new with version := r.version, close := r.close }
  reason := []
  cookies := []

theorem getHeader_setHeader_same (r : HttpRequest) (key k' val : Bytes)
    (h : folded k' = folded key) : (r.setHeader key val).getHeader k' = val := by
  rw [HttpRequest.setHeader, HttpRequest.getHeader, find_eq, assign_eq,
    OrderedMap.find_assign_same bytesLess_order key k' val _ h]
  rfl

theorem getHeader_setHeader_other (r : HttpRequest) (key k' val : Bytes)
    (h : folded k' ≠ folded key) : (r.setHeader key val).getHeader k' = r.getHeader k' := by
  rw [HttpRequest.setHeader, HttpRequest.getHeader, find_eq, assign_eq,
    OrderedMap.find_assign_other bytesLess_order key k' val _ h, ← find_eq, HttpRequest.getHeader]

end Lamb.Http
