import Lamb.HttpMachine

/-!
# HttpRequestParser and HttpResponseParser

`http_parser_execute` over one buffer, with the marks of the tokens that are open,
and the callbacks that fill in a request or a response. A parser keeps only
`struct http_parser` and the user's data between two calls: at the start of a call
the token that its state is inside of is marked anew, at the end of it the bytes of
an open token are reported.
-/

set_option autoImplicit false

namespace Lamb.HttpParser
open Lamb.ByteString Lamb.Http Lamb.HttpUrl Lamb.HttpMachine Lamb.Tokens

/-- What the callbacks read of `struct http_parser`. -/
structure Info where
  httpMajor : ℕ
  httpMinor : ℕ
  method : HttpMethod
  statusCode : ℕ
  deriving DecidableEq, Repr

def info (p : HttpMachine.HttpParser) : Info := ⟨p.httpMajor, p.httpMinor, p.method, p.statusCode⟩

/-- `http_parser_settings`. -/
abbrev Settings (σ : Type) := Handlers Token Event Info σ

/-- A call of `http_parser_execute`: `live` while its loop goes on, `parsed` for
`p - data`. -/
structure Call (σ : Type) where
  parser : HttpMachine.HttpParser
  buffers : Buffers Token σ
  live : Bool
  parsed : ℕ

variable {σ : Type}

/-- `HPE_CB_##FOR`. -/
def callbackErrno : Token → Errno
  | .headerField => .CB_header_field
  | .headerValue => .CB_header_value
  | .url => .CB_url
  | .body => .CB_body
  | .status => .CB_status

def reopen : State → Option Token
  | .headerField => some .headerField
  | .headerValue => some .headerValue
  | .reqPath => some .url
  | .reqSchema => some .url
  | .reqSchemaSlash => some .url
  | .reqSchemaSlashSlash => some .url
  | .reqServerStart => some .url
  | .reqServer => some .url
  | .reqServerWithAt => some .url
  | .reqQueryStringStart => some .url
  | .reqQueryString => some .url
  | .reqFragmentStart => some .url
  | .reqFragment => some .url
  | .resStatus => some .status
  | _ => none

def openMarks (s : State) (d : σ) : Buffers Token σ :=
  match reopen s with
  | none => .clear d
  | some t => (Buffers.clear d).set t (some [])

def Call.begin (p : HttpMachine.HttpParser) (d : σ) : Call σ where
  parser := p
  buffers := openMarks p.state d
  live := true
  parsed := 0

/-- The call ends with `HPE_CB_##FOR` after a callback that failed. -/
def Call.callbackFailed (m : Call σ) (p : HttpMachine.HttpParser) (b : Buffers Token σ)
    (t : Token) (parsed : ℕ) : Call σ :=
  { m with
    parser := { p with httpErrno := callbackErrno t }
    buffers := b
    live := false
    parsed := parsed }

def Call.step (cfg : Config) (h : Settings σ) (m : Call σ) (ch : UInt8) : Call σ :=
  if !m.live then m else
  match byte cfg m.parser ch with
  | .go p ops =>
    match runOps h (info p) ch ops m.buffers with
    | (b, none) => { parser := p, buffers := b.extend ch, live := true, parsed := m.parsed+1 }
    | (b, some t) => m.callbackFailed p b t (m.parsed+1)
  | .leave p ops =>
    match runOps h (info p) ch ops m.buffers with
    | (b, none) => { parser := p, buffers := b, live := false, parsed := m.parsed+1 }
    | (b, some t) => m.callbackFailed p b t (m.parsed+1)
  | .error e p ops =>
    match runOps h (info p) ch ops m.buffers with
    | (b, none) =>
      { parser := { p with httpErrno := e }, buffers := b, live := false, parsed := m.parsed }
    | (b, some t) => m.callbackFailed p b t (m.parsed+1)

def flushOrder : List Token := [.headerField, .headerValue, .url, .body, .status]

def Call.finish (cfg : Config) (h : Settings σ) (m : Call σ) : Call σ :=
  if !m.live then m else
  let p := { m.parser with nread := (m.parser.nread+(m.parser.segment-1)) % 2^32 }
  if m.parser.segment ≠ 0 ∧ cfg.maxHeaderSize < p.nread then
    { m with
      parser := { p with httpErrno := .HEADER_OVERFLOW }
      live := false
      parsed := m.parsed-1 }
  else
    let p' := if m.parser.segment = 0 then m.parser else p
    match flush h (info p') flushOrder m.buffers with
    | (b, none) => { m with parser := p', buffers := b }
    | (b, some t) => m.callbackFailed p' b t m.parsed

/-- `http_parser_execute`: the parser and the data after the call and the number of
bytes parsed. -/
def execute (cfg : Config) (h : Settings σ) (p : HttpMachine.HttpParser) (d : σ) (data : Bytes) :
    HttpMachine.HttpParser × σ × ℕ :=
  if p.httpErrno ≠ .OK then (p, d, 0)
  else if data = [] then
    match p.state with
    | .bodyIdentityEof => (p, h.event .messageComplete (info p) d, 0)
    | .dead | .startRes | .startReq => (p, d, 0)
    | _ => ({ p with httpErrno := .INVALID_EOF_STATE }, d, 1)
  else
    let m := (data.foldl (Call.step cfg h) (Call.begin p d)).finish cfg h
    ({ m.parser with segment := 0, general := 0 }, m.buffers.data, m.parsed)

structure RequestSink where
  data : HttpRequest
  finished : Bool
  field : Bytes
  deriving DecidableEq

def version (i : Info) : ℕ := i.httpMajor <<< 4 ||| i.httpMinor

/-- `on_request_url_cb`; `none` is the result 1. -/
def onRequestUrl (cfg : Config) (buf : Bytes) (s : RequestSink) : Option RequestSink :=
  (parseUrl cfg.strict buf false).map fun u =>
    let r := s.data
    let r := match u.text buf .path with | some t => { r with path := t } | none => r
    let r := match u.text buf .query with | some t => { r with query := t } | none => r
    let r := match u.text buf .fragment with | some t => { r with fragment := t } | none => r
    { s with data := r }

/-- `s_request_settings`. -/
def requestSettings (cfg : Config) : Settings RequestSink where
  token
    | .url, _, buf, s => onRequestUrl cfg buf s
    | .headerField, _, buf, s => some { s with field := buf }
    | .headerValue, _, buf, s => some { s with data := s.data.setHeader s.field buf }
    | .status, _, _, s => some s
    | .body, _, buf, s => some { s with data := s.data.appendBody buf }
  event
    | .headersComplete, i, s =>
      { s with data := { s.data with version := version i, method := i.method } }
    | .messageComplete, _, s => { s with finished := true }
    | _, _, s => s

structure HttpRequestParser where
  parser : HttpMachine.HttpParser
  sink : RequestSink
  error : Errno
  deriving DecidableEq

def HttpRequestParser.new : HttpRequestParser where
  parser := .init .request
  sink := ⟨.new, false, []⟩
  error := .OK

def HttpRequestParser.hasError (r : HttpRequestParser) : Bool := r.error ≠ .OK

/-- `HttpRequestParser::execute`. What it does to the caller's buffer is left to the
caller. -/
def HttpRequestParser.execute (cfg : Config) (r : HttpRequestParser) (data : Bytes) :
    HttpRequestParser × ℕ :=
  match HttpParser.execute cfg (requestSettings cfg) r.parser r.sink data with
  | (p, s, nparsed) =>
    if p.upgrade then
      ({ r with parser := p, sink := { s with data := { s.data with websocket := true } } },
        nparsed)
    else if p.httpErrno ≠ .OK then ({ parser := p, sink := s, error := p.httpErrno }, nparsed)
    else ({ r with parser := p, sink := s }, nparsed)

structure ResponseSink where
  data : HttpResponse
  finished : Bool
  field : Bytes
  deriving DecidableEq

/-- `s_response_settings`. -/
def responseSettings : Settings ResponseSink where
  token
    | .url, _, _, s => some s
    | .headerField, _, buf, s => some { s with field := buf }
    | .headerValue, _, buf, s => some { s with data := s.data.setHeader s.field buf }
    | .status, i, _, s => some { s with data := { s.data with status := i.statusCode } }
    | .body, _, buf, s => some { s with data := s.data.appendBody buf }
  event
    | .headersComplete, i, s =>
      { s with data := { s.data with version := version i, status := i.statusCode } }
    | .messageComplete, _, s => { s with finished := true }
    | _, _, s => s

structure HttpResponseParser where
  parser : HttpMachine.HttpParser
  sink : ResponseSink
  error : Errno
  deriving DecidableEq

def HttpResponseParser.new : HttpResponseParser where
  parser := .init .response
  sink := ⟨.new, false, []⟩
  error := .OK

def HttpResponseParser.hasError (r : HttpResponseParser) : Bool := r.error ≠ .OK

/-- `HttpResponseParser::execute`. -/
def HttpResponseParser.execute (cfg : Config) (r : HttpResponseParser) (data : Bytes) :
    HttpResponseParser × ℕ :=
  match HttpParser.execute cfg responseSettings r.parser r.sink data with
  | (p, s, nparsed) =>
    if p.httpErrno ≠ .OK then ({ parser := p, sink := s, error := p.httpErrno }, nparsed)
    else ({ r with parser := p, sink := s }, nparsed)

/-- The values that the headers of the parser document: `HTTP_PARSER_STRICT` is on,
`HTTP_MAX_HEADER_SIZE` is 80 KiB and a method is spelled as its name. -/
def Config.standard : Config where
  strict := true
  maxHeaderSize := 80*1024
  methodString
    | .DELETE => ascii "DELETE"
    | .GET => ascii "GET"
    | .HEAD => ascii "HEAD"
    | .POST => ascii "POST"
    | .PUT => ascii "PUT"
    | .CONNECT => ascii "CONNECT"
    | .OPTIONS => ascii "OPTIONS"
    | .TRACE => ascii "TRACE"
    | .COPY => ascii "COPY"
    | .LOCK => ascii "LOCK"
    | .MKCOL => ascii "MKCOL"
    | .MOVE => ascii "MOVE"
    | .PROPFIND => ascii "PROPFIND"
    | .PROPPATCH => ascii "PROPPATCH"
    | .SEARCH => ascii "SEARCH"
    | .UNLOCK => ascii "UNLOCK"
    | .BIND => ascii "BIND"
    | .REBIND => ascii "REBIND"
    | .UNBIND => ascii "UNBIND"
    | .ACL => ascii "ACL"
    | .REPORT => ascii "REPORT"
    | .MKACTIVITY => ascii "MKACTIVITY"
    | .CHECKOUT => ascii "CHECKOUT"
    | .MERGE => ascii "MERGE"
    | .MSEARCH => ascii "M-SEARCH"
    | .NOTIFY => ascii "NOTIFY"
    | .SUBSCRIBE => ascii "SUBSCRIBE"
    | .UNSUBSCRIBE => ascii "UNSUBSCRIBE"
    | .PATCH => ascii "PATCH"
    | .PURGE => ascii "PURGE"
    | .MKCALENDAR => ascii "MKCALENDAR"
    | .LINK => ascii "LINK"
    | .UNLINK => ascii "UNLINK"
    | .SOURCE => ascii "SOURCE"

end Lamb.HttpParser
