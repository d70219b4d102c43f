import Lamb.HttpUrl
import Lamb.Library.Tokens

/-!
# The state machine of http_parser_execute

One byte at a time. The loops of the source that run ahead over a header field, a
header value or a body are unrolled: `segment` is `p - start` inside such a loop
over a header, `general` the distance run ahead in its `h_general` branch. A `goto
reexecute` is a call of the function for the state it jumps to. What a byte does to
tokens and which callbacks it fires is returned as a list of operations; the
callbacks of this program that can fail are the URL callbacks only, and
`on_headers_complete` returns 0.
-/

set_option autoImplicit false

namespace Lamb.HttpMachine
open Lamb.ByteString Lamb.Http Lamb.HttpUrl

inductive ParserType where
  | request
  | response
  deriving DecidableEq, Repr

structure Flags where
  chunked : Bool
  connectionKeepAlive : Bool
  connectionClose : Bool
  connectionUpgrade : Bool
  trailing : Bool
  upgrade : Bool
  skipbody : Bool
  contentlength : Bool
  deriving DecidableEq, Repr

def Flags.none : Flags := ⟨false, false, false, false, false, false, false, false⟩

/-- `enum header_states`. -/
inductive HeaderState where
  | general
  | C
  | CO
  | CON
  | matchingConnection
  | matchingProxyConnection
  | matchingContentLength
  | matchingTransferEncoding
  | matchingUpgrade
  | connection
  | contentLength
  | contentLengthNum
  | contentLengthWs
  | transferEncoding
  | upgrade
  | matchingTransferEncodingChunked
  | matchingConnectionTokenStart
  | matchingConnectionKeepAlive
  | matchingConnectionClose
  | matchingConnectionUpgrade
  | matchingConnectionToken
  | transferEncodingChunked
  | connectionKeepAlive
  | connectionClose
  | connectionUpgrade
  deriving DecidableEq, Repr

/-- The values of `enum http_errno` that the parser sets. -/
inductive Errno where
  | OK
  | CB_url
  | CB_header_field
  | CB_header_value
  | CB_body
  | CB_status
  | INVALID_EOF_STATE
  | HEADER_OVERFLOW
  | CLOSED_CONNECTION
  | INVALID_VERSION
  | INVALID_STATUS
  | INVALID_METHOD
  | INVALID_URL
  | LF_EXPECTED
  | INVALID_HEADER_TOKEN
  | INVALID_CONTENT_LENGTH
  | UNEXPECTED_CONTENT_LENGTH
  | INVALID_CHUNK_SIZE
  | INVALID_CONSTANT
  | STRICT
  deriving DecidableEq, Repr

inductive Token where
  | headerField
  | headerValue
  | url
  | body
  | status
  deriving DecidableEq, Repr

inductive Event where
  | messageBegin
  | headersComplete
  | messageComplete
  | chunkHeader
  | chunkComplete
  deriving DecidableEq, Repr

abbrev Op := Tokens.Op Token Event

structure Config where
  strict : Bool
  maxHeaderSize : ℕ
  methodString : HttpMethod → Bytes

/-- `struct http_parser`, with the locals `p - start` and `pe` of its loops. -/
structure HttpParser where
  type : ParserType
  flags : Flags
  state : State
  headerState : HeaderState
  index : ℕ
  nread : ℕ
  contentLength : ℕ
  httpMajor : ℕ
  httpMinor : ℕ
  statusCode : ℕ
  method : HttpMethod
  httpErrno : Errno
  upgrade : Bool
  segment : ℕ
  general : ℕ
  deriving DecidableEq

def startState : ParserType → State
  | .request => .startReq
  | .response => .startRes

/-- `http_parser_init`. -/
def HttpParser.init (t : ParserType) : HttpParser where
  type := t
  flags := .none
  state := startState t
  headerState := .general
  index := 0
  nread := 0
  contentLength := 0
  httpMajor := 0
  httpMinor := 0
  statusCode := 0
  method := .DELETE
  httpErrno := .OK
  upgrade := false
  segment := 0
  general := 0

def ullongMax : ℕ := 2^64-1

def tokens (c : UInt8) : UInt8 :=
  if 65 ≤ c ∧ c ≤ 90 then c+32
  else if isAlphanum c ∨ c ∈ ascii " !#$%&'*+-.^_`|~" then c
  else 0

def strictToken (c : UInt8) : UInt8 := if c = ' ' then 0 else tokens c

def token (cfg : Config) (c : UInt8) : UInt8 := if cfg.strict then strictToken c else tokens c

def isHeaderChar (ch : UInt8) : Bool := ch = CR || ch = LF || ch = 9 || (31 < ch && ch ≠ 127)

/-- `unhex`; the upper half of the table is left at zero. -/
def unhex (ch : UInt8) : Option ℕ :=
  if isNum ch then some (ch-48).toNat
  else if 97 ≤ lower ch ∧ lower ch ≤ 102 ∧ ch < 128 then some ((lower ch-97).toNat+10)
  else if 128 ≤ ch then some 0
  else none

/-- How the handling of one byte ends: with the next byte, with `RETURN((p - data) + 1)`
or with `goto error`. -/
inductive Outcome where
  | go (p : HttpParser) (ops : List Op)
  | leave (p : HttpParser) (ops : List Op)
  | error (e : Errno) (p : HttpParser) (ops : List Op)

def Outcome.after (ops : List Op) : Outcome → Outcome
  | .go p rest => .go p (ops ++ rest)
  | .leave p rest => .leave p (ops ++ rest)
  | .error e p rest => .error e p (ops ++ rest)

def HttpParser.goto (p : HttpParser) (s : State) : Outcome := .go { p with state := s } []

def HttpParser.fail (p : HttpParser) (e : Errno) : Outcome := .error e p []

/-- `STRICT_CHECK(cond)`. -/
def strictCheck (cfg : Config) (cond : Bool) (p : HttpParser) (k : Outcome) : Outcome :=
  if cfg.strict && cond then p.fail .STRICT else k

/-- `COUNT_HEADER_SIZE(v)`. -/
def countHeaderSize (cfg : Config) (p : HttpParser) (v : ℕ) (k : HttpParser → Outcome) : Outcome :=
  let p' := { p with nread := (p.nread+v) % 2^32 }
  if cfg.maxHeaderSize < p'.nread then p'.fail .HEADER_OVERFLOW else k p'

/-- `http_message_needs_eof`. -/
def HttpParser.messageNeedsEof (p : HttpParser) : Bool :=
  if p.type = .request then false
  else if p.statusCode / 100 = 1 ∨ p.statusCode = 204 ∨ p.statusCode = 304 ∨ p.flags.skipbody then
    false
  else if p.flags.chunked ∨ p.contentLength ≠ ullongMax then false
  else true

/-- `http_should_keep_alive`. -/
def HttpParser.shouldKeepAlive (p : HttpParser) : Bool :=
  if 0 < p.httpMajor ∧ 0 < p.httpMinor then
    if p.flags.connectionClose then false else !p.messageNeedsEof
  else if !p.flags.connectionKeepAlive then false
  else !p.messageNeedsEof

/-- `NEW_MESSAGE()`. -/
def HttpParser.newMessage (cfg : Config) (p : HttpParser) : State :=
  if cfg.strict && !p.shouldKeepAlive then .dead else startState p.type

def startRes (p : HttpParser) (ch : UInt8) : Outcome :=
  if ch = CR ∨ ch = LF then .go p []
  else
    let p' := { p with flags := .none, contentLength := ullongMax }
    if ch = 'H' then .go { p' with state := .resH } [.notify .messageBegin]
    else p'.fail .INVALID_CONSTANT

def expect (cfg : Config) (p : HttpParser) (ch c : UInt8) (s : State) : Outcome :=
  strictCheck cfg (ch ≠ c) p (p.goto s)

def httpMajor (p : HttpParser) (ch : UInt8) (s : State) : Outcome :=
  if isNum ch then .go { p with httpMajor := (ch-48).toNat, state := s } []
  else p.fail .INVALID_VERSION

def httpMinor (p : HttpParser) (ch : UInt8) (s : State) : Outcome :=
  if isNum ch then .go { p with httpMinor := (ch-48).toNat, state := s } []
  else p.fail .INVALID_VERSION

def versionChar (p : HttpParser) (ch c : UInt8) (s : State) : Outcome :=
  if ch = c then p.goto s else p.fail .INVALID_VERSION

def resFirstStatusCode (p : HttpParser) (ch : UInt8) : Outcome :=
  if isNum ch then .go { p with statusCode := (ch-48).toNat, state := .resStatusCode } []
  else if ch = ' ' then .go p []
  else p.fail .INVALID_STATUS

def resStatus (p : HttpParser) (ch : UInt8) : Outcome :=
  if ch = CR then .go { p with state := .resLineAlmostDone } [.report .status false]
  else if ch = LF then .go { p with state := .headerFieldStart } [.report .status false]
  else .go p []

def resStatusStart (p : HttpParser) (ch : UInt8) : Outcome :=
  let p' := { p with state := .resStatus, index := 0 }
  if ch = CR ∨ ch = LF then (resStatus p' ch).after [.mark .status]
  else .go p' [.mark .status]

def resStatusCode (p : HttpParser) (ch : UInt8) : Outcome :=
  if isNum ch then
    let code := p.statusCode*10+(ch-48).toNat
    if 999 < code then p.fail .INVALID_STATUS else .go { p with statusCode := code } []
  else if ch = ' ' then p.goto .resStatusStart
  else if ch = CR ∨ ch = LF then resStatusStart { p with state := .resStatusStart } ch
  else p.fail .INVALID_STATUS

def firstMethod (ch : UInt8) : Option HttpMethod :=
  if ch = 'A' then some .ACL
  else if ch = 'B' then some .BIND
  else if ch = 'C' then some .CONNECT
  else if ch = 'D' then some .DELETE
  else if ch = 'G' then some .GET
  else if ch = 'H' then some .HEAD
  else if ch = 'L' then some .LOCK
  else if ch = 'M' then some .MKCOL
  else if ch = 'N' then some .NOTIFY
  else if ch = 'O' then some .OPTIONS
  else if ch = 'P' then some .POST
  else if ch = 'R' then some .REPORT
  else if ch = 'S' then some .SUBSCRIBE
  else if ch = 'T' then some .TRACE
  else if ch = 'U' then some .UNLOCK
  else none

def startReq (p : HttpParser) (ch : UInt8) : Outcome :=
  if ch = CR ∨ ch = LF then .go p []
  else
    let p' := { p with flags := .none, contentLength := ullongMax }
    if !isAlpha ch then p'.fail .INVALID_METHOD
    else match firstMethod ch with
    | none => p'.fail .INVALID_METHOD
    | some m =>
      .go { p' with method := m, index := 1, state := .reqMethod } [.notify .messageBegin]

def switchMethod (m : HttpMethod) (index : ℕ) (ch : UInt8) : Option HttpMethod :=
  match m, index with
  | .POST, 1 =>
    if ch = 'U' then some .PUT
    else if ch = 'A' then some .PATCH
    else if ch = 'R' then some .PROPFIND
    else none
  | .PUT, 2 => if ch = 'R' then some .PURGE else none
  | .CONNECT, 1 => if ch = 'H' then some .CHECKOUT else none
  | .CONNECT, 2 => if ch = 'P' then some .COPY else none
  | .MKCOL, 1 =>
    if ch = 'O' then some .MOVE
    else if ch = 'E' then some .MERGE
    else if ch = '-' then some .MSEARCH
    else none
  | .MKCOL, 2 => if ch = 'A' then some .MKACTIVITY else none
  | .MKCOL, 3 => if ch = 'A' then some .MKCALENDAR else none
  | .SUBSCRIBE, 1 =>
    if ch = 'E' then some .SEARCH else if ch = 'O' then some .SOURCE else none
  | .REPORT, 2 => if ch = 'B' then some .REBIND else none
  | .PROPFIND, 4 => if ch = 'P' then some .PROPPATCH else none
  | .LOCK, 1 => if ch = 'I' then some .LINK else none
  | .UNLOCK, 2 =>
    if ch = 'S' then some .UNSUBSCRIBE else if ch = 'B' then some .UNBIND else none
  | .UNLOCK, 3 => if ch = 'I' then some .UNLINK else none
  | _, _ => none

def reqMethod (cfg : Config) (p : HttpParser) (ch : UInt8) : Outcome :=
  if ch = 0 then p.fail .INVALID_METHOD
  else
    let p' := { p with index := p.index+1 }
    let expected := (cfg.methodString p.method).getD p.index 0
    if ch = ' ' ∧ expected = 0 then p'.goto .reqSpacesBeforeUrl
    else if ch = expected then .go p' []
    else if (65 ≤ ch ∧ ch ≤ 90) ∨ ch = '-' then
      match switchMethod p.method p.index ch with
      | some m => .go { p' with method := m } []
      | none => p.fail .INVALID_METHOD
    else p.fail .INVALID_METHOD

/-- `UPDATE_STATE(parse_url_char(CURRENT_STATE(), ch))` and its check. -/
def urlChar (cfg : Config) (p : HttpParser) (ch : UInt8) : Outcome :=
  let s := parseUrlChar cfg.strict p.state ch
  if s = .dead then p.fail .INVALID_URL else p.goto s

def reqSpacesBeforeUrl (cfg : Config) (p : HttpParser) (ch : UInt8) : Outcome :=
  if ch = ' ' then .go p []
  else
    let p' := if p.method = .CONNECT then { p with state := .reqServerStart } else p
    (urlChar cfg p' ch).after [.mark .url]

def urlOpen (cfg : Config) (p : HttpParser) (ch : UInt8) : Outcome :=
  if ch = ' ' ∨ ch = CR ∨ ch = LF then p.fail .INVALID_URL else urlChar cfg p ch

def urlRest (cfg : Config) (p : HttpParser) (ch : UInt8) : Outcome :=
  if ch = ' ' then .go { p with state := .reqHttpStart } [.report .url false]
  else if ch = CR ∨ ch = LF then
    .go { p with
      httpMajor := 0
      httpMinor := 9
      state := if ch = CR then .reqLineAlmostDone else .headerFieldStart } [.report .url false]
  else urlChar cfg p ch

def reqHttpStart (p : HttpParser) (ch : UInt8) : Outcome :=
  if ch = ' ' then .go p []
  else if ch = 'H' then p.goto .reqHttpH
  else if ch = 'I' ∧ p.method = .SOURCE then p.goto .reqHttpI
  else p.fail .INVALID_CONSTANT

def reqHttpEnd (p : HttpParser) (ch : UInt8) : Outcome :=
  if ch = CR then p.goto .reqLineAlmostDone
  else if ch = LF then p.goto .headerFieldStart
  else p.fail .INVALID_VERSION

def lineFeed (p : HttpParser) (ch : UInt8) (s : State) : Outcome :=
  if ch = LF then p.goto s else p.fail .LF_EXPECTED

def messageDone (cfg : Config) (p : HttpParser) : Outcome :=
  let p' := { p with state := p.newMessage cfg }
  if p.upgrade then .leave p' [.notify .messageComplete]
  else .go p' [.notify .messageComplete]

def headersDone (cfg : Config) (p : HttpParser) (ch : UInt8) : Outcome :=
  strictCheck cfg (ch ≠ LF) p <|
    let p := { p with nread := 0 }
    let p' := { p with state := p.newMessage cfg }
    let hasBody := p.flags.chunked || (0 < p.contentLength && p.contentLength ≠ ullongMax)
    if p.upgrade ∧ (p.method = .CONNECT ∨ p.flags.skipbody ∨ !hasBody) then
      .leave p' [.notify .messageComplete]
    else if p.flags.skipbody then .go p' [.notify .messageComplete]
    else if p.flags.chunked then p.goto .chunkSizeStart
    else if p.contentLength = 0 then .go p' [.notify .messageComplete]
    else if p.contentLength ≠ ullongMax then p.goto .bodyIdentity
    else if !p.messageNeedsEof then .go p' [.notify .messageComplete]
    else p.goto .bodyIdentityEof

/-- The value of `upgrade` that `on_headers_complete` sees. -/
def HttpParser.wantsUpgrade (p : HttpParser) : Bool :=
  if p.flags.upgrade ∧ p.flags.connectionUpgrade then p.type = .request ∨ p.statusCode = 101
  else p.method = .CONNECT

def headersAlmostDone (cfg : Config) (p : HttpParser) (ch : UInt8) : Outcome :=
  strictCheck cfg (ch ≠ LF) p <|
    if p.flags.trailing then
      (messageDone cfg { p with state := .messageDone }).after [.notify .chunkComplete]
    else if p.flags.chunked ∧ p.flags.contentlength then p.fail .UNEXPECTED_CONTENT_LENGTH
    else
      let p' := { p with state := .headersDone, upgrade := p.wantsUpgrade }
      (headersDone cfg p' ch).after [.notify .headersComplete]

def firstHeaderState (c : UInt8) : HeaderState :=
  if c = 'c' then .C
  else if c = 'p' then .matchingProxyConnection
  else if c = 't' then .matchingTransferEncoding
  else if c = 'u' then .matchingUpgrade
  else .general

def headerFieldStart (cfg : Config) (p : HttpParser) (ch : UInt8) : Outcome :=
  if ch = CR then p.goto .headersAlmostDone
  else if ch = LF then headersAlmostDone cfg { p with state := .headersAlmostDone } ch
  else if token cfg ch = 0 then p.fail .INVALID_HEADER_TOKEN
  else
    .go { p with
      index := 0
      state := .headerField
      headerState := firstHeaderState (token cfg ch) } [.mark .headerField]

def matchName (p : HttpParser) (name : Bytes) (c : UInt8) (miss done : HeaderState) :
    HttpParser :=
  let i := p.index+1
  { p with
    index := i
    headerState :=
      if name.length < i ∨ c ≠ name.getD i 0 then miss
      else if i+1 = name.length then done
      else p.headerState }

/-- The switch of `s_header_field` for the token `c` of the character `ch`. -/
def fieldChar (p : HttpParser) (c ch : UInt8) : HttpParser :=
  match p.headerState with
  | .C => { p with index := p.index+1, headerState := if c = 'o' then .CO else .general }
  | .CO => { p with index := p.index+1, headerState := if c = 'n' then .CON else .general }
  | .CON =>
    { p with
      index := p.index+1
      headerState :=
        if c = 'n' then .matchingConnection
        else if c = 't' then .matchingContentLength
        else .general }
  | .matchingConnection => matchName p (ascii "connection") c .general .connection
  | .matchingProxyConnection => matchName p (ascii "proxy-connection") c .general .connection
  | .matchingContentLength => matchName p (ascii "content-length") c .general .contentLength
  | .matchingTransferEncoding =>
    matchName p (ascii "transfer-encoding") c .general .transferEncoding
  | .matchingUpgrade => matchName p (ascii "upgrade") c .general .upgrade
  | .connection | .contentLength | .transferEncoding | .upgrade =>
    if ch ≠ ' ' then { p with headerState := .general } else p
  | _ => p

/-- One byte of `s_header_field`, `p.segment` bytes after the start of its loop. -/
def headerField (cfg : Config) (p : HttpParser) (ch : UInt8) : Outcome :=
  let c := token cfg ch
  if c = 0 then
    countHeaderSize cfg { p with segment := 0 } p.segment fun p =>
      if ch = ':' then
        .go { p with state := .headerValueDiscardWs } [.report .headerField false]
      else p.fail .INVALID_HEADER_TOKEN
  else .go { fieldChar p c ch with segment := p.segment+1 } []

def connectionToken (c : UInt8) (other : HeaderState) : HeaderState :=
  if c = 'k' then .matchingConnectionKeepAlive
  else if c = 'c' then .matchingConnectionClose
  else if c = 'u' then .matchingConnectionUpgrade
  else other

def headerValueStart (p : HttpParser) (ch : UInt8) : Outcome :=
  let p' := { p with state := .headerValue, index := 0 }
  let c := lower ch
  match p.headerState with
  | .upgrade =>
    .go { p' with flags := { p'.flags with upgrade := true }, headerState := .general }
      [.mark .headerValue]
  | .transferEncoding =>
    .go { p' with
      headerState := if c = 'c' then .matchingTransferEncodingChunked else .general }
      [.mark .headerValue]
  | .contentLength =>
    if !isNum ch then .error .INVALID_CONTENT_LENGTH p' [.mark .headerValue]
    else if p.flags.contentlength then .error .UNEXPECTED_CONTENT_LENGTH p' [.mark .headerValue]
    else
      .go { p' with
        flags := { p'.flags with contentlength := true }
        contentLength := (ch-48).toNat
        headerState := .contentLengthNum } [.mark .headerValue]
  | .contentLengthWs => .go p' [.mark .headerValue]
  | .connection =>
    .go { p' with headerState := connectionToken c .matchingConnectionToken }
      [.mark .headerValue]
  | .matchingConnectionTokenStart => .go p' [.mark .headerValue]
  | _ => .go { p' with headerState := .general } [.mark .headerValue]

def headerValueDiscardWs (p : HttpParser) (ch : UInt8) : Outcome :=
  if ch = ' ' ∨ ch = '\t' then .go p []
  else if ch = CR then p.goto .headerValueDiscardWsAlmostDone
  else if ch = LF then p.goto .headerValueDiscardLws
  else headerValueStart p ch

/-- `h_content_length_num`; `none` is `HPE_INVALID_CONTENT_LENGTH`. -/
def contentLengthChar (p : HttpParser) (ch : UInt8) : Option HttpParser :=
  if ch = ' ' then some { p with headerState := .contentLengthWs }
  else if !isNum ch then none
  else if (ullongMax-10) / 10 < p.contentLength then none
  else
    some { p with
      headerState := .contentLengthNum
      contentLength := p.contentLength*10+(ch-48).toNat }

def connectionTokenEnd (p : HttpParser) (ch : UInt8) (flags : Flags) : HttpParser :=
  if ch = ',' then
    { p with flags := flags, headerState := .matchingConnectionTokenStart, index := 0 }
  else if ch ≠ ' ' then { p with headerState := .matchingConnectionToken }
  else p

/-- The switch of `s_header_value` over `h_state`. -/
def valueChar (p : HttpParser) (ch : UInt8) : Option HttpParser :=
  let c := lower ch
  match p.headerState with
  | .general => some p
  | .connection => some p
  | .transferEncoding => some p
  | .contentLength => if ch = ' ' then some p else contentLengthChar p ch
  | .contentLengthNum => contentLengthChar p ch
  | .contentLengthWs => if ch = ' ' then some p else none
  | .matchingTransferEncodingChunked =>
    some (matchName p (ascii "chunked") c .general .transferEncodingChunked)
  | .matchingConnectionTokenStart =>
    some { p with
      headerState := connectionToken c
        (if strictToken c ≠ 0 then .matchingConnectionToken
          else if c = ' ' ∨ c = '\t' then .matchingConnectionTokenStart
          else .general) }
  | .matchingConnectionKeepAlive =>
    some (matchName p (ascii "keep-alive") c .matchingConnectionToken .connectionKeepAlive)
  | .matchingConnectionClose =>
    some (matchName p (ascii "close") c .matchingConnectionToken .connectionClose)
  | .matchingConnectionUpgrade =>
    some (matchName p (ascii "upgrade") c .matchingConnectionToken .connectionUpgrade)
  | .matchingConnectionToken =>
    some (if ch = ',' then { p with headerState := .matchingConnectionTokenStart, index := 0 }
      else p)
  | .transferEncodingChunked => some (if ch ≠ ' ' then { p with headerState := .general } else p)
  | .connectionKeepAlive =>
    some (connectionTokenEnd p ch { p.flags with connectionKeepAlive := true })
  | .connectionClose => some (connectionTokenEnd p ch { p.flags with connectionClose := true })
  | .connectionUpgrade =>
    some (connectionTokenEnd p ch { p.flags with connectionUpgrade := true })
  | _ => some { p with headerState := .general }

/-- How far the `h_general` branch has run ahead after one more byte. -/
def runAhead (cfg : Config) (p : HttpParser) : ℕ :=
  if p.headerState = .general ∧ cfg.maxHeaderSize ≠ 0 then p.general+1 else 0

/-- One byte of `s_header_value`. The byte at `pe`, where the `h_general` branch
stops running ahead, is stepped over unread. -/
def headerValue (cfg : Config) (p : HttpParser) (ch : UInt8) : Outcome :=
  let done := { p with state := .headerAlmostDone, segment := 0, general := 0 }
  if p.general ≠ 0 ∧ p.general = cfg.maxHeaderSize then
    .go { p with segment := p.segment+1, general := 0 } []
  else if ch = CR then
    (countHeaderSize cfg done p.segment fun p => .go p []).after [.report .headerValue false]
  else if ch = LF then
    countHeaderSize cfg done p.segment fun p =>
      (lineFeed p ch .headerValueLws).after [.report .headerValue false]
  else if !isHeaderChar ch then p.fail .INVALID_HEADER_TOKEN
  else match valueChar p ch with
  | none => p.fail .INVALID_CONTENT_LENGTH
  | some p' => .go { p' with segment := p.segment+1, general := runAhead cfg p } []

def HttpParser.commitHeader (p : HttpParser) : HttpParser :=
  match p.headerState with
  | .connectionKeepAlive => { p with flags := { p.flags with connectionKeepAlive := true } }
  | .connectionClose => { p with flags := { p.flags with connectionClose := true } }
  | .transferEncodingChunked => { p with flags := { p.flags with chunked := true } }
  | .connectionUpgrade => { p with flags := { p.flags with connectionUpgrade := true } }
  | _ => p

def headerValueLws (cfg : Config) (p : HttpParser) (ch : UInt8) : Outcome :=
  if ch = ' ' ∨ ch = '\t' then
    let p' := if p.headerState = .contentLengthNum then
      { p with headerState := .contentLengthWs } else p
    headerValueStart { p' with state := .headerValueStart } ch
  else headerFieldStart cfg { p.commitHeader with state := .headerFieldStart } ch

def headerValueDiscardLws (cfg : Config) (p : HttpParser) (ch : UInt8) : Outcome :=
  if ch = ' ' ∨ ch = '\t' then p.goto .headerValueDiscardWs
  else if p.headerState = .contentLength then p.fail .INVALID_CONTENT_LENGTH
  else
    (headerFieldStart cfg { p.commitHeader with state := .headerFieldStart } ch).after
      [.mark .headerValue, .report .headerValue false]

def bodyIdentity (cfg : Config) (p : HttpParser) : Outcome :=
  let p' := { p with contentLength := p.contentLength-1 }
  if p'.contentLength = 0 then
    (messageDone cfg { p' with state := .messageDone }).after [.mark .body, .report .body true]
  else .go p' [.mark .body]

def chunkSizeStart (p : HttpParser) (ch : UInt8) : Outcome :=
  match unhex ch with
  | none => p.fail .INVALID_CHUNK_SIZE
  | some v => .go { p with contentLength := v, state := .chunkSize } []

def chunkSize (p : HttpParser) (ch : UInt8) : Outcome :=
  if ch = CR then p.goto .chunkSizeAlmostDone
  else match unhex ch with
  | none =>
    if ch = ';' ∨ ch = ' ' then p.goto .chunkParameters else p.fail .INVALID_CHUNK_SIZE
  | some v =>
    if (ullongMax-16) / 16 < p.contentLength then p.fail .INVALID_CONTENT_LENGTH
    else .go { p with contentLength := p.contentLength*16+v } []

def chunkParameters (p : HttpParser) (ch : UInt8) : Outcome :=
  if ch = CR then p.goto .chunkSizeAlmostDone else .go p []

def chunkSizeAlmostDone (cfg : Config) (p : HttpParser) (ch : UInt8) : Outcome :=
  strictCheck cfg (ch ≠ LF) p <|
    let p := { p with nread := 0 }
    if p.contentLength = 0 then
      .go { p with flags := { p.flags with trailing := true }, state := .headerFieldStart }
        [.notify .chunkHeader]
    else .go { p with state := .chunkData } [.notify .chunkHeader]

def chunkData (p : HttpParser) : Outcome :=
  let p' := { p with contentLength := p.contentLength-1 }
  .go { p' with state := if p'.contentLength = 0 then .chunkDataAlmostDone else .chunkData }
    [.mark .body]

def chunkDataAlmostDone (cfg : Config) (p : HttpParser) (ch : UInt8) : Outcome :=
  strictCheck cfg (ch ≠ CR) p (.go { p with state := .chunkDataDone } [.report .body false])

def chunkDataDone (cfg : Config) (p : HttpParser) (ch : UInt8) : Outcome :=
  strictCheck cfg (ch ≠ LF) p
    (.go { p with nread := 0, state := .chunkSizeStart } [.notify .chunkComplete])

def reexecute (cfg : Config) (p : HttpParser) (ch : UInt8) : Outcome :=
  match p.state with
  | .dead => if ch = CR ∨ ch = LF then .go p [] else p.fail .CLOSED_CONNECTION
  | .startRes => startRes p ch
  | .resH => expect cfg p ch 'T' .resHT
  | .resHT => expect cfg p ch 'T' .resHTT
  | .resHTT => expect cfg p ch 'P' .resHTTP
  | .resHTTP => expect cfg p ch '/' .resHttpMajor
  | .resHttpMajor => httpMajor p ch .resHttpDot
  | .resHttpDot => versionChar p ch '.' .resHttpMinor
  | .resHttpMinor => httpMinor p ch .resHttpEnd
  | .resHttpEnd => versionChar p ch ' ' .resFirstStatusCode
  | .resFirstStatusCode => resFirstStatusCode p ch
  | .resStatusCode => resStatusCode p ch
  | .resStatusStart => resStatusStart p ch
  | .resStatus => resStatus p ch
  | .resLineAlmostDone => expect cfg p ch LF .headerFieldStart
  | .startReq => startReq p ch
  | .reqMethod => reqMethod cfg p ch
  | .reqSpacesBeforeUrl => reqSpacesBeforeUrl cfg p ch
  | .reqSchema | .reqSchemaSlash | .reqSchemaSlashSlash | .reqServerStart => urlOpen cfg p ch
  | .reqServer | .reqServerWithAt | .reqPath | .reqQueryStringStart | .reqQueryString
  | .reqFragmentStart | .reqFragment => urlRest cfg p ch
  | .reqHttpStart => reqHttpStart p ch
  | .reqHttpH => expect cfg p ch 'T' .reqHttpHT
  | .reqHttpHT => expect cfg p ch 'T' .reqHttpHTT
  | .reqHttpHTT => expect cfg p ch 'P' .reqHttpHTTP
  | .reqHttpI => expect cfg p ch 'C' .reqHttpIC
  | .reqHttpIC => expect cfg p ch 'E' .reqHttpHTTP
  | .reqHttpHTTP => expect cfg p ch '/' .reqHttpMajor
  | .reqHttpMajor => httpMajor p ch .reqHttpDot
  | .reqHttpDot => versionChar p ch '.' .reqHttpMinor
  | .reqHttpMinor => httpMinor p ch .reqHttpEnd
  | .reqHttpEnd => reqHttpEnd p ch
  | .reqLineAlmostDone => lineFeed p ch .headerFieldStart
  | .headerFieldStart => headerFieldStart cfg p ch
  | .headerField => headerField cfg p ch
  | .headerValueDiscardWs => headerValueDiscardWs p ch
  | .headerValueDiscardWsAlmostDone => expect cfg p ch LF .headerValueDiscardLws
  | .headerValueDiscardLws => headerValueDiscardLws cfg p ch
  | .headerValueStart => headerValueStart p ch
  | .headerValue => headerValue cfg p ch
  | .headerValueLws => headerValueLws cfg p ch
  | .headerAlmostDone => lineFeed p ch .headerValueLws
  | .chunkSizeStart => chunkSizeStart p ch
  | .chunkSize => chunkSize p ch
  | .chunkParameters => chunkParameters p ch
  | .chunkSizeAlmostDone => chunkSizeAlmostDone cfg p ch
  | .headersAlmostDone => headersAlmostDone cfg p ch
  | .headersDone => headersDone cfg p ch
  | .chunkData => chunkData p
  | .chunkDataAlmostDone => chunkDataAlmostDone cfg p ch
  | .chunkDataDone => chunkDataDone cfg p ch
  | .bodyIdentity => bodyIdentity cfg p
  | .bodyIdentityEof => .go p [.mark .body]
  | .messageDone => messageDone cfg p

/-- `PARSING_HEADER(state)`. -/
def parsingHeader : State → Bool
  | .chunkData => false
  | .chunkDataAlmostDone => false
  | .chunkDataDone => false
  | .bodyIdentity => false
  | .bodyIdentityEof => false
  | .messageDone => false
  | _ => true

/-- One byte. Bytes inside the loop over a header field or value are counted when
the loop ends. -/
def byte (cfg : Config) (p : HttpParser) (ch : UInt8) : Outcome :=
  if parsingHeader p.state ∧ p.segment = 0 then
    countHeaderSize cfg p 1 fun p => reexecute cfg p ch
  else reexecute cfg p ch

end Lamb.HttpMachine
