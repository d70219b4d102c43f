import Lamb.Http
import Mathlib.Logic.Function.Basic

/-!
# The URL parser of http_parser

`parse_url_char` is shared by the request parser, which only validates a URL, and
by `http_parser_parse_url`, which splits it into fields. Offsets and lengths of
fields are `uint16_t`. `strict` stands for `HTTP_PARSER_STRICT`.
-/

set_option autoImplicit false

namespace Lamb.HttpUrl
open Lamb.ByteString Lamb.Http

instance coeCharUInt8 : Coe Char UInt8 := ⟨Char.toUInt8⟩

/-- `enum state`, without the two states of a parser that takes requests and
responses alike. -/
inductive State where
  | dead
  | startRes
  | resH
  | resHT
  | resHTT
  | resHTTP
  | resHttpMajor
  | resHttpDot
  | resHttpMinor
  | resHttpEnd
  | resFirstStatusCode
  | resStatusCode
  | resStatusStart
  | resStatus
  | resLineAlmostDone
  | startReq
  | reqMethod
  | reqSpacesBeforeUrl
  | reqSchema
  | reqSchemaSlash
  | reqSchemaSlashSlash
  | reqServerStart
  | reqServer
  | reqServerWithAt
  | reqPath
  | reqQueryStringStart
  | reqQueryString
  | reqFragmentStart
  | reqFragment
  | reqHttpStart
  | reqHttpH
  | reqHttpHT
  | reqHttpHTT
  | reqHttpHTTP
  | reqHttpI
  | reqHttpIC
  | reqHttpMajor
  | reqHttpDot
  | reqHttpMinor
  | reqHttpEnd
  | reqLineAlmostDone
  | headerFieldStart
  | headerField
  | headerValueDiscardWs
  | headerValueDiscardWsAlmostDone
  | headerValueDiscardLws
  | headerValueStart
  | headerValue
  | headerValueLws
  | headerAlmostDone
  | chunkSizeStart
  | chunkSize
  | chunkParameters
  | chunkSizeAlmostDone
  | headersAlmostDone
  | headersDone
  | chunkData
  | chunkDataAlmostDone
  | chunkDataDone
  | bodyIdentity
  | bodyIdentityEof
  | messageDone
  deriving DecidableEq, Repr

def CR : UInt8 := '\r'
def LF : UInt8 := '\n'

def lower (c : UInt8) : UInt8 := c ||| 0x20
def isAlpha (c : UInt8) : Bool := 97 ≤ lower c ∧ lower c ≤ 122
def isNum (c : UInt8) : Bool := 48 ≤ c ∧ c ≤ 57
def isAlphanum (c : UInt8) : Bool := isAlpha c || isNum c
def isHex (c : UInt8) : Bool := isNum c || (97 ≤ lower c && lower c ≤ 102)

def isMark (c : UInt8) : Bool := c ∈ ascii "-_.!~*'()"

def isUserinfoChar (c : UInt8) : Bool := isAlphanum c || isMark c || c ∈ ascii "%;:&=+$,"

/-- `normal_url_char` and `IS_URL_CHAR`. -/
def isUrlChar (strict : Bool) (c : UInt8) : Bool :=
  (33 ≤ c && c ≤ 126 && c ≠ 35 && c ≠ 63) || (!strict && (c = 9 || c = 12 || 128 ≤ c))

def isHostChar (strict : Bool) (c : UInt8) : Bool :=
  isAlphanum c || c = '.' || c = '-' || (!strict && c = '_')

/-- The part that `s_req_server_with_at` falls through to. -/
def serverChar (ch : UInt8) : State :=
  if ch = '/' then .reqPath
  else if ch = '?' then .reqQueryStringStart
  else if ch = '@' then .reqServerWithAt
  else if isUserinfoChar ch || ch = '[' || ch = ']' then .reqServer
  else .dead

def parseUrlChar (strict : Bool) (s : State) (ch : UInt8) : State :=
  if ch = ' ' ∨ ch = CR ∨ ch = LF then .dead
  else if strict ∧ (ch = '\t' ∨ ch = 12) then .dead
  else match s with
  | .reqSpacesBeforeUrl =>
    if ch = '/' ∨ ch = '*' then .reqPath else if isAlpha ch then .reqSchema else .dead
  | .reqSchema =>
    if isAlpha ch then s else if ch = ':' then .reqSchemaSlash else .dead
  | .reqSchemaSlash => if ch = '/' then .reqSchemaSlashSlash else .dead
  | .reqSchemaSlashSlash => if ch = '/' then .reqServerStart else .dead
  | .reqServerWithAt => if ch = '@' then .dead else serverChar ch
  | .reqServerStart => serverChar ch
  | .reqServer => serverChar ch
  | .reqPath =>
    if isUrlChar strict ch then s
    else if ch = '?' then .reqQueryStringStart
    else if ch = '#' then .reqFragmentStart
    else .dead
  | .reqQueryStringStart | .reqQueryString =>
    if isUrlChar strict ch then .reqQueryString
    else if ch = '?' then .reqQueryString
    else if ch = '#' then .reqFragmentStart
    else .dead
  | .reqFragmentStart =>
    if isUrlChar strict ch then .reqFragment
    else if ch = '?' then .reqFragment
    else if ch = '#' then s
    else .dead
  | .reqFragment =>
    if isUrlChar strict ch then s
    else if ch = '?' ∨ ch = '#' then s
    else .dead
  | _ => .dead

inductive HostState where
  | dead
  | userinfoStart
  | userinfo
  | hostStart
  | hostV6Start
  | host
  | hostV6
  | hostV6End
  | hostV6ZoneStart
  | hostV6Zone
  | hostPortStart
  | hostPort
  deriving DecidableEq, Repr

def isV6Char (ch : UInt8) : Bool := isHex ch || ch = ':' || ch = '.'

def isZoneChar (ch : UInt8) : Bool := isAlphanum ch || ch ∈ ascii "%.-_~"

def parseHostChar (strict : Bool) (s : HostState) (ch : UInt8) : HostState :=
  match s with
  | .userinfo | .userinfoStart =>
    if ch = '@' then .hostStart else if isUserinfoChar ch then .userinfo else .dead
  | .hostStart =>
    if ch = '[' then .hostV6Start else if isHostChar strict ch then .host else .dead
  | .host =>
    if isHostChar strict ch then .host else if ch = ':' then .hostPortStart else .dead
  | .hostV6End => if ch = ':' then .hostPortStart else .dead
  | .hostV6 =>
    if ch = ']' then .hostV6End
    else if isV6Char ch then .hostV6
    else if ch = '%' then .hostV6ZoneStart
    else .dead
  | .hostV6Start => if isV6Char ch then .hostV6 else .dead
  | .hostV6Zone =>
    if ch = ']' then .hostV6End else if isZoneChar ch then .hostV6Zone else .dead
  | .hostV6ZoneStart => if isZoneChar ch then .hostV6Zone else .dead
  | .hostPort | .hostPortStart => if isNum ch then .hostPort else .dead
  | .dead => .dead

inductive UrlField where
  | schema
  | host
  | port
  | path
  | query
  | fragment
  | userinfo
  deriving DecidableEq, Repr

/-- `off` and `len` of `field_data`. -/
structure Span where
  off : ℕ
  len : ℕ
  deriving DecidableEq, Repr

/-- `struct http_parser_url`; a field is set when it has a span. -/
structure HttpParserUrl where
  field : UrlField → Option Span
  port : ℕ

def HttpParserUrl.init : HttpParserUrl := ⟨fun _ => none, 0⟩

/-- `field_data[uf].off = (uint16_t)(p - buf); field_data[uf].len = 1`. -/
def HttpParserUrl.begin (u : HttpParserUrl) (uf : UrlField) (pos : ℕ) : HttpParserUrl :=
  { u with field := Function.update u.field uf (some ⟨pos % 2^16, 1⟩) }

/-- `field_data[uf].len++`. -/
def HttpParserUrl.grow (u : HttpParserUrl) (uf : UrlField) : HttpParserUrl :=
  let d := (u.field uf).map fun d => ⟨d.off, (d.len+1) % 2^16⟩
  { u with field := Function.update u.field uf d }

/-- The text of a field, `std::string(buf + off, len)`. -/
def HttpParserUrl.text (u : HttpParserUrl) (buf : Bytes) (uf : UrlField) : Option Bytes :=
  (u.field uf).map fun d => (buf.drop d.off).take d.len

def urlField : State → Option UrlField
  | .reqSchema => some .schema
  | .reqServerWithAt => some .host
  | .reqServer => some .host
  | .reqPath => some .path
  | .reqQueryString => some .query
  | .reqFragment => some .fragment
  | _ => none

/-- The loop of `http_parser_parse_url` from position `pos`. -/
def urlLoop (strict : Bool) : Bytes → ℕ → State → Option UrlField → Bool → HttpParserUrl →
    Option (HttpParserUrl × Bool)
  | [], _, _, _, foundAt, u => some (u, foundAt)
  | ch::rest, pos, s, oldUf, foundAt, u =>
    let s' := parseUrlChar strict s ch
    if s' = .dead then none
    else
      let foundAt' := foundAt || s' = .reqServerWithAt
      match urlField s' with
      | none => urlLoop strict rest (pos+1) s' oldUf foundAt' u
      | some uf =>
        if oldUf = some uf then urlLoop strict rest (pos+1) s' oldUf foundAt' (u.grow uf)
        else urlLoop strict rest (pos+1) s' (some uf) foundAt' (u.begin uf pos)

def hostField (s s' : HostState) (pos : ℕ) (u : HttpParserUrl) : HttpParserUrl :=
  match s' with
  | .host | .hostV6 =>
    if s = s' then u.grow .host else
      let len := ((u.field .host).map Span.len).getD 0
      { u with field := Function.update u.field .host (some ⟨pos % 2^16, (len+1) % 2^16⟩) }
  | .hostV6ZoneStart | .hostV6Zone => u.grow .host
  | .hostPort => if s = s' then u.grow .port else u.begin .port pos
  | .userinfo => if s = s' then u.grow .userinfo else u.begin .userinfo pos
  | _ => u

def hostLoop (strict : Bool) : Bytes → ℕ → HostState → HttpParserUrl →
    Option (HostState × HttpParserUrl)
  | [], _, s, u => some (s, u)
  | ch::rest, pos, s, u =>
    let s' := parseHostChar strict s ch
    if s' = .dead then none else hostLoop strict rest (pos+1) s' (hostField s s' pos u)

def hostMayEnd : HostState → Bool
  | .host => true
  | .hostV6End => true
  | .hostPort => true
  | _ => false

def parseHost (strict : Bool) (buf : Bytes) (u : HttpParserUrl) (host : Span) (foundAt : Bool) :
    Option HttpParserUrl :=
  let u' := { u with field := Function.update u.field .host (some ⟨host.off, 0⟩) }
  let s := if foundAt then HostState.userinfoStart else .hostStart
  match hostLoop strict ((buf.drop host.off).take host.len) host.off s u' with
  | none => none
  | some (s', u'') => if hostMayEnd s' then some u'' else none

def portLoop : Bytes → ℕ → Option ℕ
  | [], v => some v
  | ch::rest, v =>
    let v' := v*10+(ch-48).toNat
    if 0xffff < v' then none else portLoop rest v'

/-- `http_parser_parse_url`; `none` is a non-zero result. -/
def parseUrl (strict : Bool) (buf : Bytes) (isConnect : Bool) : Option HttpParserUrl :=
  if buf = [] then none else
  let s := if isConnect then State.reqServerStart else .reqSpacesBeforeUrl
  match urlLoop strict buf 0 s none false .init with
  | none => none
  | some (u, foundAt) =>
    if (u.field .schema).isSome ∧ (u.field .host).isNone then none else
    match (match u.field .host with
      | none => some u
      | some host => parseHost strict buf u host foundAt) with
    | none => none
    | some u =>
      let hostPortOnly := (u.field .host).isSome ∧ (u.field .port).isSome ∧
        (u.field .schema).isNone ∧ (u.field .path).isNone ∧ (u.field .query).isNone ∧
        (u.field .fragment).isNone ∧ (u.field .userinfo).isNone
      if isConnect ∧ ¬hostPortOnly then none else
      match u.text buf .port with
      | none => some u
      | some digits => (portLoop digits 0).map fun v => { u with port := v }

@[simp] theorem parseUrl_nil (strict isConnect : Bool) : parseUrl strict [] isConnect = none := rfl

end Lamb.HttpUrl
