import Lamb.HttpUrl
import Lamb.HttpResponseDump

/-!
# Uris

`Uri::Create` takes the fields of the URL parser as they are and gives three schemes a
default port. `toString` puts the fields together again.
-/

set_option autoImplicit false

namespace Lamb.Uri
open Lamb.ByteString Lamb.Http Lamb.HttpUrl Lamb.HttpResponseDump

inductive StoiError where
  | invalidArgument
  | outOfRange
  deriving DecidableEq, Repr

def isSpace (c : UInt8) : Bool := c = 32 || (9 ≤ c && c ≤ 13)

def number (digits : Bytes) : ℕ := digits.foldl (fun n c => n*10+(c-48).toNat) 0

/-- `std::stoi`, which skips blanks and stops behind the last digit. -/
def stoi (s : Bytes) : Except StoiError ℤ :=
  let text := s.dropWhile isSpace
  let negative := text.head? = some ('-' : UInt8)
  let digits := (if negative ∨ text.head? = some ('+' : UInt8) then text.tail else text).takeWhile isNum
  if digits = [] then .error .invalidArgument
  else
    let value : ℤ := if negative then -(number digits : ℤ) else number digits
    if -2^31 ≤ value ∧ value < 2^31 then .ok value else .error .outOfRange

/-- `std::to_string` of an `int32_t`. -/
def toText (v : ℤ) : Bytes := if v < 0 then ('-' : UInt8)::decimal v.natAbs else decimal v.natAbs

structure Uri where
  scheme : Bytes
  userinfo : Bytes
  host : Bytes
  path : Bytes
  query : Bytes
  fragment : Bytes
  port : ℤ
  deriving DecidableEq

/-- The port that `Create` sets if the URL names none. -/
def defaultPort (scheme : Bytes) : ℤ :=
  if scheme = ascii "http" ∨ scheme = ascii "ws" then 80
  else if scheme = ascii "https" then 443
  else 0

/-- `Uri::Create`; the value is missing for a null pointer. -/
def create (strict : Bool) (urlstr : Bytes) : Except StoiError (Option Uri) :=
  match parseUrl strict urlstr false with
  | none => .ok none
  | some parser => do
    let field := fun uf => (parser.text urlstr uf).getD []
    let port ← match parser.text urlstr .port with
      | some digits => stoi digits
      | none => .ok (defaultPort (field .schema))
    return some {
      scheme := field .schema
      userinfo := field .userinfo
      host := field .host
      path := field .path
      query := field .query
      fragment := field .fragment
      port := port }

def Uri.getPath (u : Uri) : Bytes := if u.path = [] then ascii "/" else u.path

def Uri.getPort (u : Uri) : ℤ :=
  if u.port ≠ 0 then u.port
  else if u.scheme = ascii "http" ∨ u.scheme = ascii "ws" then 80
  else if u.scheme = ascii "https" ∨ u.scheme = ascii "ws" then 443
  else u.port

def Uri.isDefaultPort (u : Uri) : Bool :=
  if u.scheme = ascii "http" ∨ u.scheme = ascii "ws" then u.port = 80
  else if u.scheme = ascii "https" then u.port = 443
  else false

def Uri.toString (u : Uri) : Bytes :=
  u.scheme ++ ascii "://" ++ u.userinfo ++ (if u.userinfo = [] then [] else ascii "@") ++
    u.host ++ (if u.isDefaultPort then [] else ascii ":" ++ toText u.port) ++ u.getPath ++
    (if u.query = [] then [] else ascii "?") ++ u.query ++
    (if u.fragment = [] then [] else ascii "#") ++ u.fragment

structure Agrees (u v : Uri) : Prop where
  scheme : v.scheme = u.scheme
  userinfo : v.userinfo = u.userinfo
  host : v.host = u.host
  port : v.getPort = u.getPort
  path : v.getPath = u.getPath
  query : v.query = u.query
  fragment : v.fragment = u.fragment

end Lamb.Uri
