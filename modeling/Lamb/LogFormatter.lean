import Lamb.HttpUrl

/-!
# LogFormatter::init

The pattern is scanned by index in two states, for plain text and behind a `%`. The items
are made from what the scan has collected. All date items get the one date format that the
scan has put together.
-/

set_option autoImplicit false

namespace Lamb.LogFormatter
open Lamb.ByteString Lamb.Http Lamb.HttpUrl

inductive Item where
  | string (text : Bytes)
  | dateTime (format : Bytes)
  | message
  | level
  | loggerName
  | elapse
  | filename
  | line
  | threadId
  | fiberId
  | threadName
  | newLine
  | tab
  | percentSign
  deriving DecidableEq, Repr

/-- The constructor of `DateTimeFormatItem`. -/
def dateTimeItem (format : Bytes) : Item :=
  .dateTime (if format = [] then ascii "%Y-%m-%d %H:%M:%S" else format)

def formatItems : List (Bytes × Item) := [
  (ascii "m", .message),
  (ascii "p", .level),
  (ascii "c", .loggerName),
  (ascii "r", .elapse),
  (ascii "f", .filename),
  (ascii "l", .line),
  (ascii "t", .threadId),
  (ascii "F", .fiberId),
  (ascii "N", .threadName),
  (ascii "n", .newLine),
  (ascii "T", .tab),
  (ascii "%", .percentSign)]

inductive OutOfBounds where
  | index
  deriving DecidableEq, Repr

/-- `m_pattern[i]`, which is a null character at the end of the string. -/
def charAt (p : Bytes) (i : ℕ) : Except OutOfBounds UInt8 :=
  if h : i < p.length then .ok p[i]
  else if i = p.length then .ok 0
  else .error .index

structure Scan where
  patterns : List (ℕ × Bytes)
  tmp : Bytes
  dateformat : Bytes
  error : Bool
  parsingString : Bool
  i : ℕ
  deriving DecidableEq

def start : Scan := {
  patterns := []
  tmp := []
  dateformat := []
  error := false
  parsingString := true
  i := 0 }

def plain (tmp : Bytes) : List (ℕ × Bytes) := if tmp = [] then [] else [(0, tmp)]

def step (p : Bytes) (s : Scan) : Except OutOfBounds Scan := do
  let c ← charAt p s.i
  if c = ('%' : UInt8) then
    if s.parsingString then
      return { s with
        patterns := s.patterns ++ plain s.tmp
        tmp := []
        parsingString := false
        i := s.i+1 }
    else
      return { s with
        patterns := s.patterns ++ [(1, [c])]
        parsingString := true
        i := s.i+1 }
  else if s.parsingString then
    return { s with tmp := s.tmp ++ [c], i := s.i+1 }
  else
    let s := { s with
      patterns := s.patterns ++ [(1, [c])]
      parsingString := true
      i := s.i+1 }
    if c ≠ ('d' : UInt8) then return s
    else if s.i < p.length ∧ p[s.i]? ≠ some ('{' : UInt8) then return s
    else
      let format := (p.drop (s.i+1)).takeWhile (· ≠ ('}' : UInt8))
      let s := { s with
        dateformat := s.dateformat ++ format
        i := s.i+1+format.length }
      let c ← charAt p s.i
      if c ≠ ('}' : UInt8) then return { s with error := true }
      else return { s with i := s.i+1 }

def loop (p : Bytes) : ℕ → Scan → Except OutOfBounds Scan
  | 0, s => .ok s
  | n+1, s => if s.i < p.length ∧ !s.error then do
      let s ← step p s
      loop p n s
    else .ok s

/-- `m_items` and `m_error`. -/
structure Formatter where
  items : List Item
  error : Bool
  deriving DecidableEq

def Formatter.cons (item : Item) (f : Formatter) : Formatter :=
  { f with items := item::f.items }

def build (dateformat : Bytes) : List (ℕ × Bytes) → Formatter
  | [] => { items := [], error := false }
  | v::rest =>
    if v.1 = 0 then (build dateformat rest).cons (.string v.2)
    else if v.2 = ascii "d" then (build dateformat rest).cons (dateTimeItem dateformat)
    else
      match formatItems.lookup v.2 with
      | none => { items := [], error := true }
      | some item => (build dateformat rest).cons item

/-- `LogFormatter::init`. -/
def init (p : Bytes) : Except OutOfBounds Formatter := do
  let s ← loop p p.length start
  if s.error then return { items := [], error := true }
  else return build s.dateformat (s.patterns ++ plain s.tmp)

end Lamb.LogFormatter
