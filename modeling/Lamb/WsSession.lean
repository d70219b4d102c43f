import Lamb.ByteStream
import Lamb.Library.Blocks

/-!
# WebSocket messages over a stream

Frame heads are two bytes of bit fields in their little-endian layout. The
sender writes a head, an extended length, a mask and the payload; the receiver
loops over frames and reassembles one message. The mask drawn by `rand` and the
indeterminate value of an uninitialised `len` are arguments of the sender, the
configured size limit is an argument of the receiver.
-/

set_option autoImplicit false

namespace Lamb.WsSession
open Lamb.ByteString Lamb.Blocks Lamb.ByteStream

inductive OPCODE where
  | CONTINUE
  | TEXT_FRAME
  | BIN_FRAME
  | CLOSE
  | PING
  | PONG
  deriving DecidableEq, Repr

def OPCODE.code : OPCODE → BitVec 4
  | .CONTINUE => 0
  | .TEXT_FRAME => 1
  | .BIN_FRAME => 2
  | .CLOSE => 8
  | .PING => 9
  | .PONG => 10

structure WSFrameHead where
  opcode : BitVec 4
  rsv3 : Bool
  rsv2 : Bool
  rsv1 : Bool
  fin : Bool
  payload : BitVec 7
  mask : Bool
  deriving DecidableEq

/-- A head after `memset(&ws_head, 0, sizeof(ws_head))`. -/
def WSFrameHead.zero : WSFrameHead := ⟨0, false, false, false, false, 0, false⟩

def WSFrameHead.toBytes (h : WSFrameHead) : Bytes :=
  [.ofBitVec (.cons h.fin (.cons h.rsv1 (.cons h.rsv2 (.cons h.rsv3 h.opcode)))),
   .ofBitVec (.cons h.mask h.payload)]

def WSFrameHead.ofBytes (bs : Bytes) : WSFrameHead :=
  let b₀ := (bs.getD 0 0).toBitVec
  let b₁ := (bs.getD 1 0).toBitVec
  { opcode := b₀.extractLsb' 0 4
    rsv3 := b₀.getLsbD 4
    rsv2 := b₀.getLsbD 5
    rsv1 := b₀.getLsbD 6
    fin := b₀.getLsbD 7
    payload := b₁.extractLsb' 0 7
    mask := b₁.getLsbD 7 }

structure WSFrameMessage where
  opcode : ℤ
  data : Bytes
  deriving DecidableEq

/-- The loop `data[i] ^= mask[i % 4]`. -/
def applyMask (mask data : Bytes) : Bytes :=
  data.mapIdx fun i b => b ^^^ mask.getD (i % 4) 0

def sendFix (s : Stream) (buf : Bytes) : Except Stream Stream :=
  let r := s.writeFixSize buf
  if r.1 ≤ 0 then .error r.2 else .ok r.2

def recvFix (s : Stream) (length : ℕ) : Except Stream (Bytes × Stream) :=
  let r := s.readFixSize length
  if r.1 ≤ 0 then .error r.2.2 else .ok (r.2.1, r.2.2)

def sendHead (opcode : ℤ) (client fin : Bool) (size : ℕ) : WSFrameHead :=
  { WSFrameHead.zero with
    fin := fin
    opcode := BitVec.ofInt 4 opcode
    mask := client
    payload := if size < 126 then BitVec.ofNat 7 size else if size < 65536 then 126 else 127 }

/-- The extended length. In the 64-bit format the code byte-swaps and writes a
16-bit `len` that it never initialised. -/
def sendLength (payload : BitVec 7) (size : ℕ) (uninit : UInt16) (s : Stream) :
    Except Stream Stream :=
  if payload = 126 then sendFix s (leBytes 2 (byteswap 2 (size % 2^16)))
  else if payload = 127 then sendFix s (leBytes 2 (byteswap 2 uninit.toNat))
  else .ok s

def sendMask (client : Bool) (mask : Bytes) (s : Stream) : Except Stream Stream :=
  if client then sendFix s mask else .ok s

/-- The writes of `WSSendMessage` before the mask is drawn. -/
def sendPrefix (head : WSFrameHead) (size : ℕ) (uninit : UInt16) (s : Stream) :
    Except Stream Stream := do
  let s ← sendFix s head.toBytes
  sendLength head.payload size uninit s

def sendPayload (client : Bool) (mask data : Bytes) (s : Stream) : Except Stream Stream := do
  let s ← sendMask client mask s
  sendFix s data

/-- `WSSendMessage`: the returned `int32_t`, the message whose data the client
masks in place, and the stream after. -/
def wsSendMessage (s : Stream) (msg : WSFrameMessage) (client fin : Bool)
    (rand : UInt32) (uninit : UInt16) : ℤ × WSFrameMessage × Stream :=
  let size := msg.data.length
  match sendPrefix (sendHead msg.opcode client fin size) size uninit s with
  | .error s' => (-1, msg, s'.close)
  | .ok s =>
    let mask := leBytes 4 rand.toNat
    let data := if client then applyMask mask msg.data else msg.data
    match sendPayload client mask data s with
    | .ok s' => (toInt (size+2), { msg with data := data }, s')
    | .error s' => (-1, { msg with data := data }, s'.close)

def sendControl (op : OPCODE) (s : Stream) : ℤ × Stream :=
  let r := s.writeFixSize ({ WSFrameHead.zero with fin := true, opcode := op.code }).toBytes
  if r.1 ≤ 0 then (r.1, r.2.close) else r

def wsPing (s : Stream) : ℤ × Stream := sendControl .PING s

def wsPong (s : Stream) : ℤ × Stream := sendControl .PONG s

/-- The variables `opcode`, `data` and `cur_len` of the receive loop. -/
structure Assembly where
  opcode : ℤ
  data : Bytes
  curLen : ℤ

def recvLength (payload : BitVec 7) (s : Stream) : Except Stream (ℕ × Stream) :=
  if payload = 126 then do
    let (len, s) ← recvFix s 2
    return (byteswap 2 (leValue len), s)
  else if payload = 127 then do
    let (len, s) ← recvFix s 8
    return (byteswap 8 (leValue len), s)
  else .ok (payload.toNat, s)

def recvMask (mask : Bool) (s : Stream) : Except Stream (Bytes × Stream) :=
  if mask then recvFix s 4 else .ok ([0, 0, 0, 0], s)

/-- `std::string::resize`. -/
def resize (data : Bytes) (n : ℕ) : Bytes := data.take n ++ List.replicate (n-data.length) 0

/-- The uint64 value of `cur_len + length`. -/
def totalLength (a : Assembly) (length : ℕ) : ℕ := ((a.curLen+length) % 2^64).toNat

/-- The assembly after one data frame whose payload bytes are `got`. -/
def assemble (head : WSFrameHead) (a : Assembly) (length : ℕ) (mask got : Bytes) : Assembly :=
  let cur := a.curLen.toNat
  let data := overwrite (resize a.data (totalLength a length)) cur got
  let masked := applyMask mask ((data.drop cur).take (toInt length).toNat)
  { opcode := if a.opcode = 0 ∧ head.opcode ≠ OPCODE.CONTINUE.code then head.opcode.toNat
      else a.opcode
    data := if head.mask then overwrite data cur masked else data
    curLen := (a.curLen+length).bmod (2^32) }

/-- `&data[cur_len]` lies before the buffer, or the unmasking loop, which computes its indices
`cur_len + i` as an `int`, goes past `INT_MAX`. -/
def IndexOverflow (head : WSFrameHead) (a : Assembly) (length : ℕ) : Prop :=
  a.curLen < 0 ∨ head.mask = true ∧ 2^31 < a.curLen.toNat+(toInt length).toNat

instance (head : WSFrameHead) (a : Assembly) (length : ℕ) :
    Decidable (IndexOverflow head a length) :=
  inferInstanceAs (Decidable (_ ∨ _ ∧ _))

/-- The branch of `CONTINUE`, `TEXT_FRAME` and `BIN_FRAME`. An index before the buffer or past
`INT_MAX` is undefined behaviour; a run that computes one is given no message. -/
def recvData (client : Bool) (maxSize : UInt32) (head : WSFrameHead) (a : Assembly)
    (s : Stream) : Except Stream (Assembly × Stream) :=
  if !client && !head.mask then .error s else do
    let (length, s) ← recvLength head.payload s
    if maxSize.toNat ≤ totalLength a length then .error s else do
      let (mask, s) ← recvMask head.mask s
      let (got, s) ← recvFix s length
      if IndexOverflow head a length then .error s
      else return (assemble head a length mask got, s)

/-- The frame loop. Every iteration reads a head, so the number of pending
bytes bounds the number of iterations. -/
def recvLoop (client : Bool) (maxSize : UInt32) :
    ℕ → Assembly → Stream → Option WSFrameMessage × Stream
  | 0, _, s => (none, s.close)
  | fuel+1, a, s =>
    match recvFix s 2 with
    | .error s => (none, s.close)
    | .ok (bs, s) =>
      let head := WSFrameHead.ofBytes bs
      if head.opcode = OPCODE.PING.code then
        let r := wsPong s
        if r.1 ≤ 0 then (none, r.2.close) else recvLoop client maxSize fuel a r.2
      else if head.opcode = OPCODE.PONG.code then recvLoop client maxSize fuel a s
      else if head.opcode = OPCODE.CONTINUE.code ∨ head.opcode = OPCODE.TEXT_FRAME.code ∨
          head.opcode = OPCODE.BIN_FRAME.code then
        match recvData client maxSize head a s with
        | .error s => (none, s.close)
        | .ok (a, s) =>
          if head.fin then (some ⟨a.opcode, a.data⟩, s) else recvLoop client maxSize fuel a s
      else if head.opcode = OPCODE.CLOSE.code then (none, s.close)
      else recvLoop client maxSize fuel a s

/-- `WSRecvMessage`: the message, or `none` for `nullptr`, and the stream after. -/
def wsRecvMessage (s : Stream) (client : Bool) (maxSize : UInt32) :
    Option WSFrameMessage × Stream :=
  recvLoop client maxSize (s.pending.length+1) ⟨0, [], 0⟩ s

end Lamb.WsSession
