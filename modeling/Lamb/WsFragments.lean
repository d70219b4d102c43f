import Lamb.WsRoundTrip

/-!
# Reassembly of fragmented WebSocket messages

A message is a non-empty list of fragments, each written by one call of the
sender, with control frames in front of it. One receiving call walks the frames
with its assembly: a control frame leaves the assembly alone and is answered
when it is a `PING`, a data frame appends its payload. The length received so
far is a C `int`. The message comes back exactly when that `int`, and for masked
frames the `int` index into the message, never passes `INT_MAX`.
-/

set_option autoImplicit false

namespace Lamb.WsFragments
open Lamb.ByteString Lamb.ByteStream Lamb.WsSession Lamb.WsRoundTrip

/-- The control frames written between fragments, by `WSPing` and `WSPong`. -/
inductive Control where
  | ping
  | pong
  deriving DecidableEq, Repr

def Control.op : Control → OPCODE
  | .ping => .PING
  | .pong => .PONG

def Control.send : Control → Stream → Stream
  | .ping, s => (wsPing s).2
  | .pong, s => (wsPong s).2

/-- One call of `WSSendMessage`, after the control frames of `before`. -/
structure Fragment where
  before : List Control
  op : OPCODE
  data : Bytes
  rand : UInt32
  uninit : UInt16
  data_op : op = .CONTINUE ∨ op = .TEXT_FRAME ∨ op = .BIN_FRAME
  nonempty : 1 ≤ data.length
  short : data.length ≤ 65535

structure Message where
  first : Fragment
  others : List Fragment
  first_op : first.op = .TEXT_FRAME ∨ first.op = .BIN_FRAME

def Message.fragments (m : Message) : List Fragment := m.first::m.others

def Fragment.send (f : Fragment) (client fin : Bool) (s : Stream) : Stream :=
  (wsSendMessage (f.before.foldl (fun s c => c.send s) s) ⟨f.op.code.toNat, f.data⟩ client fin
    f.rand f.uninit).2.2

def sendAll (client : Bool) : List Fragment → Stream → Stream
  | [], s => s
  | f::fs, s => sendAll client fs (f.send client fs.isEmpty s)

def Message.send (m : Message) (client : Bool) (s : Stream) : Stream :=
  sendAll client m.fragments s

def payloads (fs : List Fragment) : Bytes := fs.flatMap Fragment.data

def pings (fs : List Fragment) : ℕ := (fs.flatMap Fragment.before).count .ping

/-- The head written by `WSPing` and `WSPong`. -/
def controlHead (op : OPCODE) : WSFrameHead :=
  { WSFrameHead.zero with fin := true, opcode := op.code }

/-- One `WSRecvMessage` in the opposite role returns the first opcode with all
payloads, leaves exactly `rest` unread and answers every `PING` once. -/
structure Reassembled (m : Message) (client : Bool) (maxSize : UInt32) (s : Stream)
    (rest : Bytes) : Prop where
  message : (wsRecvMessage s (!client) maxSize).1 =
    some ⟨m.first.op.code.toNat, payloads m.fragments⟩
  consumed : (wsRecvMessage s (!client) maxSize).2.pending = rest
  answered : (wsRecvMessage s (!client) maxSize).2.outbox = s.outbox ++
    (List.replicate (pings m.fragments) (controlHead .PONG).toBytes).flatten

/-- The `int` positions of the receiver suffice: the bytes in front of the last
fragment are counted by `cur_len`, and the unmasking loop indexes all of them. -/
def Indexable (client : Bool) (n : ℕ) (fs : List Fragment) : Prop :=
  n+(payloads fs.dropLast).length < 2^31 ∧ (client = true → n+(payloads fs).length ≤ 2^31)

theorem payloads_cons (f : Fragment) (fs : List Fragment) :
    payloads (f::fs) = f.data ++ payloads fs := rfl

theorem indexable_cons (client : Bool) (n : ℕ) (f : Fragment) (fs : List Fragment)
    (h : fs ≠ []) :
    Indexable client n (f::fs) ↔ Indexable client (n+f.data.length) fs := by
  unfold Indexable
  rw [List.dropLast_cons_of_ne_nil h, payloads_cons, payloads_cons, List.length_append,
    List.length_append, Nat.add_assoc, Nat.add_assoc]

section Sending

def Control.bytes (c : Control) : Bytes := (controlHead c.op).toBytes

def Fragment.head (f : Fragment) (client fin : Bool) : WSFrameHead :=
  sendHead f.op.code.toNat client fin f.data.length

def Fragment.bytes (f : Fragment) (client fin : Bool) : Bytes :=
  f.before.flatMap Control.bytes ++ ((f.head client fin).toBytes ++
    frameTail (f.head client fin) f.data f.rand f.uninit)

def wire (client : Bool) : List Fragment → Bytes
  | [] => []
  | f::fs => f.bytes client fs.isEmpty ++ wire client fs

theorem sendControl_ok (op : OPCODE) (s : Stream) (ho : s.closed = false) :
    ∃ s', sendControl op s = (2, s') ∧ s'.outbox = s.outbox ++ (controlHead op).toBytes ∧
      s'.closed = false ∧ s'.inbox = s.inbox := by
  have hl : (controlHead op).toBytes.length = 2 := rfl
  obtain ⟨s', hw, hout, hc, hi⟩ := writeFixSize_ok s (controlHead op).toBytes ho (by omega)
  have hrt : toInt (controlHead op).toBytes.length = 2 := by rw [hl, toInt_small 2 (by omega)]; rfl
  rw [hrt] at hw
  refine ⟨s', ?_, hout, hc, hi⟩
  simp only [controlHead] at hw
  simp [sendControl, hw]

theorem control_send (c : Control) (s : Stream) (ho : s.closed = false) :
    (c.send s).outbox = s.outbox ++ c.bytes ∧ (c.send s).closed = false := by
  obtain ⟨s', hs, hout, hc, -⟩ := sendControl_ok c.op s ho
  have hsend : c.send s = s' := by
    cases c with
    | ping => exact congrArg Prod.snd hs
    | pong => exact congrArg Prod.snd hs
  rw [hsend]
  exact ⟨hout, hc⟩

theorem controls_send (cs : List Control) (s : Stream) (ho : s.closed = false) :
    (cs.foldl (fun s c => c.send s) s).outbox = s.outbox ++ cs.flatMap Control.bytes ∧
      (cs.foldl (fun s c => c.send s) s).closed = false := by
  induction cs generalizing s with
  | nil => exact ⟨(List.append_nil _).symm, ho⟩
  | cons c cs ih =>
    obtain ⟨hout, hc⟩ := control_send c s ho
    obtain ⟨hout', hc'⟩ := ih (c.send s) hc
    refine ⟨?_, hc'⟩
    rw [List.foldl_cons, hout', hout, List.flatMap_cons, List.append_assoc]

theorem fragment_send (f : Fragment) (client fin : Bool) (s : Stream) (ho : s.closed = false) :
    (f.send client fin s).outbox = s.outbox ++ f.bytes client fin ∧
      (f.send client fin s).closed = false := by
  have h0 := f.nonempty
  have h := f.short
  obtain ⟨hout, hc⟩ := controls_send f.before s ho
  constructor
  · rw [Fragment.send, send_outbox _ _ _ _ _ _ hc (by simp only; omega), hout, Fragment.bytes]
    simp only [Fragment.head, List.append_assoc]
  · apply send_open _ _ _ _ _ _ hc
    · exact List.length_pos_iff.mp h0
    · simp only
      omega

theorem sendAll_outbox (client : Bool) (fs : List Fragment) (s : Stream)
    (ho : s.closed = false) : (sendAll client fs s).outbox = s.outbox ++ wire client fs := by
  induction fs generalizing s with
  | nil => exact (List.append_nil _).symm
  | cons f fs ih =>
    obtain ⟨hout, hc⟩ := fragment_send f client fs.isEmpty s ho
    rw [sendAll, ih _ hc, hout, wire, List.append_assoc]

end Sending

section Receiving

variable (client : Bool) (maxSize : UInt32)

def Control.reply : Control → Bytes
  | .ping => (controlHead .PONG).toBytes
  | .pong => []

def replies (fs : List Fragment) : Bytes := (fs.flatMap Fragment.before).flatMap Control.reply

theorem reply_flatMap (cs : List Control) :
    cs.flatMap Control.reply =
      (List.replicate (cs.count .ping) (controlHead .PONG).toBytes).flatten := by
  induction cs with
  | nil => rfl
  | cons c cs ih =>
    cases c with
    | ping =>
      rw [List.flatMap_cons, List.count_cons_self, List.replicate_succ, List.flatten_cons, ih]
      rfl
    | pong =>
      rw [List.flatMap_cons, List.count_cons_of_ne (by decide), ih]
      rfl

theorem replies_cons (f : Fragment) (fs : List Fragment) :
    replies (f::fs) = f.before.flatMap Control.reply ++ replies fs := by
  rw [replies, List.flatMap_cons, List.flatMap_append]
  rfl

/-- A control frame costs one round of the loop and keeps the assembly. -/
theorem recvLoop_control (fuel : ℕ) (a : Assembly) (s : Stream) (c : Control) (tail : Bytes)
    (ho : s.closed = false) (hp : s.pending = c.bytes ++ tail) :
    ∃ s₁, recvLoop client maxSize (fuel+1) a s = recvLoop client maxSize fuel a s₁ ∧
      s₁.pending = tail ∧ s₁.closed = false ∧ s₁.outbox = s.outbox ++ c.reply := by
  obtain ⟨s₁, h₁, p₁, c₁, o₁⟩ := recvFix_head s (controlHead c.op) tail ho hp
  cases c with
  | ping =>
    obtain ⟨s₂, h₂, o₂, c₂, i₂⟩ := sendControl_ok .PONG s₁ c₁
    have p₂ : s₂.pending = tail := by rw [Stream.pending, i₂]; exact p₁
    refine ⟨s₂, ?_, p₂, c₂, o₂.trans (by rw [o₁]; rfl)⟩
    have hpong : wsPong s₁ = (2, s₂) := h₂
    simp only [recvLoop, h₁, head_ofBytes_toBytes, hpong]
    rfl
  | pong =>
    refine ⟨s₁, ?_, p₁, c₁, o₁.trans (List.append_nil _).symm⟩
    simp only [recvLoop, h₁, head_ofBytes_toBytes]
    rfl

theorem recvLoop_controls (cs : List Control) (fuel : ℕ) (a : Assembly) (s : Stream)
    (tail : Bytes) (ho : s.closed = false) (hp : s.pending = cs.flatMap Control.bytes ++ tail)
    (hf : s.pending.length < fuel) :
    ∃ fuel' s', recvLoop client maxSize fuel a s = recvLoop client maxSize fuel' a s' ∧
      s'.pending = tail ∧ s'.pending.length < fuel' ∧ s'.closed = false ∧
      s'.outbox = s.outbox ++ cs.flatMap Control.reply := by
  induction cs generalizing fuel s with
  | nil => exact ⟨fuel, s, rfl, hp, hf, ho, (List.append_nil _).symm⟩
  | cons c cs ih =>
    obtain ⟨n, rfl⟩ : ∃ n, fuel = n+1 := ⟨fuel-1, by omega⟩
    rw [List.flatMap_cons, List.append_assoc] at hp
    obtain ⟨s₁, h₁, p₁, c₁, o₁⟩ := recvLoop_control client maxSize n a s c _ ho hp
    have hl : s.pending.length = 2+s₁.pending.length := by
      rw [hp, p₁, List.length_append]
      rfl
    obtain ⟨fuel', s', h', p', f', c', o'⟩ := ih n s₁ c₁ p₁ (by omega)
    refine ⟨fuel', s', h₁.trans h', p', f', c', ?_⟩
    rw [o', o₁, List.flatMap_cons, List.append_assoc]

/-- The control frames in front of a fragment and its two head bytes. -/
theorem recvLoop_fragment (f : Fragment) (fin : Bool) (fuel : ℕ) (a : Assembly) (s : Stream)
    (tail : Bytes) (ho : s.closed = false) (hp : s.pending = f.bytes client fin ++ tail)
    (hf : s.pending.length < fuel) :
    ∃ fuel' s₁, s₁.pending = frameTail (f.head client fin) f.data f.rand f.uninit ++ tail ∧
      s₁.pending.length < fuel' ∧ s₁.closed = false ∧
      s₁.outbox = s.outbox ++ f.before.flatMap Control.reply ∧
      recvLoop (!client) maxSize fuel a s =
        match recvData (!client) maxSize (f.head client fin) a s₁ with
        | .error s' => (none, s'.close)
        | .ok (a', s') =>
          if fin then (some ⟨a'.opcode, a'.data⟩, s')
          else recvLoop (!client) maxSize fuel' a' s' := by
  rw [Fragment.bytes, List.append_assoc, List.append_assoc] at hp
  obtain ⟨fuel₁, s₁, h₁, p₁, f₁, c₁, o₁⟩ :=
    recvLoop_controls (!client) maxSize f.before fuel a s _ ho hp hf
  obtain ⟨n, rfl⟩ : ∃ n, fuel₁ = n+1 := ⟨fuel₁-1, by omega⟩
  have hcode : (f.head client fin).opcode = f.op.code := by simp [Fragment.head, sendHead]
  obtain ⟨s₂, p₂, c₂, o₂, h₂⟩ := recvLoop_data (!client) maxSize n a s₁ (f.head client fin) f.op
    _ c₁ f.data_op hcode p₁
  have hl : s₁.pending.length = 2+s₂.pending.length := by
    rw [p₁, p₂, List.length_append]
    rfl
  exact ⟨n, s₂, p₂, by omega, c₂, o₂.trans o₁, h₁.trans h₂⟩

/-- The assembly after a fragment; `cur_len` wraps as an `int`. -/
def appended (a : Assembly) (f : Fragment) : Assembly :=
  ⟨keptOpcode a.opcode f.op.code, a.data ++ f.data, toInt (a.data.length+f.data.length)⟩

theorem appended_curLen (a : Assembly) (f : Fragment) :
    (appended a f).curLen = toInt (a.data.length+f.data.length) := by
  rw [appended]

theorem appended_length (a : Assembly) (f : Fragment) :
    (appended a f).data.length = a.data.length+f.data.length := List.length_append

theorem appended_counts (a : Assembly) (f : Fragment) (h : a.data.length+f.data.length < 2^31) :
    (appended a f).curLen = (appended a f).data.length := by
  rw [appended_curLen, appended_length, toInt_small _ h]

/-- One fragment while `cur_len` counts the bytes received. -/
theorem recvLoop_appended (f : Fragment) (fin : Bool) (fuel : ℕ) (a : Assembly) (s : Stream)
    (tail : Bytes) (ho : s.closed = false) (hcur : a.curLen = a.data.length)
    (hmax : a.data.length+f.data.length < maxSize.toNat)
    (hp : s.pending = f.bytes client fin ++ tail) (hf : s.pending.length < fuel) :
    ∃ fuel' s', s'.pending = tail ∧ s'.pending.length < fuel' ∧ s'.closed = false ∧
      s'.outbox = s.outbox ++ f.before.flatMap Control.reply ∧
      recvLoop (!client) maxSize fuel a s =
        if client = true ∧ 2^31 < a.data.length+f.data.length then (none, s'.close)
        else if fin then (some ⟨(appended a f).opcode, (appended a f).data⟩, s')
        else recvLoop (!client) maxSize fuel' (appended a f) s' := by
  obtain ⟨fuel', s₁, p₁, f₁, c₁, o₁, h₁⟩ :=
    recvLoop_fragment client maxSize f fin fuel a s tail ho hp hf
  have h0 := f.nonempty
  have h := f.short
  obtain ⟨s', h₂, p₂, c₂, o₂⟩ := recvData_frame a f.op.code.toNat client fin maxSize f.data tail
    f.rand f.uninit s₁ c₁ hcur (by omega) (by omega) hmax p₁
  have hop : BitVec.ofInt 4 (f.op.code.toNat:ℤ) = f.op.code := by simp
  have hl : s'.pending.length ≤ s₁.pending.length := by
    rw [p₁, p₂, List.length_append]
    omega
  refine ⟨fuel', s', p₂, by omega, c₂, o₂.trans o₁, ?_⟩
  rw [h₁, Fragment.head, h₂, hop]
  split_ifs <;> rfl

/-- Once `cur_len` has wrapped, the size check refuses the next fragment. -/
theorem recvLoop_wrapped (f : Fragment) (fin : Bool) (fuel n : ℕ) (a : Assembly) (s : Stream)
    (tail : Bytes) (ho : s.closed = false) (hcur : a.curLen = toInt n) (hn : 2^31 ≤ n)
    (hmax : n+f.data.length < maxSize.toNat)
    (hp : s.pending = f.bytes client fin ++ tail) (hf : s.pending.length < fuel) :
    (recvLoop (!client) maxSize fuel a s).1 = none := by
  obtain ⟨fuel', s₁, p₁, f₁, c₁, o₁, h₁⟩ :=
    recvLoop_fragment client maxSize f fin fuel a s tail ho hp hf
  have h := f.short
  have hm32 := maxSize.toNat_lt
  rw [frameTail, List.append_assoc, List.append_assoc] at p₁
  obtain ⟨s₂, h₂, -, -, -⟩ := recvLength_ok f.data.length f.uninit f.op.code.toNat client fin _
    s₁ c₁ (by omega) p₁
  have hwrap : toInt n = (n:ℤ)-2^32 := by
    unfold toInt
    rw [Int.bmod_def]
    omega
  have htot : maxSize.toNat ≤ totalLength a f.data.length := by
    simp only [totalLength, hcur, hwrap]
    omega
  have hrole : (!(!client) && !client) = false := by cases client <;> rfl
  have hm : (sendHead f.op.code.toNat client fin f.data.length).mask = client := rfl
  have hdata : recvData (!client) maxSize (f.head client fin) a s₁ = .error s₂ := by
    simp only [recvData, Fragment.head, hm, hrole, Bool.false_eq_true, if_false, bind,
      Except.bind, h₂, htot, if_true]
  rw [h₁, hdata]

def keptOpcodes (kept : ℤ) (fs : List Fragment) : ℤ :=
  fs.foldl (fun kept f => keptOpcode kept f.op.code) kept

theorem keptOpcodes_nonzero (kept : ℤ) (fs : List Fragment) (h : kept ≠ 0) :
    keptOpcodes kept fs = kept := by
  induction fs with
  | nil => rfl
  | cons f fs ih =>
    have hf : keptOpcode kept f.op.code = kept := if_neg fun hc => h hc.1
    rw [keptOpcodes, List.foldl_cons, hf]
    exact ih

theorem message_opcode (m : Message) : keptOpcodes 0 m.fragments = m.first.op.code.toNat := by
  have hfirst : keptOpcode 0 m.first.op.code = m.first.op.code.toNat := by
    rcases m.first_op with h | h <;> rw [h] <;> rfl
  rw [Message.fragments, keptOpcodes, List.foldl_cons, hfirst]
  apply keptOpcodes_nonzero
  rcases m.first_op with h | h <;> rw [h] <;> decide

/-- The whole loop, from any assembly whose `cur_len` counts its bytes. -/
theorem recvLoop_message (fs : List Fragment) (hne : fs ≠ []) (fuel : ℕ) (a : Assembly)
    (s : Stream) (rest : Bytes) (ho : s.closed = false) (hcur : a.curLen = a.data.length)
    (hfit : Indexable client a.data.length fs)
    (hmax : a.data.length+(payloads fs).length < maxSize.toNat)
    (hp : s.pending = wire client fs ++ rest) (hf : s.pending.length < fuel) :
    ∃ s', recvLoop (!client) maxSize fuel a s =
        (some ⟨keptOpcodes a.opcode fs, a.data ++ payloads fs⟩, s') ∧
      s'.pending = rest ∧ s'.outbox = s.outbox ++ replies fs := by
  induction fs generalizing fuel a s with
  | nil => exact absurd rfl hne
  | cons f fs ih =>
    rw [wire, List.append_assoc] at hp
    have hlen : (payloads (f::fs)).length = f.data.length+(payloads fs).length := by
      rw [payloads_cons, List.length_append]
    obtain ⟨fuel', s₁, p₁, f₁, c₁, o₁, h₁⟩ := recvLoop_appended client maxSize f fs.isEmpty fuel a
      s _ ho hcur (by omega) hp hf
    have hidx : ¬ (client = true ∧ 2^31 < a.data.length+f.data.length) := by
      rintro ⟨hc, hlt⟩
      have hle := hfit.2 hc
      omega
    rw [if_neg hidx] at h₁
    by_cases hfs : fs = []
    · subst hfs
      refine ⟨s₁, ?_, p₁, ?_⟩
      · rw [h₁, payloads_cons]
        simp [payloads, appended, keptOpcodes]
      · rw [o₁, replies_cons]
        simp [replies]
    · rw [indexable_cons client _ f fs hfs] at hfit
      have hfin : fs.isEmpty = false := by simpa using hfs
      rw [hfin, if_neg (by decide)] at h₁
      have hlt : a.data.length+f.data.length < 2^31 := by
        have := hfit.1
        omega
      have hdata := appended_length a f
      obtain ⟨s', h', p', o'⟩ := ih hfs fuel' (appended a f) s₁ c₁
        (appended_counts a f hlt) (by rw [hdata]; exact hfit)
        (by rw [hdata]; omega) p₁ f₁
      refine ⟨s', ?_, p', ?_⟩
      · rw [h₁, h', payloads_cons]
        simp [appended, keptOpcodes]
      · rw [o', o₁, replies_cons, List.append_assoc]

/-- Past the last `int` position no message comes back. -/
theorem recvLoop_overflow (fs : List Fragment) (hne : fs ≠ []) (fuel : ℕ) (a : Assembly)
    (s : Stream) (rest : Bytes) (ho : s.closed = false) (hcur : a.curLen = a.data.length)
    (ha : a.data.length < 2^31) (hfit : ¬ Indexable client a.data.length fs)
    (hmax : a.data.length+(payloads fs).length < maxSize.toNat)
    (hp : s.pending = wire client fs ++ rest) (hf : s.pending.length < fuel) :
    (recvLoop (!client) maxSize fuel a s).1 = none := by
  induction fs generalizing fuel a s with
  | nil => exact absurd rfl hne
  | cons f fs ih =>
    rw [wire, List.append_assoc] at hp
    have hlen : (payloads (f::fs)).length = f.data.length+(payloads fs).length := by
      rw [payloads_cons, List.length_append]
    obtain ⟨fuel', s₁, p₁, f₁, c₁, -, h₁⟩ := recvLoop_appended client maxSize f fs.isEmpty fuel a
      s _ ho hcur (by omega) hp hf
    by_cases hidx : client = true ∧ 2^31 < a.data.length+f.data.length
    · rw [h₁, if_pos hidx]
    rw [if_neg hidx] at h₁
    by_cases hfs : fs = []
    · -- The last fragment starts below the limit, so only its index could fail.
      subst hfs
      refine absurd ⟨?_, fun hc => ?_⟩ hfit
      · simpa [payloads] using ha
      · have hle := not_lt.mp fun hlt => hidx ⟨hc, hlt⟩
        rw [hlen]
        exact hle
    · have hfin : fs.isEmpty = false := by simpa using hfs
      rw [hfin, if_neg (by decide)] at h₁
      rw [indexable_cons client _ f fs hfs] at hfit
      have hdata := appended_length a f
      rw [h₁]
      by_cases hlt : a.data.length+f.data.length < 2^31
      · exact ih hfs fuel' (appended a f) s₁ c₁ (appended_counts a f hlt)
          (by omega) (by rw [hdata]; exact hfit) (by rw [hdata]; omega) p₁ f₁
      · obtain ⟨g, gs, rfl⟩ := List.exists_cons_of_ne_nil hfs
        rw [payloads_cons g gs, List.length_append] at hlen
        rw [wire, List.append_assoc] at p₁
        exact recvLoop_wrapped client maxSize g gs.isEmpty fuel' _ (appended a f) s₁ _ c₁
          (appended_curLen a f) (by omega) (by omega) p₁ f₁

end Receiving

theorem send_wire (m : Message) (client : Bool) (grants : List ℕ) :
    (m.send client (sender grants)).outbox = wire client m.fragments := by
  rw [Message.send, sendAll_outbox client _ _ rfl]
  exact List.nil_append _

section Whole

variable (m : Message) (client : Bool) (maxSize : UInt32) (s : Stream) (rest : Bytes)
  (ho : s.closed = false) (hmax : (payloads m.fragments).length < maxSize.toNat)
  (hp : s.pending = wire client m.fragments ++ rest)

include ho hmax hp

theorem reassembled_of_indexable (hfit : Indexable client 0 m.fragments) :
    Reassembled m client maxSize s rest := by
  obtain ⟨s', hrun, hrest, hout⟩ := recvLoop_message client maxSize m.fragments
    (List.cons_ne_nil _ _) (s.pending.length+1) ⟨0, [], 0⟩ s rest ho rfl hfit
    (by simpa using hmax) hp (by omega)
  rw [message_opcode, List.nil_append] at hrun
  have hrecv : wsRecvMessage s (!client) maxSize =
      (some ⟨m.first.op.code.toNat, payloads m.fragments⟩, s') := hrun
  rw [replies, reply_flatMap] at hout
  exact ⟨by rw [hrecv], by rw [hrecv]; exact hrest, by rw [hrecv]; exact hout⟩

theorem lost_of_overflow (hfit : ¬ Indexable client 0 m.fragments) :
    ¬ Reassembled m client maxSize s rest := by
  intro hr
  have hnone := recvLoop_overflow client maxSize m.fragments (List.cons_ne_nil _ _)
    (s.pending.length+1) ⟨0, [], 0⟩ s rest ho rfl (by decide) hfit (by simpa using hmax) hp
    (by omega)
  have hmsg := hr.message
  rw [wsRecvMessage, hnone] at hmsg
  cases hmsg

end Whole

/-- A message of fragments comes back whole exactly when its positions are `int`
values, whatever the masks, the control frames and the cuts of the reads. -/
theorem reassembly_iff (m : Message) (client : Bool) (maxSize : UInt32)
    (hmax : (payloads m.fragments).length < maxSize.toNat) (grants : List ℕ) (s : Stream)
    (ho : s.closed = false) (rest : Bytes)
    (hp : s.pending = (m.send client (sender grants)).outbox ++ rest) :
    Reassembled m client maxSize s rest ↔ Indexable client 0 m.fragments := by
  rw [send_wire] at hp
  constructor
  · intro hr
    by_contra hfit
    exact lost_of_overflow m client maxSize s rest ho hmax hp hfit hr
  · exact reassembled_of_indexable m client maxSize s rest ho hmax hp

def greeting : Message where
  first := ⟨[], .TEXT_FRAME, [104, 105], 0x04030201, 0, by decide, by decide, by decide⟩
  others := [⟨[.ping, .pong], .CONTINUE, [33], 0x08070605, 0, by decide, by decide, by decide⟩]
  first_op := Or.inl rfl

theorem reassembly_greeting :
    Reassembled greeting true 100
      ⟨[⟨[1], by decide⟩, ⟨[130, 1, 2, 3, 4, 105], by decide⟩, ⟨[107, 137, 0, 138], by decide⟩,
        ⟨[0, 128, 129, 5, 6, 7, 8, 36, 9], by decide⟩], [0], [], false⟩ [9] :=
  (reassembly_iff greeting true 100 (by decide) [0, 5] _ rfl [9] (by decide)).mpr
    ⟨by decide, fun _ => by decide⟩

def longFragment (op : OPCODE) (h : op = .CONTINUE ∨ op = .TEXT_FRAME ∨ op = .BIN_FRAME) :
    Fragment where
  before := []
  op := op
  data := List.replicate 65535 0
  rand := 0
  uninit := 0
  data_op := h
  nonempty := by rw [List.length_replicate]; omega
  short := by rw [List.length_replicate]

def lastFragment : Fragment :=
  ⟨[], .CONTINUE, [0], 0, 0, by decide, by decide, by decide⟩

def longMessage (n : ℕ) : Message where
  first := longFragment .TEXT_FRAME (by decide)
  others := List.replicate n (longFragment .CONTINUE (by decide)) ++ [lastFragment]
  first_op := Or.inl rfl

theorem payloads_replicate (n : ℕ) (f : Fragment) :
    (payloads (List.replicate n f)).length = n*f.data.length := by
  rw [payloads, List.length_flatMap, List.map_replicate, List.sum_replicate_nat]

theorem longMessage_front (n : ℕ) :
    (payloads (longMessage n).fragments.dropLast).length = (n+1)*65535 := by
  have hlong : (longFragment .CONTINUE (by decide)).data.length = 65535 := List.length_replicate
  have hfirst : (longFragment .TEXT_FRAME (by decide)).data.length = 65535 :=
    List.length_replicate
  rw [Message.fragments, longMessage, ← List.cons_append, List.dropLast_concat, payloads_cons,
    List.length_append, payloads_replicate, hlong, hfirst]
  omega

theorem longMessage_length (n : ℕ) :
    (payloads (longMessage n).fragments).length = (n+1)*65535+1 := by
  have hfront := longMessage_front n
  rw [Message.fragments, longMessage, ← List.cons_append, List.dropLast_concat] at hfront
  rw [Message.fragments, longMessage, ← List.cons_append, payloads, List.flatMap_append,
    List.length_append]
  exact congrArg (·+1) hfront

theorem wire_ne_nil (client : Bool) (m : Message) : wire client m.fragments ≠ [] := by
  simp [Message.fragments, wire, Fragment.bytes, WSFrameHead.toBytes]

def delivered (m : Message) : Stream := receiver [⟨wire false m.fragments, wire_ne_nil false m⟩]

/-- Under a limit of 4294967295 bytes, the first 2147516415 of them make `cur_len`
negative and the client closes the connection at the next fragment. -/
theorem two_gib_message_lost :
    (payloads (longMessage 32768).fragments).length < (4294967295:UInt32).toNat ∧
      (delivered (longMessage 32768)).pending =
        ((longMessage 32768).send false (sender [])).outbox ++ [] ∧
      ¬ Reassembled (longMessage 32768) false 4294967295 (delivered (longMessage 32768)) [] := by
  have hmax : (payloads (longMessage 32768).fragments).length < (4294967295:UInt32).toNat := by
    rw [longMessage_length]
    decide
  have hp : (delivered (longMessage 32768)).pending =
      wire false (longMessage 32768).fragments ++ [] := by
    rw [delivered, receiver, Stream.pending, List.flatMap_singleton, List.append_nil]
  refine ⟨hmax, ?_, ?_⟩
  · rw [send_wire]
    exact hp
  · apply lost_of_overflow _ _ _ _ _ rfl hmax hp
    intro hfit
    have hlt := hfit.1
    rw [longMessage_front] at hlt
    omega

end Lamb.WsFragments
