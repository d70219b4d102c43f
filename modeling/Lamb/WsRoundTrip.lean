import Lamb.WsSession

/-!
# Round trips of single-frame WebSocket messages

The bytes of a frame are computed once from the sender, for every payload size
and every pattern of partial writes. Receiving them is a fact about pending
bytes only, so the cuts chosen by the transport never matter. The exact payload
sizes that survive are those written in the 7-bit and 16-bit length formats,
without the empty payload.
-/

set_option autoImplicit false

namespace Lamb.WsRoundTrip
open Lamb.ByteString Lamb.Blocks Lamb.ByteStream Lamb.WsSession

theorem head_ofBytes_toBytes (h : WSFrameHead) : WSFrameHead.ofBytes h.toBytes = h := by
  obtain ⟨opcode, rsv3, rsv2, rsv1, fin, payload, mask⟩ := h
  simp only [WSFrameHead.ofBytes, WSFrameHead.toBytes, List.getD_cons_zero, List.getD_cons_succ,
    UInt8.toBitVec_ofBitVec, BitVec.getLsbD_cons, WSFrameHead.mk.injEq]
  refine ⟨?_, by simp, by simp, by simp, by simp, ?_, by simp⟩
  · ext i hi
    simp only [BitVec.getElem_extractLsb', BitVec.getLsbD_cons, Nat.zero_add,
      show i ≠ 7 by omega, show i ≠ 6 by omega, show i ≠ 5 by omega, show i ≠ 4 by omega,
      if_false, BitVec.getLsbD_eq_getElem hi]
  · ext i hi
    simp only [BitVec.getElem_extractLsb', BitVec.getLsbD_cons, Nat.zero_add,
      show i ≠ 7 by omega, if_false, BitVec.getLsbD_eq_getElem hi]

theorem applyMask_length (mask data : Bytes) : (applyMask mask data).length = data.length := by
  simp [applyMask]

theorem applyMask_applyMask (mask data : Bytes) :
    applyMask mask (applyMask mask data) = data := by
  apply List.ext_getElem
  · simp [applyMask]
  · intro i h₁ h₂
    simp only [applyMask, List.getElem_mapIdx, UInt8.xor_assoc, UInt8.xor_self, UInt8.xor_zero]

theorem sendFix_outbox (s : Stream) (buf : Bytes) (ho : s.closed = false) (h : buf.length < 2^63) :
    ∃ s', (sendFix s buf = .ok s' ∨ sendFix s buf = .error s') ∧
      s'.outbox = s.outbox ++ buf ∧ s'.closed = false := by
  obtain ⟨s', hw, hout, hc, _⟩ := writeFixSize_ok s buf ho h
  refine ⟨s', ?_, hout, hc⟩
  by_cases hrt : toInt buf.length ≤ 0
  · exact Or.inr (by simp [sendFix, hw, hrt])
  · exact Or.inl (by simp [sendFix, hw, hrt])

theorem sendFix_ok (s : Stream) (buf : Bytes) (ho : s.closed = false) (hb : buf ≠ [])
    (h : buf.length < 2^31) :
    ∃ s', sendFix s buf = .ok s' ∧ s'.outbox = s.outbox ++ buf ∧ s'.closed = false := by
  obtain ⟨s', hw, hout, hc, _⟩ := writeFixSize_ok s buf ho (by omega)
  have hpos : 0 < buf.length := List.length_pos_iff.mpr hb
  have hrt : ¬ toInt buf.length ≤ 0 := by rw [toInt_small _ h]; omega
  exact ⟨s', by simp [sendFix, hw, hrt], hout, hc⟩

theorem recvFix_ok (s : Stream) (n : ℕ) (ho : s.closed = false) (hn : 0 < n) (h : n < 2^31)
    (hl : n ≤ s.pending.length) :
    ∃ s', recvFix s n = .ok (s.pending.take n, s') ∧ s'.pending = s.pending.drop n ∧
      s'.closed = false ∧ s'.outbox = s.outbox := by
  obtain ⟨s', hr, hp, hc, hout, _⟩ := readFixSize_ok s n ho (by omega) hl
  have hrt : ¬ toInt n ≤ 0 := by rw [toInt_small _ h]; omega
  exact ⟨s', by simp [recvFix, hr, hrt], hp, hc, hout⟩

theorem recvFix_zero (s : Stream) : recvFix s 0 = .error s := by
  have hr : s.readFixSize 0 = (0, [], s) := rfl
  simp [recvFix, hr]

theorem recvFix_inv (s s' : Stream) (n : ℕ) (bs : Bytes) (ho : s.closed = false) (h : n < 2^63)
    (hg : recvFix s n = .ok (bs, s')) :
    n ≤ s.pending.length ∧ bs = s.pending.take n ∧ s'.pending = s.pending.drop n ∧
      s'.closed = false := by
  by_cases hl : n ≤ s.pending.length
  · obtain ⟨s₁, hr, hp, hc, _⟩ := readFixSize_ok s n ho h hl
    simp only [recvFix, hr] at hg
    split at hg
    · cases hg
    · simp only [Except.ok.injEq, Prod.mk.injEq] at hg
      obtain ⟨rfl, rfl⟩ := hg
      exact ⟨hl, rfl, hp, hc⟩
  · have hr := readFixSize_short s n ho h (by omega)
    simp [recvFix, hr] at hg

def lengthBytes (payload : BitVec 7) (size : ℕ) (uninit : UInt16) : Bytes :=
  if payload = 126 then leBytes 2 (byteswap 2 (size % 2^16))
  else if payload = 127 then leBytes 2 (byteswap 2 uninit.toNat)
  else []

def maskBytes (client : Bool) (rand : UInt32) : Bytes :=
  if client then leBytes 4 rand.toNat else []

def payloadBytes (client : Bool) (rand : UInt32) (data : Bytes) : Bytes :=
  if client then applyMask (leBytes 4 rand.toNat) data else data

def frameTail (head : WSFrameHead) (data : Bytes) (rand : UInt32) (uninit : UInt16) : Bytes :=
  lengthBytes head.payload data.length uninit ++ maskBytes head.mask rand ++
    payloadBytes head.mask rand data

theorem payloadBytes_length (client : Bool) (rand : UInt32) (data : Bytes) :
    (payloadBytes client rand data).length = data.length := by
  cases client <;> simp [payloadBytes, applyMask_length]

theorem sendLength_ok (payload : BitVec 7) (size : ℕ) (uninit : UInt16) (s : Stream)
    (ho : s.closed = false) :
    ∃ s', sendLength payload size uninit s = .ok s' ∧
      s'.outbox = s.outbox ++ lengthBytes payload size uninit ∧ s'.closed = false := by
  unfold sendLength lengthBytes
  split_ifs
  · exact sendFix_ok s _ ho (by simp [leBytes]) (by simp)
  · exact sendFix_ok s _ ho (by simp [leBytes]) (by simp)
  · exact ⟨s, rfl, by simp, ho⟩

theorem sendMask_ok (client : Bool) (rand : UInt32) (s : Stream) (ho : s.closed = false) :
    ∃ s', sendMask client (leBytes 4 rand.toNat) s = .ok s' ∧
      s'.outbox = s.outbox ++ maskBytes client rand ∧ s'.closed = false := by
  unfold sendMask maskBytes
  split_ifs
  · exact sendFix_ok s _ ho (by simp [leBytes]) (by simp)
  · exact ⟨s, rfl, by simp, ho⟩

/-- The head, the length and the mask always pass; the payload decides. -/
theorem sendMessage_payload (head : WSFrameHead) (data : Bytes) (uninit : UInt16) (rand : UInt32)
    (s : Stream) (ho : s.closed = false) :
    ∃ s₂ s₃, sendPrefix head data.length uninit s = .ok s₂ ∧
      sendPayload head.mask (leBytes 4 rand.toNat) (payloadBytes head.mask rand data) s₂ =
        sendFix s₃ (payloadBytes head.mask rand data) ∧
      s₃.outbox ++ payloadBytes head.mask rand data =
        s.outbox ++ head.toBytes ++ frameTail head data rand uninit ∧ s₃.closed = false := by
  obtain ⟨s₁, h₁, o₁, c₁⟩ := sendFix_ok s head.toBytes ho
    (by simp [WSFrameHead.toBytes]) (by simp [WSFrameHead.toBytes])
  obtain ⟨s₂, h₂, o₂, c₂⟩ := sendLength_ok head.payload data.length uninit s₁ c₁
  obtain ⟨s₃, h₃, o₃, c₃⟩ := sendMask_ok head.mask rand s₂ c₂
  refine ⟨s₂, s₃, ?_, ?_, ?_, c₃⟩
  · simp only [sendPrefix, bind, Except.bind, h₁, h₂]
  · simp only [sendPayload, bind, Except.bind, h₃]
  · rw [o₃, o₂, o₁, frameTail]
    simp only [List.append_assoc]

/-- Everything the sender writes, also when it reports a failure afterwards. -/
theorem send_outbox (s : Stream) (msg : WSFrameMessage) (client fin : Bool) (rand : UInt32)
    (uninit : UInt16) (ho : s.closed = false) (h : msg.data.length < 2^63) :
    (wsSendMessage s msg client fin rand uninit).2.2.outbox = s.outbox ++
      (sendHead msg.opcode client fin msg.data.length).toBytes ++
      frameTail (sendHead msg.opcode client fin msg.data.length) msg.data rand uninit := by
  obtain ⟨s₂, s₃, hp, hs, hout, hc⟩ := sendMessage_payload
    (sendHead msg.opcode client fin msg.data.length) msg.data uninit rand s ho
  obtain ⟨s', hw, hout', -⟩ := sendFix_outbox s₃ (payloadBytes client rand msg.data) hc
    (by rw [payloadBytes_length]; exact h)
  change sendPayload client _ (if client then _ else _) s₂ =
    sendFix s₃ (payloadBytes client rand msg.data) at hs
  change _ ++ payloadBytes client rand msg.data = _ at hout
  rw [← hout, ← hout']
  unfold wsSendMessage
  rcases hw with hw | hw
  · simp only [hp, hs, hw]
  · simp only [hp, hs, hw, Stream.close]

theorem send_open (s : Stream) (msg : WSFrameMessage) (client fin : Bool) (rand : UInt32)
    (uninit : UInt16) (ho : s.closed = false) (h0 : msg.data ≠ []) (h : msg.data.length < 2^31) :
    (wsSendMessage s msg client fin rand uninit).2.2.closed = false := by
  obtain ⟨s₂, s₃, hp, hs, -, hc⟩ := sendMessage_payload
    (sendHead msg.opcode client fin msg.data.length) msg.data uninit rand s ho
  have hlen := payloadBytes_length client rand msg.data
  obtain ⟨s', hw, -, hc'⟩ := sendFix_ok s₃ (payloadBytes client rand msg.data) hc
    (by rw [← List.length_pos_iff, hlen]; exact List.length_pos_iff.mpr h0)
    (by rw [hlen]; exact h)
  change sendPayload client _ (if client then _ else _) s₂ =
    sendFix s₃ (payloadBytes client rand msg.data) at hs
  unfold wsSendMessage
  simp only [hp, hs, hw, hc']

theorem recvLength_ok (size : ℕ) (uninit : UInt16) (opcode : ℤ) (client fin : Bool)
    (rest : Bytes) (s : Stream) (ho : s.closed = false) (h : size < 65536)
    (hp : s.pending = lengthBytes (sendHead opcode client fin size).payload size uninit ++ rest) :
    ∃ s', recvLength (sendHead opcode client fin size).payload s = .ok (size, s') ∧
      s'.pending = rest ∧ s'.closed = false ∧ s'.outbox = s.outbox := by
  by_cases h₁ : size < 126
  · have hpay : (sendHead opcode client fin size).payload = BitVec.ofNat 7 size := by
      simp [sendHead, h₁]
    have hne : ∀ k : ℕ, 126 ≤ k → k < 128 → BitVec.ofNat 7 size ≠ BitVec.ofNat 7 k := by
      intro k hk hk' he
      have := congrArg BitVec.toNat he
      simp only [BitVec.toNat_ofNat] at this
      omega
    have h126 := hne 126 (by decide) (by decide)
    have h127 := hne 127 (by decide) (by decide)
    rw [hpay] at hp ⊢
    refine ⟨s, ?_, ?_, ho, rfl⟩
    · have hm : size < 128 := by omega
      simp [recvLength, h126, h127, hm]
    · simpa [lengthBytes, h126, h127] using hp
  · have hpay : (sendHead opcode client fin size).payload = 126 := by
      simp [sendHead, h₁, h]
    rw [hpay] at hp ⊢
    simp only [lengthBytes, if_true] at hp
    obtain ⟨s', hr, hp', hc, hout⟩ := recvFix_ok s 2 ho (by decide) (by decide) (by simp [hp])
    refine ⟨s', ?_, by simp [hp', hp], hc, hout⟩
    have hm : size % 2^16 = size := Nat.mod_eq_of_lt (by omega)
    have ht : s.pending.take 2 = leBytes 2 (byteswap 2 size) := by
      rw [hp, hm, List.take_append_of_le_length (by simp), List.take_of_length_le (by simp)]
    have hv : leValue (leBytes 2 (byteswap 2 size)) = byteswap 2 size := by
      rw [leValue_leBytes, Nat.mod_eq_of_lt (byteswap_lt 2 size)]
    simp only [recvLength, if_true, bind, Except.bind, hr, pure, Except.pure, ht, hv,
      byteswap_byteswap 2 size (by omega)]

theorem recvMask_ok (client : Bool) (rand : UInt32) (rest : Bytes) (s : Stream)
    (ho : s.closed = false) (hp : s.pending = maskBytes client rand ++ rest) :
    ∃ mask s', recvMask client s = .ok (mask, s') ∧ s'.pending = rest ∧ s'.closed = false ∧
      s'.outbox = s.outbox ∧ (client = true → mask = leBytes 4 rand.toNat) := by
  cases client with
  | false => exact ⟨_, s, rfl, by simpa [maskBytes] using hp, ho, rfl, by simp⟩
  | true =>
    simp only [maskBytes, if_true] at hp
    obtain ⟨s', hr, hp', hc, hout⟩ := recvFix_ok s 4 ho (by decide) (by decide) (by simp [hp])
    refine ⟨_, s', hr, by simp [hp', hp], hc, hout, fun _ => ?_⟩
    rw [hp, List.take_append_of_le_length (by simp), List.take_of_length_le (by simp)]

def keptOpcode (kept : ℤ) (opcode : BitVec 4) : ℤ :=
  if kept = 0 ∧ opcode ≠ OPCODE.CONTINUE.code then opcode.toNat else kept

theorem overwrite_resize (data got : Bytes) :
    overwrite (resize data (data.length+got.length)) data.length got = data ++ got := by
  have hr : resize data (data.length+got.length) = data ++ List.replicate got.length 0 := by
    simp [resize, List.take_of_length_le]
  rw [hr, overwrite, List.take_left, List.drop_append, List.drop_eq_nil_of_le (by omega)]
  simp

theorem assemble_payload (head : WSFrameHead) (a : Assembly) (data mask : Bytes) (rand : UInt32)
    (hcur : a.curLen = a.data.length) (hint : a.data.length+data.length < 2^64)
    (hlen : (toInt data.length).toNat = data.length)
    (hmask : head.mask = true → mask = leBytes 4 rand.toNat) :
    assemble head a data.length mask (payloadBytes head.mask rand data) =
      ⟨keptOpcode a.opcode head.opcode, a.data ++ data, toInt (a.data.length+data.length)⟩ := by
  have htot : totalLength a data.length = a.data.length+data.length := by
    simp only [totalLength, hcur]
    omega
  have hbmod : (a.curLen+(data.length:ℤ)).bmod (2^32) = toInt (a.data.length+data.length) := by
    unfold toInt
    rw [hcur, Nat.cast_add]
  have hov := overwrite_resize a.data (payloadBytes head.mask rand data)
  rw [payloadBytes_length] at hov
  simp only [assemble, htot, hbmod, hlen]
  simp only [hcur, Int.toNat_natCast, hov, Assembly.mk.injEq]
  refine ⟨rfl, ?_, trivial⟩
  cases hm : head.mask with
  | false => simp [payloadBytes]
  | true =>
    simp only [if_true, hmask hm, payloadBytes, List.drop_left]
    rw [List.take_of_length_le (by rw [applyMask_length]), applyMask_applyMask]
    simp [overwrite, applyMask_length]

/-- Receiving one data frame of the 7-bit or 16-bit format appends its payload,
unless the frame is masked and the message grows past the last `int` index. -/
theorem recvData_frame (a : Assembly) (opcode : ℤ) (client fin : Bool) (maxSize : UInt32)
    (data rest : Bytes) (rand : UInt32) (uninit : UInt16) (s : Stream)
    (ho : s.closed = false) (hcur : a.curLen = a.data.length)
    (h0 : 0 < data.length) (h : data.length < 65536)
    (hmax : a.data.length+data.length < maxSize.toNat)
    (hp : s.pending = frameTail (sendHead opcode client fin data.length) data rand uninit ++ rest) :
    ∃ s', recvData (!client) maxSize (sendHead opcode client fin data.length) a s =
        (if client = true ∧ 2^31 < a.data.length+data.length then .error s'
        else .ok (⟨keptOpcode a.opcode (BitVec.ofInt 4 opcode), a.data ++ data,
          toInt (a.data.length+data.length)⟩, s')) ∧
      s'.pending = rest ∧ s'.closed = false ∧ s'.outbox = s.outbox := by
  have hm32 := maxSize.toNat_lt
  simp only [frameTail, List.append_assoc] at hp
  obtain ⟨s₁, h₁, p₁, c₁, o₁⟩ := recvLength_ok data.length uninit opcode client fin _ s ho h hp
  obtain ⟨mask, s₂, h₂, p₂, c₂, o₂, hmask⟩ := recvMask_ok client rand _ s₁ c₁ p₁
  have hlen : data.length = (payloadBytes client rand data).length :=
    (payloadBytes_length client rand data).symm
  obtain ⟨s₃, h₃, p₃, c₃, o₃⟩ := recvFix_ok s₂ data.length c₂ h0 (by omega)
    (by rw [p₂, List.length_append]; exact le_trans (le_of_eq hlen) (Nat.le_add_right _ _))
  have ht : s₂.pending.take data.length = payloadBytes client rand data := by
    rw [p₂, hlen]
    exact List.take_left
  have hd : s₂.pending.drop data.length = rest := by
    rw [p₂, hlen]
    exact List.drop_left
  have htot : totalLength a data.length = a.data.length+data.length := by
    simp only [totalLength, hcur]
    omega
  have hrole : (!(!client) && !client) = false := by cases client <;> rfl
  have hint : (toInt data.length).toNat = data.length := by
    rw [toInt_small _ (by omega), Int.toNat_natCast]
  have hasm := assemble_payload (sendHead opcode client fin data.length) a data mask rand
    hcur (by omega) hint hmask
  refine ⟨s₃, ?_, p₃.trans hd, c₃, o₃.trans (o₂.trans o₁)⟩
  have hm : (sendHead opcode client fin data.length).mask = client := rfl
  have hinside : ¬ (a.data.length : ℤ) < 0 := by omega
  rw [hm] at hasm
  simp only [recvData, IndexOverflow, hinside, false_or, hm, hrole, Bool.false_eq_true, if_false, bind, Except.bind,
    h₁, htot, not_le.mpr hmax, h₂, h₃, ht, pure, Except.pure, hasm, hint, hcur,
    Int.toNat_natCast]
  rfl

theorem recvFix_head (s : Stream) (head : WSFrameHead) (tail : Bytes) (ho : s.closed = false)
    (hp : s.pending = head.toBytes ++ tail) :
    ∃ s₁, recvFix s 2 = .ok (head.toBytes, s₁) ∧ s₁.pending = tail ∧ s₁.closed = false ∧
      s₁.outbox = s.outbox := by
  have hl : head.toBytes.length = 2 := rfl
  obtain ⟨s₁, h₁, p₁, c₁, o₁⟩ := recvFix_ok s 2 ho (by decide) (by decide)
    (by rw [hp, List.length_append]; omega)
  have ht : s.pending.take 2 = head.toBytes := by rw [hp, ← hl]; exact List.take_left
  have hd : s.pending.drop 2 = tail := by rw [hp, ← hl]; exact List.drop_left
  rw [ht] at h₁
  exact ⟨s₁, h₁, p₁.trans hd, c₁, o₁⟩

theorem recvLoop_data (client : Bool) (maxSize : UInt32) (fuel : ℕ) (a : Assembly) (s : Stream)
    (head : WSFrameHead) (op : OPCODE) (tail : Bytes) (ho : s.closed = false)
    (hop : op = .CONTINUE ∨ op = .TEXT_FRAME ∨ op = .BIN_FRAME) (hcode : head.opcode = op.code)
    (hp : s.pending = head.toBytes ++ tail) :
    ∃ s₁, s₁.pending = tail ∧ s₁.closed = false ∧ s₁.outbox = s.outbox ∧
      recvLoop client maxSize (fuel+1) a s =
        match recvData client maxSize head a s₁ with
        | .error s' => (none, s'.close)
        | .ok (a', s') =>
          if head.fin then (some ⟨a'.opcode, a'.data⟩, s')
          else recvLoop client maxSize fuel a' s' := by
  obtain ⟨s₁, h₁, p₁, c₁, o₁⟩ := recvFix_head s head tail ho hp
  refine ⟨s₁, p₁, c₁, o₁, ?_⟩
  simp only [recvLoop, h₁, head_ofBytes_toBytes, hcode]
  rcases hop with rfl | rfl | rfl <;> rfl

theorem overwrite_masked_length (mask data : Bytes) (n : ℕ) :
    (overwrite data 0 (applyMask mask (data.take n))).length = data.length := by
  apply overwrite_length
  rw [applyMask_length, List.length_take]
  omega

theorem assemble_fresh_length (head : WSFrameHead) (opcode : ℤ) (length : ℕ) (mask got : Bytes)
    (h : length < 2^64) (hg : got.length = length) :
    (assemble head ⟨opcode, [], 0⟩ length mask got).data.length = length := by
  have htot : totalLength ⟨opcode, [], 0⟩ length = length := by
    simp only [totalLength]
    omega
  have hdata : overwrite (resize [] length) 0 got = got :=
    overwrite_zero _ _ (by simp [resize, hg])
  simp only [assemble, htot, Int.toNat_zero, hdata, List.drop_zero]
  split_ifs
  · rw [overwrite_masked_length, hg]
  · exact hg

theorem recvLength_long (s s' : Stream) (length : ℕ) (ho : s.closed = false)
    (h : recvLength 127 s = .ok (length, s')) :
    length < 2^64 ∧ 8 ≤ s.pending.length ∧ s'.pending = s.pending.drop 8 ∧
      s'.closed = false := by
  have h126 : ¬ (127:BitVec 7) = 126 := by decide
  rw [recvLength, if_neg h126, if_pos rfl] at h
  cases h₁ : recvFix s 8 with
  | error e => simp [h₁, bind, Except.bind] at h
  | ok r =>
    obtain ⟨len, s₁⟩ := r
    obtain ⟨l₁, -, p₁, c₁⟩ := recvFix_inv s s₁ 8 len ho (by decide) h₁
    simp only [h₁, bind, Except.bind, pure, Except.pure, Except.ok.injEq, Prod.mk.injEq] at h
    obtain ⟨rfl, rfl⟩ := h
    exact ⟨byteswap_lt 8 _, l₁, p₁, c₁⟩

theorem recvMask_pending (masked : Bool) (s s' : Stream) (mask : Bytes) (ho : s.closed = false)
    (h : recvMask masked s = .ok (mask, s')) :
    s.pending.length = s'.pending.length+(if masked then 4 else 0) ∧ s'.closed = false := by
  cases masked with
  | false =>
    simp only [recvMask, Bool.false_eq_true, if_false, Except.ok.injEq, Prod.mk.injEq] at h
    obtain ⟨-, rfl⟩ := h
    exact ⟨rfl, ho⟩
  | true =>
    simp only [recvMask, if_true] at h
    obtain ⟨l, -, p, c⟩ := recvFix_inv s s' 4 mask ho (by decide) h
    refine ⟨?_, c⟩
    simp only [p, List.length_drop, if_true]
    omega

/-- In the 64-bit format the receiver takes eight length bytes before the
payload, so the payload it returns leaves room for them. -/
theorem recvData_long (client : Bool) (maxSize : UInt32) (head : WSFrameHead) (opcode : ℤ)
    (s s' : Stream) (a' : Assembly) (ho : s.closed = false) (hpay : head.payload = 127)
    (h : recvData client maxSize head ⟨opcode, [], 0⟩ s = .ok (a', s')) :
    a'.data.length+8+(if head.mask then 4 else 0) ≤ s.pending.length := by
  simp only [recvData, hpay] at h
  split at h
  · cases h
  cases h₁ : recvLength 127 s with
  | error e =>
    rw [h₁] at h
    cases h
  | ok r₁ =>
    obtain ⟨length, s₁⟩ := r₁
    obtain ⟨hlt, l₁, p₁, c₁⟩ := recvLength_long s s₁ length ho h₁
    simp only [h₁, bind, Except.bind] at h
    split at h
    · cases h
    · next hmax =>
      have htot : totalLength ⟨opcode, [], 0⟩ length = length := by
        simp only [totalLength]
        omega
      have hm32 := maxSize.toNat_lt
      rw [htot] at hmax
      cases h₂ : recvMask head.mask s₁ with
      | error e => simp [h₂] at h
      | ok r₂ =>
        obtain ⟨mask, s₂⟩ := r₂
        obtain ⟨l₂, c₂⟩ := recvMask_pending head.mask s₁ s₂ mask c₁ h₂
        simp only [h₂] at h
        cases h₃ : recvFix s₂ length with
        | error e => simp [h₃] at h
        | ok r₃ =>
          obtain ⟨got, s₃⟩ := r₃
          obtain ⟨l₃, rfl, -, -⟩ := recvFix_inv s₂ s₃ length got c₂ (by omega) h₃
          simp only [h₃] at h
          split at h
          · cases h
          simp only [pure, Except.pure, Except.ok.injEq, Prod.mk.injEq] at h
          obtain ⟨rfl, -⟩ := h
          have hgot : (s₂.pending.take length).length = length := by
            rw [List.length_take]
            omega
          rw [assemble_fresh_length head opcode length mask _ hlt hgot]
          rw [p₁, List.length_drop] at l₂
          omega

/-- The stream of a sender, with the sizes of its partial writes. -/
def sender (grants : List ℕ) : Stream := ⟨[], grants, [], false⟩

/-- The stream of a receiver, with the pieces its reads will deliver. -/
def receiver (pieces : List Piece) : Stream := ⟨pieces, [], [], false⟩

/-- `WSRecvMessage` in the opposite role gives back the message and leaves
nothing of the delivered bytes. -/
def Recovered (msg : WSFrameMessage) (client : Bool) (maxSize : UInt32)
    (pieces : List Piece) : Prop :=
  (wsRecvMessage (receiver pieces) (!client) maxSize).1 = some msg ∧
    (wsRecvMessage (receiver pieces) (!client) maxSize).2.pending = []

instance (msg : WSFrameMessage) (client : Bool) (maxSize : UInt32) (pieces : List Piece) :
    Decidable (Recovered msg client maxSize pieces) :=
  inferInstanceAs (Decidable (_ ∧ _))

theorem keptOpcode_first (op : OPCODE) (hop : op = .TEXT_FRAME ∨ op = .BIN_FRAME) :
    keptOpcode 0 (BitVec.ofInt 4 (op.code.toNat:ℤ)) = op.code.toNat := by
  rcases hop with rfl | rfl <;> rfl

section Received

variable (op : OPCODE) (data : Bytes) (client : Bool) (maxSize rand : UInt32) (uninit : UInt16)
  (pieces : List Piece) (hop : op = .TEXT_FRAME ∨ op = .BIN_FRAME)
  (hmax : data.length < maxSize.toNat)
  (hp : (receiver pieces).pending =
    (sendHead op.code.toNat client true data.length).toBytes ++
      frameTail (sendHead op.code.toNat client true data.length) data rand uninit)

include hop hp in
theorem received_frame :
    ∃ s₁, s₁.pending = frameTail (sendHead op.code.toNat client true data.length) data rand
        uninit ∧ s₁.closed = false ∧
      wsRecvMessage (receiver pieces) (!client) maxSize =
        match recvData (!client) maxSize (sendHead op.code.toNat client true data.length)
            ⟨0, [], 0⟩ s₁ with
        | .error s' => (none, s'.close)
        | .ok (a', s') => (some ⟨a'.opcode, a'.data⟩, s') := by
  have hcode : (sendHead op.code.toNat client true data.length).opcode = op.code := by
    simp [sendHead]
  obtain ⟨s₁, p₁, c₁, -, hrun⟩ := recvLoop_data (!client) maxSize
    (receiver pieces).pending.length ⟨0, [], 0⟩ (receiver pieces) _ op _ rfl (Or.inr hop) hcode hp
  exact ⟨s₁, p₁, c₁, hrun⟩

include hop hmax hp in
theorem recovered_of_size (h0 : 0 < data.length) (h : data.length < 65536) :
    Recovered ⟨op.code.toNat, data⟩ client maxSize pieces := by
  obtain ⟨s₁, p₁, c₁, hrun⟩ := received_frame op data client maxSize rand uninit pieces hop hp
  obtain ⟨s₂, h₂, p₂, -⟩ := recvData_frame ⟨0, [], 0⟩ op.code.toNat client true maxSize data []
    rand uninit s₁ c₁ rfl h0 h (by simpa using hmax) (by simpa using p₁)
  have hidx : ¬ (client = true ∧ 2^31 < ([]:Bytes).length+data.length) := by
    rw [List.length_nil]
    omega
  rw [h₂, if_neg hidx] at hrun
  simp only [keptOpcode_first op hop, List.nil_append] at hrun
  unfold Recovered
  rw [hrun]
  exact ⟨rfl, p₂⟩

include hop hmax hp in
theorem lost_of_empty (h : data.length = 0) :
    ¬ Recovered ⟨op.code.toNat, data⟩ client maxSize pieces := by
  obtain rfl : data = [] := List.length_eq_zero_iff.mp h
  obtain ⟨s₁, p₁, c₁, hrun⟩ := received_frame op [] client maxSize rand uninit pieces hop hp
  obtain ⟨s₂, h₂, p₂, c₂, -⟩ := recvLength_ok 0 uninit op.code.toNat client true _ s₁ c₁ (by decide)
    (by rw [p₁, frameTail, List.append_assoc]; rfl)
  obtain ⟨mask, s₃, h₃, -⟩ := recvMask_ok client rand _ s₂ c₂ p₂
  have hrole : (!(!client) && !client) = false := by cases client <;> rfl
  have hm : (sendHead op.code.toNat client true 0).mask = client := rfl
  have hpos : ¬ maxSize.toNat ≤ totalLength ⟨0, [], 0⟩ 0 := by
    simp only [List.length_nil] at hmax
    exact not_le.mpr hmax
  have hdata : recvData (!client) maxSize (sendHead op.code.toNat client true 0) ⟨0, [], 0⟩ s₁ =
      .error s₃ := by
    simp only [recvData, hm, hrole, Bool.false_eq_true, if_false, bind, Except.bind, h₂, hpos,
      h₃, recvFix_zero]
  intro hr
  unfold Recovered at hr
  rw [hrun, List.length_nil, hdata] at hr
  simp at hr

include hop hp in
theorem lost_of_long (h : 65536 ≤ data.length) :
    ¬ Recovered ⟨op.code.toNat, data⟩ client maxSize pieces := by
  obtain ⟨s₁, p₁, c₁, hrun⟩ := received_frame op data client maxSize rand uninit pieces hop hp
  intro hr
  unfold Recovered at hr
  rw [hrun] at hr
  have hpay : (sendHead op.code.toNat client true data.length).payload = 127 := by
    simp only [sendHead]
    rw [if_neg (by omega), if_neg (by omega)]
  have hm : (sendHead op.code.toNat client true data.length).mask = client := rfl
  cases hd : recvData (!client) maxSize (sendHead op.code.toNat client true data.length)
      ⟨0, [], 0⟩ s₁ with
  | error e => simp [hd] at hr
  | ok r =>
    obtain ⟨a', s'⟩ := r
    have hb := recvData_long (!client) maxSize _ 0 s₁ s' a' c₁ hpay hd
    simp only [hd, Option.some.injEq, WSFrameMessage.mk.injEq] at hr
    rw [p₁, hm, hr.1.2] at hb
    have hsent : (frameTail (sendHead op.code.toNat client true data.length) data rand
        uninit).length = 2+(if client then 4 else 0)+data.length := by
      simp only [frameTail, hpay, hm, List.length_append, payloadBytes_length]
      cases client <;> simp [lengthBytes, maskBytes]
    rw [hsent] at hb
    omega

end Received

/-- The exact payload sizes that survive a round trip. Role, mask, partial
writes, cuts and the indeterminate length word make no difference. -/
theorem message_round_trip_iff (op : OPCODE) (hop : op = .TEXT_FRAME ∨ op = .BIN_FRAME)
    (data : Bytes) (client : Bool) (maxSize rand : UInt32) (uninit : UInt16)
    (hmax : data.length < maxSize.toNat) (grants : List ℕ) (pieces : List Piece)
    (hp : (receiver pieces).pending = (wsSendMessage (sender grants) ⟨op.code.toNat, data⟩
      client true rand uninit).2.2.outbox) :
    Recovered ⟨op.code.toNat, data⟩ client maxSize pieces ↔
      0 < data.length ∧ data.length < 65536 := by
  have hm32 := maxSize.toNat_lt
  rw [send_outbox _ _ _ _ _ _ rfl (by simp only; omega)] at hp
  change _ = [] ++ _ ++ _ at hp
  rw [List.nil_append] at hp
  constructor
  · intro hr
    by_contra hc
    by_cases h0 : data.length = 0
    · exact lost_of_empty op data client maxSize rand uninit pieces hop hmax hp h0 hr
    · exact lost_of_long op data client maxSize rand uninit pieces hop hp (by omega) hr
  · rintro ⟨h0, h⟩
    exact recovered_of_size op data client maxSize rand uninit pieces hop hmax hp h0 h

theorem message_round_trip_hello :
    Recovered ⟨1, [104, 105]⟩ true 100
      [⟨[129], by decide⟩, ⟨[130, 1, 2, 3, 4, 105, 107], by decide⟩] :=
  (message_round_trip_iff .TEXT_FRAME (Or.inl rfl) [104, 105] true 100 0x04030201 0 (by decide)
    [0, 5] [⟨[129], by decide⟩, ⟨[130, 1, 2, 3, 4, 105, 107], by decide⟩] (by decide)).mpr
    (by decide)

/-- A server sends the empty text message; the client receives its two bytes. -/
theorem empty_message_lost :
    (wsSendMessage (sender []) ⟨1, []⟩ false true 0 0).2.2.outbox = [129, 0] ∧
      (receiver [⟨[129, 0], by decide⟩]).pending = [129, 0] ∧
      ¬ Recovered ⟨1, []⟩ false 33554432 [⟨[129, 0], by decide⟩] := by
  decide

end Lamb.WsRoundTrip
