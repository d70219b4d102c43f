import Lamb.WsRoundTrip

/-!
# Sending one message several times

A message is shared, and the sender that masks it works on its data in place. Each call
here has a stream of its own, of any kind, whose writes may fail at any point. The calls
that leave the message as it was are those that mask nothing, that fail before the mask
is drawn, or whose mask is zero where the data has bytes.
-/

set_option autoImplicit false

namespace Lamb.WsResend
open Lamb.ByteString Lamb.ByteStream Lamb.WsSession Lamb.WsRoundTrip

/-- The virtual functions of a `Stream` that `WSSendMessage` calls. -/
structure Transport (σ : Type) where
  writeFixSize : σ → Bytes → ℤ × σ
  close : σ → σ

def Transport.stream : Transport Stream := ⟨Stream.writeFixSize, Stream.close⟩

variable {σ : Type} (t : Transport σ)

namespace Transport

def sendFix (s : σ) (buf : Bytes) : Except σ σ :=
  let r := t.writeFixSize s buf
  if r.1 ≤ 0 then .error r.2 else .ok r.2

def sendLength (payload : BitVec 7) (size : ℕ) (uninit : UInt16) (s : σ) : Except σ σ :=
  if payload = 126 then t.sendFix s (leBytes 2 (byteswap 2 (size % 2^16)))
  else if payload = 127 then t.sendFix s (leBytes 2 (byteswap 2 uninit.toNat))
  else .ok s

def sendPrefix (head : WSFrameHead) (size : ℕ) (uninit : UInt16) (s : σ) : Except σ σ := do
  let s ← t.sendFix s head.toBytes
  t.sendLength head.payload size uninit s

def sendMask (client : Bool) (mask : Bytes) (s : σ) : Except σ σ :=
  if client then t.sendFix s mask else .ok s

end Transport

structure SendCall (σ : Type) where
  stream : σ
  client : Bool
  fin : Bool
  rand : UInt32
  uninit : UInt16

/-- What a call returns, the message and the stream that it leaves behind, and the mask
and the payload of its frame, if it comes to write the payload. -/
structure Sent (σ : Type) where
  result : ℤ
  message : WSFrameMessage
  stream : σ
  frame : Option (Bytes × Bytes)

def SendCall.mask (c : SendCall σ) : Bytes := if c.client then leBytes 4 c.rand.toNat else []

def SendCall.begin (c : SendCall σ) (msg : WSFrameMessage) : Except σ σ :=
  t.sendPrefix (sendHead msg.opcode c.client c.fin msg.data.length) msg.data.length c.uninit
    c.stream

/-- `WSSendMessage` on any stream. -/
def SendCall.run (msg : WSFrameMessage) (c : SendCall σ) : Sent σ :=
  match c.begin t msg with
  | .error s => ⟨-1, msg, t.close s, none⟩
  | .ok s =>
    let data := if c.client then applyMask c.mask msg.data else msg.data
    match t.sendMask c.client c.mask s with
    | .error s => ⟨-1, { msg with data := data }, t.close s, none⟩
    | .ok s =>
      match t.sendFix s data with
      | .error s => ⟨-1, { msg with data := data }, t.close s, some (c.mask, data)⟩
      | .ok s => ⟨toInt (msg.data.length+2), { msg with data := data }, s, some (c.mask, data)⟩

def sendEach : WSFrameMessage → List (SendCall σ) → List (Sent σ)
  | _, [] => []
  | msg, c::calls => c.run t msg::sendEach (c.run t msg).message calls

/-- The message is as it was, and the frame unmasks to its data. -/
structure Intact (msg : WSFrameMessage) (sent : Sent σ) : Prop where
  message : sent.message = msg
  frame : ∀ mask payload, sent.frame = some (mask, payload) → applyMask mask payload = msg.data

/-- The call masks the data, and some byte of the mask meets a byte of the data. -/
def SendCall.Alters (c : SendCall σ) (msg : WSFrameMessage) : Prop :=
  c.client = true ∧ (∃ s, c.begin t msg = .ok s) ∧
    ∃ i < msg.data.length, (leBytes 4 c.rand.toNat).getD (i % 4) 0 ≠ 0

theorem stream_sendFix (s : Stream) (buf : Bytes) :
    sendFix s buf = Transport.stream.sendFix s buf := rfl

/-- On a `Stream` this is `wsSendMessage`. -/
theorem run_stream (s : Stream) (msg : WSFrameMessage) (client fin : Bool) (rand : UInt32)
    (uninit : UInt16) :
    wsSendMessage s msg client fin rand uninit =
      (let sent := (SendCall.mk s client fin rand uninit).run .stream msg
       (sent.result, sent.message, sent.stream)) := by
  have hbegin : sendPrefix (sendHead msg.opcode client fin msg.data.length) msg.data.length
      uninit s = (SendCall.mk s client fin rand uninit).begin .stream msg := rfl
  unfold wsSendMessage SendCall.run SendCall.mask
  dsimp only
  rw [hbegin]
  generalize toInt (msg.data.length+2) = total
  generalize leBytes 4 rand.toNat = mask
  cases SendCall.begin Transport.stream ⟨s, client, fin, rand, uninit⟩ msg with
  | error s' => rfl
  | ok s₁ =>
    cases client with
    | false =>
      have hpayload : sendPayload false mask msg.data s₁ =
          Transport.stream.sendFix s₁ msg.data := rfl
      simp only [Bool.false_eq_true, if_false, hpayload, Transport.sendMask]
      cases Transport.stream.sendFix s₁ msg.data <;> rfl
    | true =>
      simp only [if_true, sendPayload, sendMask, Transport.sendMask, stream_sendFix, bind,
        Except.bind]
      cases Transport.stream.sendFix s₁ mask with
      | error s' => rfl
      | ok s₂ =>
        simp only
        cases Transport.stream.sendFix s₂ (applyMask mask msg.data) <;> rfl

theorem xor_eq_self_iff (a b : UInt8) : a ^^^ b = a ↔ b = 0 := by
  have hinj := @UInt8.xor_right_inj b 0 a
  rwa [UInt8.xor_zero] at hinj

/-- A mask changes nothing exactly if it is zero where the data has bytes. -/
theorem applyMask_eq_self_iff (mask data : Bytes) :
    applyMask mask data = data ↔ ∀ i < data.length, mask.getD (i % 4) 0 = 0 := by
  constructor
  · intro h i hi
    have hget := congrArg (fun l => l[i]?) h
    simp only [applyMask, List.getElem?_mapIdx, List.getElem?_eq_getElem hi, Option.map_some,
      Option.some.injEq] at hget
    exact (xor_eq_self_iff _ _).mp hget
  · intro h
    apply List.ext_getElem?
    intro i
    simp only [applyMask, List.getElem?_mapIdx]
    by_cases hi : i < data.length
    · rw [List.getElem?_eq_getElem hi, Option.map_some, (xor_eq_self_iff _ _).mpr (h i hi)]
    · rw [List.getElem?_eq_none (Nat.not_lt.mp hi), Option.map_none]

theorem applyMask_nil (data : Bytes) : applyMask [] data = data :=
  (applyMask_eq_self_iff [] data).mpr fun _ _ => rfl

section Calls

variable {t} {msg : WSFrameMessage} {c : SendCall σ}

theorem run_message {s : σ} (hb : c.begin t msg = .ok s) :
    (c.run t msg).message = { msg with data := applyMask c.mask msg.data } := by
  have hdata : (if c.client then applyMask c.mask msg.data else msg.data) =
      applyMask c.mask msg.data := by
    unfold SendCall.mask
    cases c.client with
    | true => rfl
    | false => exact (applyMask_nil msg.data).symm
  simp only [SendCall.run, hb, hdata]
  cases t.sendMask c.client c.mask s with
  | error s' => rfl
  | ok s' =>
    simp only
    cases t.sendFix s' (applyMask c.mask msg.data) <;> rfl

/-- Every frame unmasks to the data at the start of its call. -/
theorem run_frame {mask payload : Bytes} (hf : (c.run t msg).frame = some (mask, payload)) :
    applyMask mask payload = msg.data := by
  have hdata : applyMask c.mask (if c.client then applyMask c.mask msg.data else msg.data) =
      msg.data := by
    unfold SendCall.mask
    cases c.client with
    | true => exact applyMask_applyMask _ _
    | false => exact applyMask_nil _
  unfold SendCall.run at hf
  cases hb : c.begin t msg with
  | error s => simp [hb] at hf
  | ok s =>
    simp only [hb] at hf
    cases hm : t.sendMask c.client c.mask s with
    | error s' => simp [hm] at hf
    | ok s' =>
      have hpair : (c.mask, if c.client then applyMask c.mask msg.data else msg.data) =
          (mask, payload) := by
        simp only [hm] at hf
        cases hw : t.sendFix s' (if c.client then applyMask c.mask msg.data else msg.data) with
        | error s'' =>
          rw [hw] at hf
          exact Option.some.inj hf
        | ok s'' =>
          rw [hw] at hf
          exact Option.some.inj hf
      obtain ⟨rfl, rfl⟩ := Prod.mk.inj hpair
      exact hdata

/-- A call keeps the message exactly if it does not alter it. -/
theorem run_keeps_iff : (c.run t msg).message = msg ↔ ¬ c.Alters t msg := by
  cases hb : c.begin t msg with
  | error s =>
    have hkeep : (c.run t msg).message = msg := by simp only [SendCall.run, hb]
    refine iff_of_true hkeep ?_
    rintro ⟨-, ⟨s', hs⟩, -⟩
    rw [hb] at hs
    cases hs
  | ok s =>
    have hsame : (c.run t msg).message = msg ↔ applyMask c.mask msg.data = msg.data := by
      rw [run_message hb]
      constructor
      · intro h
        exact congrArg WSFrameMessage.data h
      · intro h
        rw [h]
    rw [hsame, applyMask_eq_self_iff]
    cases hc : c.client with
    | false =>
      refine iff_of_true (fun i _ => by simp [SendCall.mask, hc]) ?_
      rintro ⟨hclient, -⟩
      rw [hc] at hclient
      cases hclient
    | true =>
      have hmask : c.mask = leBytes 4 c.rand.toNat := by rw [SendCall.mask, if_pos hc]
      rw [hmask]
      constructor
      · rintro hzero ⟨-, -, i, hi, hne⟩
        exact hne (hzero i hi)
      · intro hno i hi
        by_contra hne
        exact hno ⟨hc, ⟨s, hb⟩, i, hi, hne⟩

end Calls

/-- However often one message is sent, over whatever streams: it stays as it is and all
of its frames unmask to its data, exactly if no call alters it. -/
theorem resend_intact_iff (msg : WSFrameMessage) (calls : List (SendCall σ)) :
    (∀ sent ∈ sendEach t msg calls, Intact msg sent) ↔ ∀ c ∈ calls, ¬ c.Alters t msg := by
  induction calls with
  | nil => simp [sendEach]
  | cons c calls ih =>
    rw [sendEach, List.forall_mem_cons, List.forall_mem_cons]
    by_cases hk : (c.run t msg).message = msg
    · have hc : Intact msg (c.run t msg) := ⟨hk, fun _ _ => run_frame⟩
      rw [hk, ih, ← run_keeps_iff]
      exact and_congr_left fun _ => iff_of_true hc hk
    · refine iff_of_false (fun h => hk h.1.message) ?_
      rintro ⟨hc, -⟩
      exact hk (run_keeps_iff.mpr hc)

def openStream : Stream := ⟨[], [], [], false⟩

/-- A client sends one byte twice: the second frame carries the byte as the first call
has masked it. -/
theorem resend_masked_twice :
    (sendEach .stream ⟨1, [5]⟩ [⟨openStream, true, true, 1, 0⟩,
      ⟨openStream, true, true, 1, 0⟩]).map (fun sent =>
        (sent.message.data, sent.frame.map fun f => applyMask f.1 f.2)) =
        [([4], some [5]), ([5], some [4])] ∧
      ¬ ∀ sent ∈ sendEach .stream ⟨1, [5]⟩ [⟨openStream, true, true, 1, 0⟩,
        ⟨openStream, true, true, 1, 0⟩], Intact ⟨1, [5]⟩ sent := by
  refine ⟨by decide, ?_⟩
  intro h
  exact absurd (h _ List.mem_cons_self).message (by decide)

end Lamb.WsResend
