import Lamb.WsRounds
import Lamb.WsFragments

/-!
# Frame boundaries of the WebSocket receiver

A peer sends any sequence of well-formed frames, masked when it is a client. The
receiver is on a boundary when what it will read next is the wire image of the
frames still to come. A data frame is consumed with its length, mask and payload,
or ends the call. Of a `PING`, a `PONG` and a frame with a reserved opcode the
receiver reads the two head bytes only, so it stays on boundaries exactly as long
as such frames have nothing else.
-/

set_option autoImplicit false

namespace Lamb.WsBoundaries
open Lamb.ByteString Lamb.ByteStream Lamb.WsSession Lamb.WsRoundTrip Lamb.WsFragments
open Lamb.WsRounds Lamb.Runs

/-- A frame as the protocol allows it. The opcodes from 8 on are control frames:
not fragmented and with at most 125 bytes. -/
structure Frame where
  fin : Bool
  opcode : BitVec 4
  data : Bytes
  key : UInt32
  control : 8 ≤ opcode.toNat → fin = true ∧ data.length ≤ 125
  short : data.length < 2^63

def Frame.head (f : Frame) (masked : Bool) : WSFrameHead :=
  { WSFrameHead.zero with
    fin := f.fin
    opcode := f.opcode
    mask := masked
    payload := if f.data.length < 126 then BitVec.ofNat 7 f.data.length
      else if f.data.length < 65536 then 126 else 127 }

def Frame.extended (f : Frame) : Bytes :=
  if f.data.length < 126 then []
  else if f.data.length < 65536 then leBytes 2 (byteswap 2 f.data.length)
  else leBytes 8 (byteswap 8 f.data.length)

def Frame.tail (f : Frame) (masked : Bool) : Bytes :=
  f.extended ++ (maskBytes masked f.key ++ payloadBytes masked f.key f.data)

def Frame.bytes (f : Frame) (masked : Bool) : Bytes := (f.head masked).toBytes ++ f.tail masked

def wire (masked : Bool) (fs : List Frame) : Bytes := fs.flatMap fun f => f.bytes masked

/-- Every iteration of a receiver starts at the first byte of a frame, or behind
the last one. Frames to a server are masked, frames to a client are not. -/
def OnBoundaries (client : Bool) (maxSize : UInt32) (s : Stream) (fs : List Frame) : Prop :=
  ∀ a t, Iteration client maxSize s a t → ∃ k, t.pending = wire (!client) (fs.drop k)

/-- A data frame that ends the call without a message: the size check, a payload
whose length is not positive as an `int`, or an index before the buffer or past `INT_MAX`. -/
def Refused (client : Bool) (maxSize : UInt32) (cur : ℤ) (f : Frame) : Prop :=
  maxSize.toNat ≤ totalLength ⟨0, [], cur⟩ f.data.length ∨ toInt f.data.length ≤ 0 ∨
    IndexOverflow (f.head (!client)) ⟨0, [], cur⟩ f.data.length

/-- Up to the frame that ends the call, every frame that is neither data nor
`CLOSE` consists of its head. `cur` counts the data received so far. -/
def BareControls (client : Bool) (maxSize : UInt32) : ℤ → List Frame → Prop
  | _, [] => True
  | cur, f::fs =>
    if IsData f.opcode then f.fin = true ∨ Refused client maxSize cur f ∨
      BareControls client maxSize ((cur+f.data.length).bmod (2^32)) fs
    else f.opcode = OPCODE.CLOSE.code ∨
      (client = true ∧ f.data = [] ∧ BareControls client maxSize cur fs)

section Lengths

theorem tail_eq_nil (f : Frame) (masked : Bool) :
    f.tail masked = [] ↔ masked = false ∧ f.data = [] := by
  constructor
  · intro h
    have hl := congrArg List.length h
    simp only [Frame.tail, List.length_append, payloadBytes_length, List.length_nil] at hl
    constructor
    · cases masked with
      | false => rfl
      | true =>
        simp only [maskBytes, if_true, leBytes_length] at hl
        omega
    · exact List.length_eq_zero_iff.mp (by omega)
  · rintro ⟨rfl, h⟩
    simp [Frame.tail, Frame.extended, maskBytes, payloadBytes, h]

theorem wire_cons (masked : Bool) (f : Frame) (fs : List Frame) :
    wire masked (f::fs) = (f.head masked).toBytes ++ (f.tail masked ++ wire masked fs) := by
  rw [wire, List.flatMap_cons, Frame.bytes, List.append_assoc]
  rfl

theorem wire_drop_length (masked : Bool) (fs : List Frame) (k : ℕ) :
    (wire masked (fs.drop k)).length ≤ (wire masked fs).length := by
  have h : wire masked fs = wire masked (fs.take k) ++ wire masked (fs.drop k) := by
    rw [wire, wire, wire, ← List.flatMap_append, List.take_append_drop]
  rw [h, List.length_append]
  exact Nat.le_add_left _ _

/-- A suffix shorter than the whole leaves out the first frame. -/
theorem drop_of_shorter (masked : Bool) (f : Frame) (fs : List Frame) (k : ℕ)
    (h : (wire masked ((f::fs).drop k)).length < (wire masked (f::fs)).length) :
    ∃ j, (f::fs).drop k = fs.drop j := by
  cases k with
  | zero => exact absurd h (lt_irrefl _)
  | succ j => exact ⟨j, rfl⟩

end Lengths

section Frames

variable (client : Bool) (maxSize : UInt32)

theorem recvFix_network (n v : ℕ) (rest : Bytes) (s : Stream) (ho : s.closed = false)
    (h0 : 0 < n) (hn : n ≤ 8) (hv : v < 256^n)
    (hp : s.pending = leBytes n (byteswap n v) ++ rest) :
    ∃ s', (recvFix s n >>= fun r => pure (byteswap n (leValue r.1), r.2)) = Except.ok (v, s') ∧
      s'.pending = rest ∧ s'.closed = false := by
  have hl : (leBytes n (byteswap n v)).length = n := leBytes_length _ _
  obtain ⟨s', hr, hp', hc, -⟩ := recvFix_ok s n ho h0 (by omega)
    (by rw [hp, List.length_append, hl]; omega)
  rw [hp, List.take_left' hl] at hr
  rw [hp, List.drop_left' hl] at hp'
  refine ⟨s', ?_, hp', hc⟩
  simp only [hr, bind, Except.bind, pure, Except.pure, leValue_leBytes,
    Nat.mod_eq_of_lt (byteswap_lt n v), byteswap_byteswap n v hv]

theorem recvLength_frame (f : Frame) (masked : Bool) (rest : Bytes) (s : Stream)
    (ho : s.closed = false) (hp : s.pending = f.extended ++ rest) :
    ∃ s', recvLength (f.head masked).payload s = .ok (f.data.length, s') ∧
      s'.pending = rest ∧ s'.closed = false := by
  have hshort := f.short
  by_cases h₁ : f.data.length < 126
  · have hnat : (f.head masked).payload.toNat = f.data.length := by
      simp only [Frame.head, h₁, if_true, BitVec.toNat_ofNat]
      exact Nat.mod_eq_of_lt (by omega)
    have hne : ∀ v : BitVec 7, 126 ≤ v.toNat → (f.head masked).payload ≠ v := by
      rintro v hv rfl
      omega
    refine ⟨s, ?_, by simpa [Frame.extended, h₁] using hp, ho⟩
    rw [recvLength, if_neg (hne 126 (by decide)), if_neg (hne 127 (by decide)), hnat]
  · by_cases h₂ : f.data.length < 65536
    · have hpay : (f.head masked).payload = 126 := by
        simp only [Frame.head, h₁, h₂, if_true, if_false]
      rw [Frame.extended, if_neg h₁, if_pos h₂] at hp
      rw [hpay, recvLength, if_pos rfl]
      exact recvFix_network 2 _ rest s ho (by decide) (by decide) (by omega) hp
    · have hpay : (f.head masked).payload = 127 := by
        simp only [Frame.head, h₁, h₂, if_false]
      have h126 : ¬ (127:BitVec 7) = 126 := by decide
      rw [Frame.extended, if_neg h₁, if_neg h₂] at hp
      rw [hpay, recvLength, if_neg h126, if_pos rfl]
      exact recvFix_network 8 _ rest s ho (by decide) (by decide) (by omega) hp

/-- A payload is consumed whether or not its length is positive as an `int`. -/
theorem recvFix_payload (data rest : Bytes) (s : Stream) (ho : s.closed = false)
    (h : data.length < 2^63) (hp : s.pending = data ++ rest) :
    ∃ s', recvFix s data.length =
        (if toInt data.length ≤ 0 then .error s' else .ok (data, s')) ∧
      s'.pending = rest ∧ s'.closed = false := by
  obtain ⟨s', hr, hp', hc, -⟩ := readFixSize_ok s data.length ho h
    (by rw [hp, List.length_append]; omega)
  rw [hp, List.take_left] at hr
  rw [hp, List.drop_left] at hp'
  refine ⟨s', ?_, hp', hc⟩
  simp only [recvFix, hr]

theorem recvData_frame_kept (f : Frame) (a : Assembly) (rest : Bytes) (s : Stream)
    (ho : s.closed = false) (hp : s.pending = f.tail (!client) ++ rest)
    (h : ¬ Refused client maxSize a.curLen f) :
    ∃ a' s', recvData client maxSize (f.head (!client)) a s = .ok (a', s') ∧
      a'.curLen = (a.curLen+f.data.length).bmod (2^32) ∧ s'.pending = rest ∧
      s'.closed = false := by
  obtain ⟨hmax, hrest⟩ := not_or.mp h
  obtain ⟨hint, hover⟩ := not_or.mp hrest
  change ¬ maxSize.toNat ≤ totalLength a f.data.length at hmax
  change ¬ IndexOverflow (f.head (!client)) a f.data.length at hover
  rw [Frame.tail, List.append_assoc, List.append_assoc] at hp
  obtain ⟨s₁, h₁, p₁, c₁⟩ := recvLength_frame f (!client) _ s ho hp
  obtain ⟨mask, s₂, h₂, p₂, c₂, -, -⟩ := recvMask_ok (!client) f.key _ s₁ c₁ p₁
  have hl := payloadBytes_length (!client) f.key f.data
  obtain ⟨s₃, h₃, p₃, c₃⟩ := recvFix_payload (payloadBytes (!client) f.key f.data) rest s₂ c₂
    (by rw [hl]; exact f.short) p₂
  rw [hl, if_neg hint] at h₃
  have hrole : (!client && !!client) = false := by cases client <;> rfl
  have hmask : (f.head (!client)).mask = !client := rfl
  refine ⟨assemble (f.head (!client)) a f.data.length mask (payloadBytes (!client) f.key f.data),
    s₃, ?_, rfl, p₃, c₃⟩
  unfold recvData
  rw [hmask, hrole, if_neg (by decide), h₁]
  simp only [bind, Except.bind]
  rw [if_neg hmax, h₂]
  simp only
  rw [h₃]
  simp only
  rw [if_neg hover]
  rfl

theorem recvData_frame_refused (f : Frame) (a : Assembly) (rest : Bytes) (s : Stream)
    (ho : s.closed = false) (hp : s.pending = f.tail (!client) ++ rest)
    (h : Refused client maxSize a.curLen f) :
    ∃ s', recvData client maxSize (f.head (!client)) a s = .error s' := by
  rw [Frame.tail, List.append_assoc, List.append_assoc] at hp
  obtain ⟨s₁, h₁, p₁, c₁⟩ := recvLength_frame f (!client) _ s ho hp
  cases hd : recvData client maxSize (f.head (!client)) a s with
  | error s' => exact ⟨s', rfl⟩
  | ok r =>
    obtain ⟨length, t₁, mask, t₂, got, e₁, hmax, -, e₃, hover, -⟩ :=
      recvData_steps client maxSize _ a r.1 s r.2 hd
    obtain ⟨rfl, -⟩ : f.data.length = length ∧ s₁ = t₁ := by simpa [h₁] using e₁
    have hint := (recvFix_got t₂ r.2 _ got e₃).2.2
    rcases h with h | h | h
    · exact absurd hmax (not_lt.mpr h)
    · exact absurd hint (not_lt.mpr h)
    · exact absurd h hover

/-- The round on a data frame: it leaves, or it has consumed the frame. -/
theorem recvRound_data (f : Frame) (a : Assembly) (rest : Bytes) (s : Stream)
    (ho : s.closed = false) (hdata : IsData f.opcode)
    (hp : s.pending = (f.head (!client)).toBytes ++ (f.tail (!client) ++ rest)) :
    (f.fin = true ∨ Refused client maxSize a.curLen f) ∧
        (∃ m s', recvRound client maxSize a s = .done m s') ∨
      ¬ (f.fin = true ∨ Refused client maxSize a.curLen f) ∧
        ∃ a' s', recvRound client maxSize a s = .again a' s' ∧
          a'.curLen = (a.curLen+f.data.length).bmod (2^32) ∧ s'.pending = rest ∧
          s'.closed = false := by
  obtain ⟨s₁, h₁, p₁, c₁, -⟩ := recvFix_head s (f.head (!client)) _ ho hp
  have hround : recvRound client maxSize a s =
      dataRound client maxSize (f.head (!client)) a s₁ := by
    have hop : (f.head (!client)).opcode = f.opcode := rfl
    simp only [recvRound, h₁, head_ofBytes_toBytes, hop]
    rcases hdata with h | h | h <;> rw [h] <;> rfl
  rw [hround, dataRound]
  have hfin : (f.head (!client)).fin = f.fin := rfl
  by_cases hr : Refused client maxSize a.curLen f
  · obtain ⟨s', hd⟩ := recvData_frame_refused client maxSize f a rest s₁ c₁ p₁ hr
    rw [hd]
    exact .inl ⟨.inr hr, none, s'.close, rfl⟩
  · obtain ⟨a', s', hd, hcur, p', c'⟩ :=
      recvData_frame_kept client maxSize f a rest s₁ c₁ p₁ hr
    simp only [hd, hfin]
    cases f.fin with
    | true => exact .inl ⟨.inl rfl, some ⟨a'.opcode, a'.data⟩, s', rfl⟩
    | false => exact .inr ⟨by simp [hr], a', s', rfl, hcur, p', c'⟩

/-- The round on any other frame: it leaves at `CLOSE`, or it has read the head. -/
theorem recvRound_other (f : Frame) (a : Assembly) (rest : Bytes) (s : Stream)
    (ho : s.closed = false) (hdata : ¬ IsData f.opcode)
    (hp : s.pending = (f.head (!client)).toBytes ++ (f.tail (!client) ++ rest)) :
    f.opcode = OPCODE.CLOSE.code ∧ (∃ m s', recvRound client maxSize a s = .done m s') ∨
      f.opcode ≠ OPCODE.CLOSE.code ∧ ∃ s', recvRound client maxSize a s = .again a s' ∧
        s'.pending = f.tail (!client) ++ rest ∧ s'.closed = false := by
  obtain ⟨s₁, h₁, p₁, c₁, -⟩ := recvFix_head s (f.head (!client)) _ ho hp
  have hop : (f.head (!client)).opcode = f.opcode := rfl
  simp only [recvRound, h₁, head_ofBytes_toBytes, hop, hdata, if_false]
  by_cases hping : f.opcode = OPCODE.PING.code
  · obtain ⟨s₂, h₂, -, c₂, i₂⟩ := sendControl_ok .PONG s₁ c₁
    have hpong : wsPong s₁ = (2, s₂) := h₂
    have p₂ : s₂.pending = s₁.pending := by rw [Stream.pending, i₂, Stream.pending]
    refine .inr ⟨by rw [hping]; decide, s₂, ?_, p₂.trans p₁, c₂⟩
    rw [if_pos hping, hpong, if_neg (show ¬ (2:ℤ) ≤ 0 by decide)]
  rw [if_neg hping]
  by_cases hpong : f.opcode = OPCODE.PONG.code
  · exact .inr ⟨by rw [hpong]; decide, s₁, by rw [if_pos hpong], p₁, c₁⟩
  rw [if_neg hpong]
  by_cases hclose : f.opcode = OPCODE.CLOSE.code
  · exact .inl ⟨hclose, none, s₁.close, by rw [if_pos hclose]⟩
  · exact .inr ⟨hclose, s₁, by rw [if_neg hclose], p₁, c₁⟩

end Frames

section Boundaries

variable (client : Bool) (maxSize : UInt32)

theorem reaches_pending (a a' : Assembly) (s s' : Stream)
    (h : Reaches (next client maxSize) Free (a, s) (a', s')) :
    s'.pending.length ≤ s.pending.length := by
  refine Reaches.invariant (I := fun x => x.2.pending.length ≤ s.pending.length)
    (le_refl _) ?_ h
  intro x _ y hx _ hy
  unfold next at hy
  cases hround : recvRound client maxSize x.1 x.2 with
  | done m t =>
    rw [hround] at hy
    cases hy
  | again b t =>
    obtain rfl : (b, t) = y := by simpa [hround] using hy
    exact le_trans (le_of_lt (recvRound_shrinks client maxSize x.1 b x.2 t hround)) hx

/-- The states reached from a round that leaves, and from one that goes on. -/
theorem reaches_done (a : Assembly) (s s' : Stream) (m : Option WSFrameMessage)
    (h : recvRound client maxSize a s = .done m s') (x : Assembly × Stream)
    (hx : Reaches (next client maxSize) Free (a, s) x) : x = (a, s) := by
  rcases hx.head_cases with rfl | ⟨_, y, -, hy, -⟩
  · rfl
  · simp [next, h] at hy

theorem reaches_again (a a' : Assembly) (s s' : Stream)
    (h : recvRound client maxSize a s = .again a' s') (x : Assembly × Stream) :
    Reaches (next client maxSize) Free (a, s) x ↔
      x = (a, s) ∨ Reaches (next client maxSize) Free (a', s') x := by
  have hnext : next client maxSize (a, s) () = some (a', s') := by simp only [next, h]
  constructor
  · intro hx
    rcases hx.head_cases with rfl | ⟨_, y, -, hy, hrest⟩
    · exact .inl rfl
    · obtain rfl : (a', s') = y := by simpa [hnext] using hy
      exact .inr hrest
  · rintro (rfl | hx)
    · exact .start
    · exact Reaches.head trivial hnext hx

def Ahead (a : Assembly) (s : Stream) (fs : List Frame) : Prop :=
  ∀ x, Reaches (next client maxSize) Free (a, s) x → ∃ k, x.2.pending = wire (!client) (fs.drop k)

/-- Behind a frame that has been consumed as a whole, the rest decides. -/
theorem ahead_cons (a a' : Assembly) (s s' : Stream) (f : Frame) (fs : List Frame)
    (hp : s.pending = wire (!client) (f::fs))
    (h : recvRound client maxSize a s = .again a' s') :
    Ahead client maxSize a s (f::fs) ↔ Ahead client maxSize a' s' fs := by
  have hshort := recvRound_shrinks client maxSize a a' s s' h
  constructor
  · intro hall x hx
    obtain ⟨k, hk⟩ := hall x ((reaches_again client maxSize a a' s s' h x).mpr (.inr hx))
    have hle := reaches_pending client maxSize a' x.1 s' x.2 hx
    obtain ⟨j, hj⟩ := drop_of_shorter (!client) f fs k (by rw [← hk, ← hp]; omega)
    exact ⟨j, by rw [hk, hj]⟩
  · intro hall x hx
    rcases (reaches_again client maxSize a a' s s' h x).mp hx with rfl | hx
    · exact ⟨0, hp⟩
    · obtain ⟨k, hk⟩ := hall x hx
      exact ⟨k+1, hk⟩

theorem ahead_done (a : Assembly) (s s' : Stream) (m : Option WSFrameMessage) (fs : List Frame)
    (hp : s.pending = wire (!client) fs) (h : recvRound client maxSize a s = .done m s') :
    Ahead client maxSize a s fs := by
  intro x hx
  rw [reaches_done client maxSize a s s' m h x hx]
  exact ⟨0, hp⟩

theorem not_ahead_inside (a a' : Assembly) (s s' : Stream) (f : Frame) (fs : List Frame)
    (hp : s.pending = wire (!client) (f::fs))
    (hp' : s'.pending = f.tail (!client) ++ wire (!client) fs) (htail : f.tail (!client) ≠ [])
    (h : recvRound client maxSize a s = .again a' s') : ¬ Ahead client maxSize a s (f::fs) := by
  intro hall
  have hshort := recvRound_shrinks client maxSize a a' s s' h
  obtain ⟨k, hk⟩ := hall (a', s') ((reaches_again client maxSize a a' s s' h _).mpr (.inr .start))
  obtain ⟨j, hj⟩ := drop_of_shorter (!client) f fs k (by rw [← hk, ← hp]; exact hshort)
  have hle := wire_drop_length (!client) fs j
  have hpos := List.length_pos_iff.mpr htail
  have hlen := congrArg List.length hk
  simp only [hp', hj, List.length_append] at hlen
  omega

theorem ahead_iff (fs : List Frame) (a : Assembly) (s : Stream) (ho : s.closed = false)
    (hp : s.pending = wire (!client) fs) :
    Ahead client maxSize a s fs ↔ BareControls client maxSize a.curLen fs := by
  induction fs generalizing a s with
  | nil =>
    refine iff_of_true ?_ trivial
    intro x hx
    have hle := reaches_pending client maxSize a x.1 s x.2 hx
    rw [hp] at hle
    exact ⟨0, List.length_eq_zero_iff.mp (Nat.le_zero.mp hle)⟩
  | cons f fs ih =>
    rw [BareControls]
    have hcons := hp
    rw [wire_cons] at hcons
    by_cases hdata : IsData f.opcode
    · rw [if_pos hdata]
      rcases recvRound_data client maxSize f a _ s ho hdata hcons with
        ⟨hend, m, s', hr⟩ | ⟨hgo, a', s', hr, hcur, hp', hc'⟩
      · rw [← or_assoc]
        exact iff_of_true (ahead_done client maxSize a s s' m _ hp hr) (.inl hend)
      · rw [ahead_cons client maxSize a a' s s' f fs hp hr, ih a' s' hc' hp', hcur, ← or_assoc,
          or_iff_right hgo]
    · rw [if_neg hdata]
      rcases recvRound_other client maxSize f a _ s ho hdata hcons with
        ⟨hclose, m, s', hr⟩ | ⟨hne, s', hr, hp', hc'⟩
      · exact iff_of_true (ahead_done client maxSize a s s' m _ hp hr) (.inl hclose)
      · rw [or_iff_right hne, ← and_assoc]
        by_cases htail : f.tail (!client) = []
        · have hbare : client = true ∧ f.data = [] := by
            simpa using (tail_eq_nil f (!client)).mp htail
          rw [htail, List.nil_append] at hp'
          rw [ahead_cons client maxSize a a s s' f fs hp hr, ih a s' hc' hp',
            and_iff_right hbare]
        · refine iff_of_false (not_ahead_inside client maxSize a a s s' f fs hp hp' htail hr) ?_
          rintro ⟨hbare, -⟩
          exact htail ((tail_eq_nil f (!client)).mpr (by simpa using hbare))

end Boundaries

/-- On every sequence of well-formed frames the receiver stays on their boundaries
exactly if every `PING`, `PONG` and reserved frame in front of the end of the call
is a head without mask and payload. -/
theorem frame_boundaries_iff (client : Bool) (maxSize : UInt32) (fs : List Frame) (s : Stream)
    (ho : s.closed = false) (hp : s.pending = wire (!client) fs) :
    OnBoundaries client maxSize s fs ↔ BareControls client maxSize 0 fs := by
  rw [← ahead_iff client maxSize fs ⟨0, [], 0⟩ s ho hp]
  exact ⟨fun h x hx => h x.1 x.2 hx, fun h a t ht => h (a, t) ht⟩

def emptyPing : Frame := ⟨true, 9, [], 0x04030201, by decide, by decide⟩

def hello : Frame := ⟨true, 1, [104, 105], 0, by decide, by decide⟩

def delivered (masked : Bool) (f : Frame) (fs : List Frame) : Stream :=
  receiver [⟨wire masked (f::fs), by rw [wire_cons]; exact List.cons_ne_nil _ _⟩]

theorem delivered_pending (masked : Bool) (f : Frame) (fs : List Frame) :
    (delivered masked f fs).pending = wire masked (f::fs) := List.append_nil _

theorem frame_boundaries_ping_hello :
    OnBoundaries true 1024 (delivered false emptyPing [hello]) [emptyPing, hello] := by
  apply (frame_boundaries_iff true 1024 _ _ rfl (delivered_pending false emptyPing [hello])).mpr
  rw [BareControls, if_neg (by decide), BareControls, if_pos (by decide)]
  exact .inr ⟨rfl, rfl, .inl rfl⟩

/-- The server takes the masking key of an empty `PING` for the next frame head. -/
theorem ping_key_read_as_head :
    ¬ OnBoundaries false 1024 (delivered true emptyPing [hello]) [emptyPing, hello] := by
  intro h
  have hahead : Ahead false 1024 ⟨0, [], 0⟩ (delivered true emptyPing [hello]) [emptyPing, hello] :=
    fun x hx => h x.1 x.2 hx
  rw [ahead_iff false 1024 _ _ _ rfl (delivered_pending true emptyPing [hello]), BareControls,
    if_neg (by decide)] at hahead
  rcases hahead with hclose | ⟨hrole, -⟩
  · exact absurd hclose (by decide)
  · cases hrole

end Lamb.WsBoundaries
