import Lamb.ByteArrayRecords

/-!
# The two widths of variable-length integers

The 32-bit and the 64-bit writers take the same digits off a number that both can
hold, and the zigzag map gives a signed number the same code at both widths. Either
reader then returns what either writer put at the cursor. A reader stops after the
last digit its width has room for, whatever the bytes are.
-/

set_option autoImplicit false

namespace Lamb.ByteArray
open Lamb.ByteString Lamb.Blocks

theorem varint_room (n m value : ℕ) (hv : value < 128^(n+1)) :
    varint (n+1+m) value = varint (n+1) value := by
  induction n generalizing value with
  | zero =>
    rw [Nat.zero_add, Nat.add_comm, varint, varint, if_neg (by omega), if_neg (by omega)]
  | succ n ih =>
    rw [Nat.add_right_comm, varint, varint]
    have hshr : value >>> 7 = value / 128 := Nat.shiftRight_eq_div_pow value 7
    have hq : value >>> 7 < 128^(n+1) := by
      rw [hshr]
      rw [pow_succ] at hv
      omega
    rw [ih (value >>> 7) hq]

theorem varint_length_pos (n value : ℕ) : 1 ≤ (varint (n+1) value).length := by
  rw [varint]
  split_ifs
  · exact Nat.succ_pos _
  · exact Nat.one_pos

/-- The digits of a number below `2^32` are the same at both widths. -/
theorem varint_widened (v : UInt32) : varint 10 v.toUInt64.toNat = varint 5 v.toNat := by
  have hv := v.toNat_lt
  rw [UInt32.toNat_toUInt64]
  exact varint_room 4 5 v.toNat (by omega)

section Zigzag

variable (v : Int32)

theorem msb32_iff : v < 0 ↔ 2^31 ≤ v.toBitVec.toNat := by
  rw [Int32.lt_iff_toBitVec_slt, Int32.toBitVec_zero, BitVec.slt_zero_eq_msb,
    BitVec.msb_eq_decide, decide_eq_true_iff]

theorem widened_lt_zero : v.toInt64 < 0 ↔ v < 0 := by
  rw [Int64.lt_iff_toInt_lt, Int32.lt_iff_toInt_lt, Int32.toInt_toInt64]
  rfl

theorem widened_neg (hv : v < 0) :
    v.toInt64.toBitVec.toNat = v.toBitVec.toNat+(2^64-2^32) := by
  have hm : v.toBitVec.msb = true := by
    rw [BitVec.msb_eq_decide]
    exact decide_eq_true ((msb32_iff v).mp hv)
  rw [Int32.toBitVec_toInt64, BitVec.toNat_signExtend, hm, if_pos rfl, BitVec.toNat_setWidth,
    Nat.mod_eq_of_lt (by have := v.toBitVec.isLt; omega)]

theorem widened_nonneg (hv : ¬v < 0) : v.toInt64.toBitVec.toNat = v.toBitVec.toNat := by
  have hm : v.toBitVec.msb = false := by
    rw [BitVec.msb_eq_decide]
    exact decide_eq_false fun hc => hv ((msb32_iff v).mpr hc)
  rw [Int32.toBitVec_toInt64, BitVec.toNat_signExtend, hm, if_neg (by decide), Nat.add_zero,
    BitVec.toNat_setWidth, Nat.mod_eq_of_lt (by have := v.toBitVec.isLt; omega)]

/-- A signed number has one code, `-2^31` with its negation that wraps around included. -/
theorem encodeZigzag_widened : encodeZigzag64 v.toInt64 = (encodeZigzag32 v).toUInt64 := by
  have hlt := v.toBitVec.isLt
  apply UInt64.toNat_inj.mp
  rw [UInt32.toNat_toUInt64, encodeZigzag64, encodeZigzag32]
  by_cases hv : v < 0
  · have hs := (msb32_iff v).mp hv
    have hw := widened_neg v hv
    rw [if_pos hv, if_pos ((widened_lt_zero v).mpr hv)]
    have h32 : ((-v).toUInt32*2-1).toNat = 2*(2^32-v.toBitVec.toNat)-1 := zigzag_neg 31 _ hs
    have h64 : ((-v.toInt64).toUInt64*2-1).toNat = 2*(2^64-v.toInt64.toBitVec.toNat)-1 :=
      zigzag_neg 63 _ (by omega)
    omega
  · have hs : ¬2^31 ≤ v.toBitVec.toNat := fun hc => hv ((msb32_iff v).mpr hc)
    have hw := widened_nonneg v hv
    rw [if_neg hv, if_neg fun hc => hv ((widened_lt_zero v).mp hc)]
    have h32 : (v*2).toUInt32.toNat = 2*v.toBitVec.toNat := zigzag_nonneg 31 _ hs
    have h64 : (v.toInt64*2).toUInt64.toNat = 2*v.toInt64.toBitVec.toNat :=
      zigzag_nonneg 63 _ (by omega)
    omega

end Zigzag

theorem writeUint64_widened (v : UInt32) : writeUint64 v.toUInt64 = writeUint32 v := by
  rw [writeUint64, writeUint32, varint_widened]

theorem writeInt64_widened (v : Int32) : writeInt64 v.toInt64 = writeInt32 v := by
  rw [writeInt64, writeInt32, encodeZigzag_widened, writeUint64_widened]

theorem decodeVarint_le (w n i result : ℕ) (r : Bytes) (v k : ℕ)
    (hd : decodeVarint w n i result r = some (v, k)) : k ≤ n := by
  induction n generalizing i result r v k with
  | zero =>
    obtain ⟨-, rfl⟩ := Prod.mk.inj (Option.some.inj hd)
    exact Nat.le_refl 0
  | succ n ih =>
    cases r with
    | nil => cases hd
    | cons b r =>
      rw [decodeVarint] at hd
      split_ifs at hd
      · obtain ⟨-, rfl⟩ := Prod.mk.inj (Option.some.inj hd)
        exact Nat.succ_pos n
      · obtain ⟨x, hx, he⟩ := Option.map_eq_some_iff.mp hd
        obtain ⟨-, rfl⟩ := Prod.mk.inj he
        exact Nat.succ_le_succ (ih _ _ r x.1 x.2 hx)

/-- Bytes that end inside a number are fewer than the turns of the loop. -/
theorem decodeVarint_none (w n i result : ℕ) (r : Bytes)
    (hd : decodeVarint w n i result r = none) : r.length < n := by
  induction n generalizing i result r with
  | zero => cases hd
  | succ n ih =>
    cases r with
    | nil => exact Nat.succ_pos n
    | cons b r =>
      rw [decodeVarint] at hd
      split_ifs at hd
      exact Nat.succ_lt_succ (ih _ _ r (Option.map_eq_none_iff.mp hd))

variable {α β : Type}

/-- The call moves past at most `n` bytes of the data, if it returns and if it throws. -/
def TakesAtMost (n : ℕ) (op : Op α) (s : ByteArray) : Prop :=
  match op s with
  | .ok _ t | .error _ t => ∃ k, k ≤ n ∧ k ≤ s.getReadSize ∧ t = s.advance k

theorem takesAtMost_map {op : Op α} {n : ℕ} {s : ByteArray} (g : α → β)
    (h : TakesAtMost n op s) : TakesAtMost n (op >>= fun v => pure (g v)) s := by
  unfold TakesAtMost at h ⊢
  cases hr : op s with
  | ok a t =>
    rw [hr] at h
    rw [bind_ok hr]
    exact h
  | error e t =>
    rw [hr] at h
    rw [bind_error hr]
    exact h

theorem readVarint_takes (w n : ℕ) (s : ByteArray) (h : Inv s) :
    TakesAtMost n (readVarint w n 0 0) s := by
  have hd : Decoded s (readVarint w n 0 0 s) (decodeVarint w n 0 0 s.unread) :=
    readVarint_decodes w n 0 0 s h
  have hl := h.unread_length
  unfold TakesAtMost
  cases hc : decodeVarint w n 0 0 s.unread with
  | some x =>
    rw [hc] at hd
    obtain ⟨hle, hok⟩ := hd
    rw [hok]
    exact ⟨x.2, decodeVarint_le w n 0 0 _ x.1 x.2 hc, hle, rfl⟩
  | none =>
    have hshort := decodeVarint_none w n 0 0 _ hc
    rw [readVarint_short w n 0 0 s h hc]
    exact ⟨s.getReadSize, by omega, Nat.le_refl _, rfl⟩

/-- What the two calls do at the cursor of `s`: the writer puts `digits` there, and the
reader, from where they start, returns `a` and stops behind them. -/
def ReadBack (s : ByteArray) (digits : Bytes) (writer : Op Unit) (reader : Op α) (a : α) : Prop :=
  ∃ t, writer s = .ok () t ∧ Wrote s digits t ∧
    ∃ u, (do setPosition s.getPosition; reader) t = .ok a u ∧
      u.getPosition = s.getPosition+digits.length

/-- The writers of the two widths put the same one to five bytes, and both readers return
the number from either. -/
structure WidthsAgree (s : ByteArray) (digits : Bytes) (writer32 writer64 : Op Unit)
    (reader32 : Op α) (reader64 : Op β) (a : α) (b : β) : Prop where
  length_pos : 1 ≤ digits.length
  length_le : digits.length ≤ 5
  reader32_writer32 : ReadBack s digits writer32 reader32 a
  reader64_writer32 : ReadBack s digits writer32 reader64 b
  reader32_writer64 : ReadBack s digits writer64 reader32 a
  reader64_writer64 : ReadBack s digits writer64 reader64 b

theorem Decodes.readBack {reader : Op α} {d : Endian → Bytes → Option (α × ℕ)}
    (hd : Decodes reader d) (s : ByteArray) (h : Inv s) (digits : Bytes)
    (hsz : digits.length < 2^53) (a : α)
    (ha : ∀ rest, d s.endian (digits ++ rest) = some (a, digits.length)) :
    ReadBack s digits (write digits) reader a := by
  obtain ⟨t, ht, hw⟩ := write_ok s h digits hsz
  obtain ⟨r, hset, hi, hpos, hend, -, rest, hun⟩ := hw.read_back h
  have hr := hd r hi
  rw [hend, hun, ha] at hr
  refine ⟨t, ht, hw, r.advance digits.length, ?_, ?_⟩
  · rw [show s.getPosition = s.position from rfl, bind_ok hset, hr.2]
  · rw [getPosition, advance, hpos]
    rfl

/-- The 64-bit decoder on the digits of a number below `2^32`. -/
theorem decode_widened (v : UInt32) (rest : Bytes) :
    (decodeVarint 64 10 0 0 (varint 5 v.toNat ++ rest)).map (fun x => (UInt64.ofNat x.1, x.2)) =
      some (v.toUInt64, (varint 5 v.toNat).length) := by
  rw [← varint_widened]
  exact decode_uint64 v.toUInt64 rest

section Agreement

variable (s : ByteArray) (h : Inv s)
include h

theorem unsigned_agree (v : UInt32) :
    WidthsAgree s (varint 5 v.toNat) (writeUint32 v) (writeUint64 v.toUInt64)
      readUint32 readUint64 v v.toUInt64 := by
  have hsz := varint_small 5 v.toNat (by decide)
  have h32 : ReadBack s (varint 5 v.toNat) (writeUint32 v) readUint32 v :=
    readUint32_decodes.readBack s h _ hsz v (decode_uint32 v)
  have h64 : ReadBack s (varint 5 v.toNat) (writeUint32 v) readUint64 v.toUInt64 :=
    readUint64_decodes.readBack s h _ hsz v.toUInt64 (decode_widened v)
  rw [writeUint64_widened]
  exact ⟨varint_length_pos 4 _, varint_length_le 5 _, h32, h64, h32, h64⟩

theorem signed_agree (v : Int32) :
    WidthsAgree s (varint 5 (encodeZigzag32 v).toNat) (writeInt32 v) (writeInt64 v.toInt64)
      readInt32 readInt64 v v.toInt64 := by
  have hsz := varint_small 5 (encodeZigzag32 v).toNat (by decide)
  have h32 : ReadBack s (varint 5 (encodeZigzag32 v).toNat) (writeInt32 v) readInt32 v := by
    refine (readUint32_decodes.map decodeZigzag32).readBack s h
      (varint 5 (encodeZigzag32 v).toNat) hsz v fun rest => ?_
    rw [decode_uint32, Option.map_some, decodeZigzag32_encodeZigzag32]
  have h64 : ReadBack s (varint 5 (encodeZigzag32 v).toNat) (writeInt32 v) readInt64 v.toInt64 := by
    refine (readUint64_decodes.map decodeZigzag64).readBack s h
      (varint 5 (encodeZigzag32 v).toNat) hsz v.toInt64 fun rest => ?_
    rw [decode_widened, Option.map_some, ← encodeZigzag_widened, decodeZigzag64_encodeZigzag64]
  rw [writeInt64_widened]
  exact ⟨varint_length_pos 4 _, varint_length_le 5 _, h32, h64, h32, h64⟩

end Agreement

section Runs

variable (maxString b : ℕ) (hb : 1 ≤ b) (raw : ℕ → ℕ → UInt8) (calls : List Call)
  (hsz : ∀ c ∈ calls, c.demand < 2^53) (t : ByteArray)
  (ht : after maxString calls (create raw b) = some t)
include hb hsz ht

/-- In every reachable state the two widths agree on every number that the smaller one
holds, and no reader takes more than five or ten bytes of whatever is there. -/
theorem varint_widths_agree :
    (∀ v : UInt32, WidthsAgree t (varint 5 v.toNat) (writeUint32 v) (writeUint64 v.toUInt64)
      readUint32 readUint64 v v.toUInt64) ∧
    (∀ v : Int32, WidthsAgree t (varint 5 (encodeZigzag32 v).toNat) (writeInt32 v)
      (writeInt64 v.toInt64) readInt32 readInt64 v v.toInt64) ∧
    (TakesAtMost 5 readUint32 t ∧ TakesAtMost 5 readInt32 t) ∧
    TakesAtMost 10 readUint64 t ∧ TakesAtMost 10 readInt64 t := by
  have h := (fresh_after_inv maxString b hb raw calls hsz t ht).1
  have h32 : TakesAtMost 5 readUint32 t := takesAtMost_map UInt32.ofNat (readVarint_takes 32 5 t h)
  have h64 : TakesAtMost 10 readUint64 t :=
    takesAtMost_map UInt64.ofNat (readVarint_takes 64 10 t h)
  exact ⟨unsigned_agree t h, signed_agree t h, ⟨h32, takesAtMost_map decodeZigzag32 h32⟩,
    h64, takesAtMost_map decodeZigzag64 h64⟩

omit hb hsz ht in
/-- The extreme negative number, put inside data of blocks of four bytes. -/
theorem varint_widths_agree_blocks :
    ∃ t, after 100 [.write [1, 2, 3], .setPosition 1] (create (fun _ _ => 0) 4) = some t ∧
      WidthsAgree t [255, 255, 255, 255, 15] (writeInt32 Int32.minValue)
        (writeInt64 (-2147483648)) readInt32 readInt64 Int32.minValue (-2147483648) := by
  refine ⟨_, rfl, ?_⟩
  exact (varint_widths_agree 100 4 (by decide) (fun _ _ => 0) [.write [1, 2, 3], .setPosition 1]
    (by decide) _ rfl).2.1 Int32.minValue

end Runs

end Lamb.ByteArray
