import Lamb.ByteArrayCalls

/-!
# Round trips of typed items

Each item has a pure encoding. Its writer appends that encoding, and its reader,
on unread bytes that begin with the encoding, returns the item and moves past it.
A list of items is then read back by induction on the list, with the byte order
chosen item by item and across every block boundary.
-/

set_option autoImplicit false

namespace Lamb.ByteArray
open Lamb.ByteString Lamb.Blocks

theorem unzigzag_even (w n : ℕ) (e v : BitVec (w+1)) (hv : v.toNat = n)
    (he : e.toNat = 2*n) : (e >>> 1) ^^^ -(e &&& 1#(w+1)) = v := by
  have h1 : 1 % 2^(w+1) = 1 := Nat.mod_eq_of_lt (Nat.one_lt_two_pow (by omega))
  have hand : e &&& 1#(w+1) = 0#(w+1) := by
    apply BitVec.eq_of_toNat_eq
    rw [BitVec.toNat_and, BitVec.toNat_ofNat, h1, Nat.and_one_is_mod, he]
    simp
  rw [hand, BitVec.neg_zero, BitVec.xor_zero]
  apply BitVec.eq_of_toNat_eq
  rw [BitVec.toNat_ushiftRight, he, hv, Nat.shiftRight_eq_div_pow]
  omega

theorem unzigzag_odd (w n : ℕ) (e v : BitVec (w+1)) (hv : v.toNat+n+1 = 2^(w+1))
    (he : e.toNat = 2*n+1) : (e >>> 1) ^^^ -(e &&& 1#(w+1)) = v := by
  have h1 : 1 % 2^(w+1) = 1 := Nat.mod_eq_of_lt (Nat.one_lt_two_pow (by omega))
  have hand : e &&& 1#(w+1) = 1#(w+1) := by
    apply BitVec.eq_of_toNat_eq
    rw [BitVec.toNat_and, BitVec.toNat_ofNat, h1, Nat.and_one_is_mod, he]
    omega
  rw [hand, BitVec.neg_one_eq_allOnes, BitVec.xor_allOnes]
  apply BitVec.eq_of_toNat_eq
  rw [BitVec.toNat_not, BitVec.toNat_ushiftRight, he, Nat.shiftRight_eq_div_pow]
  omega

theorem toNat_double (w : ℕ) (x : BitVec (w+1)) : (x*2#(w+1)).toNat = 2*x.toNat % 2^(w+1) := by
  rw [BitVec.toNat_mul, BitVec.toNat_ofNat, Nat.mul_mod_mod, Nat.mul_comm]

/-- A negative number has an odd code, also the one whose negation wraps around. -/
theorem zigzag_neg (w : ℕ) (v : BitVec (w+1)) (hs : 2^w ≤ v.toNat) :
    ((-v)*2#(w+1)-1#(w+1)).toNat = 2*(2^(w+1)-v.toNat)-1 := by
  have hlt := v.isLt
  have hp : 2^(w+1) = 2*2^w := pow_succ' 2 w
  have h1 : 1 % 2^(w+1) = 1 := Nat.mod_eq_of_lt (Nat.one_lt_two_pow (by omega))
  have hneg : (-v).toNat = 2^(w+1)-v.toNat := by
    rw [BitVec.toNat_neg, Nat.mod_eq_of_lt (by have := Nat.two_pow_pos w; omega)]
  rw [BitVec.toNat_sub, toNat_double, hneg, BitVec.toNat_ofNat, h1]
  rcases Nat.lt_or_ge (2*(2^(w+1)-v.toNat)) (2^(w+1)) with hc | hc
  · rw [Nat.mod_eq_of_lt hc, Nat.mod_eq_sub_mod (by omega), Nat.mod_eq_of_lt (by omega)]
    omega
  · have hz : 2*(2^(w+1)-v.toNat) = 2^(w+1) := by omega
    rw [hz, Nat.mod_self, Nat.add_zero, Nat.mod_eq_of_lt (by omega)]

theorem zigzag_nonneg (w : ℕ) (v : BitVec (w+1)) (hs : ¬2^w ≤ v.toNat) :
    (v*2#(w+1)).toNat = 2*v.toNat := by
  have hp : 2^(w+1) = 2*2^w := pow_succ' 2 w
  rw [toNat_double, Nat.mod_eq_of_lt (by omega)]

theorem zigzag_bits (w : ℕ) (v : BitVec (w+1)) :
    ((if v.msb then (-v)*2#(w+1)-1#(w+1) else v*2#(w+1)) >>> 1) ^^^
      -((if v.msb then (-v)*2#(w+1)-1#(w+1) else v*2#(w+1)) &&& 1#(w+1)) = v := by
  have hlt := v.isLt
  have hm := BitVec.msb_eq_decide v
  by_cases hs : 2^w ≤ v.toNat
  · rw [hm, Nat.add_sub_cancel, decide_eq_true hs, if_pos rfl]
    apply unzigzag_odd w (2^(w+1)-v.toNat-1) _ _ (by omega)
    rw [zigzag_neg w v hs]
    omega
  · rw [hm, Nat.add_sub_cancel, decide_eq_false hs, if_neg (by decide)]
    exact unzigzag_even w v.toNat _ _ rfl (zigzag_nonneg w v hs)

theorem decodeZigzag32_encodeZigzag32 (v : Int32) : decodeZigzag32 (encodeZigzag32 v) = v := by
  have h := zigzag_bits 31 v.toBitVec
  have hm : v < 0 ↔ v.toBitVec.msb = true := by
    rw [Int32.lt_iff_toBitVec_slt, ← BitVec.slt_zero_eq_msb]
    rfl
  apply Int32.toBitVec_inj.mp
  unfold decodeZigzag32 encodeZigzag32
  by_cases hv : v < 0
  · rw [if_pos hv]
    rw [if_pos (hm.mp hv)] at h
    exact h
  · rw [if_neg hv]
    rw [if_neg (fun hc => hv (hm.mpr hc))] at h
    exact h

theorem decodeZigzag64_encodeZigzag64 (v : Int64) : decodeZigzag64 (encodeZigzag64 v) = v := by
  have h := zigzag_bits 63 v.toBitVec
  have hm : v < 0 ↔ v.toBitVec.msb = true := by
    rw [Int64.lt_iff_toBitVec_slt, ← BitVec.slt_zero_eq_msb]
    rfl
  apply Int64.toBitVec_inj.mp
  unfold decodeZigzag64 encodeZigzag64
  by_cases hv : v < 0
  · rw [if_pos hv]
    rw [if_pos (hm.mp hv)] at h
    exact h
  · rw [if_neg hv]
    rw [if_neg (fun hc => hv (hm.mpr hc))] at h
    exact h

def wordBytes (e : Endian) (n value : ℕ) : Bytes :=
  leBytes n (if e ≠ byteOrder then byteswap n value else value)

theorem wordBytes_length (e : Endian) (n value : ℕ) : (wordBytes e n value).length = n :=
  leBytes_length n _

theorem decodeWord_wordBytes (e : Endian) (n value : ℕ) (h : value < 256^n) (rest : Bytes) :
    decodeWord n e (wordBytes e n value ++ rest) = some (value, n) := by
  have hl := wordBytes_length e n value
  have ht : (wordBytes e n value ++ rest).take n = wordBytes e n value := List.take_left' hl
  have hn : ¬(wordBytes e n value ++ rest).length < n := by
    rw [List.length_append, hl]
    omega
  have hv : wordValue e n (wordBytes e n value) = value := by
    by_cases he : e = byteOrder
    · rw [wordValue, wordBytes, if_pos he, if_neg (not_not_intro he), leValue_leBytes,
        Nat.mod_eq_of_lt h]
    · rw [wordValue, wordBytes, if_neg he, if_pos he, leValue_leBytes,
        Nat.mod_eq_of_lt (byteswap_lt n value), byteswap_byteswap n value h]
  rw [decodeWord, if_neg hn, ht, hv]

theorem or_shift (r x i : ℕ) (hr : r < 2^i) : r ||| x <<< i = r+x*2^i := by
  rw [Nat.or_comm, ← Nat.shiftLeft_add_eq_or_of_lt hr, Nat.shiftLeft_eq, Nat.add_comm]

/-- The digits of `value`, read at shift `i` on top of `r`, give `r+value*2^i`. -/
theorem decodeVarint_varint (w n i r value : ℕ) (rest : Bytes) (hr : r < 2^i)
    (hv : value < 128^n) (hw : r+value*2^i < 2^w) :
    decodeVarint w n i r (varint n value ++ rest) =
      some (r+value*2^i, (varint n value).length) := by
  induction n generalizing i r value with
  | zero =>
    have h0 : value = 0 := by simpa using hv
    simp [decodeVarint, varint, h0]
  | succ n ih =>
    have hpi : 0 < 2^i := Nat.two_pow_pos i
    by_cases hge : 0x80 ≤ value
    · have hbyte : (value &&& 0x7F) ||| 0x80 = value % 128+128 := by
        have hm : value &&& 0x7F = value % 128 := Nat.and_two_pow_sub_one_eq_mod value 7
        have ho := or_shift (value % 128) 1 7 (Nat.mod_lt value (by decide))
        rw [hm]
        exact ho
      have hb : (UInt8.ofNat ((value &&& 0x7F) ||| 0x80)).toNat = value % 128+128 := by
        rw [hbyte, UInt8.toNat_ofNat', Nat.mod_eq_of_lt (by omega)]
      have hnlt : ¬UInt8.ofNat ((value &&& 0x7F) ||| 0x80) < 0x80 := by
        rw [UInt8.lt_iff_toNat_lt, hb]
        simp
      have hlow : (value % 128+128) &&& 0x7F = value % 128 := by
        rw [show 0x7F = 2^7-1 from rfl, Nat.and_two_pow_sub_one_eq_mod]
        omega
      have hsplit : value % 128*2^i+value / 128*2^(i+7) = value*2^i := by
        rw [pow_add]
        conv_rhs => rw [← Nat.div_add_mod value 128]
        ring
      have hsmall : (value % 128) <<< i % 2^w = (value % 128) <<< i := by
        rw [Nat.shiftLeft_eq]
        exact Nat.mod_eq_of_lt (by omega)
      have hr' : r+value % 128*2^i < 2^(i+7) := by
        have hd : value % 128 < 128 := Nat.mod_lt value (by decide)
        have hm := Nat.mul_le_mul_right (2^i) (Nat.succ_le_of_lt hd)
        rw [Nat.succ_mul] at hm
        rw [pow_add]
        omega
      have hshr : value >>> 7 = value / 128 := Nat.shiftRight_eq_div_pow value 7
      have hih := ih (i+7) (r+value % 128*2^i) (value / 128) hr'
        (by rw [pow_succ] at hv; omega) (by omega)
      rw [varint, if_pos hge, List.cons_append, decodeVarint, if_neg hnlt, hb, hlow, hsmall,
        or_shift r _ i hr, hshr, hih]
      simp only [Option.map_some, List.length_cons]
      rw [Nat.add_assoc, hsplit]
    · have hb : (UInt8.ofNat value).toNat = value := by
        rw [UInt8.toNat_ofNat', Nat.mod_eq_of_lt (by omega)]
      have hlt : UInt8.ofNat value < 0x80 := by
        rw [UInt8.lt_iff_toNat_lt, hb]
        simpa using hge
      have hsmall : value <<< i % 2^w = value <<< i := by
        rw [Nat.shiftLeft_eq]
        exact Nat.mod_eq_of_lt (by omega)
      rw [varint, if_neg hge, List.singleton_append, decodeVarint, if_pos hlt, hb, hsmall,
        or_shift r _ i hr]
      rfl

theorem decode_uint32 (v : UInt32) (rest : Bytes) :
    (decodeVarint 32 5 0 0 (varint 5 v.toNat ++ rest)).map (fun x => (UInt32.ofNat x.1, x.2)) =
      some (v, (varint 5 v.toNat).length) := by
  have hv := v.toNat_lt
  rw [decodeVarint_varint 32 5 0 0 v.toNat rest (by decide) (by omega) (by omega)]
  simp

theorem decode_uint64 (v : UInt64) (rest : Bytes) :
    (decodeVarint 64 10 0 0 (varint 10 v.toNat ++ rest)).map (fun x => (UInt64.ofNat x.1, x.2)) =
      some (v, (varint 10 v.toNat).length) := by
  have hv := v.toNat_lt
  rw [decodeVarint_varint 64 10 0 0 v.toNat rest (by decide) (by omega) (by omega)]
  simp

theorem readUint32_decodes :
    Decodes readUint32 fun _ r => (decodeVarint 32 5 0 0 r).map fun x => (UInt32.ofNat x.1, x.2) :=
  (readVarint_decodes 32 5 0 0).map UInt32.ofNat

theorem readUint64_decodes :
    Decodes readUint64 fun _ r => (decodeVarint 64 10 0 0 r).map fun x => (UInt64.ofNat x.1, x.2) :=
  (readVarint_decodes 64 10 0 0).map UInt64.ofNat

def encode (e : Endian) : Item → Bytes
  | .fint8 v => [v.toUInt8]
  | .fuint8 v => [v]
  | .fint16 v => wordBytes e 2 v.toBitVec.toNat
  | .fuint16 v => wordBytes e 2 v.toNat
  | .fint32 v => wordBytes e 4 v.toBitVec.toNat
  | .fuint32 v => wordBytes e 4 v.toNat
  | .fint64 v => wordBytes e 8 v.toBitVec.toNat
  | .fuint64 v => wordBytes e 8 v.toNat
  | .int32 v => varint 5 (encodeZigzag32 v).toNat
  | .uint32 v => varint 5 v.toNat
  | .int64 v => varint 10 (encodeZigzag64 v).toNat
  | .uint64 v => varint 10 v.toNat
  | .float v => wordBytes e 4 v.toNat
  | .double v => wordBytes e 8 v.toNat
  | .stringF16 v => wordBytes e 2 (UInt16.ofNat v.length).toNat ++ v
  | .stringF32 v => wordBytes e 4 (UInt32.ofNat v.length).toNat ++ v
  | .stringF64 v => wordBytes e 8 (UInt64.ofNat v.length).toNat ++ v
  | .stringVint v => varint 10 (UInt64.ofNat v.length).toNat ++ v

structure Appended (s : ByteArray) (bytes : Bytes) (t : ByteArray) : Prop where
  inv : Inv t
  content_eq : t.content = s.content ++ bytes
  position_eq : t.position = t.size
  endian_eq : t.endian = s.endian

theorem Appended.trans {s t u : ByteArray} {a b : Bytes} (h : Appended s a t)
    (h' : Appended t b u) : Appended s (a ++ b) u :=
  ⟨h'.inv, by rw [h'.content_eq, h.content_eq, List.append_assoc], h'.position_eq,
    h'.endian_eq.trans h.endian_eq⟩

theorem write_appends (s : ByteArray) (h : Inv s) (hend : s.position = s.size) (buf : Bytes)
    (hsz : buf.length < 2^53) : ∃ t, write buf s = .ok () t ∧ Appended s buf t := by
  obtain ⟨t, ht, hw⟩ := write_ok s h buf hsz
  refine ⟨t, ht, hw.inv, ?_, ?_, hw.endian_eq⟩
  · rw [hw.content_eq, hend, ← h.content_length, overwrite_end]
  · rw [hw.position_eq, hw.size_eq]
    omega

theorem writeString_appends (s : ByteArray) (h : Inv s) (hend : s.position = s.size)
    (size value : Bytes) (m : Op Unit) (hm : m s = write size s) (hsize : size.length < 2^53)
    (hvalue : value.length < 2^53) :
    ∃ t, (m >>= fun _ => write value) s = .ok () t ∧ Appended s (size ++ value) t := by
  obtain ⟨t, ht, ha⟩ := write_appends s h hend size hsize
  obtain ⟨u, hu, ha'⟩ := write_appends t ha.inv ha.position_eq value hvalue
  exact ⟨u, by rw [bind_ok (hm.trans ht), hu], ha.trans ha'⟩

theorem wordBytes_small (e : Endian) (n value : ℕ) (hn : n ≤ 8) :
    (wordBytes e n value).length < 2^53 := by
  rw [wordBytes_length]
  omega

theorem varint_small (n value : ℕ) (hn : n ≤ 10) : (varint n value).length < 2^53 := by
  have := varint_length_le n value
  omega

theorem put_appends (s : ByteArray) (h : Inv s) (hend : s.position = s.size) (item : Item)
    (hsz : item.text.length < 2^53) :
    ∃ t, put item s = .ok () t ∧ Appended s (encode s.endian item) t := by
  cases item with
  | fint8 v => exact write_appends s h hend [v.toUInt8] (by simp)
  | fuint8 v => exact write_appends s h hend [v] (by simp)
  | fint16 v => exact write_appends s h hend _ (wordBytes_small _ 2 _ (by decide))
  | fuint16 v => exact write_appends s h hend _ (wordBytes_small _ 2 _ (by decide))
  | fint32 v => exact write_appends s h hend _ (wordBytes_small _ 4 _ (by decide))
  | fuint32 v => exact write_appends s h hend _ (wordBytes_small _ 4 _ (by decide))
  | fint64 v => exact write_appends s h hend _ (wordBytes_small _ 8 _ (by decide))
  | fuint64 v => exact write_appends s h hend _ (wordBytes_small _ 8 _ (by decide))
  | int32 v => exact write_appends s h hend _ (varint_small 5 _ (by decide))
  | uint32 v => exact write_appends s h hend _ (varint_small 5 _ (by decide))
  | int64 v => exact write_appends s h hend _ (varint_small 10 _ (by decide))
  | uint64 v => exact write_appends s h hend _ (varint_small 10 _ (by decide))
  | float v => exact write_appends s h hend _ (wordBytes_small _ 4 _ (by decide))
  | double v => exact write_appends s h hend _ (wordBytes_small _ 8 _ (by decide))
  | stringF16 v =>
    exact writeString_appends s h hend _ v _ rfl (wordBytes_small _ 2 _ (by decide)) hsz
  | stringF32 v =>
    exact writeString_appends s h hend _ v _ rfl (wordBytes_small _ 4 _ (by decide)) hsz
  | stringF64 v =>
    exact writeString_appends s h hend _ v _ rfl (wordBytes_small _ 8 _ (by decide)) hsz
  | stringVint v =>
    exact writeString_appends s h hend _ v _ rfl (varint_small 10 _ (by decide)) hsz

section Readers

variable {α : Type} (s : ByteArray) (h : Inv s)

include h

theorem take_decoded {op : Op α} {d : Endian → Bytes → Option (α × ℕ)} (hop : Decodes op d)
    (k : α → Item) (a : α) (bytes rest : Bytes) (hu : s.unread = bytes ++ rest)
    (hd : d s.endian (bytes ++ rest) = some (a, bytes.length)) :
    (k <$> op) s = .ok (k a) (s.advance bytes.length) := by
  have hs := hop s h
  rw [hu, hd] at hs
  rw [map_eq_bind, bind_ok hs.2]
  rfl

theorem take_word (n value : ℕ) (h0 : 0 < n) (hv : value < 256^n) (g : ℕ → α) (k : α → Item)
    (a : α) (hg : g value = a) (rest : Bytes)
    (hu : s.unread = wordBytes s.endian n value ++ rest) :
    (k <$> (readWord n >>= fun v => Pure.pure (g v))) s =
      .ok (k a) (s.advance (wordBytes s.endian n value).length) := by
  refine take_decoded s h ((readWord_decodes n h0).map g) k _ _ rest hu ?_
  rw [decodeWord_wordBytes _ _ _ hv, wordBytes_length, Option.map_some, hg]

/-- A string whose length was read correctly follows in full. -/
theorem take_string {m : Op α} {d : Endian → Bytes → Option (α × ℕ)} (hm : Decodes m d)
    (g : α → ℕ) (k : Bytes → Item) (maxString : ℕ) (len : α) (size value rest : Bytes)
    (hu : s.unread = size ++ value ++ rest)
    (hd : d s.endian (size ++ value ++ rest) = some (len, size.length))
    (hlen : g len = value.length) (hne : value ≠ []) (hmax : value.length ≤ maxString) :
    (k <$> (m >>= fun len => readBody maxString (g len))) s =
      .ok (k value) (s.advance (size ++ value).length) := by
  have hs := hm s h
  rw [hu, hd] at hs
  obtain ⟨hle, hok⟩ := hs
  have hi := advance_inv s h size.length (h.advance_le hle)
  have hun : (s.advance size.length).unread = value ++ rest := by
    rw [advance_unread, hu, List.append_assoc, List.drop_left]
  have hrs := hi.unread_length
  rw [hun, List.length_append] at hrs
  have hread := read_ok _ hi value.length (List.length_pos_iff.mpr hne) (by omega)
  rw [hun, List.take_left, advance_advance] at hread
  rw [map_eq_bind, bind_ok (show (m >>= fun len => readBody maxString (g len)) s =
      .ok value (s.advance (size.length+value.length)) by
    rw [bind_ok hok, hlen, readBody, if_neg (by omega), hread]), List.length_append]
  rfl

end Readers

def Item.Fits : Item → Prop
  | .stringF16 v => v ≠ [] ∧ v.length < 2^16
  | .stringF32 v => v ≠ [] ∧ v.length < 2^32
  | .stringF64 v => v ≠ [] ∧ v.length < 2^64
  | .stringVint v => v ≠ [] ∧ v.length < 2^64
  | _ => True

theorem take_encoded (maxString : ℕ) (s : ByteArray) (h : Inv s) (item : Item)
    (hf : item.Fits) (hmax : item.text.length ≤ maxString) (rest : Bytes)
    (hu : s.unread = encode s.endian item ++ rest) :
    take maxString item.kind s = .ok item (s.advance (encode s.endian item).length) := by
  cases item with
  | fint8 v =>
    exact take_decoded s h (readFuint8_decodes.map UInt8.toInt8) Item.fint8 v _ rest hu (by
      simp [encode, decodeByte])
  | fuint8 v => exact take_decoded s h readFuint8_decodes Item.fuint8 v [v] rest hu rfl
  | fint16 v =>
    exact take_word s h 2 _ (by decide) v.toBitVec.isLt _ Item.fint16 v (by simp) rest hu
  | fuint16 v => exact take_word s h 2 _ (by decide) v.toNat_lt _ Item.fuint16 v (by simp) rest hu
  | fint32 v =>
    exact take_word s h 4 _ (by decide) v.toBitVec.isLt _ Item.fint32 v (by simp) rest hu
  | fuint32 v => exact take_word s h 4 _ (by decide) v.toNat_lt _ Item.fuint32 v (by simp) rest hu
  | fint64 v =>
    exact take_word s h 8 _ (by decide) v.toBitVec.isLt _ Item.fint64 v (by simp) rest hu
  | fuint64 v => exact take_word s h 8 _ (by decide) v.toNat_lt _ Item.fuint64 v (by simp) rest hu
  | int32 v =>
    refine take_decoded s h (readUint32_decodes.map decodeZigzag32) Item.int32 v _ rest hu ?_
    rw [encode, decode_uint32, Option.map_some, decodeZigzag32_encodeZigzag32]
  | uint32 v =>
    exact take_decoded s h readUint32_decodes Item.uint32 v _ rest hu (decode_uint32 v rest)
  | int64 v =>
    refine take_decoded s h (readUint64_decodes.map decodeZigzag64) Item.int64 v _ rest hu ?_
    rw [encode, decode_uint64, Option.map_some, decodeZigzag64_encodeZigzag64]
  | uint64 v =>
    exact take_decoded s h readUint64_decodes Item.uint64 v _ rest hu (decode_uint64 v rest)
  | float v => exact take_word s h 4 _ (by decide) v.toNat_lt _ Item.float v (by simp) rest hu
  | double v => exact take_word s h 8 _ (by decide) v.toNat_lt _ Item.double v (by simp) rest hu
  | stringF16 v =>
    refine take_string s h ((readWord_decodes 2 (by decide)).map UInt16.ofNat) UInt16.toNat
      Item.stringF16 maxString (UInt16.ofNat v.length) _ v rest hu ?_
      (Nat.mod_eq_of_lt hf.2) hf.1 hmax
    rw [List.append_assoc, decodeWord_wordBytes _ _ _ (UInt16.toNat_lt _), wordBytes_length,
      Option.map_some, UInt16.ofNat_toNat]
  | stringF32 v =>
    refine take_string s h ((readWord_decodes 4 (by decide)).map UInt32.ofNat) UInt32.toNat
      Item.stringF32 maxString (UInt32.ofNat v.length) _ v rest hu ?_
      (Nat.mod_eq_of_lt hf.2) hf.1 hmax
    rw [List.append_assoc, decodeWord_wordBytes _ _ _ (UInt32.toNat_lt _), wordBytes_length,
      Option.map_some, UInt32.ofNat_toNat]
  | stringF64 v =>
    refine take_string s h ((readWord_decodes 8 (by decide)).map UInt64.ofNat) UInt64.toNat
      Item.stringF64 maxString (UInt64.ofNat v.length) _ v rest hu ?_
      (Nat.mod_eq_of_lt hf.2) hf.1 hmax
    rw [List.append_assoc, decodeWord_wordBytes _ _ _ (UInt64.toNat_lt _), wordBytes_length,
      Option.map_some, UInt64.ofNat_toNat]
  | stringVint v =>
    refine take_string s h readUint64_decodes UInt64.toNat
      Item.stringVint maxString (UInt64.ofNat v.length) _ v rest hu ?_
      (Nat.mod_eq_of_lt hf.2) hf.1 hmax
    rw [List.append_assoc]
    exact decode_uint64 _ _

/-- Write a list of items, each after its own `setIsLittleEndian`. -/
def writeAll : List (Bool × Item) → Op Unit
  | [] => pure ()
  | (le, item)::rest => do
    setIsLittleEndian le
    put item
    writeAll rest

def readAll (maxString : ℕ) : List (Bool × Kind) → Op (List Item)
  | [] => pure []
  | (le, kind)::rest => do
    setIsLittleEndian le
    let item ← take maxString kind
    let items ← readAll maxString rest
    pure (item::items)

def writeThenRead (maxString : ℕ) (items : List (Bool × Item)) : Op (List Item) := do
  writeAll items
  setPosition 0
  readAll maxString (items.map fun x => (x.1, x.2.kind))

def orderOf (le : Bool) : Endian := if le then .little else .big

def withOrder (s : ByteArray) (le : Bool) : ByteArray := { s with endian := orderOf le }

theorem withOrder_inv (s : ByteArray) (h : Inv s) (le : Bool) : Inv (s.withOrder le) :=
  ⟨h.base_pos, h.nodes_of, h.root, h.capacity_eq, h.position_le, h.size_le, h.cur_eq⟩

def encodeAll (items : List (Bool × Item)) : Bytes :=
  items.flatMap fun x => encode (orderOf x.1) x.2

theorem writeAll_appends (items : List (Bool × Item))
    (hsz : ∀ x ∈ items, x.2.text.length < 2^53) (s : ByteArray) (h : Inv s)
    (hend : s.position = s.size) :
    ∃ t, writeAll items s = .ok () t ∧ Inv t ∧ t.content = s.content ++ encodeAll items := by
  induction items generalizing s with
  | nil => exact ⟨s, rfl, h, by simp [encodeAll]⟩
  | cons x rest ih =>
    obtain ⟨le, item⟩ := x
    obtain ⟨t, ht, ha⟩ := put_appends (s.withOrder le) (withOrder_inv s h le) hend item
      (hsz (le, item) (by simp))
    obtain ⟨u, hu, hi, hc⟩ := ih (fun y hy => hsz y (by simp [hy])) t ha.inv ha.position_eq
    have hle : setIsLittleEndian le s = .ok () (s.withOrder le) := rfl
    refine ⟨u, by rw [writeAll, bind_ok hle, bind_ok ht, hu], hi, ?_⟩
    rw [hc, ha.content_eq, List.append_assoc]
    rfl

theorem readAll_encoded (maxString : ℕ) (items : List (Bool × Item))
    (hf : ∀ x ∈ items, x.2.Fits ∧ x.2.text.length ≤ maxString) (s : ByteArray) (h : Inv s)
    (hu : s.unread = encodeAll items) :
    ∃ t, readAll maxString (items.map fun x => (x.1, x.2.kind)) s = .ok (items.map Prod.snd) t ∧
      t.getReadSize = 0 := by
  induction items generalizing s with
  | nil =>
    refine ⟨s, rfl, ?_⟩
    rw [← h.unread_length, hu]
    rfl
  | cons x rest ih =>
    obtain ⟨le, item⟩ := x
    have hs := withOrder_inv s h le
    obtain ⟨hfit, hmax⟩ := hf (le, item) (by simp)
    have hue : (s.withOrder le).unread =
        encode (s.withOrder le).endian item ++ encodeAll rest := hu
    have hle : setIsLittleEndian le s = .ok () (s.withOrder le) := rfl
    have htake := take_encoded maxString _ hs item hfit hmax _ hue
    have hlen := hs.unread_length
    rw [hue, List.length_append] at hlen
    have hi := advance_inv _ hs (encode (s.withOrder le).endian item).length
      (hs.advance_le (by omega))
    obtain ⟨t, ht, h0⟩ := ih (fun y hy => hf y (by simp [hy])) _ hi
      (by rw [advance_unread, hue, List.drop_left])
    refine ⟨t, ?_, h0⟩
    rw [List.map_cons, readAll, bind_ok hle, bind_ok htake, bind_ok ht]
    rfl

/-- Typed items of any kinds, each in its own byte order, come back from an array
of any block size. Strings are no longer than the platform's strings can be. -/
theorem items_round_trip (b maxString : ℕ) (hb : 1 ≤ b) (hstr : maxString < 2^53)
    (raw : ℕ → ℕ → UInt8) (items : List (Bool × Item))
    (hf : ∀ x ∈ items, x.2.Fits ∧ x.2.text.length ≤ maxString) :
    ∃ t, writeThenRead maxString items (create raw b) = .ok (items.map Prod.snd) t ∧
      t.getReadSize = 0 := by
  have hsz : ∀ x ∈ items, x.2.text.length < 2^53 :=
    fun x hx => lt_of_le_of_lt (hf x hx).2 hstr
  obtain ⟨t, ht, hi, hc⟩ := writeAll_appends items hsz _ (create_inv raw b hb) rfl
  obtain ⟨hset, hmi⟩ := setPosition_ok t hi 0 (Nat.zero_le _)
  have hu : (t.moved 0).unread = encodeAll items := by
    have hcm : (t.moved 0).content = t.content := by
      rw [content, content, moved, Nat.max_eq_left (Nat.zero_le _)]
    rw [unread, hcm, hc]
    rfl
  obtain ⟨u, hur, h0⟩ := readAll_encoded maxString items hf _ hmi hu
  exact ⟨u, by rw [writeThenRead, bind_ok ht, bind_ok hset, hur], h0⟩

theorem items_round_trip_mixed :
    ∃ t, writeThenRead 1000
        [(true, .fint16 (-2)), (false, .int32 Int32.minValue), (false, .stringVint [104, 105])]
        (create (fun _ _ => 0) 1) =
      .ok [.fint16 (-2), .int32 Int32.minValue, .stringVint [104, 105]] t ∧ t.getReadSize = 0 :=
  items_round_trip 1 1000 (by decide) (by decide) (fun _ _ => 0)
    [(true, .fint16 (-2)), (false, .int32 Int32.minValue), (false, .stringVint [104, 105])] (by
      intro x hx
      simp only [List.mem_cons, List.not_mem_nil, or_false] at hx
      rcases hx with rfl | rfl | rfl
      · exact ⟨trivial, by decide⟩
      · exact ⟨trivial, by decide⟩
      · exact ⟨⟨by decide, by decide⟩, by decide⟩)

end Lamb.ByteArray
