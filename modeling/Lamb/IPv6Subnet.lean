import Lamb.Address

/-!
# Subnets of IPv6 addresses

The bytes in front of the end of the prefix, the byte with the end and the bytes behind it
are written apart. The byte with the end gets a mask of its own.
-/

set_option autoImplicit false

namespace Lamb.IPv6Subnet
open Lamb.BitMask Lamb.Address

abbrev S6Addr := Vector UInt8 16

/-- A write to `s6_addr[i]` that depends on the byte. -/
def modify (a : S6Addr) (i : ℕ) (f : UInt8 → UInt8) : Except Undefined S6Addr :=
  if h : i < 16 then .ok (a.set i (f a[i])) else .error .index

def store (v : UInt8) : ℕ → ℕ → S6Addr → Except Undefined S6Addr
  | 0, _, a => .ok a
  | n+1, i, a => do
    let a ← modify a i (fun _ => v)
    store v n (i+1) a

/-- `CreateMask<uint8_t>`. -/
def createMask8 (wraps : Bool) (bits : ℕ) : Except Undefined UInt8 := do
  let mask ← createMask wraps 8 bits
  return UInt8.ofBitVec mask

section Subnets

variable (wraps : Bool)

/-- `IPv6Address::broadcastAddress`. -/
def broadcastAddress (mAddr : SockaddrIn6) (prefixLen : ℕ) : Except Undefined SockaddrIn6 := do
  let mask ← createMask8 wraps (prefixLen % 8)
  let a ← modify mAddr.s6Addr (prefixLen / 8) (fun c => c ||| mask)
  let a ← store 0xff (16-(prefixLen / 8+1)) (prefixLen / 8+1) a
  return { mAddr with s6Addr := a }

/-- `IPv6Address::networkAddress`. -/
def networkAddress (mAddr : SockaddrIn6) (prefixLen : ℕ) : Except Undefined SockaddrIn6 := do
  let mask ← createMask8 wraps (prefixLen % 8)
  let a ← modify mAddr.s6Addr (prefixLen / 8) (fun c => c &&& mask)
  let a ← store 0x00 (16-(prefixLen / 8+1)) (prefixLen / 8+1) a
  return { mAddr with s6Addr := a }

/-- `IPv6Address::subnetMask`. -/
def subnetMask (prefixLen : ℕ) : Except Undefined SockaddrIn6 := do
  let mask ← createMask8 wraps (prefixLen % 8)
  let a ← modify (Vector.replicate 16 0) (prefixLen / 8) (fun _ => ~~~mask)
  let a ← store 0xff (prefixLen / 8) 0 a
  return { sin6Family := afInet6, sin6Port := 0, s6Addr := a }

def bits (a : S6Addr) : BitVec 128 :=
  (BitVec.ofBoolListBE (List.ofFn fun i : Fin 128 => a[i.val/8].toBitVec.getMsbD (i%8))).cast List.length_ofFn

/-- The algebra of subnets: what the three functions return for an address and a length. -/
structure Algebra (addr : SockaddrIn6) (n : ℕ) : Prop where
  mask : ∃ m, subnetMask wraps n = .ok m ∧ bits m.s6Addr = leading 128 n
  network : ∃ r, networkAddress wraps addr n = .ok r ∧ bits r.s6Addr = keep n (bits addr.s6Addr)
  broadcast : ∃ r, broadcastAddress wraps addr n = .ok r ∧
    bits r.s6Addr = fill n (bits addr.s6Addr)

end Subnets

theorem getMsbD_bits (a : S6Addr) {j k : ℕ} (hj : j < 16) (hk : k < 8) :
    (bits a).getMsbD (8*j+k) = a[j].toBitVec.getMsbD k := by
  have hdiv : (8*j+k)/8 = j := by omega
  have hmod : (8*j+k)%8 = k := by omega
  rw [bits, BitVec.getMsbD_cast, BitVec.getMsbD_ofBoolListBE, List.getD_eq_getElem?_getD,
    List.getElem?_ofFn, dif_pos (by omega), Option.getD_some]
  simp only [hdiv, hmod]

theorem bits_eq_iff (a : S6Addr) (v : BitVec 128) :
    bits a = v ↔ ∀ j (hj : j < 16), ∀ k < 8, a[j].toBitVec.getMsbD k = v.getMsbD (8*j+k) := by
  constructor
  · rintro rfl j hj k hk
    exact (getMsbD_bits a hj hk).symm
  · intro h
    apply BitVec.eq_of_getMsbD_eq
    intro i hi
    have := h (i/8) (by omega) (i%8) (by omega)
    rw [← getMsbD_bits a (by omega) (by omega)] at this
    rwa [Nat.div_add_mod] at this

theorem store_ok (v : UInt8) (n i : ℕ) (a : S6Addr) (h : i+n ≤ 16) :
    ∃ b, store v n i a = .ok b ∧
      ∀ j (hj : j < 16), b[j] = if i ≤ j ∧ j < i+n then v else a[j] := by
  induction n generalizing i a with
  | zero =>
    refine ⟨a, rfl, ?_⟩
    intro j hj
    rw [if_neg (by omega)]
  | succ n ih =>
    obtain ⟨b, hb, hbytes⟩ := ih (i+1) (a.set i v) (by omega)
    refine ⟨b, ?_, ?_⟩
    · rw [store, modify, dif_pos (by omega)]
      exact hb
    · intro j hj
      rw [hbytes j hj]
      by_cases hi : i = j
      · subst hi
        rw [if_neg (by omega), if_pos (by omega), Vector.getElem_set_self]
      · rw [Vector.getElem_set_ne _ _ hi]
        congr 1
        exact propext (by omega)

/-- One byte is changed and all bytes behind it are written. -/
theorem tail_ok (f : UInt8 → UInt8) (v : UInt8) (a : S6Addr) {k : ℕ} (hk : k < 16) :
    ∃ b, (modify a k f >>= store v (16-(k+1)) (k+1)) = .ok b ∧
      ∀ j (hj : j < 16), b[j] = if j < k then a[j] else if j = k then f a[j] else v := by
  obtain ⟨b, hb, hbytes⟩ := store_ok v (16-(k+1)) (k+1) (a.set k (f a[k])) (by omega)
  refine ⟨b, ?_, ?_⟩
  · rw [modify, dif_pos hk]
    exact hb
  · intro j hj
    rw [hbytes j hj]
    rcases Nat.lt_trichotomy j k with hlt | rfl | hgt
    · rw [if_neg (by omega), Vector.getElem_set_ne _ _ (by omega), if_pos hlt]
    · rw [if_neg (by omega), Vector.getElem_set_self, if_neg (by omega), if_pos rfl]
    · rw [if_pos (by omega), if_neg (by omega), if_neg (by omega)]

/-- One byte is changed and all bytes in front of it are written. -/
theorem front_ok (f : UInt8 → UInt8) (v : UInt8) (a : S6Addr) {k : ℕ} (hk : k < 16) :
    ∃ b, (modify a k f >>= store v k 0) = .ok b ∧
      ∀ j (hj : j < 16), b[j] = if j < k then v else if j = k then f a[j] else a[j] := by
  obtain ⟨b, hb, hbytes⟩ := store_ok v k 0 (a.set k (f a[k])) (by omega)
  refine ⟨b, ?_, ?_⟩
  · rw [modify, dif_pos hk]
    exact hb
  · intro j hj
    rw [hbytes j hj]
    rcases Nat.lt_trichotomy j k with hlt | rfl | hgt
    · rw [if_pos (by omega), if_pos hlt]
    · rw [if_neg (by omega), Vector.getElem_set_self, if_neg (by omega), if_pos rfl]
    · rw [if_neg (by omega), Vector.getElem_set_ne _ _ (by omega), if_neg (by omega),
        if_neg (by omega)]

theorem createMask8_ok (wraps : Bool) (n : ℕ) :
    createMask8 wraps (n % 8) = .ok (UInt8.ofBitVec (~~~leading 8 (n % 8))) := by
  have h : createMask wraps 8 (n % 8) = .ok (~~~leading 8 (n % 8)) :=
    createMask_ok (by omega) (by omega) (by omega)
  rw [createMask8, h]
  rfl

theorem decide_place (n : ℕ) {j k : ℕ} (hk : k < 8) : decide (8*j+k < n) =
    if j < n/8 then true else if j = n/8 then decide (k < n%8) else false := by
  split_ifs
  · exact decide_eq_true (by omega)
  · exact decide_eq_decide.mpr (by omega)
  · exact decide_eq_false (by omega)

/-- The bits of the mask for the byte with the end of the prefix. -/
theorem getMsbD_mask (n : ℕ) {k : ℕ} (hk : k < 8) :
    (~~~leading 8 (n % 8)).getMsbD k = !decide (k < n%8) := by
  rw [BitVec.getMsbD_not, getMsbD_leading, decide_eq_true hk, Bool.true_and, Bool.true_and]

section Values

variable {wraps : Bool} {addr : SockaddrIn6} {n : ℕ} (hn : n < 128)

include hn

theorem subnetMask_value :
    ∃ m, subnetMask wraps n = .ok m ∧ bits m.s6Addr = leading 128 n := by
  obtain ⟨b, hb, hbytes⟩ := front_ok (fun _ => ~~~UInt8.ofBitVec (~~~leading 8 (n % 8))) 0xff
    (Vector.replicate 16 0) (k := n/8) (by omega)
  refine ⟨{ sin6Family := afInet6, sin6Port := 0, s6Addr := b }, ?_, ?_⟩
  · have hrun : subnetMask wraps n = (modify (Vector.replicate 16 0) (n/8)
        (fun _ => ~~~UInt8.ofBitVec (~~~leading 8 (n % 8))) >>= store 0xff (n/8) 0) >>=
        fun a => .ok { sin6Family := afInet6, sin6Port := 0, s6Addr := a } := by
      rw [subnetMask, createMask8_ok, bind_assoc]
      rfl
    rw [hrun, hb]
    rfl
  · rw [bits_eq_iff]
    intro j hj k hk
    rw [hbytes j hj, getMsbD_leading, decide_eq_true (by omega : 8*j+k < 128), Bool.true_and,
      decide_place n hk]
    split_ifs
    · exact (by decide : ∀ k < 8, (0xff : UInt8).toBitVec.getMsbD k = true) k hk
    · rw [UInt8.toBitVec_not, UInt8.toBitVec_ofBitVec, BitVec.getMsbD_not, getMsbD_mask n hk]
      simp [hk]
    · rw [Vector.getElem_replicate]
      exact BitVec.getMsbD_zero

theorem broadcastAddress_value : ∃ r, broadcastAddress wraps addr n = .ok r ∧
    bits r.s6Addr = fill n (bits addr.s6Addr) := by
  obtain ⟨b, hb, hbytes⟩ := tail_ok (fun c => c ||| UInt8.ofBitVec (~~~leading 8 (n % 8))) 0xff
    addr.s6Addr (k := n/8) (by omega)
  refine ⟨{ addr with s6Addr := b }, ?_, ?_⟩
  · have hrun : broadcastAddress wraps addr n = (modify addr.s6Addr (n/8)
        (fun c => c ||| UInt8.ofBitVec (~~~leading 8 (n % 8))) >>=
          store 0xff (16-(n/8+1)) (n/8+1)) >>= fun a => .ok { addr with s6Addr := a } := by
      rw [broadcastAddress, createMask8_ok, bind_assoc]
      rfl
    rw [hrun, hb]
    rfl
  · rw [bits_eq_iff]
    intro j hj k hk
    rw [hbytes j hj, getMsbD_fill, decide_eq_true (by omega : 8*j+k < 128), Bool.true_and,
      decide_place n hk, getMsbD_bits addr.s6Addr hj hk]
    split_ifs with hlt heq
    · simp
    · simp only [heq]
      rw [UInt8.toBitVec_or, UInt8.toBitVec_ofBitVec, BitVec.getMsbD_or, getMsbD_mask n hk]
    · rw [(by decide : ∀ k < 8, (0xff : UInt8).toBitVec.getMsbD k = true) k hk]
      simp

/-- The network address keeps what it should clear in the byte with the end of the prefix. -/
theorem networkAddress_bytes : ∃ r, networkAddress wraps addr n = .ok r ∧
    ∀ j (hj : j < 16), ∀ k < 8, r.s6Addr[j].toBitVec.getMsbD k =
      if j < n/8 then addr.s6Addr[j].toBitVec.getMsbD k
      else if j = n/8 then addr.s6Addr[j].toBitVec.getMsbD k && !decide (k < n%8) else false := by
  obtain ⟨b, hb, hbytes⟩ := tail_ok (fun c => c &&& UInt8.ofBitVec (~~~leading 8 (n % 8))) 0x00
    addr.s6Addr (k := n/8) (by omega)
  refine ⟨{ addr with s6Addr := b }, ?_, ?_⟩
  · have hrun : networkAddress wraps addr n = (modify addr.s6Addr (n/8)
        (fun c => c &&& UInt8.ofBitVec (~~~leading 8 (n % 8))) >>=
          store 0x00 (16-(n/8+1)) (n/8+1)) >>= fun a => .ok { addr with s6Addr := a } := by
      rw [networkAddress, createMask8_ok, bind_assoc]
      rfl
    rw [hrun, hb]
    rfl
  · intro j hj k hk
    rw [hbytes j hj]
    split_ifs with hlt heq
    · rfl
    · simp only [heq]
      rw [UInt8.toBitVec_and, UInt8.toBitVec_ofBitVec, BitVec.getMsbD_and, getMsbD_mask n hk]
    · exact BitVec.getMsbD_zero

/-- The bits are those of the network if and only if the byte with the end was empty. -/
theorem networkAddress_value_iff : (∃ r, networkAddress wraps addr n = .ok r ∧
    bits r.s6Addr = keep n (bits addr.s6Addr)) ↔ addr.s6Addr[n/8] = 0 := by
  obtain ⟨r, hr, hbytes⟩ := @networkAddress_bytes wraps addr n hn
  have hbits : bits r.s6Addr = keep n (bits addr.s6Addr) ↔
      ∀ k < 8, addr.s6Addr[n/8].toBitVec.getMsbD k = false := by
    rw [bits_eq_iff]
    constructor
    · intro h k hk
      have hplace := h (n/8) (by omega) k hk
      rw [hbytes (n/8) (by omega) k hk, getMsbD_keep, getMsbD_bits _ (by omega) hk,
        decide_place n hk, if_neg (by omega), if_pos rfl, if_neg (by omega), if_pos rfl] at hplace
      cases hbit : addr.s6Addr[n/8].toBitVec.getMsbD k with
      | false => rfl
      | true => simp [hbit] at hplace
    · intro h j hj k hk
      rw [hbytes j hj k hk, getMsbD_keep, getMsbD_bits _ hj hk, decide_place n hk]
      split_ifs with hlt heq
      · simp
      · simp [heq, h k hk]
      · simp
  have hzero : addr.s6Addr[n/8] = 0 ↔ ∀ k < 8, addr.s6Addr[n/8].toBitVec.getMsbD k = false := by
    constructor
    · intro h k hk
      rw [h]
      exact BitVec.getMsbD_zero
    · intro h
      apply UInt8.toBitVec_inj.mp
      apply BitVec.eq_of_getMsbD_eq
      intro k hk
      rw [h k hk]
      exact BitVec.getMsbD_zero.symm
  rw [hzero, ← hbits]
  constructor
  · rintro ⟨r', hr', h⟩
    rw [hr] at hr'
    cases hr'
    exact h
  · intro h
    exact ⟨r, hr, h⟩

end Values

/-- A prefix of the whole address has its end behind the last byte. -/
theorem subnetMask_whole (wraps : Bool) : subnetMask wraps 128 = .error .index := by
  rw [subnetMask, show 128 % 8 = 0 % 8 from rfl, createMask8_ok]
  rfl

/-- The algebra holds where the prefix ends inside of the address and the byte with its end
is empty. -/
theorem in6_algebra_iff (wraps : Bool) (addr : SockaddrIn6) (n : ℕ) (hn : n ≤ 128) :
    Algebra wraps addr n ↔ n < 128 ∧ addr.s6Addr[n/8]? = some 0 := by
  constructor
  · intro h
    by_cases hlt : n < 128
    · have hzero := (networkAddress_value_iff hlt).mp h.network
      exact ⟨hlt, by rw [Vector.getElem?_eq_getElem (by omega), hzero]⟩
    · obtain ⟨m, hm, -⟩ := h.mask
      rw [show n = 128 by omega, subnetMask_whole] at hm
      cases hm
  · rintro ⟨hlt, hzero⟩
    rw [Vector.getElem?_eq_getElem (by omega), Option.some_inj] at hzero
    exact ⟨subnetMask_value hlt, (networkAddress_value_iff hlt).mpr hzero,
      broadcastAddress_value hlt⟩

theorem algebra_prefix : 32 ≤ 128 ∧
    (Algebra true
        { sin6Family := afInet6
          sin6Port := 0
          s6Addr := #v[0x20, 1, 0x0d, 0xb8, 0, 0, 0, 1, 0, 0, 0, 0, 0, 0, 0, 9] } 32 ↔
      32 < 128 ∧ (#v[0x20, 1, 0x0d, 0xb8, 0, 0, 0, 1, 0, 0, 0, 0, 0, 0, 0, 9] : S6Addr)[32/8]? =
        some 0) :=
  ⟨by decide, in6_algebra_iff true
    { sin6Family := afInet6
      sin6Port := 0
      s6Addr := #v[0x20, 1, 0x0d, 0xb8, 0, 0, 0, 1, 0, 0, 0, 0, 0, 0, 0, 9] } 32 (by decide)⟩

/-- A link-local address keeps the first byte of its interface identifier. -/
theorem link_local_network : ¬Algebra true
    { sin6Family := afInet6
      sin6Port := 0
      s6Addr := #v[0xfe, 0x80, 0, 0, 0, 0, 0, 0, 2, 0x15, 0x5d, 0xff, 0xfe, 0x88, 0x0d, 0x8a] }
    64 := by
  intro h
  exact absurd ((networkAddress_value_iff (by decide)).mp h.network) (by decide)

end Lamb.IPv6Subnet
