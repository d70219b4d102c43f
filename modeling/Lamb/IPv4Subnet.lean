import Lamb.Address

/-!
# Subnets of IPv4 addresses

The three addresses that `IPv4Address` derives from a prefix length. An address in network
order is changed by a mask in network order, so the mask of the host order carries over.
-/

set_option autoImplicit false

namespace Lamb.IPv4Subnet
open Lamb.BitMask Lamb.Address

/-- The byte order and the overflow of `int` on the machine. -/
structure Platform where
  little : Bool
  wraps : Bool
  deriving DecidableEq

section Subnets

variable (p : Platform)

/-- `IPv4Address::broadcastAddress`; the value is missing for a null pointer. -/
def broadcastAddress (mAddr : SockaddrIn) (prefixLen : ℕ) : Except Undefined (Option SockaddrIn) :=
  if prefixLen > 32 then .ok none
  else do
    let mask ← createMask p.wraps 32 prefixLen
    return some { mAddr with sAddr := mAddr.sAddr ||| byteswapOnLittleEndian p.little mask }

/-- `IPv4Address::networkAddress`; the value is missing for a null pointer. -/
def networkAddress (mAddr : SockaddrIn) (prefixLen : ℕ) : Except Undefined (Option SockaddrIn) :=
  if prefixLen > 32 then .ok none
  else do
    let mask ← createMask p.wraps 32 prefixLen
    return some { mAddr with sAddr := mAddr.sAddr &&& byteswapOnLittleEndian p.little (~~~mask) }

/-- `IPv4Address::subnetMask`. -/
def subnetMask (prefixLen : ℕ) : Except Undefined SockaddrIn := do
  let mask ← createMask p.wraps 32 prefixLen
  return {
    sinFamily := afInet
    sinPort := 0
    sAddr := ~~~byteswapOnLittleEndian p.little mask }

def bits (addr : SockaddrIn) : BitVec 32 := byteswapOnLittleEndian p.little addr.sAddr

/-- The algebra of subnets: what the three functions return for an address and a length. -/
structure Algebra (addr : SockaddrIn) (n : ℕ) : Prop where
  shift : createMask p.wraps 32 n ≠ .error .shift
  mask : ∃ m, subnetMask p n = .ok m ∧ bits p m = leading 32 n
  network : ∃ r, networkAddress p addr n = .ok (some r) ∧ bits p r = keep n (bits p addr) ∧
    r.sinPort = addr.sinPort ∧ r.sinFamily = addr.sinFamily ∧
    networkAddress p r n = .ok (some r)
  broadcast : ∃ r, broadcastAddress p addr n = .ok (some r) ∧ bits p r = fill n (bits p addr) ∧
    r.sinPort = addr.sinPort ∧ r.sinFamily = addr.sinFamily ∧
    broadcastAddress p r n = .ok (some r)

def withBits (addr : SockaddrIn) (v : BitVec 32) : SockaddrIn :=
  { addr with sAddr := byteswapOnLittleEndian p.little v }

@[simp] theorem bits_withBits (addr : SockaddrIn) (v : BitVec 32) :
    bits p (withBits p addr v) = v := byteswap_byteswap p.little v (by decide)

@[simp] theorem withBits_withBits (addr : SockaddrIn) (u v : BitVec 32) :
    withBits p (withBits p addr u) v = withBits p addr v := rfl

variable {p} {n : ℕ} {addr : SockaddrIn}

/-- The complement of the swapped mask is the swapped complement. -/
theorem subnetMask_bits (h : createMask p.wraps 32 n = .ok (~~~leading 32 n)) :
    ∃ m, subnetMask p n = .ok m ∧ bits p m = leading 32 n := by
  rw [subnetMask, h]
  refine ⟨_, rfl, ?_⟩
  simp only [bits]
  rw [byteswap_not _ _ (by decide), byteswap_byteswap _ _ (by decide), BitVec.not_not]

theorem networkAddress_bits (hn : n ≤ 32) (h : createMask p.wraps 32 n = .ok (~~~leading 32 n)) :
    networkAddress p addr n = .ok (some (withBits p addr (keep n (bits p addr)))) := by
  have hvalue : addr.sAddr &&& byteswapOnLittleEndian p.little (~~~~~~leading 32 n) =
      byteswapOnLittleEndian p.little (keep n (bits p addr)) := by
    rw [keep, bits, byteswap_and, byteswap_byteswap _ _ (by decide), BitVec.not_not]
  rw [networkAddress, if_neg (by omega), h, withBits, ← hvalue]
  rfl

theorem broadcastAddress_bits (hn : n ≤ 32) (h : createMask p.wraps 32 n = .ok (~~~leading 32 n)) :
    broadcastAddress p addr n = .ok (some (withBits p addr (fill n (bits p addr)))) := by
  have hvalue : addr.sAddr ||| byteswapOnLittleEndian p.little (~~~leading 32 n) =
      byteswapOnLittleEndian p.little (fill n (bits p addr)) := by
    rw [fill, bits, byteswap_or, byteswap_byteswap _ _ (by decide)]
  rw [broadcastAddress, if_neg (by omega), h, withBits, ← hvalue]
  rfl

theorem algebra_of_mask (hn : n ≤ 32) (h : createMask p.wraps 32 n = .ok (~~~leading 32 n)) :
    Algebra p addr n where
  shift := by simp [h]
  mask := subnetMask_bits h
  network := by
    refine ⟨_, networkAddress_bits hn h, bits_withBits p _ _, rfl, rfl, ?_⟩
    rw [networkAddress_bits hn h, bits_withBits, withBits_withBits, keep_keep]
  broadcast := by
    refine ⟨_, broadcastAddress_bits hn h, bits_withBits p _ _, rfl, rfl, ?_⟩
    rw [broadcastAddress_bits hn h, bits_withBits, withBits_withBits, fill_fill]

/-- A prefix of one bit takes the least `int`, from which one is subtracted. -/
theorem subnetMask_overflow (hwraps : p.wraps = false) :
    subnetMask p 1 = .error .overflow := by
  rw [subnetMask, hwraps]
  rfl

/-- The algebra holds but for the empty prefix, whose mask is shifted by its full width. The
prefix of one bit needs a machine on which `int` wraps around. -/
theorem algebra_iff (p : Platform) (addr : SockaddrIn) (n : ℕ) (hn : n ≤ 32) :
    Algebra p addr n ↔ n ≠ 0 ∧ (n = 1 → p.wraps = true) := by
  constructor
  · intro h
    constructor
    · rintro rfl
      exact h.shift (createMask_shift (by decide) (by decide) (by decide))
    · rintro rfl
      by_contra hwraps
      obtain ⟨m, hm, -⟩ := h.mask
      rw [subnetMask_overflow (by simpa using hwraps)] at hm
      cases hm
  · rintro ⟨hpos, hone⟩
    exact algebra_of_mask hn (createMask_ok hn (by omega) fun hk => hone (by omega))

theorem algebra_private : 24 ≤ 32 ∧ (Algebra { little := true, wraps := true }
    { sinFamily := afInet, sinPort := 0x5000, sAddr := 0x7801A8C0 } 24 ↔ 24 ≠ 0 ∧ (24 = 1 → true = true)) :=
  ⟨by decide, algebra_iff { little := true, wraps := true }
    { sinFamily := afInet, sinPort := 0x5000, sAddr := 0x7801A8C0 } 24 (by decide)⟩

/-- The mask of the empty prefix. -/
theorem empty_prefix : ¬Algebra { little := true, wraps := true }
    { sinFamily := afInet, sinPort := 0x5000, sAddr := 0x7801A8C0 } 0 := by
  intro h
  exact h.shift (by decide)

end Subnets

end Lamb.IPv4Subnet
