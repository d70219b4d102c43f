import Lamb.Library.BitMask
import Lamb.Library.ByteString

/-!
# Socket addresses

The families of `sockaddr` that the library tells apart. Ports and addresses stand in
network order, so that every access to a number goes through `byteswapOnLittleEndian`.
`little` is the byte order of the machine.
-/

set_option autoImplicit false

namespace Lamb.Address
open Lamb.ByteString Lamb.BitMask

def afInet : UInt16 := 2

def afInet6 : UInt16 := 10

def byteswapOnLittleEndian {w : ℕ} (little : Bool) (v : BitVec w) : BitVec w :=
  if little then swapBytes v else v

inductive Undefined where
  /-- A shift by the width of the operand or more. -/
  | shift
  /-- An `int` below its least value. -/
  | overflow
  /-- An index outside of an array. -/
  | index
  deriving DecidableEq, Repr

/-- `CreateMask` for a type of `w` bits. The mask is an `int` that is converted at the end;
`wraps` says that subtraction on the machine does not stop at the least `int`. -/
def createMask (wraps : Bool) (w bits : ℕ) : Except Undefined (BitVec w) :=
  let shift := (w+2^64-bits) % 2^64
  if 32 ≤ shift then .error .shift
  else if 1#32 <<< shift = BitVec.intMin 32 ∧ !wraps then .error .overflow
  else .ok ((1#32 <<< shift - 1#32).setWidth w)

structure SockaddrIn where
  sinFamily : UInt16
  sinPort : BitVec 16
  sAddr : BitVec 32
  deriving DecidableEq

structure SockaddrIn6 where
  sin6Family : UInt16
  sin6Port : BitVec 16
  s6Addr : Vector UInt8 16
  deriving DecidableEq

inductive Sockaddr where
  | inet (addr : SockaddrIn)
  | inet6 (addr : SockaddrIn6)
  | other (saFamily : UInt16)
  deriving DecidableEq

/-- The classes that `Address::Create` builds. -/
inductive AnyAddress where
  | ipv4 (addr : SockaddrIn)
  | ipv6 (addr : SockaddrIn6)
  | unknown (saFamily : UInt16)
  deriving DecidableEq

/-- `Address::Create`; the value is missing for a null pointer. -/
def create : Option Sockaddr → Option AnyAddress
  | none => none
  | some (.inet addr) => some (.ipv4 addr)
  | some (.inet6 addr) => some (.ipv6 addr)
  | some (.other family) => some (.unknown family)

section ByteOrder

variable {w : ℕ} (little : Bool)

theorem byteswap_byteswap (v : BitVec w) (hw : w % 8 = 0) :
    byteswapOnLittleEndian little (byteswapOnLittleEndian little v) = v := by
  cases little with
  | false => rfl
  | true => exact swapBytes_swapBytes v hw

theorem byteswap_and (a b : BitVec w) : byteswapOnLittleEndian little (a &&& b) =
    byteswapOnLittleEndian little a &&& byteswapOnLittleEndian little b := by
  cases little with
  | false => rfl
  | true => exact swapBytes_and a b

theorem byteswap_or (a b : BitVec w) : byteswapOnLittleEndian little (a ||| b) =
    byteswapOnLittleEndian little a ||| byteswapOnLittleEndian little b := by
  cases little with
  | false => rfl
  | true => exact swapBytes_or a b

theorem byteswap_not (v : BitVec w) (hw : w % 8 = 0) :
    byteswapOnLittleEndian little (~~~v) = ~~~byteswapOnLittleEndian little v := by
  cases little with
  | false => rfl
  | true => exact swapBytes_not v hw

end ByteOrder

section CreateMask

variable {wraps : Bool} {w bits : ℕ}

theorem createMask_shift (hw : w < 2^63) (hbits : bits ≤ w) (h : 32 ≤ w-bits) :
    createMask wraps w bits = .error .shift := by
  have hmod : (w+2^64-bits) % 2^64 = w-bits := by omega
  simp only [createMask, hmod]
  rw [if_pos h]

/-- Within the width of an `int`, the mask has the bits behind the prefix. -/
theorem createMask_ok (hbits : bits ≤ w) (h : w-bits < 32)
    (hwraps : w-bits = 31 → wraps = true) :
    createMask wraps w bits = .ok (~~~leading w bits) := by
  have hmod : (w+2^64-bits) % 2^64 = w-bits := by omega
  have hover : ¬(1#32 <<< (w-bits) = BitVec.intMin 32 ∧ !wraps) := by
    rintro ⟨heq, hno⟩
    have hk : w-bits = 31 := by
      have htop := congrArg BitVec.toNat heq
      rw [BitVec.toNat_shiftLeft, BitVec.toNat_one (by decide), Nat.shiftLeft_eq, Nat.one_mul,
        Nat.mod_eq_of_lt (Nat.pow_lt_pow_right (by decide) h)] at htop
      exact Nat.pow_right_injective (le_refl 2) htop
    simp [hwraps hk] at hno
  have hbit : (1#32 <<< (w-bits) - 1#32).setWidth w = ~~~leading w bits := by
    apply BitVec.eq_of_getLsbD_eq
    intro i hi
    rw [BitVec.getLsbD_setWidth, getLsbD_shiftLeft_sub_one h, getLsbD_not_leading _ _ hbits]
    simp [hi]
  simp only [createMask, hmod]
  rw [if_neg (by omega), if_neg hover, hbit]

end CreateMask

end Lamb.Address
