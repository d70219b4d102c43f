import Lamb.Library.ByteString

/-!
# Percent coding

Every byte that is not safe is written as `%` and two hexadecimal digits; a space may be
written as `+`. The decoder leaves what is not a complete escape as it is, and undoes
every encoder for which `%`, and `+` if it is read as a space, are not safe.
-/

set_option autoImplicit false

namespace Lamb.PercentCoding
open Lamb.ByteString

def hexDigit (v : ℕ) : UInt8 := UInt8.ofNat (if v < 10 then 48+v else 55+v)

def hexValue (c : UInt8) : Option ℕ :=
  if 48 ≤ c ∧ c ≤ 57 then some (c.toNat-48)
  else if 65 ≤ c ∧ c ≤ 70 then some (c.toNat-55)
  else if 97 ≤ c ∧ c ≤ 102 then some (c.toNat-87)
  else none

def hexByte (a b : UInt8) : Option UInt8 := do
  let high ← hexValue a
  let low ← hexValue b
  return UInt8.ofNat (16*high+low)

def decode (plus : Bool) : Bytes → Bytes
  | [] => []
  | 37::a::b::rest =>
    match hexByte a b with
    | some c => c::decode plus rest
    | none => 37::decode plus (a::b::rest)
  | c::rest => (if plus ∧ c = 43 then 32 else c)::decode plus rest

def encodeByte (safe : UInt8 → Bool) (plus : Bool) (c : UInt8) : Bytes :=
  if safe c then [c]
  else if plus ∧ c = 32 then [43]
  else [37, hexDigit (c.toNat/16), hexDigit (c.toNat % 16)]

def encode (safe : UInt8 → Bool) (plus : Bool) (s : Bytes) : Bytes :=
  s.flatMap (encodeByte safe plus)

theorem hexValue_hexDigit : ∀ v < 16, hexValue (hexDigit v) = some v := by decide

theorem hexByte_digits (c : UInt8) :
    hexByte (hexDigit (c.toNat/16)) (hexDigit (c.toNat % 16)) = some c := by
  have hc := c.toNat_lt
  have hvalue : 16*(c.toNat/16)+c.toNat % 16 = c.toNat := by omega
  rw [hexByte, hexValue_hexDigit _ (by omega), hexValue_hexDigit _ (by omega)]
  change some (UInt8.ofNat (16*(c.toNat/16)+c.toNat % 16)) = some c
  rw [hvalue, UInt8.ofNat_toNat]

theorem decode_escape (plus : Bool) (a b c : UInt8) (rest : Bytes) (h : hexByte a b = some c) :
    decode plus (37::a::b::rest) = c::decode plus rest := by
  rw [decode, h]

/-- A byte other than `%` is read alone. -/
theorem decode_single (plus : Bool) (c : UInt8) (rest : Bytes) (hc : c ≠ 37) :
    decode plus (c::rest) = (if plus ∧ c = 43 then 32 else c)::decode plus rest := by
  rw [decode]
  rintro a b rest' rfl
  exact absurd rfl hc

theorem decode_encodeByte (safe : UInt8 → Bool) (f g : Bool) (hfg : f = true → g = true)
    (hpercent : safe 37 = false) (hplus : g = true → safe 43 = false) (c : UInt8)
    (rest : Bytes) : decode g (encodeByte safe f c ++ rest) = c::decode g rest := by
  rw [encodeByte]
  split_ifs with hs hspace
  · have hc : c ≠ 37 := by
      rintro rfl
      rw [hpercent] at hs
      cases hs
    have hkeep : ¬ (g = true ∧ c = 43) := by
      rintro ⟨hg, rfl⟩
      rw [hplus hg] at hs
      cases hs
    rw [List.singleton_append, decode_single g c rest hc, if_neg hkeep]
  · obtain ⟨hf, rfl⟩ := hspace
    rw [List.singleton_append, decode_single g 43 rest (by decide), if_pos ⟨hfg hf, rfl⟩]
  · exact decode_escape g _ _ c rest (hexByte_digits c)

theorem decode_encode (safe : UInt8 → Bool) (f g : Bool) (hfg : f = true → g = true)
    (hpercent : safe 37 = false) (hplus : g = true → safe 43 = false) (s : Bytes) :
    decode g (encode safe f s) = s := by
  induction s with
  | nil => rfl
  | cons c s ih =>
    rw [encode, List.flatMap_cons, decode_encodeByte safe f g hfg hpercent hplus, ← encode, ih]

end Lamb.PercentCoding
