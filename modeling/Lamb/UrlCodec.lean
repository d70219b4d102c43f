import Lamb.HttpParams
import Lamb.Library.PercentCoding

/-!
# The URL codec

Both functions copy nothing until the first byte that they change, and then go on with a
string that holds what they have passed. The decoder is the percent decoder on every
string, and undoes the encoder.
-/

set_option autoImplicit false

namespace Lamb.UrlCodec
open Lamb.ByteString Lamb.Http Lamb.HttpParams

/-- The table `uri_chars`. -/
def charIsUnreserved (c : UInt8) : Bool :=
  c = 45 ∨ c = 46 ∨ (48 ≤ c ∧ c ≤ 57) ∨ c = 61 ∨ (65 ≤ c ∧ c ≤ 90) ∨ c = 95 ∨
    (97 ≤ c ∧ c ≤ 122) ∨ c = 126

def hexdigits : Bytes := ascii "0123456789ABCDEF"

/-- The loop of `UrlEncode` at offset `c` with the string `ss`, which is missing as long
as nothing was changed. -/
def encodeLoop (spaceAsPlus : Bool) (str : Bytes) : Bytes → ℕ → Option Bytes → Option Bytes
  | [], _, ss => ss
  | ch::rest, c, ss =>
    if charIsUnreserved ch then encodeLoop spaceAsPlus str rest (c+1) (ss.map (· ++ [ch]))
    else
      let copied := ss.getD (str.take c)
      encodeLoop spaceAsPlus str rest (c+1) (some (copied ++
        if ch = 32 ∧ spaceAsPlus then [43]
        else [37, hexdigits.getD (ch >>> 4).toNat 0, hexdigits.getD (ch &&& 0xf).toNat 0]))

def urlEncode (spaceAsPlus : Bool) (str : Bytes) : Bytes :=
  (encodeLoop spaceAsPlus str str 0 none).getD str

/-- The loop of `UrlDecode`. -/
def decodeLoop (spaceAsPlus : Bool) (str : Bytes) : Bytes → ℕ → Option Bytes → Option Bytes
  | [], _, ss => ss
  | 37::a::b::rest, c, ss =>
    if isxdigit a && isxdigit b then
      decodeLoop spaceAsPlus str rest (c+3)
        (some (ss.getD (str.take c) ++ [xdigit a <<< 4 ||| xdigit b]))
    else decodeLoop spaceAsPlus str (a::b::rest) (c+1) (ss.map (· ++ [37]))
  | ch::rest, c, ss =>
    if ch = 43 ∧ spaceAsPlus then
      decodeLoop spaceAsPlus str rest (c+1) (some (ss.getD (str.take c) ++ [32]))
    else decodeLoop spaceAsPlus str rest (c+1) (ss.map (· ++ [ch]))

def urlDecode (spaceAsPlus : Bool) (str : Bytes) : Bytes :=
  (decodeLoop spaceAsPlus str str 0 none).getD str

section Lazy

def passed (str : Bytes) (c : ℕ) (ss : Option Bytes) : Bytes := ss.getD (str.take c)

theorem passed_some (str : Bytes) (c : ℕ) (s : Bytes) : passed str c (some s) = s := rfl

theorem passed_keep (str : Bytes) (c : ℕ) (ss : Option Bytes) (ch : UInt8) (rest : Bytes)
    (h : str.drop c = ch::rest) :
    passed str (c+1) (ss.map (· ++ [ch])) = passed str c ss ++ [ch] := by
  cases ss with
  | some s => rfl
  | none =>
    have hget : str[c]? = some ch := by
      rw [← List.head?_drop, h]
      rfl
    simp only [passed, Option.map_none, Option.getD_none, List.take_add_one, hget,
      Option.toList_some]

theorem drop_next (str : Bytes) (c : ℕ) (ch : UInt8) (rest : Bytes) (h : str.drop c = ch::rest) :
    str.drop (c+1) = rest := by
  rw [← List.drop_drop, h]
  rfl

theorem passed_end (str : Bytes) (c : ℕ) (ss : Option Bytes) (h : str.drop c = []) :
    ss.getD str = passed str c ss := by
  rw [passed, List.take_of_length_le (List.drop_eq_nil_iff.mp h)]

end Lazy

section Encoding

theorem hexdigits_digit : ∀ v < 16, hexdigits.getD v 0 = PercentCoding.hexDigit v := by decide

theorem shiftRight_four (c : UInt8) : (c >>> 4).toNat = c.toNat/16 := by
  rw [UInt8.toNat_shiftRight, Nat.shiftRight_eq_div_pow]
  rfl

theorem and_fifteen (c : UInt8) : (c &&& 0xf).toNat = c.toNat % 16 := by
  rw [UInt8.toNat_and]
  exact Nat.and_two_pow_sub_one_eq_mod c.toNat 4

theorem encodeLoop_encode (f : Bool) (str rest : Bytes) (c : ℕ) (ss : Option Bytes)
    (h : str.drop c = rest) :
    (encodeLoop f str rest c ss).getD str =
      passed str c ss ++ PercentCoding.encode charIsUnreserved f rest := by
  induction rest generalizing c ss with
  | nil =>
    rw [encodeLoop, passed_end str c ss h]
    simp [PercentCoding.encode]
  | cons ch rest ih =>
    have hnext := drop_next str c ch rest h
    have hcons : PercentCoding.encode charIsUnreserved f (ch::rest) =
        PercentCoding.encodeByte charIsUnreserved f ch ++
          PercentCoding.encode charIsUnreserved f rest := List.flatMap_cons
    rw [encodeLoop, hcons]
    by_cases hu : charIsUnreserved ch = true
    · rw [if_pos hu, ih _ _ hnext, passed_keep str c ss ch rest h, PercentCoding.encodeByte,
        if_pos hu, List.append_assoc]
    · rw [if_neg hu, ih _ _ hnext, passed_some, ← passed, PercentCoding.encodeByte, if_neg hu,
        List.append_assoc]
      have hc := ch.toNat_lt
      congr 2
      rw [shiftRight_four, and_fifteen, hexdigits_digit _ (by omega), hexdigits_digit _ (by omega)]
      simp only [and_comm]

theorem urlEncode_encode (f : Bool) (str : Bytes) :
    urlEncode f str = PercentCoding.encode charIsUnreserved f str := by
  rw [urlEncode, encodeLoop_encode f str str 0 none rfl]
  rfl

end Encoding

section Decoding

theorem xdigit_toNat (c : UInt8) : (xdigit c).toNat =
    if 48 ≤ c ∧ c ≤ 57 then c.toNat-48
    else if 65 ≤ c ∧ c ≤ 70 then c.toNat-55
    else if 97 ≤ c ∧ c ≤ 102 then c.toNat-87
    else 0 := by
  unfold xdigit
  split_ifs with h₁ h₂ h₃
  · exact UInt8.toNat_sub_of_le c 48 h₁.1
  · exact UInt8.toNat_sub_of_le c 55 (UInt8.le_trans (by decide) h₂.1)
  · exact UInt8.toNat_sub_of_le c 87 (UInt8.le_trans (by decide) h₃.1)
  · rfl

theorem hexValue_eq (c : UInt8) :
    PercentCoding.hexValue c = if isxdigit c then some (xdigit c).toNat else none := by
  rw [PercentCoding.hexValue, xdigit_toNat]
  simp only [isxdigit, decide_eq_true_eq]
  by_cases h₁ : 48 ≤ c ∧ c ≤ 57
  · rw [if_pos h₁, if_pos (.inl h₁), if_pos h₁]
  by_cases h₂ : 65 ≤ c ∧ c ≤ 70
  · rw [if_neg h₁, if_pos h₂, if_pos (.inr (.inl h₂)), if_neg h₁, if_pos h₂]
  by_cases h₃ : 97 ≤ c ∧ c ≤ 102
  · rw [if_neg h₁, if_neg h₂, if_pos h₃, if_pos (.inr (.inr h₃)), if_neg h₁, if_neg h₂, if_pos h₃]
  · rw [if_neg h₁, if_neg h₂, if_neg h₃, if_neg (not_or.mpr ⟨h₁, not_or.mpr ⟨h₂, h₃⟩⟩)]

theorem xdigit_lt (c : UInt8) : (xdigit c).toNat < 16 := by
  rw [xdigit_toNat]
  simp only [UInt8.le_iff_toNat_le, UInt8.reduceToNat]
  split_ifs <;> omega

theorem shift_or_nibble (x y : UInt8) (hx : x.toNat < 16) (hy : y.toNat < 16) :
    x <<< 4 ||| y = UInt8.ofNat (16*x.toNat+y.toNat) := by
  apply UInt8.toNat_inj.mp
  have hshift : (x <<< 4).toNat = x.toNat <<< 4 := by
    have hlt : x.toNat <<< 4 < 2^8 := by
      rw [Nat.shiftLeft_eq]
      omega
    rw [UInt8.toNat_shiftLeft]
    exact Nat.mod_eq_of_lt hlt
  rw [UInt8.toNat_or, hshift, ← Nat.shiftLeft_add_eq_or_of_lt hy, UInt8.toNat_ofNat',
    Nat.shiftLeft_eq, Nat.mod_eq_of_lt (by omega)]
  omega

theorem hexByte_eq (a b : UInt8) :
    PercentCoding.hexByte a b =
      if isxdigit a && isxdigit b then some (xdigit a <<< 4 ||| xdigit b) else none := by
  rw [PercentCoding.hexByte, hexValue_eq, hexValue_eq,
    shift_or_nibble _ _ (xdigit_lt a) (xdigit_lt b)]
  cases isxdigit a <;> cases isxdigit b <;> rfl

theorem decodeLoop_decode (g : Bool) (str rest : Bytes) (c : ℕ) (ss : Option Bytes)
    (h : str.drop c = rest) :
    (decodeLoop g str rest c ss).getD str = passed str c ss ++ PercentCoding.decode g rest := by
  induction rest, c, ss using decodeLoop.induct g str with
  | case1 c ss =>
    rw [decodeLoop, passed_end str c ss h, PercentCoding.decode, List.append_nil]
  | case2 a b rest c ss hx ih =>
    have hrest : str.drop (c+3) = rest := by
      rw [← List.drop_drop, h]
      rfl
    have hbyte : PercentCoding.hexByte a b = some (xdigit a <<< 4 ||| xdigit b) := by
      rw [hexByte_eq, if_pos hx]
    rw [decodeLoop, if_pos hx, ih hrest, passed_some, ← passed,
      PercentCoding.decode_escape g a b _ rest hbyte, List.append_assoc, List.singleton_append]
  | case3 a b rest c ss hx ih =>
    have hbyte : PercentCoding.hexByte a b = none := by rw [hexByte_eq, if_neg hx]
    rw [decodeLoop, if_neg hx, ih (drop_next str c _ _ h), passed_keep str c ss _ _ h,
      PercentCoding.decode, hbyte, List.append_assoc, List.singleton_append]
  | case4 ch rest c ss hshape hp ih =>
    rw [decodeLoop, if_pos hp, ih (drop_next str c _ _ h), passed_some, ← passed,
      PercentCoding.decode, if_pos hp.symm, List.append_assoc, List.singleton_append]
    · exact hshape
    · exact hshape
  | case5 ch rest c ss hshape hp ih =>
    rw [decodeLoop, if_neg hp, ih (drop_next str c _ _ h), passed_keep str c ss _ _ h,
      PercentCoding.decode, if_neg (fun hp' => hp hp'.symm), List.append_assoc,
      List.singleton_append]
    · exact hshape
    · exact hshape

theorem urlDecode_decode (g : Bool) (str : Bytes) :
    urlDecode g str = PercentCoding.decode g str := by
  rw [urlDecode, decodeLoop_decode g str str 0 none rfl]
  rfl

end Decoding

section Codec

/-- `UrlDecode` undoes `UrlEncode` unless it leaves a `+` that stands for a space, and on
every string it is the percent decoder. -/
theorem urlDecode_urlEncode (f g : Bool) (s t : Bytes) :
    ((f = true → g = true) → urlDecode g (urlEncode f s) = s) ∧
      urlDecode g t = PercentCoding.decode g t := by
  refine ⟨?_, urlDecode_decode g t⟩
  intro hfg
  rw [urlDecode_decode, urlEncode_encode]
  exact PercentCoding.decode_encode charIsUnreserved f g hfg (by decide) (fun _ => by decide) s

theorem urlDecode_urlEncode_space :
    urlDecode true (urlEncode true [97, 32, 43, 37]) = [97, 32, 43, 37] :=
  (urlDecode_urlEncode true true [97, 32, 43, 37] []).1 fun _ => rfl

theorem params_urlDecode (str : Bytes) : HttpParams.urlDecode str = urlDecode true str := by
  rw [urlDecode_decode]
  induction str using HttpParams.urlDecode.induct with
  | case1 => rfl
  | case2 a b rest hx ih =>
    have hbyte : PercentCoding.hexByte a b = some (xdigit a <<< 4 ||| xdigit b) := by
      rw [hexByte_eq, if_pos hx]
    rw [HttpParams.urlDecode, if_pos hx, ih, PercentCoding.decode_escape true a b _ rest hbyte]
  | case3 a b rest hx ih =>
    have hbyte : PercentCoding.hexByte a b = none := by rw [hexByte_eq, if_neg hx]
    rw [HttpParams.urlDecode, if_neg hx, ih, PercentCoding.decode, hbyte]
  | case4 c rest hshape ih =>
    rw [HttpParams.urlDecode, ih, PercentCoding.decode]
    · simp
    · exact hshape
    · exact hshape

end Codec

end Lamb.UrlCodec
