import Mathlib.Data.List.Nodup
import Lamb.Library.ByteString
import Mathlib.Data.List.GetD

/-!
# Base64

The 64 letters stand for their positions, four of them for three bytes. A text is a
sequence of complete groups of which only the last may end in one or two pads; the bits
that the pads leave over are not read. The decoder here is the reference for programs
that read and write such texts.
-/

set_option autoImplicit false

namespace Lamb.Base64
open Lamb.ByteString

def alphabet : Bytes :=
  "ABCDEFGHIJKLMNOPQRSTUVWXYZabcdefghijklmnopqrstuvwxyz0123456789+/".toUTF8.data.toList

def pad : UInt8 := 61

def letter (v : ℕ) : UInt8 := alphabet.getD v 0

def digit (c : UInt8) : ℕ := alphabet.idxOf c

def Letters (cs : Bytes) : Prop := ∀ c ∈ cs, c ∈ alphabet

instance lettersDecidable (cs : Bytes) : Decidable (Letters cs) :=
  inferInstanceAs (Decidable (∀ c ∈ cs, c ∈ alphabet))

def number (cs : Bytes) : ℕ := cs.foldl (fun n c => 64*n+digit c) 0

def beBytes (n v : ℕ) : Bytes := (leBytes n v).reverse

def groupBytes (letters : Bytes) (pads : ℕ) : Bytes :=
  beBytes (3-pads) (number letters / 4^pads)

def decode : Bytes → Option Bytes
  | [] => some []
  | a::b::c::d::rest =>
    if rest = [] ∧ c = pad ∧ d = pad then
      if Letters [a, b] then some (groupBytes [a, b] 2) else none
    else if rest = [] ∧ d = pad then
      if Letters [a, b, c] then some (groupBytes [a, b, c] 1) else none
    else if Letters [a, b, c, d] then (decode rest).map (groupBytes [a, b, c, d] 0 ++ ·)
    else none
  | _ => none

structure Text where
  groups : List Bytes
  last : Bytes
  pads : ℕ
  groups_letters : ∀ g ∈ groups, g.length = 4 ∧ Letters g
  last_letters : Letters last
  last_length : last.length+pads = 4
  pads_le : pads ≤ 2

namespace Text

def chars (t : Text) : Bytes := t.groups.flatten ++ (t.last ++ List.replicate t.pads pad)

def bytes (t : Text) : Bytes := t.groups.flatMap (groupBytes · 0) ++ groupBytes t.last t.pads

end Text

attribute [local simp] decode

section Alphabet

theorem alphabet_length : alphabet.length = 64 := by decide

def code (v : ℕ) : ℕ :=
  if v < 26 then 65+v else if v < 52 then 71+v else if v < 62 then v-4
  else if v = 62 then 43 else 47

theorem code_cases (v : ℕ) (hv : v < 64) :
    v < 26 ∧ code v = 65+v ∨ (26 ≤ v ∧ v < 52) ∧ code v = 71+v ∨
      (52 ≤ v ∧ v < 62) ∧ code v = v-4 ∨ v = 62 ∧ code v = 43 ∨ v = 63 ∧ code v = 47 := by
  unfold code
  split_ifs <;> omega

theorem code_lt (v : ℕ) (hv : v < 64) : code v < 2^8 := by
  have := code_cases v hv
  omega

theorem code_injective (v w : ℕ) (hv : v < 64) (hw : w < 64) (h : code v = code w) : v = w := by
  have := code_cases v hv
  have := code_cases w hw
  omega

theorem alphabet_codes : alphabet = (List.range 64).map fun v => UInt8.ofNat (code v) := by decide

theorem alphabet_nodup : alphabet.Nodup := by
  rw [alphabet_codes]
  refine List.Nodup.map_on ?_ List.nodup_range
  intro v hv w hw h
  rw [List.mem_range] at hv hw
  have hcode := congrArg UInt8.toNat h
  rw [UInt8.toNat_ofNat', UInt8.toNat_ofNat', Nat.mod_eq_of_lt (code_lt v hv),
    Nat.mod_eq_of_lt (code_lt w hw)] at hcode
  exact code_injective v w hv hw hcode

theorem pad_not_letter : pad ∉ alphabet := by decide

theorem letter_mem (v : ℕ) (hv : v < 64) : letter v ∈ alphabet := by
  have hlen : v < alphabet.length := by rwa [alphabet_length]
  rw [letter, List.getD_eq_getElem _ _ hlen]
  exact List.getElem_mem hlen

theorem letter_code (v : ℕ) (hv : v < 64) : (letter v).toNat = code v := by
  have hlen : v < ((List.range 64).map fun v => UInt8.ofNat (code v)).length := by
    rwa [List.length_map, List.length_range]
  rw [letter, alphabet_codes, List.getD_eq_getElem _ _ hlen, List.getElem_map,
    List.getElem_range, UInt8.toNat_ofNat', Nat.mod_eq_of_lt (code_lt v hv)]

theorem exists_letter (c : UInt8) (hc : c ∈ alphabet) : ∃ v, v < 64 ∧ letter v = c := by
  obtain ⟨v, hv, rfl⟩ := List.mem_iff_getElem.mp hc
  refine ⟨v, alphabet_length ▸ hv, ?_⟩
  rw [letter, List.getD_eq_getElem _ _ hv]

theorem digit_letter (v : ℕ) (hv : v < 64) : digit (letter v) = v := by
  have hlen : v < alphabet.length := by rwa [alphabet_length]
  rw [letter, List.getD_eq_getElem _ _ hlen, digit]
  exact alphabet_nodup.idxOf_getElem v hlen

theorem digit_lt (c : UInt8) (hc : c ∈ alphabet) : digit c < 64 := by
  rw [← alphabet_length]
  exact List.idxOf_lt_length_of_mem hc

end Alphabet

section Groups

theorem letters_cons (c : UInt8) (cs : Bytes) : Letters (c::cs) ↔ c ∈ alphabet ∧ Letters cs :=
  List.forall_mem_cons

@[simp] theorem beBytes_length (n v : ℕ) : (beBytes n v).length = n := by
  rw [beBytes, List.length_reverse, leBytes_length]

@[simp] theorem groupBytes_length (letters : Bytes) (pads : ℕ) :
    (groupBytes letters pads).length = 3-pads := beBytes_length _ _

theorem groupBytes_ne_nil (letters : Bytes) (pads : ℕ) (hp : pads ≤ 2) :
    groupBytes letters pads ≠ [] := by
  intro h
  have hlen := groupBytes_length letters pads
  rw [h, List.length_nil] at hlen
  omega

theorem number_letters (vs : List ℕ) (hv : ∀ v ∈ vs, v < 64) :
    number (vs.map letter) = vs.foldl (fun n v => 64*n+v) 0 := by
  rw [number, List.foldl_map]
  apply List.foldl_ext
  intro n v hmem
  rw [digit_letter v (hv v hmem)]

theorem beBytes_value (bs : Bytes) : beBytes bs.length (leValue bs.reverse) = bs := by
  rw [beBytes, ← List.length_reverse, leBytes_leValue, List.reverse_reverse]

theorem decode_group (group rest : Bytes) (hlen : group.length = 4) (hg : Letters group) :
    decode (group ++ rest) = (decode rest).map (groupBytes group 0 ++ ·) := by
  match group, hlen with
  | [a, b, c, d], _ =>
    have hd : d ≠ pad := by
      rintro rfl
      exact pad_not_letter (hg _ (by simp))
    simp only [List.cons_append, List.nil_append, decode, hd, and_false, if_false, if_pos hg]

theorem decode_last (letters : Bytes) (pads : ℕ) (hl : Letters letters)
    (hlen : letters.length+pads = 4) (hp : pads ≤ 2) :
    decode (letters ++ List.replicate pads pad) = some (groupBytes letters pads) := by
  match pads, letters, hp, hlen with
  | 0, letters, _, hlen =>
    rw [List.replicate_zero, decode_group letters [] hlen hl, decode, Option.map_some,
      List.append_nil]
  | 1, [a, b, c], _, _ =>
    have hc : c ≠ pad := by
      rintro rfl
      exact pad_not_letter (hl _ (by simp))
    simp [List.replicate, decode, hc, if_pos hl]
  | 2, [a, b], _, _ => simp [List.replicate, decode, if_pos hl]

theorem decode_chars (t : Text) : decode t.chars = some t.bytes := by
  obtain ⟨groups, last, pads, hg, hl, hlen, hp⟩ := t
  rw [Text.chars, Text.bytes]
  induction groups with
  | nil => exact decode_last last pads hl hlen hp
  | cons g groups ih =>
    obtain ⟨⟨hglen, hgl⟩, hrest⟩ := List.forall_mem_cons.mp hg
    rw [List.flatten_cons, List.append_assoc, decode_group g _ hglen hgl, ih hrest,
      Option.map_some, List.flatMap_cons, List.append_assoc]

def Text.cons (t : Text) (group : Bytes) (hlen : group.length = 4) (hg : Letters group) : Text where
  groups := group::t.groups
  last := t.last
  pads := t.pads
  groups_letters := List.forall_mem_cons.mpr ⟨⟨hlen, hg⟩, t.groups_letters⟩
  last_letters := t.last_letters
  last_length := t.last_length
  pads_le := t.pads_le

def Text.single (letters : Bytes) (pads : ℕ) (hl : Letters letters)
    (hlen : letters.length+pads = 4) (hp : pads ≤ 2) : Text where
  groups := []
  last := letters
  pads := pads
  groups_letters := fun _ hg => absurd hg List.not_mem_nil
  last_letters := hl
  last_length := hlen
  pads_le := hp

theorem single_chars (letters : Bytes) (pads : ℕ) (hl : Letters letters)
    (hlen : letters.length+pads = 4) (hp : pads ≤ 2) :
    (Text.single letters pads hl hlen hp).chars = letters ++ List.replicate pads pad := rfl

theorem single_bytes (letters : Bytes) (pads : ℕ) (hl : Letters letters)
    (hlen : letters.length+pads = 4) (hp : pads ≤ 2) :
    (Text.single letters pads hl hlen hp).bytes = groupBytes letters pads := rfl

theorem cons_chars (group : Bytes) (hlen : group.length = 4) (hg : Letters group) (t : Text) :
    (t.cons group hlen hg).chars = group ++ t.chars := List.append_assoc _ _ _

theorem cons_bytes (group : Bytes) (hlen : group.length = 4) (hg : Letters group) (t : Text) :
    (t.cons group hlen hg).bytes = groupBytes group 0 ++ t.bytes := List.append_assoc _ _ _

theorem chars_of_decode (cs bs : Bytes) (h : decode cs = some bs) (hne : cs ≠ []) :
    ∃ t : Text, t.chars = cs := by
  induction cs using decode.induct generalizing bs with
  | case1 => exact absurd rfl hne
  | case2 a b c d rest htwo hl =>
    obtain ⟨rfl, rfl, rfl⟩ := htwo
    exact ⟨.single [a, b] 2 hl rfl le_rfl, rfl⟩
  | case3 a b c d rest htwo hl =>
    rw [decode, if_pos htwo, if_neg hl] at h
    cases h
  | case4 a b c d rest htwo hone hl =>
    obtain ⟨rfl, rfl⟩ := hone
    exact ⟨.single [a, b, c] 1 hl rfl (by decide), rfl⟩
  | case5 a b c d rest htwo hone hl =>
    rw [decode, if_neg htwo, if_pos hone, if_neg hl] at h
    cases h
  | case6 a b c d rest htwo hone hl ih =>
    rw [decode, if_neg htwo, if_neg hone, if_pos hl] at h
    obtain ⟨bs', hrest, -⟩ := Option.map_eq_some_iff.mp h
    by_cases hnil : rest = []
    · subst hnil
      exact ⟨.single [a, b, c, d] 0 hl rfl (by decide), rfl⟩
    · obtain ⟨t, ht⟩ := ih bs' hrest hnil
      refine ⟨t.cons [a, b, c, d] rfl hl, ?_⟩
      rw [cons_chars, ht]
      rfl
  | case7 a b c d rest htwo hone hl =>
    rw [decode, if_neg htwo, if_neg hone, if_neg hl] at h
    cases h
  | case8 cs hshort hlong =>
    rw [decode] at h
    · cases h
    · exact hshort
    · exact hlong

theorem flatten_length_groups (groups : List Bytes)
    (hg : ∀ g ∈ groups, g.length = 4 ∧ Letters g) : groups.flatten.length = 4*groups.length := by
  induction groups with
  | nil => rfl
  | cons g groups ih =>
    obtain ⟨⟨hlen, -⟩, hrest⟩ := List.forall_mem_cons.mp hg
    rw [List.flatten_cons, List.length_append, ih hrest, List.length_cons]
    omega

theorem chars_length (t : Text) : t.chars.length = 4*(t.groups.length+1) := by
  have hlast := t.last_length
  rw [Text.chars, List.length_append, List.length_append, List.length_replicate,
    flatten_length_groups _ t.groups_letters]
  omega

theorem bytes_length (t : Text) : t.bytes.length = 3*(t.groups.length+1)-t.pads := by
  have hp := t.pads_le
  have hgroups : (t.groups.flatMap (groupBytes · 0)).length = 3*t.groups.length := by
    simp [List.length_flatMap, Nat.mul_comm]
  rw [Text.bytes, List.length_append, hgroups, groupBytes_length]
  omega

theorem letters_groups (t : Text) : Letters (t.groups.flatten ++ t.last) := by
  intro c hc
  rcases List.mem_append.mp hc with h | h
  · obtain ⟨g, hg, hmem⟩ := List.mem_flatten.mp h
    exact (t.groups_letters g hg).2 c hmem
  · exact t.last_letters c h

theorem bytes_ne_nil (t : Text) : t.bytes ≠ [] :=
  List.append_ne_nil_of_right_ne_nil _ (groupBytes_ne_nil _ _ t.pads_le)

theorem count_pad (t : Text) : t.chars.count pad = t.pads := by
  have hnone : (t.groups.flatten ++ t.last).count pad = 0 :=
    List.count_eq_zero.mpr fun h => pad_not_letter (letters_groups t _ h)
  rw [Text.chars, ← List.append_assoc, List.count_append, hnone, List.count_replicate_self,
    Nat.zero_add]

end Groups

end Lamb.Base64
