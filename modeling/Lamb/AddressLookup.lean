import Lamb.Address
import Lamb.HttpUrl
import Lamb.Library.Separated

/-!
# Address::Lookup

The host text is cut into the node and the service for `getaddrinfo` by three scans. Each
of the later ones runs if the node is still empty. The service is a pointer into the host
text, which an earlier scan leaves where it was.
-/

set_option autoImplicit false

namespace Lamb.AddressLookup
open Lamb.ByteString Lamb.Http Lamb.HttpUrl Lamb.Address Lamb.Separated

/-- The variables of the scans: `service` points at an offset of `host.c_str()`. -/
structure Scan where
  node : Bytes
  service : Option ℕ
  deriving DecidableEq

def bracketScan (host : Bytes) : Scan :=
  match host with
  | [] => { node := [], service := none }
  | c::rest =>
    if c = ('[' : UInt8) then
      match rest.idxOf? (']' : UInt8) with
      | some endipv6 => {
          node := rest.take endipv6
          service := if rest[endipv6+1]? = some (':' : UInt8) then some (endipv6+3) else none }
      | none => { node := [], service := none }
    else { node := [], service := none }

def colonScan (host : Bytes) (s : Scan) : Scan :=
  if s.node.isEmpty then
    match host.idxOf? (':' : UInt8) with
    | some service =>
      match (host.drop (service+1)).idxOf? (':' : UInt8) with
      | some _ => { s with service := some service }
      | none => { node := host.take service, service := some (service+1) }
    | none => { s with service := none }
  else s

def wholeScan (host : Bytes) (s : Scan) : Scan :=
  if s.node.isEmpty then { s with node := host } else s

def scan (host : Bytes) : Scan := wholeScan host (colonScan host (bracketScan host))

def cString (s : Bytes) : Bytes := s.takeWhile (· ≠ 0)

structure Hints where
  family : ℤ
  socktype : ℤ
  protocol : ℤ
  deriving DecidableEq

/-- The arguments of a call of `getaddrinfo`. -/
structure Call where
  node : Bytes
  service : Option Bytes
  hints : Hints
  deriving DecidableEq

def call (host : Bytes) (family type protocol : ℤ) : Call :=
  let s := scan host
  { node := cString s.node
    service := s.service.map fun offset => cString (host.drop offset)
    hints := { family := family, socktype := type, protocol := protocol } }

/-- `Address::Lookup` with the addresses that are in `result` behind the call. -/
def lookup (getaddrinfo : Call → Except ℤ (List (Option Sockaddr))) (result : List (Option AnyAddress))
    (host : Bytes) (family type protocol : ℤ) : List (Option AnyAddress) × Bool :=
  match getaddrinfo (call host family type protocol) with
  | .error _ => (result, false)
  | .ok results =>
    let result := result ++ results.map create
    (result, !result.isEmpty)

def Opens (host inner rest : Bytes) : Prop :=
  host = ('[' : UInt8)::(inner ++ (']' : UInt8)::rest) ∧ (']' : UInt8) ∉ inner

def Bracketed (host : Bytes) : Prop :=
  ∃ inner rest, Opens host inner rest ∧ (rest = [] ∨ rest.head? = some (':' : UInt8))

inductive Grammar : Bytes → Bytes → Option Bytes → Prop
  | literalService {host x y : Bytes} (h : Opens host x ((':' : UInt8)::y)) :
      Grammar host x (some y)
  | literal {host x : Bytes} (h : Opens host x []) : Grammar host x none
  | nodeService {x y : Bytes} (h : ¬Bracketed (x ++ (':' : UInt8)::y)) (hne : x ≠ [])
      (hx : (':' : UInt8) ∉ x) (hy : (':' : UInt8) ∉ y) :
      Grammar (x ++ (':' : UInt8)::y) x (some y)
  | noColon {host : Bytes} (h : ¬Bracketed host) (hcolon : (':' : UInt8) ∉ host) :
      Grammar host host none
  | manyColons {host : Bytes} (h : ¬Bracketed host) (hcolons : 2 ≤ host.count (':' : UInt8)) :
      Grammar host host none

/-- The call gets the parts of the host text that the grammar names. -/
def Splits (host : Bytes) : Prop :=
  ∀ (node : Bytes) (service : Option Bytes) (family type protocol : ℤ), Grammar host node service →
    call host family type protocol =
      { node := cString node
        service := service.map cString
        hints := { family := family, socktype := type, protocol := protocol } }

/-- The shapes that the scans split well: brackets around a text, alone or in front of a
colon, or at most one colon and no text in a pair of brackets at the front. -/
inductive Supported (host : Bytes) : Prop
  | brackets {inner rest : Bytes} (h : Opens host inner rest) (hinner : inner ≠ [])
      (hrest : rest = [] ∨ rest.head? = some (':' : UInt8))
  | plain (h : ¬Bracketed host) (hopens : ∀ inner rest, Opens host inner rest → inner = [])
      (hcolons : host.count (':' : UInt8) ≤ 1)

theorem opens_unique {host x x' rest rest' : Bytes} (h : Opens host x rest)
    (h' : Opens host x' rest') : x' = x ∧ rest' = rest := by
  have heq := List.cons.inj (h.1.symm.trans h'.1)
  have hx : x = x' := by
    have := congrArg (List.takeWhile (· ≠ (']' : UInt8))) heq.2
    rwa [takeWhile_append h.2, takeWhile_append h'.2] at this
  subst hx
  have hrest := List.append_cancel_left heq.2
  exact ⟨rfl, (List.cons.inj hrest).2.symm⟩

section Scans

variable {host inner rest : Bytes}

theorem bracketScan_opens (h : Opens host inner rest) :
    bracketScan host = {
      node := inner
      service := if rest.head? = some (':' : UInt8) then some (inner.length+3) else none } := by
  have hbehind : (inner ++ (']' : UInt8)::rest)[inner.length+1]? = rest.head? := by
    rw [List.getElem?_append_right (by omega), List.head?_eq_getElem?]
    simp
  rw [h.1]
  simp only [bracketScan, if_true, idxOf_append h.2, List.take_left', hbehind]

theorem bracketScan_closed (h : ∀ inner rest, ¬Opens host inner rest) :
    bracketScan host = { node := [], service := none } := by
  cases host with
  | nil => rfl
  | cons c tail =>
    by_cases hc : c = ('[' : UInt8)
    · have habsent : (']' : UInt8) ∉ tail := by
        intro hmem
        obtain ⟨inner, rest, heq, hinner⟩ := List.eq_append_cons_of_mem hmem
        exact h inner rest ⟨by rw [hc, heq], hinner⟩
      simp [bracketScan, hc, idxOf_absent habsent]
    · simp [bracketScan, hc]

theorem scan_restart (h : (bracketScan host).node = []) :
    scan host = wholeScan host (colonScan host { node := [], service := none }) := by
  simp only [scan, colonScan, h]
  rfl

theorem scan_opens (h : Opens host inner rest) (hinner : inner ≠ []) : scan host = {
      node := inner
      service := if rest.head? = some (':' : UInt8) then some (inner.length+3) else none } := by
  simp [scan, bracketScan_opens h, colonScan, wholeScan, hinner]

theorem scan_noColon (h : (bracketScan host).node = []) (hcolon : (':' : UInt8) ∉ host) :
    scan host = { node := host, service := none } := by
  rw [scan_restart h]
  simp [colonScan, idxOf_absent hcolon, wholeScan]

theorem scan_oneColon {x y : Bytes} (h : (bracketScan (x ++ (':' : UInt8)::y)).node = [])
    (hne : x ≠ []) (hx : (':' : UInt8) ∉ x) (hy : (':' : UInt8) ∉ y) :
    scan (x ++ (':' : UInt8)::y) = { node := x, service := some (x.length+1) } := by
  rw [scan_restart h]
  simp [colonScan, idxOf_append hx, idxOf_absent hy, wholeScan, hne]

/-- With a second colon, the pointer stays at the first one. -/
theorem scan_manyColons {x y : Bytes} (h : (bracketScan (x ++ (':' : UInt8)::y)).node = [])
    (hx : (':' : UInt8) ∉ x) (hy : (':' : UInt8) ∈ y) :
    scan (x ++ (':' : UInt8)::y) =
      { node := x ++ (':' : UInt8)::y, service := some x.length } := by
  obtain ⟨i, hi⟩ : ∃ i, y.idxOf? (':' : UInt8) = some i := by
    cases heq : y.idxOf? (':' : UInt8) with
    | none => exact absurd hy (List.idxOf?_eq_none_iff.mp heq)
    | some i => exact ⟨i, rfl⟩
  rw [scan_restart h]
  simp [colonScan, idxOf_append hx, hi, wholeScan]

/-- An unclosed or empty pair of brackets stays in front of the node. -/
theorem scan_bracket_front (h : (bracketScan host).node = [])
    (hfront : host.head? = some ('[' : UInt8)) : (scan host).node.head? = some ('[' : UInt8) := by
  by_cases hcolon : (':' : UInt8) ∈ host
  · obtain ⟨x, y, heq, hx⟩ := List.eq_append_cons_of_mem hcolon
    subst heq
    by_cases hy : (':' : UInt8) ∈ y
    · rw [scan_manyColons h hx hy]
      exact hfront
    · have hne : x ≠ [] := by
        rintro rfl
        exact absurd hfront (by simp; decide)
      rw [scan_oneColon h hne hx hy]
      obtain ⟨c, x', rfl⟩ := List.exists_cons_of_ne_nil hne
      exact hfront
  · rw [scan_noColon h hcolon]
    exact hfront

end Scans

section Grammar

variable {host inner rest : Bytes}

theorem opens_front (h : Opens host inner rest) : host.head? = some ('[' : UInt8) := by
  rw [h.1, List.head?_cons]

theorem node_empty (h : ∀ inner rest, Opens host inner rest → inner = []) :
    (bracketScan host).node = [] := by
  by_cases hopens : ∃ inner rest, Opens host inner rest
  · obtain ⟨inner, rest, hopens⟩ := hopens
    rw [bracketScan_opens hopens, h inner rest hopens]
  · push Not at hopens
    rw [bracketScan_closed hopens]

theorem cString_front {s : Bytes} (h : s.head? = some ('[' : UInt8)) : cString s ≠ [] := by
  obtain ⟨tail, rfl⟩ := List.head?_eq_some_iff.mp h
  rw [cString, List.takeWhile_cons_of_pos (by decide)]
  exact List.cons_ne_nil _ _

/-- The text inside brackets is never the whole text, as both end at the first null byte. -/
theorem cString_inner (h : Opens host inner rest) : cString inner ≠ cString host := by
  intro heq
  have hle : (cString inner).length ≤ (cString (inner ++ (']' : UInt8)::rest)).length := by
    simp only [cString, List.takeWhile_append]
    split
    · rename_i hfull
      rw [List.length_append, hfull]
      exact Nat.le_add_right _ _
    · exact le_refl _
  have hlen := congrArg List.length heq
  rw [h.1, cString, cString, List.takeWhile_cons_of_pos (by decide), List.length_cons] at hlen
  exact absurd hle (by simp only [cString]; omega)

theorem supported_splits (h : Supported host) : Splits host := by
  intro node service family type protocol hg
  cases h with
  | @brackets inner rest h hinner hrest =>
    have hb : Bracketed host := ⟨inner, rest, h, hrest⟩
    cases hg with
    | @literalService _ x y hx =>
      obtain ⟨rfl, rfl⟩ := opens_unique h hx
      have hdrop : host.drop (node.length+3) = y := by
        rw [h.1]
        simp
      simp [call, scan_opens h hinner, hdrop]
    | literal hx =>
      obtain ⟨rfl, rfl⟩ := opens_unique h hx
      simp [call, scan_opens h hinner]
    | nodeService hn => exact absurd hb hn
    | noColon hn => exact absurd hb hn
    | manyColons hn => exact absurd hb hn
  | plain hn hopens hcolons =>
    have hempty := node_empty hopens
    cases hg with
    | literalService hx => exact absurd ⟨_, _, hx, Or.inr rfl⟩ hn
    | literal hx => exact absurd ⟨_, _, hx, Or.inl rfl⟩ hn
    | nodeService _ hne hx hy => simp [call, scan_oneColon hempty hne hx hy]
    | noColon _ hcolon => simp [call, scan_noColon hempty hcolon]
    | manyColons _ hmany => omega

theorem not_splits_junk (h : Opens host inner rest) (hinner : inner ≠ [])
    (hrest : ¬(rest = [] ∨ rest.head? = some (':' : UInt8))) : ¬Splits host := by
  have hn : ¬Bracketed host := by
    rintro ⟨x, y, hx, hy⟩
    obtain ⟨rfl, rfl⟩ := opens_unique h hx
    exact hrest hy
  have hscan := scan_opens h hinner
  rw [if_neg (fun heq => hrest (Or.inr heq))] at hscan
  intro hsplits
  have hwhole : ¬Grammar host host none := by
    intro hg
    have heq := congrArg Call.node (hsplits host none 0 0 0 hg)
    simp only [call, hscan] at heq
    exact cString_inner h heq
  by_cases hcolon : (':' : UInt8) ∈ host
  · by_cases hmany : 2 ≤ host.count (':' : UInt8)
    · exact hwhole (Grammar.manyColons hn hmany)
    · obtain ⟨x, y, heq, hx⟩ := List.eq_append_cons_of_mem hcolon
      subst heq
      have hy : (':' : UInt8) ∉ y := by
        intro hmem
        have := List.count_pos_iff.mpr hmem
        rw [List.count_append, List.count_cons_self] at hmany
        omega
      have hne : x ≠ [] := by
        rintro rfl
        exact absurd (opens_front h) (by simp; decide)
      have hservice := congrArg Call.service
        (hsplits x (some y) 0 0 0 (Grammar.nodeService hn hne hx hy))
      simp [call, hscan] at hservice
  · exact hwhole (Grammar.noColon hn hcolon)

/-- Brackets around nothing are taken for a part of the node. -/
theorem not_splits_empty (h : Opens host [] rest)
    (hrest : rest = [] ∨ rest.head? = some (':' : UInt8)) : ¬Splits host := by
  have hempty : (bracketScan host).node = [] := by rw [bracketScan_opens h]
  have hnode := cString_front (scan_bracket_front hempty (opens_front h))
  intro hsplits
  cases rest with
  | nil => exact hnode (congrArg Call.node (hsplits [] none 0 0 0 (Grammar.literal h)))
  | cons c y =>
    have hc : c = (':' : UInt8) := by simpa using hrest
    rw [hc] at h
    exact hnode (congrArg Call.node (hsplits [] (some y) 0 0 0 (Grammar.literalService h)))

theorem not_splits_many (hn : ¬Bracketed host) (hempty : (bracketScan host).node = [])
    (hmany : 2 ≤ host.count (':' : UInt8)) : ¬Splits host := by
  have hcolon : (':' : UInt8) ∈ host := List.count_pos_iff.mp (by omega)
  obtain ⟨x, y, heq, hx⟩ := List.eq_append_cons_of_mem hcolon
  subst heq
  have hy : (':' : UInt8) ∈ y := by
    apply List.count_pos_iff.mp
    rw [List.count_append, List.count_cons_self, List.count_eq_zero_of_not_mem hx] at hmany
    omega
  intro hsplits
  have hservice := congrArg Call.service (hsplits _ none 0 0 0 (Grammar.manyColons hn hmany))
  simp [call, scan_manyColons hempty hx hy] at hservice

end Grammar

/-- The call gets the node and the service of the grammar for the supported shapes alone. -/
theorem splits_iff (host : Bytes) : Splits host ↔ Supported host := by
  constructor
  · intro hsplits
    by_cases hopens : ∃ inner rest, Opens host inner rest ∧ inner ≠ []
    · obtain ⟨inner, rest, h, hinner⟩ := hopens
      by_cases hrest : rest = [] ∨ rest.head? = some (':' : UInt8)
      · exact Supported.brackets h hinner hrest
      · exact absurd hsplits (not_splits_junk h hinner hrest)
    · push Not at hopens
      by_cases hb : Bracketed host
      · obtain ⟨inner, rest, h, hrest⟩ := hb
        rw [hopens inner rest h] at h
        exact absurd hsplits (not_splits_empty h hrest)
      · by_cases hmany : 2 ≤ host.count (':' : UInt8)
        · exact absurd hsplits (not_splits_many hb (node_empty hopens) hmany)
        · exact Supported.plain hb hopens (by omega)
  · exact supported_splits

/-- The service of a bare IPv6 literal is what stands from its first colon on. -/
theorem bare_literal_service : ¬Splits (ascii "fe80::1") := by
  intro hsplits
  have hn : ¬Bracketed (ascii "fe80::1") := by
    rintro ⟨inner, rest, h, -⟩
    exact absurd (opens_front h) (by decide)
  have hcall := hsplits _ none 2 0 0 (Grammar.manyColons hn (by decide))
  exact absurd (congrArg Call.service hcall) (by decide)

end Lamb.AddressLookup
