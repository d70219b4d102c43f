import Lamb.HttpParamScan

/-!
# Segments without a value

A segment without `=` is no pair of its own, but the scanner takes it into the key of the
next pair. Inserting one changes at most that key: the pairs before the boundary and the
pairs after the next one stay. Whether a lookup sees the change depends on the two
spellings of the key only.
-/

set_option autoImplicit false

namespace Lamb.HttpValueless
open Lamb.ByteString Lamb.Http Lamb.HttpParams Lamb.HttpParamScan

/-- The text with one more segment at a boundary, the last one for a large `i`. -/
def insertSegment (flag : UInt8) (i : ℕ) (w text : Bytes) : Bytes :=
  joined flag ((text.splitOn flag).take i ++ w::(text.splitOn flag).drop i)

def Valueless (flag : UInt8) (trim : Bytes → Bytes) (text k : Bytes) : Prop :=
  ∃ seg ∈ text.splitOn flag, 61 ∉ seg ∧ folded (urlDecode (trim seg)) = folded k

instance valuelessDecidable (flag : UInt8) (trim : Bytes → Bytes) (text k : Bytes) :
    Decidable (Valueless flag trim text k) :=
  inferInstanceAs
    (Decidable (∃ seg ∈ text.splitOn flag, 61 ∉ seg ∧ folded (urlDecode (trim seg)) = folded k))

def passed (flag : UInt8) : Bytes → List Bytes → Bytes
  | carry, [] => carry
  | carry, seg::segs =>
    if 61 ∈ seg then passed flag [] segs else passed flag (carry ++ (seg ++ [flag])) segs

def Settled (skip : Bytes → Prop) (before after : List (Bytes × Bytes)) (v x : Bytes) : Prop :=
  skip x ∨ firstValue x before ≠ none ∨ firstValue x after = some v

/-- The insertion of `w` in front of the `i`-th segment is not seen: no pair follows, its
key stays the same, or the lookups of both keys are settled otherwise. -/
def Unseen (flag : UInt8) (trim : Bytes → Bytes) (more : List (Bytes × Bytes)) (i : ℕ)
    (w text : Bytes) : Prop :=
  let segs := text.splitOn flag
  let start := passed flag [] (segs.take i)
  match segmentPairs flag [] (segs.drop i) with
  | [] => True
  | (k, v)::rest =>
    let key := urlDecode (trim (start ++ k))
    let key' := urlDecode (trim (start ++ (w ++ flag::k)))
    folded key = folded key' ∨ ∀ x ∈ [key, key'],
      Settled (Valueless flag trim (insertSegment flag i w text))
        ((segmentPairs flag [] (segs.take i)).map (decoded trim))
        (rest.map (decoded trim) ++ more) (urlDecode v) x

section Pairs

theorem segmentPairs_append (flag : UInt8) (carry : Bytes) (before after : List Bytes) :
    segmentPairs flag carry (before ++ after) =
      segmentPairs flag carry before ++ segmentPairs flag (passed flag carry before) after := by
  induction before generalizing carry with
  | nil => rfl
  | cons seg before ih =>
    rw [List.cons_append]
    by_cases heq : 61 ∈ seg
    · obtain ⟨k, v, rfl, hk⟩ := List.eq_append_cons_of_mem heq
      rw [segmentPairs_pair flag carry k v _ hk, segmentPairs_pair flag carry k v _ hk, ih, passed,
        if_pos heq, List.cons_append]
    · rw [segmentPairs_valueless flag carry seg _ heq, segmentPairs_valueless flag carry seg _ heq,
        ih, passed, if_neg heq]

/-- What was passed goes into the key of the first pair, and nowhere else. -/
theorem segmentPairs_carry (flag : UInt8) (start carry : Bytes) (segs : List Bytes) :
    segmentPairs flag (start ++ carry) segs =
      match segmentPairs flag carry segs with
      | [] => []
      | (k, v)::rest => (start ++ k, v)::rest := by
  induction segs generalizing carry with
  | nil => rfl
  | cons seg segs ih =>
    by_cases heq : 61 ∈ seg
    · obtain ⟨k, v, rfl, hk⟩ := List.eq_append_cons_of_mem heq
      rw [segmentPairs_pair flag _ k v _ hk, segmentPairs_pair flag _ k v _ hk, List.append_assoc]
    · rw [segmentPairs_valueless flag _ seg _ heq, segmentPairs_valueless flag _ seg _ heq,
        List.append_assoc, ih]

variable (flag : UInt8) (trim : Bytes → Bytes) (i : ℕ) (w text : Bytes)

theorem text_pairs (hflag : flag ≠ 61) :
    parseParam flag trim text = (segmentPairs flag [] (text.splitOn flag)).map (decoded trim) := by
  have hjoin : joined flag (text.splitOn flag) = text := List.intercalate_splitOn flag
  have hparse := parseParam_joined flag trim hflag (text.splitOn flag)
    (Separated.not_mem_splitOn text)
  rwa [hjoin] at hparse

theorem inserted_segments (hw : flag ∉ w) :
    (insertSegment flag i w text).splitOn flag =
      (text.splitOn flag).take i ++ w::(text.splitOn flag).drop i := by
  apply List.splitOn_intercalate
  · intro seg hseg
    rcases List.mem_append.mp hseg with h | h
    · exact Separated.not_mem_splitOn text seg (List.mem_of_mem_take h)
    · rcases List.mem_cons.mp h with rfl | h
      · exact hw
      · exact Separated.not_mem_splitOn text seg (List.mem_of_mem_drop h)
  · simp

theorem pairs_at (hflag : flag ≠ 61) :
    parseParam flag trim text =
      ((segmentPairs flag [] ((text.splitOn flag).take i)).map (decoded trim)) ++
        (segmentPairs flag (passed flag [] ((text.splitOn flag).take i))
          ((text.splitOn flag).drop i)).map (decoded trim) := by
  rw [text_pairs flag trim text hflag, ← List.map_append, ← segmentPairs_append,
    List.take_append_drop]

theorem pairs_inserted (hflag : flag ≠ 61) (hw : flag ∉ w) (hequals : 61 ∉ w) :
    parseParam flag trim (insertSegment flag i w text) =
      ((segmentPairs flag [] ((text.splitOn flag).take i)).map (decoded trim)) ++
        (segmentPairs flag (passed flag [] ((text.splitOn flag).take i) ++ (w ++ [flag]))
          ((text.splitOn flag).drop i)).map (decoded trim) := by
  rw [text_pairs flag trim _ hflag, inserted_segments flag i w text hw, segmentPairs_append,
    segmentPairs_valueless flag _ w _ hequals, List.map_append]

end Pairs

section Lookups

theorem firstValue_congr (x y : Bytes) (es : List (Bytes × Bytes)) (h : folded x = folded y) :
    firstValue x es = firstValue y es := by
  rw [firstValue, firstValue, h]

theorem firstValue_pair (x key v : Bytes) (before after : List (Bytes × Bytes)) :
    firstValue x (before ++ (key, v)::after) =
      (firstValue x before).or (if folded key = folded x then some v else firstValue x after) := by
  rw [firstValue_append, firstValue_cons]

/-- A settled key is one that is not asked, or one whose lookup the value does not change. -/
theorem settled_iff (skip : Bytes → Prop) (before after : List (Bytes × Bytes)) (v x : Bytes) :
    Settled skip before after v x ↔ skip x ∨
      (firstValue x before).or (some v) = (firstValue x before).or (firstValue x after) := by
  rw [Settled]
  cases hb : firstValue x before with
  | none =>
    rw [Option.none_or, Option.none_or]
    refine or_congr_right ⟨?_, ?_⟩
    · rintro (h | h)
      · exact absurd rfl h
      · exact h.symm
    · intro h
      exact Or.inr h.symm
  | some b =>
    rw [Option.some_or, Option.some_or]
    exact or_congr_right ⟨fun _ => rfl, fun _ => Or.inl (Option.some_ne_none b)⟩

theorem settled_same {skip : Bytes → Prop} {before after : List (Bytes × Bytes)} {v k x : Bytes}
    (hskip : ∀ x y, folded x = folded y → skip x → skip y) (h : Settled skip before after v k)
    (hfold : folded k = folded x) (hx : ¬ skip x) :
    (firstValue x before).or (some v) = (firstValue x before).or (firstValue x after) := by
  rcases (settled_iff skip before after v k).mp h with hk | hk
  · exact absurd (hskip k x hfold hk) hx
  · rwa [firstValue_congr k x before hfold, firstValue_congr k x after hfold] at hk

/-- Two lists of pairs that differ in one key: what a lookup may see of it. -/
theorem one_key_iff (skip : Bytes → Prop)
    (hskip : ∀ x y, folded x = folded y → skip x → skip y) (before after : List (Bytes × Bytes))
    (key key' v : Bytes) :
    (∀ x, ¬ skip x → firstValue x (before ++ (key', v)::after) =
        firstValue x (before ++ (key, v)::after)) ↔
      folded key = folded key' ∨ ∀ x ∈ [key, key'], Settled skip before after v x := by
  simp only [firstValue_pair, List.forall_mem_cons, List.not_mem_nil, false_implies,
    implies_true, and_true]
  constructor
  · intro h
    by_cases hkeys : folded key = folded key'
    · exact Or.inl hkeys
    · right
      simp only [settled_iff]
      constructor
      · by_cases hs : skip key
        · exact Or.inl hs
        · have hx := h key hs
          rw [if_pos rfl, if_neg (Ne.symm hkeys)] at hx
          exact Or.inr hx.symm
      · by_cases hs : skip key'
        · exact Or.inl hs
        · have hx := h key' hs
          rw [if_pos rfl, if_neg hkeys] at hx
          exact Or.inr hx
  · rintro (hkeys | ⟨hkey, hkey'⟩) x hx
    · rw [hkeys]
    · by_cases h' : folded key' = folded x
      · by_cases h : folded key = folded x
        · rw [if_pos h', if_pos h]
        · rw [if_pos h', if_neg h]
          exact settled_same hskip hkey' h' hx
      · by_cases h : folded key = folded x
        · rw [if_neg h', if_pos h]
          exact (settled_same hskip hkey h hx).symm
        · rw [if_neg h', if_neg h]

theorem valueless_congr (flag : UInt8) (trim : Bytes → Bytes) (text x y : Bytes)
    (h : folded x = folded y) (hx : Valueless flag trim text x) : Valueless flag trim text y := by
  obtain ⟨seg, hseg, hno, hfold⟩ := hx
  exact ⟨seg, hseg, hno, hfold.trans h⟩

/-- Every lookup of another key gives the same value exactly if the insertion is not
seen. -/
theorem inserted_iff (flag : UInt8) (trim : Bytes → Bytes) (more : List (Bytes × Bytes)) (i : ℕ)
    (w text : Bytes) (hflag : flag ≠ 61) (hw : flag ∉ w) (hequals : 61 ∉ w) :
    (∀ k, ¬ Valueless flag trim (insertSegment flag i w text) k →
        firstValue k (parseParam flag trim (insertSegment flag i w text) ++ more) =
          firstValue k (parseParam flag trim text ++ more)) ↔
      Unseen flag trim more i w text := by
  rw [pairs_at flag trim i text hflag, pairs_inserted flag trim i w text hflag hw hequals, Unseen]
  have hcarry := segmentPairs_carry flag (passed flag [] ((text.splitOn flag).take i)) []
    ((text.splitOn flag).drop i)
  have hcarry' := segmentPairs_carry flag
    (passed flag [] ((text.splitOn flag).take i) ++ (w ++ [flag])) [] ((text.splitOn flag).drop i)
  rw [List.append_nil] at hcarry hcarry'
  rw [hcarry, hcarry']
  cases segmentPairs flag [] ((text.splitOn flag).drop i) with
  | nil => exact iff_of_true (fun _ _ => rfl) trivial
  | cons p rest =>
    obtain ⟨k, v⟩ := p
    simp only [List.map_cons, decoded, List.append_assoc, List.cons_append, List.nil_append]
    exact one_key_iff _ (valueless_congr flag trim _) _ _ _ _ _

end Lookups

section Requests

theorem getD_forall (a b : Option Bytes) :
    (∀ default, a.getD default = b.getD default) ↔ a = b := by
  constructor
  · intro h
    cases a with
    | none =>
      cases b with
      | none => rfl
      | some v => exact absurd (h (0::v)) (List.cons_ne_self 0 v)
    | some u =>
      cases b with
      | none => exact absurd (h (0::u)) (List.cons_ne_self 0 u).symm
      | some v => exact congrArg some (h [])
  · rintro rfl default
    rfl

theorem getParam_new (q : HttpRequest) (k default : Bytes) :
    (getParam (.new q) k default).1 =
      (firstValue k (queryEntries q ++ bodyEntries q)).getD default :=
  congrArg (Option.getD · default) (hasParam_found q [] k)

theorem getCookie_new (q : HttpRequest) (k default : Bytes) :
    (getCookie (.new q) k default).1 = (firstValue k (cookieEntries q)).getD default :=
  congrArg (Option.getD · default) (hasCookie_found q [] k)

def withQuery (q : HttpRequest) (query : Bytes) : HttpRequest := { q with query := query }

/-- A segment without `=` inserted at a boundary of the query, or of the cookies: all
other keys keep their values exactly if the insertion is not seen. -/
theorem valueless_undisturbed_iff (q : HttpRequest) (i : ℕ) (w : Bytes) (hequals : 61 ∉ w) :
    (38 ∉ w →
      ((∀ k, ¬ Valueless 38 id (insertSegment 38 i w q.query) k → ∀ default,
          (getParam (.new (withQuery q (insertSegment 38 i w q.query))) k default).1 =
            (getParam (.new q) k default).1) ↔
        Unseen 38 id (bodyEntries q) i w q.query)) ∧
      ∀ q' : HttpRequest, 59 ∉ w →
        q'.getHeader (ascii "cookie") =
          insertSegment 59 i w (q.getHeader (ascii "cookie")) →
        ((∀ k, ¬ Valueless 59 trim (q'.getHeader (ascii "cookie")) k → ∀ default,
            (getCookie (.new q') k default).1 = (getCookie (.new q) k default).1) ↔
          Unseen 59 trim [] i w (q.getHeader (ascii "cookie"))) := by
  constructor
  · intro hand
    have hiff := inserted_iff 38 id (bodyEntries q) i w q.query (by decide) hand hequals
    simp only [getParam_new, getD_forall]
    exact hiff
  · intro q' hsemi hheader
    have hiff := inserted_iff 59 trim [] i w (q.getHeader (ascii "cookie")) (by decide) hsemi
      hequals
    simp only [List.append_nil] at hiff
    simp only [getCookie_new, getD_forall, cookieEntries, hheader]
    exact hiff

def request (query cookie : String) : HttpRequest :=
  { HttpRequest.new with
    query := ascii query
    headers := [(ascii "Cookie", ascii cookie)] }

theorem valueless_last :
    (∀ default, (getParam (.new (withQuery (request "a=1" "")
          (insertSegment 38 1 (ascii "b") (ascii "a=1")))) (ascii "a") default).1 =
        (getParam (.new (request "a=1" "")) (ascii "a") default).1) ∧
      ∀ default, (getCookie (.new (request "" "a=1;HttpOnly")) (ascii "a") default).1 =
        (getCookie (.new (request "" "a=1")) (ascii "a") default).1 :=
  ⟨((valueless_undisturbed_iff (request "a=1" "") 1 (ascii "b") (by decide)).1 (by decide)).mpr
      trivial (ascii "a") (by decide),
    ((valueless_undisturbed_iff (request "" "a=1") 1 (ascii "HttpOnly") (by decide)).2
      (request "" "a=1;HttpOnly") (by decide) (by decide)).mpr trivial (ascii "a") (by decide)⟩

/-- `b=c` behind the flag `a` has the key `a&b`. -/
theorem valueless_taken :
    (getParam (.new (request "b=c" "")) (ascii "b") []).1 = ascii "c" ∧
      (getParam (.new (request "a&b=c" "")) (ascii "b") []).1 = [] ∧
      (getCookie (.new (request "" "HttpOnly;b=c")) (ascii "b") []).1 = [] ∧
      ¬ ∀ k, ¬ Valueless 38 id (insertSegment 38 0 (ascii "a") (ascii "b=c")) k → ∀ default,
        (getParam (.new (withQuery (request "b=c" "")
            (insertSegment 38 0 (ascii "a") (ascii "b=c")))) k default).1 =
          (getParam (.new (request "b=c" "")) k default).1 := by
  refine ⟨by decide, by decide, by decide, ?_⟩
  intro h
  exact absurd (h (ascii "b") (by decide) []) (by decide)

end Requests

end Lamb.HttpValueless
