import Lamb.ByteArrayCodec

/-!
# The representation invariant of the byte array

One lemma says what the transfer loop visits: consecutive spans that tile the
requested range, and the cursor that belongs to its end. Loading and storing
such spans act on the concatenated content of the chain. The invariant and the
effect of each operation on the content follow from these, for every block size.
-/

set_option autoImplicit false

namespace Lamb.ByteArray
open Lamb.ByteString Lamb.Blocks Lamb.DoubleQuotient

def cursorAt (b n p : ℕ) : Option ℕ := if p = n*b then none else some (p / b)

theorem cursorAt_inside {b n p : ℕ} (h : p < n*b) : cursorAt b n p = some (p / b) :=
  if_neg (Nat.ne_of_lt h)

def NodesOf (b : ℕ) (nodes : List Node) : Prop :=
  ∀ n ∈ nodes, n.size = b ∧ n.ptr.length = b

structure Inv (s : ByteArray) : Prop where
  base_pos : 0 < s.baseSize
  nodes_of : NodesOf s.baseSize s.nodes
  root : 0 < s.nodes.length
  capacity_eq : s.capacity = s.nodes.length*s.baseSize
  position_le : s.position ≤ s.size
  size_le : s.size ≤ s.capacity
  cur_eq : s.cur = cursorAt s.baseSize s.nodes.length s.position

def flat (nodes : List Node) : Bytes := (nodes.map Node.ptr).flatten

/-- The bytes below `m_size`. -/
def content (s : ByteArray) : Bytes := (flat s.nodes).take s.size

def Tiles (b : ℕ) : List Span → ℕ → ℕ → Prop
  | [], p, q => p = q
  | sp::rest, p, q => sp.node*b+sp.off = p ∧ 0 < sp.len ∧ sp.off+sp.len ≤ b ∧
      Tiles b rest (p+sp.len) q

theorem Tiles.le {b : ℕ} {spans : List Span} {p q : ℕ} (h : Tiles b spans p q) : p ≤ q := by
  induction spans generalizing p with
  | nil => exact le_of_eq h
  | cons sp rest ih =>
    have hr := ih h.2.2.2
    omega

theorem NodesOf.uniform {b : ℕ} {nodes : List Node} (h : NodesOf b nodes) :
    Uniform b (nodes.map Node.ptr) := by
  intro x hx
  obtain ⟨n, hn, rfl⟩ := List.mem_map.mp hx
  exact (h n hn).2

theorem NodesOf.flat_length {b : ℕ} {nodes : List Node} (h : NodesOf b nodes) :
    (flat nodes).length = nodes.length*b := by
  rw [flat, h.uniform.flatten_length, List.length_map]

theorem Inv.flat_length {s : ByteArray} (h : Inv s) : (flat s.nodes).length = s.capacity := by
  rw [h.nodes_of.flat_length, h.capacity_eq]

theorem Inv.content_length {s : ByteArray} (h : Inv s) : s.content.length = s.size := by
  rw [content, List.length_take, h.flat_length, Nat.min_eq_left h.size_le]

/-- The transfer loop over nodes of equal size: what it visits and where it ends. -/
theorem walk_tiles (b : ℕ) (hb : 0 < b) (rest : List Node) (hr : NodesOf b rest)
    (i npos size : ℕ) (hp : npos < b) (hs : 0 < size) (hle : npos+size ≤ rest.length*b) :
    ∃ spans, walk i rest npos size = .ok (spans,
        if npos+size = rest.length*b then none else some (i+(npos+size) / b)) ∧
      Tiles b spans (i*b+npos) (i*b+npos+size) := by
  induction rest generalizing i npos size with
  | nil =>
    simp only [List.length_nil, Nat.zero_mul] at hle
    omega
  | cons n rest ih =>
    have hn : n.size = b := (hr n (by simp)).1
    have hlen : (n::rest).length*b = rest.length*b+b := by
      rw [List.length_cons, Nat.succ_mul]
    rw [hlen] at hle ⊢
    simp only [walk, hn, if_neg (Nat.ne_of_gt hs)]
    by_cases hfit : size ≤ b-npos
    · refine ⟨[⟨i, npos, size⟩], ?_, rfl, hs, by simp only; omega, rfl⟩
      rw [if_pos hfit]
      by_cases hend : b = npos+size
      · rw [if_pos hend, ← hend, Nat.div_self hb, next]
        cases rest with
        | nil => simp
        | cons m rest =>
          have hpos : 0 < (m::rest).length*b := Nat.mul_pos (by simp) hb
          rw [if_neg (by simp), if_neg (by omega)]
      · rw [if_neg hend, if_neg (by omega), Nat.div_eq_of_lt (by omega), Nat.add_zero]
    · have hrest : NodesOf b rest := fun m hm => hr m (by simp [hm])
      obtain ⟨spans, hw, ht⟩ := ih hrest (i+1) 0 (size-(b-npos)) hb (by omega) (by omega)
      have hdiv : (npos+size) / b = (0+(size-(b-npos))) / b+1 := by
        rw [show npos+size = 0+(size-(b-npos))+b by omega, Nat.add_div_right _ hb]
      refine ⟨⟨i, npos, b-npos⟩::spans, ?_, rfl, by simp only; omega, by simp only; omega, ?_⟩
      · rw [if_neg hfit, hw, hdiv]
        by_cases he : 0+(size-(b-npos)) = rest.length*b
        · rw [if_pos he, if_pos (by omega)]
        · rw [if_neg he, if_neg (by omega), Nat.add_assoc i, Nat.add_comm 1]
      · have h1 : (i+1)*b+0 = i*b+npos+(b-npos) := by
          rw [Nat.succ_mul]
          omega
        have h2 : (i+1)*b+0+(size-(b-npos)) = i*b+npos+size := by omega
        rw [h1] at ht
        rw [← h2, h1]
        exact ht

theorem Tiles.node_lt {b p q n : ℕ} {sp : Span} {rest : List Span}
    (h : Tiles b (sp::rest) p q) (hq : q ≤ n*b) : sp.node < n := by
  obtain ⟨hp, hl, hfit, hrest⟩ := h
  have hle := hrest.le
  apply Nat.lt_of_mul_lt_mul_right (a := b)
  omega

theorem load_tiles (b : ℕ) (nodes : List Node) (hn : NodesOf b nodes) (spans : List Span)
    (p q : ℕ) (ht : Tiles b spans p q) (hq : q ≤ nodes.length*b) :
    load nodes spans = .ok (segment (flat nodes) p (q-p)) := by
  induction spans generalizing p with
  | nil =>
    simp [load, Blocks.segment, show q-p = 0 by rw [show p = q from ht]; omega]
  | cons sp rest ih =>
    have hk := ht.node_lt hq
    obtain ⟨hp, hl, hfit, hrest⟩ := ht
    have hle := hrest.le
    have hlen := (hn _ (List.getElem_mem hk)).2
    have hseg : segment (flat nodes) p sp.len = segment nodes[sp.node].ptr sp.off sp.len := by
      rw [← hp, flat, segment_block hn.uniform sp.node sp.off sp.len (by simpa using hk) hfit,
        List.getElem_map]
    simp only [load, List.getElem?_eq_getElem hk, ih (p+sp.len) hrest]
    rw [if_neg (by omega), ← hseg, segment_append, show sp.len+(q-(p+sp.len)) = q-p by omega]

theorem set_flat (b : ℕ) (nodes : List Node) (hn : NodesOf b nodes) (k off : ℕ) (new : Bytes)
    (hk : k < nodes.length) (hfit : off+new.length ≤ b) :
    flat (nodes.set k { nodes[k] with ptr := overwrite nodes[k].ptr off new }) =
      overwrite (flat nodes) (k*b+off) new ∧
    NodesOf b (nodes.set k { nodes[k] with ptr := overwrite nodes[k].ptr off new }) := by
  have hk' : k < (nodes.map Node.ptr).length := by simpa using hk
  have hg : (nodes.map Node.ptr)[k] = nodes[k].ptr := List.getElem_map _
  constructor
  · rw [flat, List.map_set, ← hg, overwrite_block hn.uniform k off new hk' hfit, flat]
  · intro n hm
    rcases List.mem_or_eq_of_mem_set hm with hm | rfl
    · exact hn n hm
    · obtain ⟨hs, hl⟩ := hn _ (List.getElem_mem hk)
      exact ⟨hs, by rw [overwrite_length _ _ _ (by omega), hl]⟩

theorem store_tiles (b : ℕ) (nodes : List Node) (hn : NodesOf b nodes) (spans : List Span)
    (p q : ℕ) (buf : Bytes) (ht : Tiles b spans p q) (hq : q ≤ nodes.length*b)
    (hbuf : p+buf.length = q) :
    ∃ nodes', store nodes spans buf = .ok nodes' ∧ NodesOf b nodes' ∧
      nodes'.length = nodes.length ∧ flat nodes' = overwrite (flat nodes) p buf := by
  induction spans generalizing nodes p buf with
  | nil =>
    have hnil : buf = [] := List.length_eq_zero_iff.mp (by rw [show p = q from ht] at hbuf; omega)
    subst hnil
    exact ⟨nodes, rfl, hn, rfl, (overwrite_nil _ _).symm⟩
  | cons sp rest ih =>
    have hk := ht.node_lt hq
    obtain ⟨hp, hl, hfit, hrest⟩ := ht
    have hle := hrest.le
    have hlen := (hn _ (List.getElem_mem hk)).2
    have htake : (buf.take sp.len).length = sp.len := by
      rw [List.length_take]
      omega
    obtain ⟨hflat, hset⟩ := set_flat b nodes hn sp.node sp.off (buf.take sp.len) hk (by omega)
    obtain ⟨nodes', hst, hn', hlen', hflat'⟩ := ih _ hset (p+sp.len) (buf.drop sp.len) hrest
      (by rw [List.length_set]; exact hq) (by rw [List.length_drop]; omega)
    refine ⟨nodes', ?_, hn', by rw [hlen', List.length_set], ?_⟩
    · simp only [store, List.getElem?_eq_getElem hk]
      rw [if_neg (by omega), hst]
    · have hpl : p ≤ (flat nodes).length := by
        rw [hn.flat_length]
        omega
      have happ := overwrite_overwrite (flat nodes) (buf.take sp.len) (buf.drop sp.len) p hpl
      rw [htake, List.take_append_drop] at happ
      rw [hflat', hflat, hp, happ]

/-- The transfer loop from the cursor of a well-formed array. -/
theorem walkFrom_tiles (s : ByteArray) (h : Inv s) (size : ℕ) (hs : 0 < size)
    (hle : s.position+size ≤ s.capacity) :
    ∃ spans, s.walkFrom s.cur (s.position % s.baseSize) size =
        .ok (spans, cursorAt s.baseSize s.nodes.length (s.position+size)) ∧
      Tiles s.baseSize spans s.position (s.position+size) := by
  have hb := h.base_pos
  have hc := h.capacity_eq
  have hdm := Nat.div_add_mod' s.position s.baseSize
  have hmod := Nat.mod_lt s.position hb
  generalize hi : s.position / s.baseSize = i at *
  generalize hnp : s.position % s.baseSize = npos at *
  have hlen : (s.nodes.drop i).length*s.baseSize+i*s.baseSize = s.nodes.length*s.baseSize := by
    have hil : i ≤ s.nodes.length := by
      apply Nat.le_of_mul_le_mul_right _ hb
      omega
    rw [List.length_drop, ← Nat.add_mul, Nat.sub_add_cancel hil]
  have hnd : NodesOf s.baseSize (s.nodes.drop i) :=
    fun n hn => h.nodes_of n (List.mem_of_mem_drop hn)
  obtain ⟨spans, hw, ht⟩ := walk_tiles s.baseSize hb (s.nodes.drop i) hnd i npos size hmod hs
    (by omega)
  rw [hdm] at ht
  refine ⟨spans, ?_, ht⟩
  have hcur : s.cur = some i := by
    rw [h.cur_eq, cursorAt, if_neg (by omega), hi]
  have hdiv : (s.position+size) / s.baseSize = i+(npos+size) / s.baseSize := by
    rw [← hdm, Nat.add_assoc, Nat.add_comm (i*s.baseSize), Nat.add_mul_div_right _ _ hb,
      Nat.add_comm]
  rw [hcur, walkFrom, hw, cursorAt, hdiv]
  by_cases he : npos+size = (s.nodes.drop i).length*s.baseSize
  · rw [if_pos he, if_pos (by omega)]
  · rw [if_neg he, if_neg (by omega)]

theorem create_inv (raw : ℕ → ℕ → UInt8) (b : ℕ) (hb : 0 < b) : Inv (create raw b) where
  base_pos := hb
  nodes_of := by
    intro n hn
    obtain rfl := List.mem_singleton.mp hn
    exact ⟨rfl, by simp [newNode, create]⟩
  root := by simp [create]
  capacity_eq := by simp [create]
  position_le := le_refl _
  size_le := Nat.zero_le _
  cur_eq := by
    change some 0 = cursorAt b 1 0
    rw [cursorAt_inside (by omega), Nat.zero_div]

structure Grown (s t : ByteArray) : Prop where
  inv : Inv t
  position_eq : t.position = s.position
  size_eq : t.size = s.size
  endian_eq : t.endian = s.endian
  baseSize_eq : t.baseSize = s.baseSize
  content_eq : t.content = s.content

theorem Grown.refl {s : ByteArray} (h : Inv s) : Grown s s := ⟨h, rfl, rfl, rfl, rfl, rfl⟩

theorem addCapacity_grown (s : ByteArray) (h : Inv s) (size : ℕ) (hsz : size < 2^53) :
    Grown s (s.addCapacity size) ∧ s.position+size ≤ (s.addCapacity size).capacity := by
  have hb := h.base_pos
  have hpc := le_trans h.position_le h.size_le
  have hc := h.capacity_eq
  unfold addCapacity
  by_cases h0 : size = 0
  · rw [if_pos h0]
    exact ⟨Grown.refl h, by omega⟩
  rw [if_neg h0]
  by_cases hfit : size ≤ s.getCapacity
  · rw [if_pos hfit]
    unfold getCapacity at hfit
    exact ⟨Grown.refl h, by omega⟩
  rw [if_neg hfit]
  unfold getCapacity at hfit ⊢
  have hq := ceilQuotient_eq (size-(s.capacity-s.position)) s.baseSize hb (by omega)
  generalize hcount : ceilQuotient (size-(s.capacity-s.position)) s.baseSize = count at hq ⊢
  have hcov : size-(s.capacity-s.position) ≤ count*s.baseSize := by
    have hlt := Nat.lt_div_mul_add (a := size-(s.capacity-s.position)+s.baseSize-1) hb
    rw [← hq] at hlt
    omega
  have hpos : 0 < count*s.baseSize := by omega
  have hne : count ≠ 0 := fun he => by simp [he] at hpos
  have hmul : (s.nodes.length+count)*s.baseSize = s.nodes.length*s.baseSize+count*s.baseSize :=
    Nat.add_mul _ _ _
  refine ⟨⟨⟨hb, ?_, ?_, ?_, h.position_le, ?_, ?_⟩, rfl, rfl, rfl, rfl, ?_⟩, ?_⟩
  · intro n hn
    rcases List.mem_append.mp hn with hn | hn
    · exact h.nodes_of n hn
    · obtain ⟨i, -, rfl⟩ := List.mem_map.mp hn
      exact ⟨rfl, by simp [newNode]⟩
  · simp only [List.length_append]
    have := h.root
    omega
  · simp only [List.length_append, List.length_map, List.length_range]
    omega
  · have := h.size_le
    simp only
    omega
  · simp only [List.length_append, List.length_map, List.length_range, if_neg hne]
    rw [cursorAt_inside (by omega)]
    split_ifs with ho
    · rw [show s.position = s.nodes.length*s.baseSize by omega, Nat.mul_div_cancel _ hb]
    · rw [h.cur_eq, cursorAt_inside (by omega)]
  · have hfl := h.flat_length
    have hsl := h.size_le
    simp only [content, flat, List.map_append, List.flatten_append]
    exact List.take_append_of_le_length (by rw [← flat]; omega)
  · simp only
    omega

def advance (s : ByteArray) (k : ℕ) : ByteArray :=
  { s with position := s.position+k, cur := cursorAt s.baseSize s.nodes.length (s.position+k) }

theorem advance_inv (s : ByteArray) (h : Inv s) (k : ℕ) (hk : s.position+k ≤ s.size) :
    Inv (s.advance k) where
  base_pos := h.base_pos
  nodes_of := h.nodes_of
  root := h.root
  capacity_eq := h.capacity_eq
  position_le := hk
  size_le := h.size_le
  cur_eq := rfl

theorem advance_zero (s : ByteArray) (h : Inv s) : s.advance 0 = s := by
  rw [advance, Nat.add_zero, ← h.cur_eq]

theorem advance_advance (s : ByteArray) (j k : ℕ) :
    (s.advance j).advance k = s.advance (j+k) := by
  simp only [advance, Nat.add_assoc]

def unread (s : ByteArray) : Bytes := s.content.drop s.position

theorem Inv.unread_length {s : ByteArray} (h : Inv s) : s.unread.length = s.getReadSize := by
  rw [unread, List.length_drop, h.content_length, getReadSize]

theorem advance_unread (s : ByteArray) (k : ℕ) : (s.advance k).unread = s.unread.drop k := by
  rw [unread, unread, List.drop_drop]
  rfl

theorem Inv.segment_unread {s : ByteArray} (h : Inv s) (n : ℕ) (hn : n ≤ s.getReadSize) :
    segment (flat s.nodes) s.position n = s.unread.take n := by
  have hp := h.position_le
  unfold getReadSize at hn
  rw [unread, content, List.drop_take, List.take_take, Nat.min_eq_left (by omega), Blocks.segment]

theorem read_short (s : ByteArray) (n : ℕ) (hn : s.getReadSize < n) :
    read n s = .error .outOfRange s := by
  rw [read, if_pos hn]

theorem read_ok (s : ByteArray) (h : Inv s) (n : ℕ) (h0 : 0 < n) (hn : n ≤ s.getReadSize) :
    read n s = .ok (s.unread.take n) (s.advance n) := by
  have hp := h.position_le
  have hsc := h.size_le
  have hn' := hn
  unfold getReadSize at hn'
  obtain ⟨spans, hw, ht⟩ := walkFrom_tiles s h n h0 (by omega)
  have hl := load_tiles s.baseSize s.nodes h.nodes_of spans _ _ ht
    (by rw [← h.capacity_eq]; omega)
  rw [Nat.add_sub_cancel_left, h.segment_unread n hn] at hl
  simp only [read, if_neg (Nat.not_lt.mpr hn), hw, hl, advance]

/-- A read of no bytes follows `m_cur` all the same. -/
theorem read_zero (s : ByteArray) (h : Inv s) :
    read 0 s = if s.position = s.capacity then .error .nullDeref s else .ok [] s := by
  have hc := h.capacity_eq
  rw [read, if_neg (Nat.not_lt_zero _), h.cur_eq, cursorAt, ← hc]
  split_ifs with he
  · rfl
  · have hlt : s.position / s.baseSize < s.nodes.length := by
      have hp := h.position_le
      have hs := h.size_le
      rw [Nat.div_lt_iff_lt_mul h.base_pos]
      omega
    have hs : s.advance 0 = { s with cur := some (s.position / s.baseSize) } := by
      rw [advance, Nat.add_zero, cursorAt, ← hc, if_neg he]
    rw [walkFrom, List.drop_eq_getElem_cons hlt]
    simp only [walk, if_true, load, Nat.add_zero]
    rw [← hs, advance_zero s h]

structure Wrote (s : ByteArray) (buf : Bytes) (t : ByteArray) : Prop where
  inv : Inv t
  position_eq : t.position = s.position+buf.length
  size_eq : t.size = max s.size (s.position+buf.length)
  endian_eq : t.endian = s.endian
  baseSize_eq : t.baseSize = s.baseSize
  content_eq : t.content = overwrite s.content s.position buf

theorem Wrote.trans {s t u : ByteArray} {a c : Bytes} (h : Inv s) (ht : Wrote s a t)
    (hu : Wrote t c u) : Wrote s (a ++ c) u where
  inv := hu.inv
  position_eq := by
    rw [hu.position_eq, ht.position_eq, List.length_append, Nat.add_assoc]
  size_eq := by
    rw [hu.size_eq, ht.size_eq, ht.position_eq, List.length_append]
    omega
  endian_eq := hu.endian_eq.trans ht.endian_eq
  baseSize_eq := hu.baseSize_eq.trans ht.baseSize_eq
  content_eq := by
    have hp : s.position ≤ s.content.length := by
      rw [h.content_length]
      exact h.position_le
    rw [hu.content_eq, ht.content_eq, ht.position_eq, overwrite_overwrite _ _ _ _ hp]

theorem write_ok (s : ByteArray) (h : Inv s) (buf : Bytes) (hsz : buf.length < 2^53) :
    ∃ t, write buf s = .ok () t ∧ Wrote s buf t := by
  by_cases h0 : buf.length = 0
  · obtain rfl := List.length_eq_zero_iff.mp h0
    have hp := h.position_le
    exact ⟨s, rfl, h, rfl, by simpa using hp, rfl, rfl, (overwrite_nil _ _).symm⟩
  obtain ⟨hg, hcap⟩ := addCapacity_grown s h buf.length hsz
  generalize hr : s.addCapacity buf.length = r at hg hcap
  have hi := hg.inv
  obtain ⟨spans, hw, ht⟩ := walkFrom_tiles r hi buf.length (by omega)
    (by rw [hg.position_eq]; exact hcap)
  obtain ⟨nodes, hst, hn, hlen, hflat⟩ :=
    store_tiles r.baseSize r.nodes hi.nodes_of spans _ _ buf ht
    (by rw [← hi.capacity_eq, hg.position_eq]; exact hcap) rfl
  have hmax : (if r.size < r.position+buf.length then r.position+buf.length else r.size) =
      max r.size (r.position+buf.length) := by
    split_ifs <;> omega
  have hpos := hg.position_eq
  refine ⟨{ r with
      nodes := nodes
      cur := cursorAt r.baseSize r.nodes.length (r.position+buf.length)
      position := r.position+buf.length
      size := max r.size (r.position+buf.length) }, ?_, ⟨?_, ?_, ?_, hg.endian_eq,
      hg.baseSize_eq, ?_⟩⟩
  · simp only [write, if_neg h0, hr, hw, hst, hmax]
  · refine ⟨hi.base_pos, hn, ?_, ?_, Nat.le_max_right _ _, ?_, ?_⟩
    · simp only [hlen, hi.root]
    · simp only [hlen, hi.capacity_eq]
    · exact Nat.max_le.mpr ⟨hi.size_le, by rw [hpos]; exact hcap⟩
    · simp only [hlen]
  · simp only [hpos]
  · simp only [hpos, hg.size_eq]
  · have hl := hi.flat_length
    rw [content, hflat, overwrite_take _ _ _ _ hi.position_le (by omega), ← content,
      hg.content_eq, hpos]

theorem seek_cursor (b : ℕ) (hb : 0 < b) (rest : List Node) (hr : NodesOf b rest)
    (i v : ℕ) (hne : 0 < rest.length) (hv : v ≤ rest.length*b) :
    seek i rest v = .ok (if v = rest.length*b then none else some (i+v / b)) := by
  induction rest generalizing i v with
  | nil => simp at hne
  | cons n rest ih =>
    have hn : n.size = b := (hr n (by simp)).1
    have hlen : (n::rest).length*b = rest.length*b+b := by
      rw [List.length_cons, Nat.succ_mul]
    rw [hlen] at hv ⊢
    simp only [seek, hn]
    by_cases hgt : b < v
    · have hrest : NodesOf b rest := fun m hm => hr m (by simp [hm])
      have hpos : 0 < rest.length := by
        apply Nat.pos_of_ne_zero
        intro he
        simp only [he, Nat.zero_mul] at hv
        omega
      have hdiv : v / b = (v-b) / b+1 := by
        rw [← Nat.add_div_right _ hb, Nat.sub_add_cancel (by omega)]
      rw [if_pos hgt, ih hrest (i+1) (v-b) hpos (by omega), hdiv]
      by_cases he : v-b = rest.length*b
      · rw [if_pos he, if_pos (by omega)]
      · rw [if_neg he, if_neg (by omega), Nat.add_assoc i, Nat.add_comm 1]
    · rw [if_neg hgt]
      by_cases he : v = b
      · rw [if_pos he, he, Nat.div_self hb, next]
        cases rest with
        | nil => simp
        | cons m rest =>
          have hpos : 0 < (m::rest).length*b := Nat.mul_pos (by simp) hb
          rw [if_neg (by simp), if_neg (by omega)]
      · rw [if_neg he, if_neg (by omega), Nat.div_eq_of_lt (by omega), Nat.add_zero]

/-- The array after `setPosition(v)`. -/
def moved (s : ByteArray) (v : ℕ) : ByteArray :=
  { s with
    position := v
    size := max s.size v
    cur := cursorAt s.baseSize s.nodes.length v }

theorem setPosition_ok (s : ByteArray) (h : Inv s) (v : ℕ) (hv : v ≤ s.capacity) :
    setPosition v s = .ok () (s.moved v) ∧ Inv (s.moved v) := by
  have hc := h.capacity_eq
  have hk := seek_cursor s.baseSize h.base_pos s.nodes h.nodes_of 0 v h.root (by omega)
  have hmax : (if s.size < v then v else s.size) = max s.size v := by
    split_ifs <;> omega
  constructor
  · simp only [setPosition, if_neg (Nat.not_lt.mpr hv), hk, moved, cursorAt, hmax, Nat.zero_add]
  · have hs := h.size_le
    exact ⟨h.base_pos, h.nodes_of, h.root, hc, by simp only [moved]; omega,
      by simp only [moved]; omega, rfl⟩

theorem setPosition_short (s : ByteArray) (v : ℕ) (hv : s.capacity < v) :
    setPosition v s = .error .outOfRange s := by
  rw [setPosition, if_pos hv]

/-- The array after `clear()`. -/
def cleared (s : ByteArray) : ByteArray :=
  { s with
    position := 0
    size := 0
    capacity := s.baseSize
    nodes := s.nodes.take 1
    cur := some 0 }

theorem cleared_inv (s : ByteArray) (h : Inv s) : Inv s.cleared := by
  have hb := h.base_pos
  have hr := h.root
  have hl : (s.nodes.take 1).length = 1 := by
    rw [List.length_take]
    omega
  refine ⟨hb, fun n hn => h.nodes_of n (List.mem_of_mem_take hn), ?_, ?_, le_refl _,
    Nat.zero_le _, ?_⟩
  · simp [cleared, hl]
  · simp [cleared, hl]
  · simp only [cleared, hl]
    rw [cursorAt_inside (by omega), Nat.zero_div]

theorem toString_ok (s : ByteArray) (h : Inv s) : s.toString = .ok s.unread := by
  have hp := h.position_le
  have hsc := h.size_le
  have hul := h.unread_length
  unfold toString
  split_ifs with h0
  · rw [h0] at hul
    rw [List.length_eq_zero_iff.mp hul]
  · have hs : s.position+s.getReadSize = s.size := by
      unfold getReadSize
      omega
    obtain ⟨spans, hw, ht⟩ := walkFrom_tiles s h s.getReadSize (by omega) (by omega)
    have hl := load_tiles s.baseSize s.nodes h.nodes_of spans _ _ ht
      (by rw [← h.capacity_eq]; omega)
    rw [Nat.add_sub_cancel_left, h.segment_unread _ (le_refl _), ← hul,
      List.take_length] at hl
    rw [readAt, sub64, if_pos hp, if_neg (by unfold getReadSize; omega), hw]
    exact hl

theorem clip_length (s : ByteArray) (len : ℕ) :
    (if s.getReadSize < len then s.getReadSize else len) = min len s.getReadSize := by
  split_ifs <;> omega

/-- The spans handed out by `getReadBuffers` cover the next unread bytes. -/
theorem getReadBuffers_ok (s : ByteArray) (h : Inv s) (len : ℕ) :
    ∃ spans, s.getReadBuffers len = .ok (min len s.getReadSize, spans) ∧
      Tiles s.baseSize spans s.position (s.position+min len s.getReadSize) := by
  have hp := h.position_le
  have hsc := h.size_le
  have hle : min len s.getReadSize ≤ s.size-s.position := Nat.min_le_right _ _
  simp only [getReadBuffers, clip_length]
  generalize min len s.getReadSize = n at hle ⊢
  split_ifs with h0
  · exact ⟨[], by rw [h0], by rw [h0]; rfl⟩
  · obtain ⟨spans, hw, ht⟩ := walkFrom_tiles s h n (by omega) (by omega)
    exact ⟨spans, by rw [hw], ht⟩

theorem getWriteBuffers_ok (s : ByteArray) (h : Inv s) (len : ℕ) (hsz : len < 2^53) :
    ∃ spans t, getWriteBuffers len s = .ok (len, spans) t ∧ Grown s t ∧
      s.position+len ≤ t.capacity ∧ Tiles s.baseSize spans s.position (s.position+len) := by
  obtain ⟨hg, hcap⟩ := addCapacity_grown s h len hsz
  by_cases h0 : len = 0
  · subst h0
    have hp := h.position_le
    have hs := h.size_le
    exact ⟨[], s, rfl, Grown.refl h, by omega, rfl⟩
  generalize hr : s.addCapacity len = r at hg hcap
  obtain ⟨spans, hw, ht⟩ := walkFrom_tiles r hg.inv len (by omega)
    (by rw [hg.position_eq]; exact hcap)
  rw [hg.position_eq, hg.baseSize_eq] at ht
  exact ⟨spans, r, by simp only [getWriteBuffers, if_neg h0, hr, hw], hg, hcap, ht⟩

end Lamb.ByteArray
