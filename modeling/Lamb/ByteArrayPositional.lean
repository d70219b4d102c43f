import Lamb.ByteArrayCalls

/-!
# Reading at a given position

Two members of the byte array take a position of their own. The positional `read`
takes the offset inside a block from that position but the block from the cursor;
the positional `getReadBuffers` finds the block, but takes the number of bytes left
from the cursor. The conditions under which each of them shows the bytes at the
position it was given follow from where the transfer loop starts.
-/

set_option autoImplicit false

namespace Lamb.ByteArray
open Lamb.ByteString Lamb.Blocks

/-- The loop of the positional `getReadBuffers` that follows `next` from `m_root`. -/
def follow : ℕ → List Node → ℕ → Except Stop (Option ℕ)
  | i, nodes, 0 => .ok (if nodes.isEmpty then none else some i)
  | _, [], _+1 => .error .nullDeref
  | i, _::rest, count+1 => follow (i+1) rest count

/-- `getReadBuffers(buffers, len, position)`. -/
def getReadBuffersAt (s : ByteArray) (len position : ℕ) : Except Stop (ℕ × List Span) :=
  let len := if s.getReadSize < len then s.getReadSize else len
  if len = 0 then .ok (0, []) else
  match follow 0 s.nodes (position / s.baseSize) with
  | .error e => .error e
  | .ok cur =>
    match s.walkFrom cur (position % s.baseSize) len with
    | .error e => .error e
    | .ok (spans, _) => .ok (len, spans)

section Walks

variable {s : ByteArray} (h : Inv s)

/-- A walk that asks for more than the chain holds runs off its end. -/
theorem walk_runs_off (b : ℕ) (rest : List Node) (hr : NodesOf b rest) (i npos size : ℕ)
    (hp : npos ≤ b) (hs : 0 < size) (hgt : rest.length*b < npos+size) :
    walk i rest npos size = .error .nullDeref := by
  induction rest generalizing i npos size with
  | nil => rfl
  | cons n rest ih =>
    have hn : n.size = b := (hr n (by simp)).1
    have hrest : NodesOf b rest := fun m hm => hr m (by simp [hm])
    rw [List.length_cons, Nat.succ_mul] at hgt
    have hover : ¬ size ≤ b-npos := by
      intro hfit
      have := Nat.zero_le (rest.length*b)
      omega
    simp only [walk, hn, if_neg (Nat.ne_of_gt hs), if_neg hover]
    rw [ih hrest (i+1) 0 (size-(b-npos)) (Nat.zero_le _) (by omega) (by omega)]

include h

theorem Inv.block_lt {p : ℕ} (hp : p < s.capacity) : p / s.baseSize < s.nodes.length := by
  rw [Nat.div_lt_iff_lt_mul h.base_pos, ← h.capacity_eq]
  exact hp

theorem Inv.drop_length {i : ℕ} (hi : i < s.nodes.length) :
    (s.nodes.drop i).length*s.baseSize+i*s.baseSize = s.capacity := by
  rw [List.length_drop, ← Nat.add_mul, Nat.sub_add_cancel (le_of_lt hi), h.capacity_eq]

theorem Inv.drop_nodes (i : ℕ) : NodesOf s.baseSize (s.nodes.drop i) :=
  fun n hn => h.nodes_of n (List.mem_of_mem_drop hn)

/-- What the transfer loop covers when it starts at node `i`. -/
theorem walkFrom_block (i npos size : ℕ) (hi : i < s.nodes.length) (hp : npos < s.baseSize)
    (hs : 0 < size) (hle : i*s.baseSize+npos+size ≤ s.capacity) :
    ∃ spans cur, s.walkFrom (some i) npos size = .ok (spans, cur) ∧
      Tiles s.baseSize spans (i*s.baseSize+npos) (i*s.baseSize+npos+size) := by
  have hl := h.drop_length hi
  obtain ⟨spans, hw, ht⟩ := walk_tiles s.baseSize h.base_pos _ (h.drop_nodes i) i npos size hp hs
    (by omega)
  exact ⟨spans, _, hw, ht⟩

theorem walkFrom_off (i npos size : ℕ) (hi : i < s.nodes.length) (hp : npos < s.baseSize)
    (hs : 0 < size) (hgt : s.capacity < i*s.baseSize+npos+size) :
    s.walkFrom (some i) npos size = .error .nullDeref := by
  have hl := h.drop_length hi
  exact walk_runs_off s.baseSize _ (h.drop_nodes i) i npos size (le_of_lt hp) hs (by omega)

omit h in
theorem walkFrom_zero (i npos : ℕ) (hi : i < s.nodes.length) :
    s.walkFrom (some i) npos 0 = .ok ([], some i) := by
  rw [walkFrom, List.drop_eq_getElem_cons hi]
  simp only [walk, if_true]

theorem Inv.load_segment {spans : List Span} {p q : ℕ} (ht : Tiles s.baseSize spans p q)
    (hq : q ≤ s.capacity) : load s.nodes spans = .ok (segment (flat s.nodes) p (q-p)) :=
  load_tiles s.baseSize s.nodes h.nodes_of spans p q ht (by rw [← h.capacity_eq]; exact hq)

omit h in
theorem segment_content {p n : ℕ} (hle : p+n ≤ s.size) :
    segment s.content p n = segment (flat s.nodes) p n := by
  rw [Blocks.segment, Blocks.segment, content, List.drop_take, List.take_take,
    Nat.min_eq_left (by omega)]

end Walks

theorem getElem?_segment {α : Type} (xs : List α) (p n i : ℕ) :
    (segment xs p n)[i]? = if i < n then xs[p+i]? else none := by
  rw [Blocks.segment, List.getElem?_take, List.getElem?_drop]

theorem segment_eq_iff {α : Type} (xs : List α) (p q n : ℕ) :
    segment xs p n = segment xs q n ↔ ∀ i < n, xs[p+i]? = xs[q+i]? := by
  constructor
  · intro he i hi
    have hg := congrArg (fun ys => ys[i]?) he
    simp only [getElem?_segment, if_pos hi] at hg
    exact hg
  · intro hall
    apply List.ext_getElem?
    intro i
    rw [getElem?_segment, getElem?_segment]
    split_ifs with hi
    · exact hall i hi
    · rfl

theorem walk_error (i : ℕ) (rest : List Node) (npos size : ℕ) (e : Stop)
    (he : walk i rest npos size = .error e) : e = .nullDeref := by
  induction rest generalizing i npos size with
  | nil =>
    rw [walk] at he
    exact (Except.error.inj he).symm
  | cons n rest ih =>
    simp only [walk] at he
    split_ifs at he with h0 hfit
    cases hw : walk (i+1) rest 0 (size-(n.size-npos)) with
    | error e' =>
      rw [hw] at he
      obtain rfl := Except.error.inj he
      exact ih _ _ _ hw
    | ok x =>
      rw [hw] at he
      cases he

theorem load_error (nodes : List Node) (spans : List Span) (e : Stop)
    (he : load nodes spans = .error e) : e ≠ .outOfRange := by
  induction spans with
  | nil => cases he
  | cons sp rest ih =>
    rw [load] at he
    cases hn : nodes[sp.node]? with
    | none =>
      rw [hn] at he
      obtain rfl := Except.error.inj he
      decide
    | some n =>
      simp only [hn] at he
      split_ifs at he with hout
      · obtain rfl := Except.error.inj he
        decide
      · cases hl : load nodes rest with
        | error e' =>
          rw [hl] at he
          obtain rfl := Except.error.inj he
          exact ih hl
        | ok bytes =>
          rw [hl] at he
          cases he

/-- What `read(buf, size, position)` is to do: show the bytes at `position`, or refuse
a range that is not inside the data. The array stays as it is. -/
def ReadsContent (s : ByteArray) (size position : ℕ)
    (r : EStateM.Result Stop ByteArray Bytes) : Prop :=
  if position+size ≤ s.getSize then r = .ok (segment s.content position size) s
  else r = .error .outOfRange s

def startIndex (s : ByteArray) (position : ℕ) : ℕ :=
  s.position / s.baseSize*s.baseSize+position % s.baseSize

/-- The requests that the positional `read` meets. A position behind the data makes
the length check wrap around. A range inside the data needs a cursor that is not null,
and either a position in the cursor's block or stored bytes that do not tell. -/
def Placed (s : ByteArray) (size position : ℕ) : Prop :=
  if s.getSize < position then s.getSize+2^64 < position+size
  else s.getSize < position+size ∨
    s.getPosition ≠ s.capacity ∧ (position / s.baseSize = s.getPosition / s.baseSize ∨
      ∀ i < size, (flat s.nodes)[s.startIndex position+i]? = (flat s.nodes)[position+i]?)

theorem placed_in_block {s : ByteArray} {size position : ℕ} (hp : position ≤ s.getSize)
    (hne : s.getPosition ≠ s.capacity)
    (hb : position / s.baseSize = s.getPosition / s.baseSize) : Placed s size position := by
  rw [Placed, if_neg (Nat.not_lt.mpr hp)]
  exact .inr ⟨hne, .inl hb⟩

theorem readAt_refused (s : ByteArray) (size position : ℕ) :
    s.readAt size position = .error .outOfRange ↔ sub64 s.size position < size := by
  constructor
  · intro he
    by_contra hno
    rw [readAt, if_neg hno] at he
    cases hw : s.walkFrom s.cur (position % s.baseSize) size with
    | error e =>
      rw [hw] at he
      obtain rfl := Except.error.inj he
      cases hc : s.cur with
      | none =>
        rw [hc, walkFrom] at hw
        cases hw
      | some i =>
        rw [hc, walkFrom] at hw
        cases walk_error _ _ _ _ _ hw
    | ok x =>
      rw [hw] at he
      exact load_error _ _ _ he rfl
  · intro hlt
    rw [readAt, if_pos hlt]

theorem observe_eq_ok {α : Type} (f : ByteArray → Except Stop α) (s : ByteArray) (a : α) :
    observe f s = .ok a s ↔ f s = .ok a := by
  unfold observe
  cases f s <;> simp

theorem observe_eq_error {α : Type} (f : ByteArray → Except Stop α) (s : ByteArray) (e : Stop) :
    observe f s = .error e s ↔ f s = .error e := by
  unfold observe
  cases f s <;> simp

theorem follow_end (i : ℕ) (rest : List Node) (count : ℕ) :
    follow i rest count = if rest.length < count then .error .nullDeref
      else .ok (if count = rest.length then none else some (i+count)) := by
  induction count generalizing i rest with
  | zero => cases rest <;> simp [follow]
  | succ count ih =>
    cases rest with
    | nil => simp [follow]
    | cons n rest =>
      rw [follow, ih, Nat.add_right_comm, Nat.add_assoc]
      simp only [List.length_cons, Nat.add_lt_add_iff_right, Nat.add_right_cancel_iff]

theorem getReadBuffersAt_count (s : ByteArray) (len position r : ℕ)
    (spans : List Span) (hok : s.getReadBuffersAt len position = .ok (r, spans)) :
    r = min len s.getReadSize := by
  simp only [getReadBuffersAt, clip_length] at hok
  split_ifs at hok with h0
  · rw [h0]
    exact (Prod.mk.inj (Except.ok.inj hok)).1.symm
  · cases hf : follow 0 s.nodes (position / s.baseSize) with
    | error e => simp [hf] at hok
    | ok cur =>
      simp only [hf] at hok
      cases hw : s.walkFrom cur (position % s.baseSize) (min len s.getReadSize) with
      | error e => simp [hw] at hok
      | ok x =>
        simp only [hw] at hok
        exact (Prod.mk.inj (Except.ok.inj hok)).1.symm

section Ranges

variable {s : ByteArray} (h : Inv s)
include h

theorem Inv.cur_some (hne : s.position ≠ s.capacity) :
    s.cur = some (s.position / s.baseSize) ∧ s.position / s.baseSize < s.nodes.length := by
  have hp := le_trans h.position_le h.size_le
  rw [h.cur_eq, cursorAt, ← h.capacity_eq, if_neg hne]
  exact ⟨rfl, h.block_lt (by omega)⟩

theorem Inv.cur_none (he : s.position = s.capacity) : s.cur = none := by
  rw [h.cur_eq, cursorAt, ← h.capacity_eq, if_pos he]

/-- What the transfer brings back once the length check has passed. -/
theorem readAt_passed (size position : ℕ) (hpass : ¬ sub64 s.size position < size)
    (hne : s.position ≠ s.capacity) (hle : s.startIndex position+size ≤ s.capacity) :
    s.readAt size position = .ok (segment (flat s.nodes) (s.startIndex position) size) := by
  obtain ⟨hcur, hi⟩ := h.cur_some hne
  rw [readAt, if_neg hpass, hcur]
  by_cases h0 : size = 0
  · subst h0
    rw [walkFrom_zero _ _ hi]
    simp only [load, Blocks.segment, List.take_zero]
  · obtain ⟨spans, cur, hw, ht⟩ := walkFrom_block h _ (position % s.baseSize) size hi
      (Nat.mod_lt _ h.base_pos) (by omega) hle
    have hl := h.load_segment ht hle
    rw [Nat.add_sub_cancel_left] at hl
    rw [hw]
    exact hl

theorem readAt_fails (size position : ℕ) (hpass : ¬ sub64 s.size position < size)
    (hout : s.position = s.capacity ∨ 0 < size ∧ s.capacity < s.startIndex position+size) :
    s.readAt size position = .error .nullDeref := by
  rw [readAt, if_neg hpass]
  by_cases he : s.position = s.capacity
  · rw [h.cur_none he, walkFrom]
  · obtain ⟨hs, hgt⟩ := hout.resolve_left he
    obtain ⟨hcur, hi⟩ := h.cur_some he
    rw [hcur, walkFrom_off h _ _ _ hi (Nat.mod_lt _ h.base_pos) hs hgt]

omit h in
theorem startIndex_same_block {position : ℕ}
    (hb : position / s.baseSize = s.position / s.baseSize) : s.startIndex position = position := by
  rw [startIndex, ← hb, Nat.div_add_mod']

/-- The start is in the cursor's block, so that an empty range fits there. -/
theorem startIndex_le (position : ℕ) (hne : s.position ≠ s.capacity) :
    s.startIndex position ≤ s.capacity := by
  have hmod := Nat.mod_lt position h.base_pos
  have hend : (s.position / s.baseSize+1)*s.baseSize ≤ s.capacity := by
    rw [h.capacity_eq]
    exact Nat.mul_le_mul_right _ (h.cur_some hne).2
  rw [Nat.succ_mul] at hend
  unfold startIndex
  omega

/-- Inside the data, the right bytes come back in exactly these states. -/
theorem readAt_inside_iff (size position : ℕ) (hle : position+size ≤ s.size) :
    s.readAt size position = .ok (segment s.content position size) ↔
      s.position ≠ s.capacity ∧ (position / s.baseSize = s.position / s.baseSize ∨
        ∀ i < size, (flat s.nodes)[s.startIndex position+i]? = (flat s.nodes)[position+i]?) := by
  have hsc := h.size_le
  have hfl := h.flat_length
  have hpass : ¬ sub64 s.size position < size := by
    rw [sub64, if_pos (by omega)]
    omega
  have hsame : (position / s.baseSize = s.position / s.baseSize ∨
      ∀ i < size, (flat s.nodes)[s.startIndex position+i]? = (flat s.nodes)[position+i]?) ↔
      segment (flat s.nodes) (s.startIndex position) size =
        segment (flat s.nodes) position size := by
    rw [segment_eq_iff]
    constructor
    · rintro (hb | hall)
      · rw [startIndex_same_block hb]
        exact fun i _ => rfl
      · exact hall
    · exact Or.inr
  rw [hsame, segment_content hle]
  by_cases he : s.position = s.capacity
  · rw [readAt_fails h size position hpass (.inl he)]
    simp [he]
  have hstart := startIndex_le h position he
  by_cases hfit : s.startIndex position+size ≤ s.capacity
  · rw [readAt_passed h size position hpass he hfit]
    simp [he]
  · rw [readAt_fails h size position hpass (.inr ⟨by omega, by omega⟩)]
    refine iff_of_false (by simp) ?_
    rintro ⟨-, heq⟩
    -- The last byte of the range is stored, the one it is compared with is not.
    have hlast := (segment_eq_iff _ _ _ _).mp heq (size-1) (by omega)
    rw [List.getElem?_eq_none (by omega), List.getElem?_eq_getElem (by omega)] at hlast
    cases hlast

theorem readAt_iff (size position : ℕ) (hp : position < 2^64) :
    ReadsContent s size position (observe (fun u => u.readAt size position) s) ↔
      Placed s size position := by
  unfold ReadsContent Placed getSize getPosition
  by_cases hin : position+size ≤ s.size
  · rw [if_pos hin, if_neg (by omega), observe_eq_ok, readAt_inside_iff h size position hin]
    constructor
    · exact Or.inr
    · exact fun hor => hor.resolve_left (by omega)
  rw [if_neg hin, observe_eq_error, readAt_refused, sub64]
  by_cases hlt : s.size < position
  · rw [if_pos hlt, if_neg (by omega)]
    omega
  · rw [if_neg hlt, if_pos (by omega)]
    exact iff_of_true (by omega) (.inl (by omega))

/-- The spans that are handed out cover the range, where it is inside the chain. -/
theorem getReadBuffersAt_ok (len position : ℕ)
    (hle : position+min len s.getReadSize ≤ s.capacity) :
    ∃ spans, s.getReadBuffersAt len position = .ok (min len s.getReadSize, spans) ∧
      Tiles s.baseSize spans position (position+min len s.getReadSize) := by
  simp only [getReadBuffersAt, clip_length]
  generalize min len s.getReadSize = n at hle ⊢
  by_cases h0 : n = 0
  · rw [if_pos h0, h0]
    exact ⟨[], rfl, rfl⟩
  have hi := h.block_lt (p := position) (by omega)
  have hdm := Nat.div_add_mod' position s.baseSize
  obtain ⟨spans, cur, hw, ht⟩ := walkFrom_block h _ (position % s.baseSize) n hi
    (Nat.mod_lt _ h.base_pos) (by omega) (by omega)
  rw [hdm] at ht
  rw [if_neg h0, follow_end, if_neg (Nat.lt_asymm hi), if_neg (Nat.ne_of_lt hi), Nat.zero_add]
  exact ⟨spans, by simp only [hw], ht⟩

end Ranges

/-- The buffers show the data from `position` on and nothing else. -/
def ExposesData (s : ByteArray) (position : ℕ) : Except Stop (ℕ × List Span) → Prop
  | .error _ => False
  | .ok (r, spans) => position+r ≤ s.getSize ∧
      Tiles s.baseSize spans position (position+r) ∧
      load s.nodes spans = .ok (segment s.content position r)

theorem getReadBuffersAt_iff {s : ByteArray} (h : Inv s) (len position : ℕ) :
    ExposesData s position (s.getReadBuffersAt len position) ↔
      position+min len s.getReadSize ≤ s.getSize := by
  constructor
  · intro he
    cases hok : s.getReadBuffersAt len position with
    | error e =>
      rw [hok] at he
      exact absurd he id
    | ok x =>
      obtain ⟨r, spans⟩ := x
      rw [hok] at he
      rw [← getReadBuffersAt_count s len position r spans hok]
      exact he.1
  · intro hle
    have hle' : position+min len s.getReadSize ≤ s.size := hle
    have hcap := le_trans hle' h.size_le
    obtain ⟨spans, hok, ht⟩ := getReadBuffersAt_ok h len position hcap
    have hl := h.load_segment ht hcap
    rw [Nat.add_sub_cancel_left, ← segment_content hle'] at hl
    rw [hok]
    exact ⟨hle, ht, hl⟩

section Runs

variable (maxString b : ℕ) (hb : 1 ≤ b) (raw : ℕ → ℕ → UInt8) (calls : List Call)
  (hsz : ∀ c ∈ calls, c.demand < 2^53) (t : ByteArray)
  (ht : after maxString calls (create raw b) = some t)
include hb hsz ht

/-- In every reachable state the positional `read` shows the bytes at its position, or
refuses the range, in exactly the placed requests. -/
theorem positional_read_iff (size position : UInt64) :
    ReadsContent t size.toNat position.toNat
        (observe (fun u => u.readAt size.toNat position.toNat) t) ↔
      Placed t size.toNat position.toNat :=
  readAt_iff (fresh_after_inv maxString b hb raw calls hsz t ht).1 _ _ position.toNat_lt

omit hb hsz ht in
theorem positional_read_same_block :
    ∃ t, after 100 [.write [1, 2, 3, 4, 5, 6, 7, 8], .setPosition 5]
        (create (fun _ _ => 0) 4) = some t ∧
      ReadsContent t 2 6 (observe (fun u => u.readAt 2 6) t) := by
  refine ⟨_, rfl, ?_⟩
  exact (positional_read_iff 100 4 (by decide) (fun _ _ => 0)
    [.write [1, 2, 3, 4, 5, 6, 7, 8], .setPosition 5] (by decide) _ rfl 2 6).mpr
    (placed_in_block (by decide) (by decide) rfl)

omit hb hsz ht in
/-- With the cursor in the first block, the second block cannot be read. -/
theorem positional_read_wrong_block :
    ∃ t, after 100 [.write [1, 2, 3, 4, 5, 6, 7, 8], .setPosition 0]
        (create (fun _ _ => 0) 4) = some t ∧
      segment t.content 4 4 = [5, 6, 7, 8] ∧ t.readAt 4 4 = .ok [1, 2, 3, 4] ∧
      ¬ ReadsContent t 4 4 (observe (fun u => u.readAt 4 4) t) := by
  refine ⟨_, rfl, rfl, rfl, ?_⟩
  intro hr
  rw [ReadsContent, if_pos (by decide), observe_eq_ok] at hr
  exact absurd (Except.ok.inj hr) (by decide)

/-- In every reachable state the positional `getReadBuffers` exposes only data, exactly
if its position and the number of bytes left at the cursor fit into the data. -/
theorem positional_buffers_iff (len position : UInt64) :
    ExposesData t position.toNat (t.getReadBuffersAt len.toNat position.toNat) ↔
      position.toNat+min len.toNat t.getReadSize ≤ t.getSize :=
  getReadBuffersAt_iff (fresh_after_inv maxString b hb raw calls hsz t ht).1 _ _

omit hb hsz ht in
theorem positional_buffers_at_cursor :
    ∃ t, after 100 [.write [1, 2, 3, 4, 5], .setPosition 1] (create (fun _ _ => 0) 2) = some t ∧
      ExposesData t 1 (t.getReadBuffersAt 9 1) := by
  refine ⟨_, rfl, ?_⟩
  exact (positional_buffers_iff 100 2 (by decide) (fun _ _ => 0)
    [.write [1, 2, 3, 4, 5], .setPosition 1] (by decide) _ rfl 9 1).mpr (by decide)

omit hb hsz ht in
/-- Two bytes at position 2 are asked for as four, because four are left at the cursor. -/
theorem positional_buffers_past_end :
    ∃ t, after 100 [.write [1, 2, 3, 4], .setPosition 0] (create (fun _ _ => 0) 4) = some t ∧
      t.getReadBuffersAt 4 2 = .error .nullDeref ∧ ¬ ExposesData t 2 (t.getReadBuffersAt 4 2) := by
  refine ⟨_, rfl, rfl, ?_⟩
  exact id

end Runs

end Lamb.ByteArray
