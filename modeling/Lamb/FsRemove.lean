import Lamb.Library.ByteString
import Lamb.Library.PathTree
import Mathlib.Data.List.Infix

/-!
# FSUtil::Rm

`Rm` removes what `lstat` finds at a path. It tells a directory by a bit of the mode, enters it,
removes what `readdir` lists there, and removes the directory last. A path is the list of its
names, so that `path + "/" + name` is a path with one more name. `rm` with fuel `n` enters `n`
levels at most.
-/

set_option autoImplicit false

namespace Lamb.FsRemove
open Lamb.ByteString Lamb.PathTree

def selfEntry : Bytes := [46]

def parentEntry : Bytes := [46, 46]

abbrev Name := {d : Bytes // ¬(d = selfEntry ∨ d = parentEntry)}

abbrev Path := List Name

inductive Kind where
  | directory
  | regular
  | symlink
  | fifo
  | socket
  | charDevice
  | blockDevice
  deriving DecidableEq

/-- The type codes of `st_mode`, `S_IFDIR` to `S_IFBLK`. -/
def Kind.code : Kind → BitVec 32
  | directory => 0x4000#32
  | regular => 0x8000#32
  | symlink => 0xA000#32
  | fifo => 0x1000#32
  | socket => 0xC000#32
  | charDevice => 0x2000#32
  | blockDevice => 0x6000#32

structure Stat where
  kind : Kind
  permissions : BitVec 12
  deriving DecidableEq

def Stat.mode (st : Stat) : BitVec 32 := st.kind.code ||| st.permissions.setWidth 32

abbrev FileTree := Tree Name Stat fun st => st.kind = .directory

structure Kernel where
  hides : FileTree → Path → Bool
  closes : FileTree → Path → Bool
  refuses : FileTree → Path → Bool
  listing : FileTree → Path → List Bytes
  listed : ∀ fs path, (listing fs path).Perm
    (selfEntry::parentEntry::(fs.children path).map Subtype.val)

def Kernel.Granted (k : Kernel) : Prop :=
  ∀ fs path, k.hides fs path = false ∧ k.closes fs path = false ∧ k.refuses fs path = false

structure World where
  fs : FileTree
  refused : List Path

def lstat (k : Kernel) (w : World) (path : Path) : Option Stat :=
  if k.hides w.fs path then none else w.fs.find path

def opendir (k : Kernel) (w : World) (path : Path) : Bool :=
  (w.fs.find path).any (fun st => st.kind = .directory) && !k.closes w.fs path

def removal (k : Kernel) (fits : Kind → Bool) (w : World) (path : Path) : Bool × World :=
  if h : (w.fs.find path).any (fun st => fits st.kind) = true ∧
      k.refuses w.fs path = false ∧ w.fs.children path = [] then
    (true, { w with fs := w.fs.remove path h.2.2 })
  else (false, { w with refused := w.refused ++ [path] })

/-- `::unlink` takes everything but directories. -/
def unlinkCall (k : Kernel) : World → Path → Bool × World := removal k (· ≠ .directory)

def rmdirCall (k : Kernel) : World → Path → Bool × World := removal k (· = .directory)

/-- `FSUtil::Unlink`. -/
def unlink (k : Kernel) (w : World) (filename : Path) (exist : Bool) : Bool × World :=
  if !exist && (lstat k w filename).isNone then (true, w) else unlinkCall k w filename

/-- The loop over `readdir`. The value of the last call stays in `ret`. -/
def rmEntries (rm : World → Name → Option (Bool × World)) :
    List Bytes → Bool → World → Option (Bool × World)
  | [], ret, w => some (ret, w)
  | d::ds, ret, w =>
    if h : d = selfEntry ∨ d = parentEntry then rmEntries rm ds ret w
    else (rm w ⟨d, h⟩).bind fun out => rmEntries rm ds out.1 out.2

def S_IFDIR : BitVec 32 := 0x4000#32

/-- `FSUtil::Rm`. -/
def rm (k : Kernel) : ℕ → World → Path → Option (Bool × World)
  | 0, _, _ => none
  | n+1, w, path =>
    match lstat k w path with
    | none => some (true, w)
    | some st =>
      if st.mode &&& S_IFDIR = 0 then some (unlink k w path false)
      else if opendir k w path then
        (rmEntries (fun w name => rm k n w (path ++ [name])) (k.listing w.fs path) true w).map
          fun out =>
            match rmdirCall k out.2 path with
            | (false, w) => (false, w)
            | (true, w) => (out.1, w)
      else some (false, w)

/-- Sockets and block devices share the bit of directories, and `opendir` does not open them. -/
def Kind.spared : Kind → Bool
  | socket => true
  | blockDevice => true
  | _ => false

theorem permissions_bit (perm : BitVec 12) : (perm.setWidth 32).getLsbD 14 = false := by
  rw [BitVec.getLsbD_setWidth, BitVec.getLsbD_of_ge perm 14 (by decide), Bool.and_false]

theorem mode_bit (st : Stat) : st.mode &&& S_IFDIR = 0 ↔
    st.kind ≠ .directory ∧ st.kind.spared = false := by
  have hbit : S_IFDIR = BitVec.twoPow 32 14 := by decide
  rw [hbit, BitVec.and_twoPow, Stat.mode, BitVec.getLsbD_or, permissions_bit, Bool.or_false]
  cases st.kind <;> decide

def Shrinks (w w' : World) : Prop :=
  ∀ q, w'.fs.find q = w.fs.find q ∨
    (w'.fs.find q = none ∧ ∀ st, w.fs.find q = some st → st.kind.spared = false)

section Shrinks

variable {w w' w'' : World} {q : Path} {st : Stat}

theorem Shrinks.refl (w : World) : Shrinks w w := fun _ => Or.inl rfl

theorem Shrinks.trans (h : Shrinks w w') (h' : Shrinks w' w'') : Shrinks w w'' := by
  intro q
  rcases h' q with heq | ⟨hnone, hspared⟩
  · rcases h q with heq' | ⟨hnone', hspared'⟩
    · exact Or.inl (heq.trans heq')
    · exact Or.inr ⟨heq.trans hnone', hspared'⟩
  · rcases h q with heq' | ⟨-, hspared'⟩
    · rw [heq'] at hspared
      exact Or.inr ⟨hnone, hspared⟩
    · exact Or.inr ⟨hnone, hspared'⟩

theorem Shrinks.none (h : Shrinks w w') (hq : w.fs.find q = none) : w'.fs.find q = none := by
  rcases h q with heq | ⟨hnone, -⟩
  · rw [heq, hq]
  · exact hnone

theorem Shrinks.spared (h : Shrinks w w') (hq : w.fs.find q = some st)
    (hst : st.kind.spared = true) : w'.fs.find q = some st := by
  rcases h q with heq | ⟨-, hspared⟩
  · rw [heq, hq]
  · rw [hspared st hq] at hst
    cases hst

end Shrinks

section Calls

variable {k : Kernel} {fits : Kind → Bool} {w w' : World} {path : Path} {ret : Bool} {st : Stat}

/-- A removal fails and is recorded, or takes this node alone. -/
theorem removal_cases (h : removal k fits w path = (ret, w')) :
    (ret = false ∧ w'.fs = w.fs) ∨
    (ret = true ∧ w'.refused = w.refused ∧ w.fs.children path = [] ∧
      (∃ st, w.fs.find path = some st ∧ fits st.kind = true) ∧
      ∀ q, w'.fs.find q = if q = path then none else w.fs.find q) := by
  rw [removal] at h
  split_ifs at h with hfits
  · obtain ⟨rfl, rfl⟩ := Prod.mk.inj h
    obtain ⟨hkind, -, hchildren⟩ := hfits
    refine Or.inr ⟨rfl, rfl, hchildren, ?_, find_remove w.fs path hchildren⟩
    rwa [Option.any_eq_true] at hkind
  · obtain ⟨rfl, rfl⟩ := Prod.mk.inj h
    exact Or.inl ⟨rfl, rfl⟩

theorem removal_granted (hk : k.Granted) (hpath : w.fs.find path = some st)
    (hfits : fits st.kind = true) (hchildren : w.fs.children path = [])
    (h : removal k fits w path = (ret, w')) : ret = true ∧ w'.fs.find path = none := by
  have hkind : (w.fs.find path).any (fun st => fits st.kind) = true := by
    rw [hpath]
    exact hfits
  rw [removal, dif_pos ⟨hkind, (hk w.fs path).2.2, hchildren⟩] at h
  obtain ⟨rfl, rfl⟩ := Prod.mk.inj h
  exact ⟨rfl, by rw [find_remove, if_pos rfl]⟩

end Calls

/-- What a call leaves behind. If it does not return true, its path is still there, so that the
removal of the directory above fails as well. -/
structure Ran (path : Path) (w : World) (ret : Bool) (w' : World) : Prop where
  shrinks : Shrinks w w'
  frame : ∀ q, ¬path <+: q → w'.fs.find q = w.fs.find q
  outcome : (ret = true ∧ w'.refused = w.refused) ∨ (ret = false ∧ w'.fs.find path ≠ none)

/-- What the loop leaves behind, when `ret` was true before it. -/
structure EntriesRan (path : Path) (names : List Name) (w : World) (ret ret' : Bool)
    (w' : World) : Prop where
  shrinks : Shrinks w w'
  frame : ∀ q, (∀ name ∈ names, ¬path ++ [name] <+: q) → w'.fs.find q = w.fs.find q
  outcome : (∀ name ∈ names, w'.fs.find (path ++ [name]) = none) → ret = true →
    ret' = true ∧ w'.refused = w.refused

def entryNames : List Bytes → List Name :=
  List.filterMap fun d => if h : d = selfEntry ∨ d = parentEntry then none else some ⟨d, h⟩

theorem entryNames_skip {d : Bytes} (h : d = selfEntry ∨ d = parentEntry) (ds : List Bytes) :
    entryNames (d::ds) = entryNames ds := by
  rw [entryNames, List.filterMap_cons_none (dif_pos h)]

theorem entryNames_enter {d : Bytes} (h : ¬(d = selfEntry ∨ d = parentEntry)) (ds : List Bytes) :
    entryNames (d::ds) = ⟨d, h⟩::entryNames ds := by
  rw [entryNames, List.filterMap_cons_some (dif_neg h)]

theorem entryNames_names (names : List Name) : entryNames (names.map Subtype.val) = names := by
  induction names with
  | nil => rfl
  | cons name names ih =>
    rw [List.map_cons, entryNames_enter name.2, ih]

theorem entryNames_listing (k : Kernel) (fs : FileTree) (path : Path) :
    (entryNames (k.listing fs path)).Perm (fs.children path) := by
  have hperm := (k.listed fs path).filterMap
    fun d => if h : d = selfEntry ∨ d = parentEntry then none else some (⟨d, h⟩ : Name)
  change (entryNames _).Perm (entryNames _) at hperm
  rwa [entryNames_skip (Or.inl rfl), entryNames_skip (Or.inr rfl), entryNames_names] at hperm

theorem sibling_apart {path : Path} {a b : Name} (h : a ≠ b) : ¬path ++ [a] <+: path ++ [b] := by
  rw [List.prefix_append_right_inj, List.cons_prefix_cons]
  exact fun hab => h hab.1

/-- The directory itself stays while its children are worked on. -/
theorem EntriesRan.self {path : Path} {names : List Name} {w w' : World} {ret ret' : Bool}
    (h : EntriesRan path names w ret ret' w') : w'.fs.find path = w.fs.find path := by
  apply h.frame
  intro name _ hprefix
  have hlength := hprefix.length_le
  rw [List.length_append, List.length_singleton] at hlength
  omega

section Loop

variable {call : World → Name → Option (Bool × World)} {path : Path}

theorem entries_ran
    (hcall : ∀ w name ret w', call w name = some (ret, w') → Ran (path ++ [name]) w ret w')
    (ds : List Bytes) (hnodup : (entryNames ds).Nodup) (ret ret' : Bool) (w w' : World)
    (h : rmEntries call ds ret w = some (ret', w')) :
    EntriesRan path (entryNames ds) w ret ret' w' := by
  induction ds generalizing ret w with
  | nil =>
    obtain ⟨rfl, rfl⟩ := Prod.mk.inj (Option.some.inj h)
    exact ⟨Shrinks.refl w, fun _ _ => rfl, fun _ hret => ⟨hret, rfl⟩⟩
  | cons d ds ih =>
    rw [rmEntries] at h
    split_ifs at h with hskip
    · rw [entryNames_skip hskip] at hnodup ⊢
      exact ih hnodup ret w h
    · rw [entryNames_enter hskip] at hnodup ⊢
      obtain ⟨hname, hnodup⟩ := List.nodup_cons.mp hnodup
      obtain ⟨⟨ret₁, w₁⟩, hfirst, hrest⟩ := Option.bind_eq_some_iff.mp h
      have first := hcall w ⟨d, hskip⟩ ret₁ w₁ hfirst
      have rest := ih hnodup ret₁ w₁ hrest
      refine ⟨first.shrinks.trans rest.shrinks, ?_, ?_⟩
      · intro q hq
        rw [List.forall_mem_cons] at hq
        rw [rest.frame q hq.2, first.frame q hq.1]
      · intro hgone _
        rw [List.forall_mem_cons] at hgone
        -- a child that is gone at the end was gone before the calls for its siblings
        have hstays := rest.frame (path ++ [⟨d, hskip⟩]) fun name hmem =>
          sibling_apart fun heq => hname (heq ▸ hmem)
        rw [hgone.1] at hstays
        rcases first.outcome with ⟨hret₁, hrefused⟩ | ⟨-, hpresent⟩
        · obtain ⟨hret', hrefused'⟩ := rest.outcome hgone.2 hret₁
          exact ⟨hret', hrefused'.trans hrefused⟩
        · exact absurd hstays.symm hpresent

end Loop

section Run

variable {k : Kernel} {w w' : World} {path : Path} {ret : Bool} {st : Stat}

theorem lstat_some (h : lstat k w path = some st) : w.fs.find path = some st := by
  rw [lstat] at h
  split_ifs at h
  exact h

theorem opendir_directory (h : opendir k w path = true) :
    ∃ st, w.fs.find path = some st ∧ st.kind = .directory := by
  rw [opendir, Bool.and_eq_true, Option.any_eq_true] at h
  obtain ⟨⟨st, hst, hkind⟩, -⟩ := h
  exact ⟨st, hst, of_decide_eq_true hkind⟩

theorem child_frame {q : Path} (hq : ¬path <+: q) (name : Name) : ¬path ++ [name] <+: q :=
  fun h => hq ((List.prefix_append path [name]).trans h)

theorem removal_ran {fits : Kind → Bool} (hpath : w.fs.find path = some st)
    (hst : st.kind.spared = false) (h : removal k fits w path = (ret, w')) :
    Ran path w ret w' := by
  rcases removal_cases h with ⟨rfl, hfs⟩ | ⟨rfl, hrefused, -, -, hfind⟩
  · refine ⟨fun q => Or.inl (by rw [hfs]), fun q _ => by rw [hfs], Or.inr ⟨rfl, ?_⟩⟩
    rw [hfs, hpath]
    exact Option.some_ne_none st
  · refine ⟨?_, ?_, Or.inl ⟨rfl, hrefused⟩⟩
    · intro q
      rw [hfind]
      split_ifs with hq
      · refine Or.inr ⟨rfl, ?_⟩
        intro st' hst'
        rw [hq, hpath] at hst'
        cases hst'
        exact hst
      · exact Or.inl rfl
    · intro q hq
      rw [hfind, if_neg]
      rintro rfl
      exact hq List.prefix_rfl

theorem unlink_found (h : lstat k w path = some st) :
    unlink k w path false = unlinkCall k w path := by
  rw [unlink, h]
  rfl

theorem unlink_ran (hpath : lstat k w path = some st) (hst : st.kind.spared = false)
    (h : unlink k w path false = (ret, w')) : Ran path w ret w' := by
  rw [unlink_found hpath] at h
  exact removal_ran (lstat_some hpath) hst h

/-- The removal of the directory after the loop over it. It succeeds only if every child is
gone, and then no call in the loop failed. -/
theorem directory_ran {w₁ : World} {ret₁ : Bool} (hpath : w.fs.find path = some st)
    (hst : st.kind.spared = false)
    (loop : EntriesRan path (entryNames (k.listing w.fs path)) w true ret₁ w₁)
    (h : (match rmdirCall k w₁ path with
      | (false, w) => (false, w)
      | (true, w) => (ret₁, w)) = (ret, w')) : Ran path w ret w' := by
  have hself : w₁.fs.find path = some st := by
    rw [loop.self, hpath]
  obtain ⟨⟨removed, w₂⟩, hremoval⟩ : ∃ out, rmdirCall k w₁ path = out := ⟨_, rfl⟩
  have last := removal_ran hself hst hremoval
  rw [hremoval] at h
  have hshrinks : Shrinks w w₂ := loop.shrinks.trans last.shrinks
  have hframe : ∀ q, ¬path <+: q → w₂.fs.find q = w.fs.find q := by
    intro q hq
    rw [last.frame q hq, loop.frame q fun name _ => child_frame hq name]
  rcases removal_cases hremoval with ⟨rfl, hfs⟩ | ⟨rfl, hrefused, hchildren, -, -⟩
  · obtain ⟨rfl, rfl⟩ := Prod.mk.inj h
    refine ⟨hshrinks, hframe, Or.inr ⟨rfl, ?_⟩⟩
    rw [hfs, hself]
    exact Option.some_ne_none st
  · obtain ⟨rfl, rfl⟩ := Prod.mk.inj h
    have hgone : ∀ name ∈ entryNames (k.listing w.fs path),
        w₁.fs.find (path ++ [name]) = none := by
      intro name _
      by_contra hpresent
      have hmem := mem_children.mpr hpresent
      rw [hchildren] at hmem
      cases hmem
    obtain ⟨hret, hrefused₁⟩ := loop.outcome hgone rfl
    exact ⟨hshrinks, hframe, Or.inl ⟨hret, hrefused.trans hrefused₁⟩⟩

/-- A run removes nothing but what stands at its path or below it, removes no spared node, and
returns true only if no removal failed. -/
theorem rm_ran (k : Kernel) (n : ℕ) (w w' : World) (path : Path) (ret : Bool)
    (h : rm k n w path = some (ret, w')) : Ran path w ret w' := by
  induction n generalizing w w' path ret with
  | zero => cases h
  | succ n ih =>
    rw [rm] at h
    split at h
    · obtain ⟨rfl, rfl⟩ := Prod.mk.inj (Option.some.inj h)
      exact ⟨Shrinks.refl w, fun _ _ => rfl, Or.inl ⟨rfl, rfl⟩⟩
    · rename_i st hst
      have hpath := lstat_some hst
      split_ifs at h with hmode hopen
      · exact unlink_ran hst ((mode_bit st).mp hmode).2 (Option.some.inj h)
      · obtain ⟨⟨ret₁, w₁⟩, hloop, hlast⟩ := Option.map_eq_some_iff.mp h
        have loop := entries_ran (fun w name ret w' => ih w w' (path ++ [name]) ret) _
          ((entryNames_listing k w.fs path).nodup_iff.mpr children_nodup) true ret₁ w w₁ hloop
        obtain ⟨st', hst', hkind⟩ := opendir_directory hopen
        rw [hpath] at hst'
        cases hst'
        refine directory_ran hpath ?_ loop hlast
        rw [hkind]
        rfl
      · obtain ⟨rfl, rfl⟩ := Prod.mk.inj (Option.some.inj h)
        refine ⟨Shrinks.refl w, fun _ _ => rfl, Or.inr ⟨rfl, ?_⟩⟩
        rw [hpath]
        exact Option.some_ne_none st

def Shallow (n : ℕ) (w : World) (path : Path) : Prop :=
  ∀ q, w.fs.find (path ++ q) ≠ none → q.length < n

theorem Shallow.mono {n : ℕ} (h : Shallow n w path) (hw : Shrinks w w') : Shallow n w' path :=
  fun q hq => h q fun hnone => hq (hw.none hnone)

theorem Shallow.child {n : ℕ} {name : Name} (h : Shallow (n+1) w path) :
    Shallow n w (path ++ [name]) := by
  intro q hq
  rw [List.append_assoc] at hq
  exact Nat.lt_of_succ_lt_succ (h _ hq)

theorem exists_shallow (w : World) (path : Path) : ∃ n, Shallow n w path := by
  obtain ⟨n, hn⟩ := exists_height w.fs
  refine ⟨n, ?_⟩
  intro q hq
  have hlt := hn _ hq
  rw [List.length_append] at hlt
  omega

/-- The loop ends if every call in it does, whatever the calls before removed. -/
theorem entries_total {call : World → Name → Option (Bool × World)} {Good : World → Prop}
    (ds : List Bytes) (hcall : ∀ w, Good w → ∀ name ∈ entryNames ds,
      ∃ ret w', call w name = some (ret, w') ∧ Good w') (ret : Bool) (hw : Good w) :
    ∃ ret' w', rmEntries call ds ret w = some (ret', w') := by
  induction ds generalizing ret w with
  | nil => exact ⟨ret, w, rfl⟩
  | cons d ds ih =>
    rw [rmEntries]
    split_ifs with hskip
    · rw [entryNames_skip hskip] at hcall
      exact ih hcall ret hw
    · rw [entryNames_enter hskip] at hcall
      obtain ⟨ret₁, w₁, hfirst, hw₁⟩ := hcall w hw _ (.head _)
      rw [hfirst]
      exact ih (fun w hw name hname => hcall w hw name (.tail _ hname)) ret₁ hw₁

theorem rm_total (k : Kernel) (n m : ℕ) (w : World) (path : Path) (hw : Shallow n w path)
    (hm : n < m) : ∃ ret w', rm k m w path = some (ret, w') := by
  induction m generalizing n w path with
  | zero => omega
  | succ m ih =>
    rw [rm]
    split
    · exact ⟨true, w, rfl⟩
    · rename_i st hst
      have hpath : w.fs.find (path ++ []) ≠ none := by
        rw [List.append_nil, lstat_some hst]
        exact Option.some_ne_none st
      obtain ⟨n, rfl⟩ := Nat.exists_eq_add_one_of_ne_zero (hw [] hpath).ne_bot
      split_ifs
      · exact ⟨_, _, rfl⟩
      · have hcall : ∀ w', Shallow (n+1) w' path → ∀ name ∈ entryNames (k.listing w.fs path),
            ∃ ret w'', rm k m w' (path ++ [name]) = some (ret, w'') ∧ Shallow (n+1) w'' path := by
          intro w' hw' name _
          obtain ⟨ret, w'', hrun⟩ := ih n w' (path ++ [name]) hw'.child (by omega)
          exact ⟨ret, w'', hrun, hw'.mono (rm_ran k m w' w'' _ ret hrun).shrinks⟩
        obtain ⟨ret₁, w₁, hloop⟩ := entries_total _ hcall true hw
        rw [hloop]
        exact ⟨_, _, rfl⟩
      · exact ⟨false, w, rfl⟩

def Plain (fs : FileTree) (path : Path) : Prop :=
  ∀ q st, path <+: q → fs.find q = some st → st.kind.spared = false

theorem Plain.child (h : Plain w.fs path) (hw : Shrinks w w') (name : Name) :
    Plain w'.fs (path ++ [name]) := by
  intro q st hq hst
  rcases hw q with heq | ⟨hnone, -⟩
  · rw [heq] at hst
    exact h q st ((List.prefix_append path [name]).trans hq) hst
  · rw [hnone] at hst
    cases hst

/-- If every call returns true and its child is gone, so it is for the loop. -/
theorem entries_granted {call : World → Name → Option (Bool × World)} {w₀ : World}
    (hcall : ∀ w, Shrinks w₀ w → ∀ name ret w', call w name = some (ret, w') →
      ret = true ∧ w'.fs.find (path ++ [name]) = none ∧ Shrinks w w')
    (ds : List Bytes) (hw : Shrinks w₀ w) (h : rmEntries call ds true w = some (ret, w')) :
    ret = true ∧ (∀ name ∈ entryNames ds, w'.fs.find (path ++ [name]) = none) ∧
      Shrinks w w' := by
  induction ds generalizing w with
  | nil =>
    obtain ⟨rfl, rfl⟩ := Prod.mk.inj (Option.some.inj h)
    refine ⟨rfl, ?_, Shrinks.refl w⟩
    intro name hname
    cases hname
  | cons d ds ih =>
    rw [rmEntries] at h
    split_ifs at h with hskip
    · rw [entryNames_skip hskip]
      exact ih hw h
    · rw [entryNames_enter hskip]
      obtain ⟨⟨ret₁, w₁⟩, hfirst, hrest⟩ := Option.bind_eq_some_iff.mp h
      obtain ⟨rfl, hgone, hw₁⟩ := hcall w hw _ ret₁ w₁ hfirst
      obtain ⟨hret, hnames, hw'⟩ := ih (hw.trans hw₁) hrest
      refine ⟨hret, ?_, hw₁.trans hw'⟩
      rw [List.forall_mem_cons]
      exact ⟨hw'.none hgone, hnames⟩

theorem directory_granted {w₁ : World} (hk : k.Granted) (hpath : w.fs.find path = some st)
    (hst : st.kind = .directory) (hw₁ : Shrinks w w₁) (hself : w₁.fs.find path = w.fs.find path)
    (hgone : ∀ name ∈ entryNames (k.listing w.fs path), w₁.fs.find (path ++ [name]) = none)
    (h : (match rmdirCall k w₁ path with
      | (false, w) => (false, w)
      | (true, w) => (true, w)) = (ret, w')) : ret = true ∧ w'.fs.find path = none := by
  have hchildren : w₁.fs.children path = [] := by
    rw [List.eq_nil_iff_forall_not_mem]
    intro name hname
    have hpresent := mem_children.mp hname
    have hmem : name ∈ w.fs.children path :=
      mem_children.mpr fun hnone => hpresent (hw₁.none hnone)
    exact hpresent (hgone name ((entryNames_listing k w.fs path).mem_iff.mpr hmem))
  obtain ⟨⟨removed, w₂⟩, hremoval⟩ : ∃ out, rmdirCall k w₁ path = out := ⟨_, rfl⟩
  rw [hpath] at hself
  obtain ⟨rfl, hnone⟩ := removal_granted hk hself (decide_eq_true hst) hchildren hremoval
  rw [hremoval] at h
  obtain ⟨rfl, rfl⟩ := Prod.mk.inj h
  exact ⟨rfl, hnone⟩

theorem rm_granted (hk : k.Granted) (n : ℕ) (hplain : Plain w.fs path)
    (h : rm k n w path = some (ret, w')) : ret = true ∧ w'.fs.find path = none := by
  induction n generalizing w w' path ret with
  | zero => cases h
  | succ n ih =>
    rw [rm] at h
    split at h
    · rename_i hnone
      obtain ⟨rfl, rfl⟩ := Prod.mk.inj (Option.some.inj h)
      rw [lstat, (hk w.fs path).1, if_neg Bool.false_ne_true] at hnone
      exact ⟨rfl, hnone⟩
    · rename_i st hst
      have hpath := lstat_some hst
      have hspared := hplain path st List.prefix_rfl hpath
      split_ifs at h with hmode hopen
      · rw [unlink_found hst] at h
        have hkind := ((mode_bit st).mp hmode).1
        exact removal_granted hk hpath (decide_eq_true hkind) (leaf_children hpath hkind)
          (Option.some.inj h)
      · obtain ⟨⟨ret₁, w₁⟩, hloop, hlast⟩ := Option.map_eq_some_iff.mp h
        have hcall : ∀ w₁, Shrinks w w₁ → ∀ name ret w₂,
            rm k n w₁ (path ++ [name]) = some (ret, w₂) →
            ret = true ∧ w₂.fs.find (path ++ [name]) = none ∧ Shrinks w₁ w₂ := by
          intro w₁ hw₁ name ret w₂ hrun
          obtain ⟨hret, hnone⟩ := ih (hplain.child hw₁ name) hrun
          exact ⟨hret, hnone, (rm_ran k n w₁ w₂ _ ret hrun).shrinks⟩
        obtain ⟨rfl, hgone, hw₁⟩ := entries_granted hcall _ (Shrinks.refl w) hloop
        have loop := entries_ran (fun w name ret w' => rm_ran k n w w' (path ++ [name]) ret) _
          ((entryNames_listing k w.fs path).nodup_iff.mpr children_nodup) true true w w₁ hloop
        obtain ⟨st', hst', hkind⟩ := opendir_directory hopen
        exact directory_granted hk hst' hkind hw₁ loop.self hgone hlast
      · have hnot : ¬(st.kind ≠ .directory ∧ st.kind.spared = false) :=
          fun hboth => hmode ((mode_bit st).mpr hboth)
        have hkind : st.kind = .directory := by
          by_contra hne
          exact hnot ⟨hne, hspared⟩
        rw [opendir, hpath, (hk w.fs path).2.1] at hopen
        exact absurd (by simp [hkind]) hopen

/-- What the removal of a path promises. It comes to an end and returns false when some removal
failed. If all is granted it returns true, nothing is left at the path or below it, and nothing
else has changed. -/
structure Removes (fs : FileTree) (path : Path) : Prop where
  granted : ∀ k : Kernel, k.Granted → ∃ bound, ∀ n, bound ≤ n →
    ∃ w, rm k n ⟨fs, []⟩ path = some (true, w) ∧ (∀ q, path <+: q → w.fs.find q = none) ∧
      ∀ q, ¬path <+: q → w.fs.find q = fs.find q
  failed : ∀ k : Kernel, ∃ bound, ∀ n, bound ≤ n →
    ∃ ret w, rm k n ⟨fs, []⟩ path = some (ret, w) ∧ (w.refused ≠ [] → ret = false)

def Kernel.granting : Kernel where
  hides := fun _ _ => false
  closes := fun _ _ => false
  refuses := fun _ _ => false
  listing := fun fs path => selfEntry::parentEntry::(fs.children path).map Subtype.val
  listed := fun _ _ => List.Perm.refl _

theorem granting_granted : Kernel.granting.Granted := fun _ _ => ⟨rfl, rfl, rfl⟩

theorem rm_ends (k : Kernel) (fs : FileTree) (path : Path) : ∃ bound, ∀ n, bound ≤ n →
    ∃ ret w, rm k n ⟨fs, []⟩ path = some (ret, w) := by
  obtain ⟨height, hheight⟩ := exists_shallow ⟨fs, []⟩ path
  refine ⟨height+1, ?_⟩
  intro n hn
  exact rm_total k height n ⟨fs, []⟩ path hheight hn

/-- A removal keeps its promise on a path if and only if no socket and no block device stands
there or below. -/
theorem removes_iff (fs : FileTree) (path : Path) : Removes fs path ↔ Plain fs path := by
  constructor
  · intro h q st hq hst
    by_contra hspared
    obtain ⟨bound, hbound⟩ := h.granted Kernel.granting granting_granted
    obtain ⟨w, hrun, hgone, -⟩ := hbound bound (Nat.le_refl bound)
    have hkept := (rm_ran _ _ _ _ _ _ hrun).shrinks.spared hst
      (Bool.eq_true_of_not_eq_false hspared)
    rw [hgone q hq] at hkept
    cases hkept
  · intro hplain
    refine ⟨?_, ?_⟩
    · intro k hk
      obtain ⟨bound, hbound⟩ := rm_ends k fs path
      refine ⟨bound, ?_⟩
      intro n hn
      obtain ⟨ret, w, hrun⟩ := hbound n hn
      obtain ⟨rfl, hnone⟩ := rm_granted hk n hplain hrun
      exact ⟨w, hrun, fun q hq => below_none hnone hq, (rm_ran k n _ w path true hrun).frame⟩
    · intro k
      obtain ⟨bound, hbound⟩ := rm_ends k fs path
      refine ⟨bound, ?_⟩
      intro n hn
      obtain ⟨ret, w, hrun⟩ := hbound n hn
      refine ⟨ret, w, hrun, ?_⟩
      intro hrefused
      rcases (rm_ran k n _ w path ret hrun).outcome with ⟨-, hsame⟩ | ⟨hret, -⟩
      · exact absurd hsame hrefused
      · exact hret

end Run

def socketName : Name := ⟨[115], by decide⟩

def socketTree : FileTree where
  entries := [([], ⟨.directory, 0x1ed#12⟩), ([socketName], ⟨.socket, 0x1ed#12⟩)]
  unique := by decide
  rooted := by
    intro e he parent n heq
    rcases List.mem_pair.mp he with rfl | rfl
    · exact absurd heq.symm (List.append_ne_nil_of_right_ne_nil parent (List.cons_ne_nil n []))
    · change [] ++ [socketName] = parent ++ [n] at heq
      obtain ⟨rfl, -⟩ := List.append_inj' heq rfl
      exact ⟨_, .head _, rfl⟩

/-- A removal leaves the socket and returns false. -/
theorem socket_stays : ¬Removes socketTree [socketName] := by
  intro h
  obtain ⟨bound, hbound⟩ := h.granted Kernel.granting granting_granted
  obtain ⟨w, hrun, -⟩ := hbound (bound+1) (Nat.le_succ bound)
  have hfalse : rm Kernel.granting (bound+1) ⟨socketTree, []⟩ [socketName] =
      some (false, ⟨socketTree, []⟩) := by rfl
  rw [hfalse] at hrun
  cases hrun

end Lamb.FsRemove
