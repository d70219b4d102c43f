import Lamb.HttpUrl
import Lamb.Library.LastWrite

/-!
# ServletDispatch

Servlets are registered under uris and under patterns. A request is served by the servlet of
its uri, by the first pattern that matches it, or by the default servlet. What was registered
when decides which one this is.
-/

set_option autoImplicit false

namespace Lamb.Servlets
open Lamb.ByteString Lamb.Http Lamb.HttpUrl Lamb.LastWrite

/-- Servlets of the user, callbacks and the servlet for what is not found. -/
inductive Servlet (S Cb : Type) where
  | user (slt : S)
  | function (cb : Cb)
  | notFound (name : Bytes)
  deriving DecidableEq

/-- Creators: `HoldServletCreator` and those of the user. -/
inductive Creator (S Cb C : Type) where
  | hold (slt : Servlet S Cb)
  | user (creator : C)
  deriving DecidableEq

variable {S Cb C : Type}

/-- `IServletCreator::get`. `make` says what the creators of the user return. -/
def Creator.get (make : C → Servlet S Cb) : Creator S Cb C → Servlet S Cb
  | .hold slt => slt
  | .user creator => make creator

structure ServletDispatch (S Cb C : Type) where
  datas : Bytes → Option (Creator S Cb C)
  globs : List (Bytes × Creator S Cb C)
  default : Servlet S Cb

def ServletDispatch.new : ServletDispatch S Cb C := {
  datas := fun _ => none
  globs := []
  default := .notFound (ascii "lamb/1.0") }

def eraseGlob (uri : Bytes) : List (Bytes × Creator S Cb C) → List (Bytes × Creator S Cb C)
  | [] => []
  | it::globs => if it.1 = uri then globs else it::eraseGlob uri globs

section Operations

variable (d : ServletDispatch S Cb C) (uri : Bytes)

def addServlet (slt : Servlet S Cb) : ServletDispatch S Cb C :=
  { d with datas := Function.update d.datas uri (some (.hold slt)) }

/-- `addServlet` for a callback. -/
def addFunctionServlet (cb : Cb) : ServletDispatch S Cb C :=
  { d with datas := Function.update d.datas uri (some (.hold (.function cb))) }

def addGlobServlet (slt : Servlet S Cb) : ServletDispatch S Cb C :=
  { d with globs := eraseGlob uri d.globs ++ [(uri, .hold slt)] }

/-- `addGlobServlet` for a callback. -/
def addGlobFunctionServlet (cb : Cb) : ServletDispatch S Cb C := addGlobServlet d uri (.function cb)

def addServletCreator (creator : Creator S Cb C) : ServletDispatch S Cb C :=
  { d with datas := Function.update d.datas uri (some creator) }

def addGlobServletCreator (creator : Creator S Cb C) : ServletDispatch S Cb C :=
  { d with globs := eraseGlob uri d.globs ++ [(uri, creator)] }

def delServlet : ServletDispatch S Cb C := { d with datas := Function.update d.datas uri none }

def delGlobServlet : ServletDispatch S Cb C := { d with globs := eraseGlob uri d.globs }

def setDefault (v : Servlet S Cb) : ServletDispatch S Cb C := { d with default := v }

/-- `getMatchedServlet`. `fnmatch` tells whether a pattern matches a uri. -/
def getMatchedServlet (make : C → Servlet S Cb) (fnmatch : Bytes → Bytes → Bool) : Servlet S Cb :=
  match d.datas uri with
  | some creator => creator.get make
  | none =>
    match d.globs.find? fun it => fnmatch it.1 uri with
    | some it => it.2.get make
    | none => d.default

end Operations

inductive Op (S Cb C : Type) where
  | addServlet (uri : Bytes) (slt : Servlet S Cb)
  | addFunctionServlet (uri : Bytes) (cb : Cb)
  | addServletCreator (uri : Bytes) (creator : Creator S Cb C)
  | delServlet (uri : Bytes)
  | addGlobServlet (uri : Bytes) (slt : Servlet S Cb)
  | addGlobFunctionServlet (uri : Bytes) (cb : Cb)
  | addGlobServletCreator (uri : Bytes) (creator : Creator S Cb C)
  | delGlobServlet (uri : Bytes)
  | setDefault (v : Servlet S Cb)

def apply (d : ServletDispatch S Cb C) : Op S Cb C → ServletDispatch S Cb C
  | .addServlet uri slt => addServlet d uri slt
  | .addFunctionServlet uri cb => addFunctionServlet d uri cb
  | .addServletCreator uri creator => addServletCreator d uri creator
  | .delServlet uri => delServlet d uri
  | .addGlobServlet uri slt => addGlobServlet d uri slt
  | .addGlobFunctionServlet uri cb => addGlobFunctionServlet d uri cb
  | .addGlobServletCreator uri creator => addGlobServletCreator d uri creator
  | .delGlobServlet uri => delGlobServlet d uri
  | .setDefault v => setDefault d v

def run (h : List (Op S Cb C)) : ServletDispatch S Cb C := h.foldl apply .new

def exactEffect : Op S Cb C → Option (Bytes × Option (Creator S Cb C))
  | .addServlet uri slt => some (uri, some (.hold slt))
  | .addFunctionServlet uri cb => some (uri, some (.hold (.function cb)))
  | .addServletCreator uri creator => some (uri, some creator)
  | .delServlet uri => some (uri, none)
  | _ => none

def globEffect : Op S Cb C → Option (Bytes × Option (Creator S Cb C))
  | .addGlobServlet uri slt => some (uri, some (.hold slt))
  | .addGlobFunctionServlet uri cb => some (uri, some (.hold (.function cb)))
  | .addGlobServletCreator uri creator => some (uri, some creator)
  | .delGlobServlet uri => some (uri, none)
  | _ => none

def defaultEffect : Op S Cb C → Option (Unit × Option (Servlet S Cb))
  | .setDefault v => some ((), some v)
  | _ => none

/-- The servlet for a uri after a history: that of the registration of the uri if it is live,
else that of the oldest live pattern that matches, else the default one. -/
inductive Dispatched (make : C → Servlet S Cb) (fnmatch : Bytes → Bytes → Bool)
    (h : List (Op S Cb C)) (uri : Bytes) : Servlet S Cb → Prop
  | exact {i : ℕ} {c : Creator S Cb C} (hlive : Live exactEffect h i uri c) :
      Dispatched make fnmatch h uri (c.get make)
  | glob {i : ℕ} {pattern : Bytes} {c : Creator S Cb C}
      (hexact : ∀ j c', ¬Live exactEffect h j uri c')
      (hlive : Live globEffect h i pattern c) (hmatch : fnmatch pattern uri = true)
      (holdest : ∀ j pattern' c', Live globEffect h j pattern' c' → fnmatch pattern' uri = true →
        i ≤ j) : Dispatched make fnmatch h uri (c.get make)
  | default {s : Servlet S Cb} (hexact : ∀ j c', ¬Live exactEffect h j uri c')
      (hglob : ∀ j pattern c', Live globEffect h j pattern c' → fnmatch pattern uri = false)
      (hdefault : (∃ i, Live defaultEffect h i () s) ∨
        (∀ i v, ¬Live defaultEffect h i () v) ∧ s = .notFound (ascii "lamb/1.0")) :
      Dispatched make fnmatch h uri s

section Runs

theorem eraseGlob_eq (uri : Bytes) (globs : List (Bytes × Creator S Cb C)) :
    eraseGlob uri globs = eraseKey uri globs := by
  induction globs with
  | nil => rfl
  | cons it globs ih =>
    rw [eraseGlob, eraseKey]
    by_cases h : it.1 = uri
    · rw [if_pos h, List.eraseP_cons_of_pos (by simpa using h)]
    · rw [if_neg h, List.eraseP_cons_of_neg (by simpa using h), ih]
      rfl

variable (d : ServletDispatch S Cb C) (op : Op S Cb C)

theorem apply_datas : (apply d op).datas = applyMap exactEffect d.datas op := by
  cases op <;> rfl

/-- Every call changes the patterns as a list of registrations. -/
theorem apply_globs : (apply d op).globs = applyList globEffect d.globs op := by
  cases op with
  | addGlobServlet uri slt => exact congrArg (· ++ [(uri, _)]) (eraseGlob_eq uri d.globs)
  | addGlobFunctionServlet uri cb => exact congrArg (· ++ [(uri, _)]) (eraseGlob_eq uri d.globs)
  | addGlobServletCreator uri creator => exact congrArg (· ++ [(uri, _)]) (eraseGlob_eq uri d.globs)
  | delGlobServlet uri =>
    change eraseGlob uri d.globs = eraseKey uri d.globs ++ []
    rw [eraseGlob_eq, List.append_nil]
  | _ => rfl

variable (h : List (Op S Cb C))

theorem run_datas : (run h).datas = h.foldl (applyMap exactEffect) (fun _ => none) := by
  induction h using List.reverseRecOn with
  | nil => rfl
  | append_singleton h op ih =>
    rw [run, List.foldl_append, List.foldl_append, ← ih]
    exact apply_datas _ op

theorem run_globs : (run h).globs = h.foldl (applyList globEffect) [] := by
  induction h using List.reverseRecOn with
  | nil => rfl
  | append_singleton h op ih =>
    rw [run, List.foldl_append, List.foldl_append, ← ih]
    exact apply_globs _ op

theorem run_default : (run h).default =
    (h.foldl (applyMap defaultEffect) (fun _ => none) ()).getD (.notFound (ascii "lamb/1.0")) := by
  induction h using List.reverseRecOn with
  | nil => rfl
  | append_singleton h op ih =>
    rw [run, List.foldl_append, List.foldl_append]
    cases op with
    | setDefault v => rfl
    | _ => exact ih

theorem default_iff (s : Servlet S Cb) : (run h).default = s ↔
    (∃ i, Live defaultEffect h i () s) ∨
      (∀ i v, ¬Live defaultEffect h i () v) ∧ s = .notFound (ascii "lamb/1.0") := by
  rw [run_default]
  have hlive : ∀ v, h.foldl (applyMap defaultEffect) (fun _ => none) () = some v ↔
      ∃ i, Live defaultEffect h i () v := map_live ()
  cases hv : h.foldl (applyMap defaultEffect) (fun _ => none) () with
  | none =>
    have hnone : ∀ i v, ¬Live defaultEffect h i () v := by
      intro i v hl
      have := (hlive v).mpr ⟨i, hl⟩
      rw [hv] at this
      cases this
    constructor
    · intro hs
      exact Or.inr ⟨hnone, hs.symm⟩
    · rintro (⟨i, hl⟩ | ⟨-, hs⟩)
      · exact absurd hl (hnone i s)
      · exact hs.symm
  | some v =>
    have hsome : ∃ i, Live defaultEffect h i () v := (hlive v).mp hv
    constructor
    · intro hs
      exact Or.inl (hs ▸ hsome)
    · rintro (hl | ⟨hnone, -⟩)
      · have := (hlive s).mpr hl
        rw [hv] at this
        exact Option.some.inj this
      · obtain ⟨i, hl⟩ := hsome
        exact absurd hl (hnone i v)

end Runs

section Matched

variable {make : C → Servlet S Cb} {fnmatch : Bytes → Bytes → Bool} {h : List (Op S Cb C)}
  {uri : Bytes}

theorem datas_none : (run h).datas uri = none ↔ ∀ j c, ¬Live exactEffect h j uri c := by
  rw [run_datas, Option.eq_none_iff_forall_ne_some]
  constructor
  · intro hnone j c hl
    exact hnone c ((map_live uri c).mpr ⟨j, hl⟩)
  · intro hnone c hc
    obtain ⟨j, hl⟩ := (map_live uri c).mp hc
    exact hnone j c hl

theorem globs_none : (run h).globs.find? (fun it => fnmatch it.1 uri) = none ↔
    ∀ j pattern c, Live globEffect h j pattern c → fnmatch pattern uri = false := by
  obtain ⟨stamps, hs⟩ := list_live globEffect h
  rw [run_globs, List.find?_eq_none, ← hs.entries]
  constructor
  · intro hnone j pattern c hl
    simpa using hnone (pattern, c) (List.mem_map_of_mem ((hs.live j pattern c).mpr hl))
  · intro hnone e he
    obtain ⟨⟨j, pattern, c⟩, hmem, rfl⟩ := List.mem_map.mp he
    simp [hnone j pattern c ((hs.live j pattern c).mp hmem)]

/-- The servlet that is found is the one that the history says. -/
theorem matched_dispatched :
    Dispatched make fnmatch h uri (getMatchedServlet (run h) uri make fnmatch) := by
  rw [getMatchedServlet]
  cases hdatas : (run h).datas uri with
  | some c =>
    rw [run_datas] at hdatas
    obtain ⟨i, hl⟩ := (map_live uri c).mp hdatas
    exact Dispatched.exact hl
  | none =>
    have hexact := datas_none.mp hdatas
    cases hfind : (run h).globs.find? fun it => fnmatch it.1 uri with
    | some it =>
      rw [run_globs] at hfind
      obtain ⟨i, hl, hmatch, holdest⟩ := (find_oldest (fun p => fnmatch p uri) it.1 it.2).mp hfind
      exact Dispatched.glob hexact hl hmatch holdest
    | none => exact Dispatched.default hexact (globs_none.mp hfind) ((default_iff h _).mp rfl)

theorem dispatched_matched {s : Servlet S Cb} (hs : Dispatched make fnmatch h uri s) :
    getMatchedServlet (run h) uri make fnmatch = s := by
  cases hs with
  | @exact i c hl =>
    have hdatas : (run h).datas uri = some c := by
      rw [run_datas]
      exact (map_live uri c).mpr ⟨i, hl⟩
    rw [getMatchedServlet, hdatas]
  | @glob i pattern c hexact hl hmatch holdest =>
    have hfind : (run h).globs.find? (fun it => fnmatch it.1 uri) = some (pattern, c) := by
      rw [run_globs]
      exact (find_oldest (fun p => fnmatch p uri) pattern c).mpr ⟨i, hl, hmatch, holdest⟩
    rw [getMatchedServlet, datas_none.mpr hexact]
    simp only [hfind]
  | default hexact hglob hdefault =>
    rw [getMatchedServlet, datas_none.mpr hexact]
    simp only [globs_none.mpr hglob]
    exact (default_iff h s).mpr hdefault

end Matched

/-- After every history of calls each pattern stands once, and a uri is served by its own live
registration, by the oldest live pattern that matches, or by the current default servlet. -/
theorem dispatch_follows (make : C → Servlet S Cb) (fnmatch : Bytes → Bytes → Bool)
    (h : List (Op S Cb C)) :
    ((run h).globs.map Prod.fst).Nodup ∧
    ∀ uri s, getMatchedServlet (run h) uri make fnmatch = s ↔ Dispatched make fnmatch h uri s := by
  constructor
  · obtain ⟨stamps, hs⟩ := list_live globEffect h
    rw [run_globs]
    exact hs.keys
  · intro uri s
    constructor
    · rintro rfl
      exact matched_dispatched
    · exact dispatched_matched

end Lamb.Servlets
