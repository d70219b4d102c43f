import Lamb.Http

/-!
# Env::init

The arguments are options, which start with a dash, and their values. An option that is not
followed by a value has the empty one. A later value replaces an earlier one under its key.
-/

set_option autoImplicit false

namespace Lamb.EnvArgs
open Lamb.ByteString Lamb.Http

structure Env where
  exe : Bytes
  cwd : Bytes
  program : Bytes
  args : List (Bytes × Bytes)

def dash : UInt8 := 45

def slash : UInt8 := 47

def find (env : Env) (key : Bytes) : Option Bytes := OrderedMap.find bytesLess id key env.args

def add (env : Env) (key val : Bytes) : Env :=
  { env with args := OrderedMap.assign bytesLess id key val env.args }

def has (env : Env) (key : Bytes) : Bool := (find env key).isSome

def get (env : Env) (key defaultValue : Bytes) : Bytes := (find env key).getD defaultValue

/-- `if (now_key) add(now_key, val)`. -/
def addPending (env : Env) (nowKey : Option Bytes) (val : Bytes) : Env :=
  match nowKey with
  | some key => add env key val
  | none => env

/-- The loop of `init` from the second argument on, with `now_key`. -/
def argLoop : List Bytes → Option Bytes → Env → Bool × Env
  | [], nowKey, env => (true, addPending env nowKey [])
  | arg::rest, nowKey, env =>
    if arg.head? = some dash then
      if 1 < arg.length then argLoop rest (some arg.tail) (addPending env nowKey [])
      else (false, env)
    else
      match nowKey with
      | some key => argLoop rest none (add env key arg)
      | none => (false, env)

/-- `substr(0, find_last_of("/"))`. -/
def dirname (path : Bytes) : Bytes :=
  if slash ∈ path then ((path.reverse.dropWhile (· ≠ slash)).drop 1).reverse else path

/-- `init` with the link that `readlink` reports, `argv[0]` and the arguments behind it. -/
def init (link argv0 : Bytes) (args : List Bytes) (env : Env) : Bool × Env :=
  argLoop args none
    { env with exe := link, cwd := dirname link ++ [slash], program := argv0 }

/-- No argument is a dash alone, and every value directly follows an option. -/
def WellFormed (args : List Bytes) : Prop :=
  [dash] ∉ args ∧ ∀ front arg back, args = front ++ arg::back → arg.head? ≠ some dash →
    ∃ front' option, front = front' ++ [option] ∧ option.head? = some dash

def valueAfter : List Bytes → Bytes
  | val::_ => if val.head? = some dash then [] else val
  | [] => []

def lastValue : List Bytes → Bytes → Option Bytes
  | [], _ => none
  | arg::rest, key =>
    (lastValue rest key).or (if arg = dash::key then some (valueAfter rest) else none)

attribute [local simp] argLoop lastValue

section Values

variable {env env' : Env} {args : List Bytes} {key : Bytes}

theorem find_add (env : Env) (key val key' : Bytes) :
    find (add env key val) key' = if key = key' then some val else find env key' := by
  split_ifs with h
  · exact OrderedMap.find_assign_same bytesLess_order key key' val env.args h.symm
  · exact OrderedMap.find_assign_other bytesLess_order key key' val env.args (Ne.symm h)

theorem find_addPending (env : Env) (nowKey : Option Bytes) (val key : Bytes) :
    find (addPending env nowKey val) key =
      if nowKey = some key then some val else find env key := by
  cases nowKey with
  | none => rfl
  | some key' =>
    rw [addPending, find_add]
    simp only [Option.some_inj]

/-- What the loop has entered when it returns true. The values of the arguments come before that
of the pending key. -/
theorem argLoop_find (args : List Bytes) (nowKey : Option Bytes) (env : Env)
    (h : argLoop args nowKey env = (true, env')) (key : Bytes) :
    find env' key = (lastValue args key).or
      (if nowKey = some key then some (valueAfter args) else find env key) := by
  induction args generalizing nowKey env with
  | nil =>
    obtain ⟨-, rfl⟩ := Prod.mk.inj h
    exact find_addPending env nowKey [] key
  | cons arg rest ih =>
    rw [argLoop.eq_def] at h
    dsimp only at h
    split_ifs at h with hdash hlong
    · obtain ⟨opt, rfl⟩ := List.head?_eq_some_iff.mp hdash
      rw [ih _ _ h, find_addPending, lastValue, valueAfter, if_pos hdash, List.tail_cons,
        Option.or_assoc]
      congr 1
      by_cases heq : opt = key
      · rw [if_pos (congrArg some heq), if_pos (congrArg (List.cons dash) heq), Option.some_or]
      · rw [if_neg (fun h => heq (Option.some.inj h)),
          if_neg (fun h => heq (List.cons.inj h).2), Option.none_or]
    · cases h
    · cases nowKey with
      | none => cases h
      | some opt =>
        have hne : arg ≠ dash::key := by
          rintro rfl
          exact hdash rfl
        rw [ih _ _ h, find_add, lastValue, valueAfter, if_neg hdash, if_neg hne, Option.or_none]
        simp only [Option.some_inj, reduceCtorEq, if_false]

theorem lastValue_none : lastValue args key = none ↔ dash::key ∉ args := by
  induction args with
  | nil => simp
  | cons arg rest ih =>
    rw [lastValue, Option.or_eq_none_iff, ih, List.mem_cons, not_or, and_comm]
    simp [eq_comm]

theorem lastValue_last (front back : List Bytes) (hback : dash::key ∉ back) :
    lastValue (front ++ (dash::key)::back) key = some (valueAfter back) := by
  induction front with
  | nil => rw [List.nil_append, lastValue, lastValue_none.mpr hback, if_pos rfl, Option.none_or]
  | cons arg front ih => rw [List.cons_append, lastValue, ih, Option.some_or]

end Values

/-- The arguments are well-formed behind an option, or behind none. -/
def Follows : Bool → List Bytes → Prop
  | _, [] => True
  | afterOption, arg::rest =>
    if arg.head? = some dash then arg ≠ [dash] ∧ Follows true rest
    else afterOption = true ∧ Follows false rest

attribute [local simp] Follows

section Outcome

theorem argLoop_true_iff (args : List Bytes) (nowKey : Option Bytes) (env : Env) :
    (argLoop args nowKey env).1 = true ↔ Follows nowKey.isSome args := by
  induction args generalizing nowKey env with
  | nil => simp
  | cons arg rest ih =>
    rw [argLoop.eq_def, Follows]
    dsimp only
    split_ifs with hdash hlong
    · rw [ih]
      have hne : arg ≠ [dash] := by
        rintro rfl
        exact Nat.lt_irrefl 1 hlong
      exact (and_iff_right hne).symm
    · obtain ⟨opt, rfl⟩ := List.head?_eq_some_iff.mp hdash
      have hnil : opt = [] := by
        rw [← List.length_eq_zero_iff]
        rw [List.length_cons] at hlong
        omega
      simp [hnil]
    · cases nowKey with
      | none => simp
      | some key => simp [ih]

def Backed (afterOption : Bool) (args : List Bytes) : Prop :=
  ∀ front arg back, args = front ++ arg::back → arg.head? ≠ some dash →
    (front = [] ∧ afterOption = true) ∨
      ∃ front' option, front = front' ++ [option] ∧ option.head? = some dash

theorem backed_cons (afterOption : Bool) (arg : Bytes) (rest : List Bytes) :
    Backed afterOption (arg::rest) ↔
      (arg.head? ≠ some dash → afterOption = true) ∧
        Backed (decide (arg.head? = some dash)) rest := by
  constructor
  · intro h
    constructor
    · intro hdash
      rcases h [] arg rest rfl hdash with ⟨-, hafter⟩ | ⟨front', option, heq, -⟩
      · exact hafter
      · exact absurd heq.symm (List.append_ne_nil_of_right_ne_nil _ (List.cons_ne_nil _ _))
    · intro front arg' back heq hdash
      rcases h (arg::front) arg' back (by rw [heq]; rfl) hdash with
        ⟨hnil, -⟩ | ⟨front', option, hfront, hoption⟩
      · cases hnil
      · cases front' with
        | nil =>
          obtain ⟨rfl, rfl⟩ := List.cons.inj hfront
          exact Or.inl ⟨rfl, decide_eq_true hoption⟩
        | cons first front' =>
          obtain ⟨-, rfl⟩ := List.cons.inj hfront
          exact Or.inr ⟨front', option, rfl, hoption⟩
  · rintro ⟨hfirst, hrest⟩ front arg' back heq hdash
    cases front with
    | nil =>
      obtain ⟨rfl, -⟩ := List.cons.inj heq
      exact Or.inl ⟨rfl, hfirst hdash⟩
    | cons first front =>
      obtain ⟨rfl, hback⟩ := List.cons.inj heq
      rcases hrest front arg' back hback hdash with ⟨rfl, hoption⟩ | ⟨front', option, rfl, hoption⟩
      · exact Or.inr ⟨[], arg, rfl, of_decide_eq_true hoption⟩
      · exact Or.inr ⟨arg::front', option, rfl, hoption⟩

theorem follows_iff (args : List Bytes) (afterOption : Bool) :
    Follows afterOption args ↔ [dash] ∉ args ∧ Backed afterOption args := by
  induction args generalizing afterOption with
  | nil => simp [Backed]
  | cons arg rest ih =>
    rw [Follows, backed_cons, List.mem_cons, not_or]
    split_ifs with hdash
    · rw [ih, decide_eq_true hdash]
      simp [hdash, eq_comm, and_assoc]
    · have hne : [dash] ≠ arg := by
        rintro rfl
        exact hdash rfl
      rw [ih, decide_eq_false hdash]
      simp only [hne, hdash, not_false_eq_true, true_and, ne_eq, forall_const]
      exact and_left_comm

theorem follows_wellFormed (args : List Bytes) : Follows false args ↔ WellFormed args := by
  rw [follows_iff]
  simp [Backed, WellFormed]

end Outcome

/-- `init` returns true if and only if the arguments are well-formed. Then an option is known by
what stands behind its dash, and has the value that directly follows its last occurrence. -/
theorem init_parses (link argv0 : Bytes) (args : List Bytes) (env : Env) :
    ((init link argv0 args env).1 = true ↔ WellFormed args) ∧
    ((init link argv0 args env).1 = true → env.args = [] → ∀ key,
      (has (init link argv0 args env).2 key = true ↔ dash::key ∈ args) ∧
      ∀ front back, args = front ++ (dash::key)::back → dash::key ∉ back →
        get (init link argv0 args env).2 key [] = valueAfter back) := by
  constructor
  · rw [init, argLoop_true_iff, Option.isSome_none, follows_wellFormed]
  · intro htrue hempty key
    obtain ⟨⟨ret, env'⟩, hinit⟩ : ∃ out, init link argv0 args env = out := ⟨_, rfl⟩
    rw [hinit] at htrue ⊢
    obtain rfl : ret = true := htrue
    have hfind := argLoop_find args none _ hinit key
    have hnone : find { env with exe := link, cwd := dirname link ++ [slash], program := argv0 }
        key = none := by
      rw [find, hempty]
      rfl
    rw [if_neg (Option.some_ne_none key).symm, hnone, Option.or_none] at hfind
    constructor
    · rw [has, hfind, ← not_iff_not, ← lastValue_none]
      simp
    · rintro front back rfl hback
      rw [get, hfind, lastValue_last front back hback, Option.getD_some]

/-- The options `-d -f x`. -/
theorem init_parses_options :
    let env := (init [] [] [[45, 100], [45, 102], [120]] ⟨[], [], [], []⟩).2
    get env [102] [] = [120] ∧ get env [100] [] = [] := by
  have h := (init_parses [] [] [[45, 100], [45, 102], [120]] ⟨[], [], [], []⟩).2 (by decide) rfl
  exact ⟨(h [102]).2 [[45, 100]] [[120]] rfl (by decide),
    (h [100]).2 [] [[45, 102], [120]] rfl (by decide)⟩

end Lamb.EnvArgs
