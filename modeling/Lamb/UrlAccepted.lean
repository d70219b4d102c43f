import Lamb.UrlGrammar

/-!
# The texts that the URL parser accepts

What both machines of the parser leave behind is taken apart state by state. A text that
does not start with a slash or an asterisk is one of the grammar.
-/

set_option autoImplicit false

namespace Lamb.UrlAccepted
open Lamb.ByteString Lamb.Http Lamb.HttpUrl Lamb.UrlGrammar

variable {strict : Bool}

section Characters

theorem of_ite_ne {α : Type} {p : Prop} [Decidable p] {x y : α} (h : (if p then x else y) ≠ y) :
    p := by_contra fun hp => h (if_neg hp)

theorem start_leaves {c : UInt8} (hc : isAlpha c = false)
    (h : parseUrlChar strict .reqSpacesBeforeUrl c ≠ .dead) : c = '/' ∨ c = '*' := by
  have hvisible := live_visible h
  rw [parseUrlChar, if_neg hvisible.1, if_neg hvisible.2, hc] at h
  exact of_ite_ne h

theorem schema_leaves {c : UInt8} (hc : isAlpha c = false)
    (h : parseUrlChar strict .reqSchema c ≠ .dead) : c = ':' := by
  have hvisible := live_visible h
  rw [parseUrlChar, if_neg hvisible.1, if_neg hvisible.2, hc] at h
  exact of_ite_ne h

theorem schemaSlash_leaves {c : UInt8} (h : parseUrlChar strict .reqSchemaSlash c ≠ .dead) :
    c = '/' := by
  have hvisible := live_visible h
  rw [parseUrlChar, if_neg hvisible.1, if_neg hvisible.2] at h
  exact of_ite_ne h

theorem schemaSlashSlash_leaves {c : UInt8}
    (h : parseUrlChar strict .reqSchemaSlashSlash c ≠ .dead) : c = '/' := by
  have hvisible := live_visible h
  rw [parseUrlChar, if_neg hvisible.1, if_neg hvisible.2] at h
  exact of_ite_ne h

theorem path_leaves {c : UInt8} (hc : isUrlChar strict c = false)
    (h : parseUrlChar strict .reqPath c ≠ .dead) : c = '?' ∨ c = '#' := by
  have hvisible := live_visible h
  rw [parseUrlChar, if_neg hvisible.1, if_neg hvisible.2, hc] at h
  by_contra hne
  rw [not_or] at hne
  exact h ((if_neg hne.1).trans (if_neg hne.2))

theorem query_leaves {c : UInt8} (hc : isQueryChar strict c = false) {s : State}
    (hs : s ∈ [State.reqQueryStringStart, .reqQueryString])
    (h : parseUrlChar strict s c ≠ .dead) : c = '#' := by
  have hvisible := live_visible h
  rw [isQueryChar, Bool.or_eq_false_iff, decide_eq_false_iff_not] at hc
  rcases List.mem_pair.mp hs with rfl | rfl
  · rw [parseUrlChar, if_neg hvisible.1, if_neg hvisible.2, hc.1, if_neg hc.2] at h
    exact of_ite_ne h
  · rw [parseUrlChar, if_neg hvisible.1, if_neg hvisible.2, hc.1, if_neg hc.2] at h
    exact of_ite_ne h

theorem fragment_leaves {c : UInt8} (hc : isFragmentChar strict c = false) :
    parseUrlChar strict .reqFragmentStart c = .dead ∧
      parseUrlChar strict .reqFragment c = .dead := by
  simp only [isFragmentChar, Bool.or_eq_false_iff, decide_eq_false_iff_not] at hc
  obtain ⟨⟨hurl, hquestion⟩, hsign⟩ := hc
  by_cases hvisible : Visible strict c
  · constructor
    · rw [parseUrlChar, if_neg hvisible.1, if_neg hvisible.2, hurl, if_neg hquestion,
        if_neg hsign]
      rfl
    · rw [parseUrlChar, if_neg hvisible.1, if_neg hvisible.2, hurl,
        if_neg (not_or.mpr ⟨hquestion, hsign⟩)]
      rfl
  · exact ⟨not_visible_dead hvisible _, not_visible_dead hvisible _⟩

theorem userinfo_leaves {c : UInt8} (hc : isUserinfoChar c = false) {s : HostState}
    (hs : s ∈ [HostState.userinfoStart, .userinfo]) (h : parseHostChar strict s c ≠ .dead) :
    c = '@' := by
  rcases List.mem_pair.mp hs with rfl | rfl
  · rw [parseHostChar, hc] at h
    exact of_ite_ne h
  · rw [parseHostChar, hc] at h
    exact of_ite_ne h

theorem hostStart_leaves {c : UInt8} (hc : isHostChar strict c = false)
    (h : parseHostChar strict .hostStart c ≠ .dead) : c = '[' := by
  rw [parseHostChar, hc] at h
  exact of_ite_ne h

theorem host_leaves {c : UInt8} (hc : isHostChar strict c = false)
    (h : parseHostChar strict .host c ≠ .dead) : c = ':' := by
  rw [parseHostChar, hc] at h
  exact of_ite_ne h

theorem v6End_leaves {c : UInt8} (h : parseHostChar strict .hostV6End c ≠ .dead) : c = ':' :=
  of_ite_ne h

theorem v6Start_leaves {c : UInt8} (hc : isV6Char c = false) :
    parseHostChar strict .hostV6Start c = .dead := by
  rw [parseHostChar, hc]
  rfl

theorem v6_leaves {c : UInt8} (hc : isV6Char c = false)
    (h : parseHostChar strict .hostV6 c ≠ .dead) : c = ']' ∨ c = '%' := by
  rw [parseHostChar, hc] at h
  by_contra hne
  rw [not_or] at hne
  exact h ((if_neg hne.1).trans (if_neg hne.2))

theorem zoneStart_leaves {c : UInt8} (hc : isZoneChar c = false) :
    parseHostChar strict .hostV6ZoneStart c = .dead := by
  rw [parseHostChar, hc]
  rfl

theorem zone_leaves {c : UInt8} (hc : isZoneChar c = false)
    (h : parseHostChar strict .hostV6Zone c ≠ .dead) : c = ']' := by
  rw [parseHostChar, hc] at h
  exact of_ite_ne h

theorem port_leaves {c : UInt8} (hc : isNum c = false) {s : HostState}
    (hs : s ∈ [HostState.hostPortStart, .hostPort]) : parseHostChar strict s c = .dead := by
  rcases List.mem_pair.mp hs with rfl | rfl
  · rw [parseHostChar, hc]
    rfl
  · rw [parseHostChar, hc]
    rfl

end Characters

section TailMachine

theorem fragment_of_live (l : Bytes)
    (hlive : l.foldl (parseUrlChar strict) .reqFragmentStart ≠ .dead) :
    ∃ n f, l = List.replicate n ('#' : UInt8) ++ f ∧
      (∀ c ∈ f, isFragmentChar strict c = true) ∧ ∀ c ∈ f.head?, c ≠ '#' := by
  induction l with
  | nil => exact ⟨0, [], rfl, by simp, by simp⟩
  | cons c l ih =>
    rw [List.foldl_cons] at hlive
    by_cases hsign : c = '#'
    · have hstay : parseUrlChar strict .reqFragmentStart ('#' : UInt8) = .reqFragmentStart := by
        cases strict <;> decide
      rw [hsign, hstay] at hlive
      obtain ⟨n, f, rfl, hf⟩ := ih hlive
      exact ⟨n+1, f, by rw [hsign, List.replicate_succ, List.cons_append], hf⟩
    · cases hc : isFragmentChar strict c with
      | false =>
        rw [(fragment_leaves hc).1, Machine.foldl_dead (dead_stays strict)]
          at hlive
        exact absurd rfl hlive
      | true =>
        rw [(fragment_stays strict c hc).1 hsign] at hlive
        obtain ⟨w, hw, rfl | ⟨d, rest, -, hd, hrest⟩⟩ :=
          Machine.split (isFragmentChar strict) l hlive fun d hd => (fragment_stays strict d hd).2
        · refine ⟨0, c::l, rfl, List.forall_mem_cons.mpr ⟨hc, hw⟩, ?_⟩
          intro d hd
          obtain rfl : c = d := by simpa using hd
          exact hsign
        · rw [(fragment_leaves hd).2, Machine.foldl_dead (dead_stays strict)]
            at hrest
          exact absurd rfl hrest

/-- What may follow a path or a query: nothing, or a number sign. -/
theorem signed_of_live {s : State} (hs : s ∈ [State.reqPath, .reqQueryStringStart, .reqQueryString])
    {rest : Bytes} (hlive : (('#' : UInt8)::rest).foldl (parseUrlChar strict) s ≠ .dead) :
    ∃ n f, rest = List.replicate n ('#' : UInt8) ++ f ∧
      (∀ c ∈ f, isFragmentChar strict c = true) ∧ ∀ c ∈ f.head?, c ≠ '#' := by
  rw [List.foldl_cons, sign_enters strict s hs] at hlive
  exact fragment_of_live rest hlive

/-- The text of a query and a fragment, behind the question mark. -/
theorem query_of_live (l : Bytes) {s : State}
    (hs : s ∈ [State.reqQueryStringStart, .reqQueryString])
    (hlive : l.foldl (parseUrlChar strict) s ≠ .dead) :
    ∃ q r, l = q ++ r ∧ (∀ c ∈ q, isQueryChar strict c = true) ∧
      (r = [] ∨ ∃ n f, r = ('#' : UInt8)::(List.replicate n ('#' : UInt8) ++ f) ∧
        (∀ c ∈ f, isFragmentChar strict c = true) ∧ ∀ c ∈ f.head?, c ≠ '#') := by
  induction l generalizing s with
  | nil => exact ⟨[], [], rfl, by simp, .inl rfl⟩
  | cons c l ih =>
    cases hc : isQueryChar strict c with
    | false =>
      have hstep : parseUrlChar strict s c ≠ .dead := by
        intro hd
        rw [List.foldl_cons, hd, Machine.foldl_dead (dead_stays strict)] at hlive
        exact hlive rfl
      obtain rfl := query_leaves hc hs hstep
      obtain ⟨n, f, rfl, hf⟩ := signed_of_live (List.mem_cons_of_mem _ hs) hlive
      exact ⟨[], _, rfl, by simp, .inr ⟨n, f, rfl, hf⟩⟩
    | true =>
      have hnext : parseUrlChar strict s c = .reqQueryString := by
        simp only [List.mem_cons, List.not_mem_nil, or_false] at hs
        rcases hs with rfl | rfl
        · exact (query_stays strict c hc).1
        · exact (query_stays strict c hc).2
      rw [List.foldl_cons, hnext] at hlive
      obtain ⟨q, r, rfl, hq, hr⟩ := ih (by decide) hlive
      exact ⟨c::q, r, rfl, List.forall_mem_cons.mpr ⟨hc, hq⟩, hr⟩

theorem rest_of_live (path : Bytes)
    (hpath : ∀ p ∈ path.head?, p = '/' ∧ ∀ c ∈ path.tail, isUrlChar strict c = true) {s : State}
    (hs : s ∈ [State.reqServer, .reqPath]) (hserver : s = .reqPath → path ≠ []) {rest : Bytes}
    (hrest : rest = [] ∨ (∃ r, rest = ('?' : UInt8)::r) ∨
      (∃ r, rest = ('#' : UInt8)::r ∧ s = .reqPath))
    (hlive : rest.foldl (parseUrlChar strict) s ≠ .dead) :
    ∃ t : Tail strict, t.path = path ∧ path ++ rest = t.text := by
  rcases hrest with rfl | ⟨r, rfl⟩ | ⟨r, rfl, rfl⟩
  · let t : Tail strict := {
      path := path, query := none, fragment := none, path_ok := hpath
      query_ok := by simp, fragment_ok := by simp, apart := by simp }
    exact ⟨t, rfl, by simp [Tail.text, Tail.queryText, Tail.fragmentText, t]⟩
  · rw [List.foldl_cons, question_enters strict s hs] at hlive
    obtain ⟨q, rest, rfl, hq, rfl | ⟨n, f, rfl, hf⟩⟩ := query_of_live r (by decide) hlive
    · let t : Tail strict := {
        path := path, query := some q, fragment := none, path_ok := hpath
        query_ok := by simpa using hq, fragment_ok := by simp, apart := by simp }
      exact ⟨t, rfl, by simp [Tail.text, Tail.queryText, Tail.fragmentText, t]⟩
    · let t : Tail strict := {
        path := path, query := some q, fragment := some (n, f), path_ok := hpath
        query_ok := by simpa using hq, fragment_ok := by simpa using hf, apart := by simp }
      exact ⟨t, rfl, by simp [Tail.text, Tail.queryText, Tail.fragmentText, t]⟩
  · obtain ⟨n, f, rfl, hf⟩ := signed_of_live (by decide) hlive
    let t : Tail strict := {
      path := path, query := none, fragment := some (n, f), path_ok := hpath
      query_ok := by simp, fragment_ok := by simpa using hf
      apart := fun _ => .inl (hserver rfl) }
    exact ⟨t, rfl, by simp [Tail.text, Tail.queryText, Tail.fragmentText, t]⟩

theorem tail_of_live (l : Bytes) (hhead : ∀ c ∈ l.head?, c = '/' ∨ c = '?')
    (hlive : l.foldl (parseUrlChar strict) .reqServer ≠ .dead) :
    ∃ t : Tail strict, l = t.text := by
  cases l with
  | nil =>
    obtain ⟨t, -, ht⟩ := rest_of_live [] (by simp) (by decide) (by simp) (.inl rfl) hlive
    exact ⟨t, ht⟩
  | cons c l =>
    rcases hhead c rfl with rfl | rfl
    · have hslash : parseUrlChar strict .reqServer ('/' : UInt8) = .reqPath := by
        cases strict <;> decide
      rw [List.foldl_cons, hslash] at hlive
      obtain ⟨w, hw, hbehind⟩ := Machine.split (isUrlChar strict) l hlive (url_stays strict)
      have hpath : ∀ p ∈ (('/' : UInt8)::w).head?,
          p = '/' ∧ ∀ c ∈ (('/' : UInt8)::w).tail, isUrlChar strict c = true := by
        intro p hp
        exact ⟨(Option.some.inj hp).symm, hw⟩
      have hne : State.reqPath = .reqPath → ('/' : UInt8)::w ≠ [] := fun _ => List.cons_ne_nil _ w
      rcases hbehind with rfl | ⟨d, rest, rfl, hd, hrest⟩
      · obtain ⟨t, -, ht⟩ := rest_of_live _ hpath (by decide) hne (.inl rfl) State.noConfusion
        rw [List.append_nil] at ht
        exact ⟨t, ht⟩
      · have hstep : parseUrlChar strict .reqPath d ≠ .dead := by
          intro hdead
          rw [hdead, Machine.foldl_dead (dead_stays strict)] at hrest
          exact hrest rfl
        have hd' : (∃ r, d::rest = ('?' : UInt8)::r) ∨
            ∃ r, d::rest = ('#' : UInt8)::r ∧ State.reqPath = .reqPath := by
          rcases path_leaves hd hstep with rfl | rfl
          · exact .inl ⟨rest, rfl⟩
          · exact .inr ⟨rest, rfl, rfl⟩
        obtain ⟨t, -, ht⟩ := rest_of_live _ hpath (by decide) hne (.inr hd') hrest
        exact ⟨t, ht⟩
    · obtain ⟨t, -, ht⟩ := rest_of_live [] (by simp) (s := .reqServer) (by decide) (by simp)
        (.inr (.inl ⟨l, rfl⟩)) hlive
      exact ⟨t, ht⟩

end TailMachine

section HostMachine

def Ends (strict : Bool) (s : HostState) (l : Bytes) : Prop :=
  hostMayEnd (l.foldl (parseHostChar strict) s) = true

theorem host_dead (strict : Bool) (c : UInt8) : parseHostChar strict .dead c = .dead :=
  rfl

theorem not_ends_dead (l : Bytes) : ¬ Ends strict .dead l := by
  rw [Ends, Machine.foldl_dead (host_dead strict)]
  decide

theorem Ends.live {s : HostState} {l : Bytes} (h : Ends strict s l) :
    l.foldl (parseHostChar strict) s ≠ .dead := by
  intro hd
  rw [Ends, hd] at h
  cases h

theorem Ends.step {s : HostState} {c : UInt8} {l : Bytes} (h : Ends strict s (c::l)) :
    parseHostChar strict s c ≠ .dead := by
  intro hd
  rw [Ends, List.foldl_cons, hd] at h
  exact not_ends_dead l h

theorem ends_cons {s t : HostState} {c : UInt8} {l : Bytes} (ht : parseHostChar strict s c = t) :
    Ends strict s (c::l) ↔ Ends strict t l := by
  rw [Ends, List.foldl_cons, ht, Ends]

theorem ends_append {s t : HostState} {w l : Bytes} (ht : w.foldl (parseHostChar strict) s = t) :
    Ends strict s (w ++ l) ↔ Ends strict t l := by
  rw [Ends, List.foldl_append, ht, Ends]

theorem port_of_ends (l : Bytes) {s : HostState} (hs : s ∈ [HostState.hostPortStart, .hostPort])
    (h : Ends strict s l) : (s = .hostPortStart → l ≠ []) ∧ ∀ c ∈ l, isNum c = true := by
  induction l generalizing s with
  | nil =>
    refine ⟨?_, by simp⟩
    rintro rfl
    cases h
  | cons c l ih =>
    refine ⟨fun _ => List.cons_ne_nil c l, ?_⟩
    cases hc : isNum c with
    | false => exact absurd (port_leaves hc hs) h.step
    | true =>
      have hnext : parseHostChar strict s c = .hostPort := by
        simp only [List.mem_cons, List.not_mem_nil, or_false] at hs
        rcases hs with rfl | rfl
        · exact (port_stays strict c hc).1
        · exact (port_stays strict c hc).2
      exact List.forall_mem_cons.mpr ⟨hc, (ih (by decide) ((ends_cons hnext).mp h)).2⟩

theorem portText_of_ends {s : HostState} (hs : s ∈ [HostState.host, .hostV6End]) {c : UInt8}
    {l : Bytes} (hc : c = ':') (h : Ends strict s (c::l)) :
    l ≠ [] ∧ ∀ d ∈ l, isNum d = true := by
  have hcolon : parseHostChar strict s (':' : UInt8) = .hostPortStart := by
    simp only [List.mem_cons, List.not_mem_nil, or_false] at hs
    rcases hs with rfl | rfl <;> cases strict <;> decide
  rw [hc, ends_cons hcolon] at h
  obtain ⟨hne, hnum⟩ := port_of_ends l (by decide) h
  exact ⟨hne rfl, hnum⟩

theorem close_bracket (strict : Bool) : ∀ s ∈ [HostState.hostV6, .hostV6Zone],
    parseHostChar strict s (']' : UInt8) = .hostV6End := by
  cases strict <;> decide

theorem zone_of_ends (l : Bytes) (h : Ends strict .hostV6ZoneStart l) :
    ∃ id rest, id ≠ [] ∧ (∀ c ∈ id, isZoneChar c = true) ∧ l = id ++ (']' : UInt8)::rest ∧
      Ends strict .hostV6End rest := by
  cases l with
  | nil => cases h
  | cons c l =>
    cases hc : isZoneChar c with
    | false => exact absurd (zoneStart_leaves hc) h.step
    | true =>
      rw [ends_cons (zone_stays strict c hc).1] at h
      obtain ⟨w, hw, rfl | ⟨d, rest, rfl, hd, -⟩⟩ := Machine.split isZoneChar l h.live
        fun d hd => (zone_stays strict d hd).2
      · rw [Ends, Machine.foldl_stay fun d hd => (zone_stays strict d (hw d hd)).2] at h
        cases h
      · rw [ends_append (Machine.foldl_stay fun d hd => (zone_stays strict d (hw d hd)).2)] at h
        obtain rfl := zone_leaves hd h.step
        refine ⟨c::w, rest, List.cons_ne_nil c w, List.forall_mem_cons.mpr ⟨hc, hw⟩, rfl, ?_⟩
        exact (ends_cons (close_bracket strict _ (by decide))).mp h

theorem v6_of_ends (l : Bytes) (h : Ends strict .hostV6Start l) :
    ∃ w rest, IsV6 w ∧ l = w ++ (']' : UInt8)::rest ∧ Ends strict .hostV6End rest := by
  cases l with
  | nil => cases h
  | cons c l =>
    cases hc : isV6Char c with
    | false => exact absurd (v6Start_leaves hc) h.step
    | true =>
      rw [ends_cons (v6_stays strict c hc).1] at h
      obtain ⟨v, hv, rfl | ⟨d, rest, rfl, hd, -⟩⟩ := Machine.split isV6Char l h.live
        fun d hd => (v6_stays strict d hd).2
      · rw [Ends, Machine.foldl_stay fun d hd => (v6_stays strict d (hv d hd)).2] at h
        cases h
      · have hall : ∀ d ∈ c::v, isV6Char d = true := List.forall_mem_cons.mpr ⟨hc, hv⟩
        rw [ends_append (Machine.foldl_stay fun d hd => (v6_stays strict d (hv d hd)).2)] at h
        rcases v6_leaves hd h.step with rfl | rfl
        · refine ⟨c::v, rest, ⟨c::v, [], by simp, List.cons_ne_nil c v, hall, .inl rfl⟩, rfl, ?_⟩
          exact (ends_cons (close_bracket strict _ (by decide))).mp h
        · have hpercent : parseHostChar strict .hostV6 ('%' : UInt8) = .hostV6ZoneStart := by
            cases strict <;> decide
          obtain ⟨id, rest, hne, hid, rfl, hrest⟩ := zone_of_ends rest ((ends_cons hpercent).mp h)
          refine ⟨c::v ++ ('%' : UInt8)::id, rest, ⟨c::v, ('%' : UInt8)::id, rfl,
            List.cons_ne_nil c v, hall, .inr ⟨id, rfl, hne, hid⟩⟩, by simp, hrest⟩

/-- A host that is not in brackets, and what stands behind it. -/
theorem plain_of_ends {c : UInt8} (l : Bytes) (hc : isHostChar strict c = true)
    (h : Ends strict .hostStart (c::l)) :
    ∃ w, (∀ d ∈ w, isHostChar strict d = true) ∧
      (l = w ∨ ∃ (d : UInt8) (rest : Bytes), l = w ++ d::rest ∧ d = ':' ∧
        Ends strict .host (d::rest)) := by
  rw [ends_cons (host_stays strict c hc).1] at h
  obtain ⟨w, hw, rfl | ⟨d, rest, rfl, hd, -⟩⟩ := Machine.split (isHostChar strict) l h.live
    fun d hd => (host_stays strict d hd).2
  · exact ⟨l, hw, .inl rfl⟩
  · rw [ends_append (Machine.foldl_stay fun d hd => (host_stays strict d (hw d hd)).2)] at h
    exact ⟨w, hw, .inr ⟨d, rest, rfl, host_leaves hd h.step, h⟩⟩

/-- A host with its port, as an authority without user information. -/
theorem host_of_ends (l : Bytes) (h : Ends strict .hostStart l) :
    ∃ a : Authority strict, a.userinfo = none ∧ l = a.text := by
  cases l with
  | nil => cases h
  | cons c l =>
    cases hc : isHostChar strict c with
    | true =>
      obtain ⟨w, hw, rfl | ⟨d, rest, rfl, rfl, hport⟩⟩ := plain_of_ends l hc h
      · let a : Authority strict := {
          userinfo := none, bracketed := false, host := c::l, port := none
          userinfo_ok := by simp, bracketed_ok := Bool.noConfusion, port_ok := by simp
          plain_ok := fun _ => ⟨List.cons_ne_nil c l, List.forall_mem_cons.mpr ⟨hc, hw⟩⟩ }
        exact ⟨a, rfl, by simp [a, Authority.text, Authority.userinfoText, Authority.openText,
          Authority.closeText, Authority.portText]⟩
      · let a : Authority strict := {
          userinfo := none, bracketed := false, host := c::w, port := some rest
          userinfo_ok := by simp, bracketed_ok := Bool.noConfusion
          port_ok := by simpa using portText_of_ends (by decide) rfl hport
          plain_ok := fun _ => ⟨List.cons_ne_nil c w, List.forall_mem_cons.mpr ⟨hc, hw⟩⟩ }
        exact ⟨a, rfl, by simp [a, Authority.text, Authority.userinfoText, Authority.openText,
          Authority.closeText, Authority.portText]⟩
    | false =>
      have hopen : parseHostChar strict .hostStart ('[' : UInt8) = .hostV6Start := by
        cases strict <;> decide
      obtain rfl := hostStart_leaves hc h.step
      obtain ⟨w, rest, hw, rfl, hrest⟩ := v6_of_ends l ((ends_cons hopen).mp h)
      cases rest with
      | nil =>
        let a : Authority strict := {
          userinfo := none, bracketed := true, host := w, port := none
          userinfo_ok := by simp, bracketed_ok := fun _ => hw, port_ok := by simp
          plain_ok := Bool.noConfusion }
        exact ⟨a, rfl, by simp [a, Authority.text, Authority.userinfoText, Authority.openText,
          Authority.closeText, Authority.portText]⟩
      | cons d rest =>
        obtain rfl := v6End_leaves hrest.step
        let a : Authority strict := {
          userinfo := none, bracketed := true, host := w, port := some rest
          userinfo_ok := by simp, bracketed_ok := fun _ => hw
          port_ok := by simpa using portText_of_ends (by decide) rfl hrest
          plain_ok := Bool.noConfusion }
        exact ⟨a, rfl, by simp [a, Authority.text, Authority.userinfoText, Authority.openText,
          Authority.closeText, Authority.portText]⟩

theorem userinfo_of_ends (l : Bytes) {s : HostState}
    (hs : s ∈ [HostState.userinfoStart, .userinfo]) (h : Ends strict s l) :
    ∃ w rest, (∀ c ∈ w, isUserinfoChar c = true) ∧ l = w ++ ('@' : UInt8)::rest ∧
      Ends strict .hostStart rest := by
  have hat : ∀ s ∈ [HostState.userinfoStart, .userinfo],
      parseHostChar strict s ('@' : UInt8) = .hostStart := by
    cases strict <;> decide
  induction l generalizing s with
  | nil =>
    simp only [List.mem_cons, List.not_mem_nil, or_false] at hs
    rcases hs with rfl | rfl <;> cases h
  | cons c l ih =>
    cases hc : isUserinfoChar c with
    | false =>
      obtain rfl := userinfo_leaves hc hs h.step
      exact ⟨[], l, by simp, rfl, (ends_cons (hat s hs)).mp h⟩
    | true =>
      have hnext : parseHostChar strict s c = .userinfo := by
        simp only [List.mem_cons, List.not_mem_nil, or_false] at hs
        rcases hs with rfl | rfl
        · exact (userinfo_stays strict c hc).1
        · exact (userinfo_stays strict c hc).2
      obtain ⟨w, rest, hw, rfl, hrest⟩ := ih (by decide) ((ends_cons hnext).mp h)
      exact ⟨c::w, rest, List.forall_mem_cons.mpr ⟨hc, hw⟩, rfl, hrest⟩

theorem authority_of_ends (l : Bytes) (fa : Bool)
    (h : Ends strict (if fa then .userinfoStart else .hostStart) l) :
    ∃ a : Authority strict, l = a.text := by
  cases fa with
  | false =>
    obtain ⟨a, -, ha⟩ := host_of_ends l h
    exact ⟨a, ha⟩
  | true =>
    obtain ⟨w, rest, hw, rfl, hrest⟩ := userinfo_of_ends l (by decide) h
    obtain ⟨a, hnone, rfl⟩ := host_of_ends rest hrest
    refine ⟨{ a with userinfo := some w, userinfo_ok := by simpa using hw }, ?_⟩
    simp [Authority.text, Authority.userinfoText, Authority.openText, Authority.closeText,
      Authority.portText, hnone]

theorem hostLoop_ends (l : Bytes) {pos : ℕ} {s s' : HostState} {u u' : HttpParserUrl}
    (h : hostLoop strict l pos s u = some (s', u')) :
    s' = l.foldl (parseHostChar strict) s := by
  induction l generalizing pos s u with
  | nil =>
    obtain ⟨rfl, -⟩ := Prod.mk.inj (Option.some.inj h)
    rfl
  | cons c l ih =>
    simp only [hostLoop] at h
    split_ifs at h
    exact ih h

theorem parseHost_ends {buf : Bytes} {u : HttpParserUrl} {host : HttpUrl.Span} {fa : Bool}
    (h : parseHost strict buf u host fa ≠ none) :
    Ends strict (if fa then .userinfoStart else .hostStart)
      ((buf.drop host.off).take host.len) := by
  simp only [parseHost] at h
  split at h
  · exact absurd rfl h
  · next s' u' hloop =>
    rw [Ends, ← hostLoop_ends _ hloop]
    by_contra hend
    exact h (if_neg hend)

end HostMachine

section UrlMachine

def tailStates : List State :=
  [.reqPath, .reqQueryStringStart, .reqQueryString, .reqFragmentStart, .reqFragment]

theorem tail_closed (strict : Bool) (c : UInt8) : ∀ s ∈ tailStates,
    parseUrlChar strict s c ∈ State.dead::tailStates := by
  intro s hs
  by_cases hvisible : Visible strict c
  · simp only [tailStates, List.mem_cons, List.not_mem_nil, or_false] at hs
    rcases hs with rfl | rfl | rfl | rfl | rfl
    all_goals
      rw [parseUrlChar, if_neg hvisible.1, if_neg hvisible.2]
      split_ifs <;> decide
  · rw [not_visible_dead hvisible]
    exact List.mem_cons_self

theorem tail_fields : ∀ s ∈ tailStates, urlField s ≠ some .schema ∧ urlField s ≠ some .host ∧
    s ≠ .reqServerWithAt := by decide

variable {s : State} {old : Option UrlField} {fa fa' : Bool} {u u' : HttpParserUrl} {pos : ℕ}

theorem urlLoop_live (l : Bytes) (hs : s ≠ .dead)
    (h : urlLoop strict l pos s old fa u = some (u', fa')) :
    l.foldl (parseUrlChar strict) s ≠ .dead := by
  induction l generalizing pos s old fa u with
  | nil => exact hs
  | cons c l ih =>
    simp only [urlLoop] at h
    split_ifs at h with hd
    split at h
    · exact ih hd h
    · split_ifs at h
      · exact ih hd h
      · exact ih hd h

theorem field_begin {uf uf' : UrlField} (h : uf' ≠ uf) : (u.begin uf pos).field uf' = u.field uf' :=
  Function.update_of_ne h _ _

theorem field_grow {uf uf' : UrlField} (h : uf' ≠ uf) : (u.grow uf).field uf' = u.field uf' :=
  Function.update_of_ne h _ _

/-- Behind the authority the scheme and the host stay as they are. -/
theorem urlLoop_untouched (l : Bytes) (hs : s ∈ tailStates)
    (h : urlLoop strict l pos s old fa u = some (u', fa')) :
    u'.field .schema = u.field .schema ∧ u'.field .host = u.field .host ∧ fa' = fa := by
  induction l generalizing pos s old fa u with
  | nil =>
    obtain ⟨rfl, rfl⟩ := Prod.mk.inj (Option.some.inj h)
    exact ⟨rfl, rfl, rfl⟩
  | cons c l ih =>
    simp only [urlLoop] at h
    split_ifs at h with hd
    have hnext : parseUrlChar strict s c ∈ tailStates :=
      (List.mem_cons.mp (tail_closed strict c s hs)).resolve_left hd
    obtain ⟨hschema, hhost, hat⟩ := tail_fields _ hnext
    rw [decide_eq_false hat, Bool.or_false] at h
    split at h
    · exact ih hnext h
    · next uf huf =>
      rw [huf] at hschema hhost
      have hschema' : UrlField.schema ≠ uf := fun he => hschema (he ▸ rfl)
      have hhost' : UrlField.host ≠ uf := fun he => hhost (he ▸ rfl)
      split_ifs at h
      · obtain ⟨h₁, h₂, h₃⟩ := ih hnext h
        exact ⟨h₁.trans (field_grow hschema'), h₂.trans (field_grow hhost'), h₃⟩
      · obtain ⟨h₁, h₂, h₃⟩ := ih hnext h
        exact ⟨h₁.trans (field_begin hschema'), h₂.trans (field_begin hhost'), h₃⟩

theorem urlLoop_behind (l : Bytes) (hs : urlField s = some .host)
    (hhead : ∀ c ∈ l.head?, c = '/' ∨ c = '?')
    (h : urlLoop strict l pos s (some .host) fa u = some (u', fa')) :
    u'.field .host = u.field .host ∧ fa' = fa ∧
      l.foldl (parseUrlChar strict) .reqServer ≠ .dead := by
  have hsteps : ∀ c : UInt8, c = '/' ∨ c = '?' → ∀ s ∈ [State.reqServerStart, .reqServer,
      .reqServerWithAt], parseUrlChar strict s c = parseUrlChar strict .reqServer c ∧
        (urlField (parseUrlChar strict s c) = none ∨
          urlField (parseUrlChar strict s c) = some .path) ∧
        parseUrlChar strict s c ∈ tailStates := by
    rintro c (rfl | rfl)
    · cases strict <;> decide
    · cases strict <;> decide
  cases l with
  | nil =>
    obtain ⟨rfl, rfl⟩ := Prod.mk.inj (Option.some.inj h)
    exact ⟨rfl, rfl, State.noConfusion⟩
  | cons c l =>
    obtain ⟨hserver, hfield, htail⟩ := hsteps c (hhead c rfl) s (server_states hs)
    have hlive := urlLoop_live (c::l) (by rintro rfl; cases hs) h
    rw [List.foldl_cons, hserver, ← List.foldl_cons] at hlive
    rcases hfield with hfield | hfield
    · have hdead : parseUrlChar strict s c ≠ .dead := by
        intro hd
        rw [hd] at htail
        revert htail
        decide
      rw [urlLoop_delimiter rfl hdead hfield] at h
      obtain ⟨-, hhost, rfl⟩ := urlLoop_untouched l htail h
      exact ⟨hhost, rfl, hlive⟩
    · have hat := (tail_fields _ htail).2.2
      rw [urlLoop_begin rfl hfield (by decide), decide_eq_false hat, Bool.or_false] at h
      obtain ⟨-, hhost, rfl⟩ := urlLoop_untouched l htail h
      exact ⟨hhost, rfl, hlive⟩

theorem urlLoop_set (l : Bytes) {uf : UrlField} (hset : u.field uf ≠ none)
    (h : urlLoop strict l pos s old fa u = some (u', fa')) : u'.field uf ≠ none := by
  induction l generalizing pos s old fa u with
  | nil =>
    obtain ⟨rfl, -⟩ := Prod.mk.inj (Option.some.inj h)
    exact hset
  | cons c l ih =>
    simp only [urlLoop] at h
    split_ifs at h
    split at h
    · exact ih hset h
    · next uf' _ =>
      by_cases huf : uf = uf'
      · subst huf
        split_ifs at h
        · refine ih ?_ h
          have hgrow : (u.grow uf).field uf = (u.field uf).map _ := Function.update_self uf _ _
          rw [hgrow]
          simpa using hset
        · refine ih ?_ h
          rw [begin_eq, field_span, if_pos rfl]
          exact Option.some_ne_none _
      · split_ifs at h
        · refine ih ?_ h
          rwa [field_grow huf]
        · refine ih ?_ h
          rwa [field_begin huf]

def leaves (c : UInt8) : Bool := c = '/' || c = '?'

/-- If the loop finds a host, it is the text up to the first slash or question mark. -/
theorem authority_of_loop (r : Bytes) (hlen : r.length < 2^16) (hnone : u.field .host = none)
    (h : urlLoop strict r pos .reqServerStart (some .schema) false u = some (u', fa'))
    (hsome : u'.field .host ≠ none) :
    ∃ w l, r = w ++ l ∧ (∀ c ∈ l.head?, c = '/' ∨ c = '?') ∧
      u'.field .host = some ⟨pos % 2^16, w.length⟩ ∧ fa' = decide (('@' : UInt8) ∈ w) ∧
        l.foldl (parseUrlChar strict) .reqServer ≠ .dead := by
  let w := r.takeWhile fun c => !leaves c
  let l := r.dropWhile fun c => !leaves c
  have hsplit : r = w ++ l := (List.takeWhile_append_dropWhile).symm
  have hhead : ∀ c ∈ l.head?, c = '/' ∨ c = '?' := by
    intro c hc
    have hleave := List.head?_dropWhile_not (fun c => !leaves c) r
    rw [hc] at hleave
    simpa [leaves, imp_iff_not_or] using hleave
  have hw : ∀ c ∈ w, c ≠ '/' ∧ c ≠ '?' := by
    intro c hc
    have hstay := List.mem_takeWhile_imp hc
    simpa [leaves] using hstay
  have hwlen : w.length ≤ r.length := by
    rw [hsplit, List.length_append]
    exact Nat.le_add_right _ _
  refine ⟨w, l, hsplit, hhead, ?_⟩
  rw [hsplit] at h
  clear_value w l
  cases w with
  | nil =>
    -- without a host the loop goes to the tail at once
    exfalso
    apply hsome
    cases l with
    | nil =>
      obtain ⟨rfl, -⟩ := Prod.mk.inj (Option.some.inj h)
      exact hnone
    | cons c l =>
      rcases hhead c rfl with rfl | rfl
      · have hslash : parseUrlChar strict .reqServerStart ('/' : UInt8) = .reqPath := by
          cases strict <;> decide
        rw [List.nil_append, urlLoop_begin hslash rfl (by decide)] at h
        obtain ⟨-, hhost, -⟩ := urlLoop_untouched l (by decide) h
        rw [hhost, field_span, if_neg (by decide), hnone]
      · have hquestion : parseUrlChar strict .reqServerStart ('?' : UInt8) =
            .reqQueryStringStart := by
          cases strict <;> decide
        rw [List.nil_append, urlLoop_delimiter hquestion (by decide) rfl] at h
        obtain ⟨-, hhost, -⟩ := urlLoop_untouched l (by decide) h
        rw [hhost, hnone]
  | cons c w =>
    have hlive := urlLoop_live _ (by decide) h
    rw [List.foldl_append] at hlive
    have hwlive : (c::w).foldl (parseUrlChar strict) .reqServerStart ≠ .dead := by
      intro hd
      rw [hd, Machine.foldl_dead (dead_stays strict)] at hlive
      exact hlive rfl
    obtain ⟨hfield, hloop⟩ := urlLoop_first (List.cons_ne_nil c w) hw hwlive
      (Nat.lt_of_le_of_lt hwlen hlen)
    rw [hloop] at h
    obtain ⟨hhost, hat, hltail⟩ := urlLoop_behind l hfield hhead h
    refine ⟨?_, hat, hltail⟩
    rw [hhost, field_span, if_pos rfl]

/-- Behind the scheme the loop finds a host only after a colon and two slashes. -/
theorem separator_of_loop (r : Bytes) (hhead : ∀ c ∈ r.head?, isAlpha c = false)
    (hnone : u.field .host = none)
    (h : urlLoop strict r pos .reqSchema (some .schema) false u = some (u', fa'))
    (hsome : u'.field .host ≠ none) :
    ∃ l, r = ascii "://" ++ l ∧
      urlLoop strict l (pos+3) .reqServerStart (some .schema) false u = some (u', fa') := by
  have hlive := urlLoop_live r (by decide) h
  have hempty : ∀ (pos : ℕ) (s : State),
      urlLoop strict [] pos s (some .schema) false u ≠ some (u', fa') := by
    intro pos s hend
    obtain ⟨rfl, -⟩ := Prod.mk.inj (Option.some.inj hend)
    exact hsome hnone
  have hstep : ∀ {s t : State} {c : UInt8} {l : Bytes}, t ≠ .dead → urlField t = none →
      parseUrlChar strict s c = t → ∀ {pos : ℕ},
        urlLoop strict (c::l) pos s (some .schema) false u = some (u', fa') →
          urlLoop strict l (pos+1) t (some .schema) false u = some (u', fa') := by
    intro s t c l ht hfield hc pos hloop
    rwa [urlLoop_delimiter hc ht hfield] at hloop
  have hdead : ∀ {s : State} {c : UInt8} {l : Bytes},
      (c::l).foldl (parseUrlChar strict) s ≠ .dead → parseUrlChar strict s c ≠ .dead := by
    intro s c l hl hd
    rw [List.foldl_cons, hd, Machine.foldl_dead (dead_stays strict)] at hl
    exact hl rfl
  cases r with
  | nil => exact absurd h (hempty _ _)
  | cons c r =>
    obtain rfl := schema_leaves (hhead c rfl) (hdead hlive)
    have hcolon : parseUrlChar strict .reqSchema (':' : UInt8) = .reqSchemaSlash := by
      cases strict <;> decide
    have h₁ := hstep (by decide) rfl hcolon h
    have hlive₁ := urlLoop_live r (by decide) h₁
    cases r with
    | nil => exact absurd h₁ (hempty _ _)
    | cons c r =>
      obtain rfl := schemaSlash_leaves (hdead hlive₁)
      have hslash : parseUrlChar strict .reqSchemaSlash ('/' : UInt8) = .reqSchemaSlashSlash := by
        cases strict <;> decide
      have h₂ := hstep (by decide) rfl hslash h₁
      have hlive₂ := urlLoop_live r (by decide) h₂
      cases r with
      | nil => exact absurd h₂ (hempty _ _)
      | cons c r =>
        obtain rfl := schemaSlashSlash_leaves (hdead hlive₂)
        have hslash' : parseUrlChar strict .reqSchemaSlashSlash ('/' : UInt8) =
            .reqServerStart := by
          cases strict <;> decide
        exact ⟨r, rfl, hstep (by decide) rfl hslash' h₂⟩

theorem parse_some {s : Bytes} (h : parseUrl strict s false = some u) :
    ∃ u' fa, urlLoop strict s 0 .reqSpacesBeforeUrl none false .init = some (u', fa) ∧
      ((u'.field .schema).isSome = true → u'.field .host ≠ none) ∧
      (u'.field .host = none → u.field .schema = u'.field .schema) ∧
      ∀ host, u'.field .host = some host → parseHost strict s u' host fa ≠ none := by
  have hnil : s ≠ [] := by
    rintro rfl
    cases h
  simp only [parseUrl, if_neg hnil, Bool.false_eq_true, if_false, false_and] at h
  cases hloop : urlLoop strict s 0 .reqSpacesBeforeUrl none false .init with
  | none =>
    simp only [hloop] at h
    cases h
  | some r =>
    obtain ⟨u', fa⟩ := r
    simp only [hloop] at h
    split_ifs at h with hreject
    refine ⟨u', fa, rfl, ?_, ?_, ?_⟩
    · intro hschema hhost
      exact hreject ⟨hschema, by rw [hhost]; rfl⟩
    · intro hhost
      rw [hhost] at h
      split at h
      · rename_i hnone
        cases hnone
      · rename_i v hv
        obtain rfl := Option.some.inj hv
        split at h
        · exact congrArg (fun v => HttpParserUrl.field v .schema) (Option.some.inj h).symm
        · obtain ⟨v, -, rfl⟩ := Option.map_eq_some_iff.mp h
          rfl
    · intro host hhost hnone
      rw [hhost] at h
      simp only [hnone] at h
      cases h

/-- An accepted text with a scheme and two slashes is one of the grammar. -/
theorem accepted_behind {w l : Bytes} (hw : w ≠ [] ∧ ∀ c ∈ w, isAlpha c = true)
    (hoff : w.length+3 < 2^16) (hlen : l.length < 2^16)
    (h : parseUrl strict (w ++ (ascii "://" ++ l)) false = some u) :
    ∃ x : UrlText strict, x.scheme = w ∧ w ++ (ascii "://" ++ l) = x.text := by
  obtain ⟨u', fa, hloop, hschema, -, hhost⟩ := parse_some h
  rw [urlLoop_scheme hw (by omega)] at hloop
  have hset : u'.field .schema ≠ none := by
    refine urlLoop_set l ?_ hloop
    rw [put_ne_nil hw.1, field_span, if_pos rfl]
    exact Option.some_ne_none _
  have hfresh : (put .init .schema 0 w).field .host = none := by
    rw [put_ne_nil hw.1]
    rfl
  obtain ⟨a, t, rfl, hthead, hspan, rfl, htlive⟩ := authority_of_loop l hlen hfresh hloop
    (hschema (Option.isSome_iff_ne_none.mpr hset))
  obtain ⟨t, rfl⟩ := tail_of_live t hthead htlive
  have hends := parseHost_ends (hhost _ hspan)
  have hbefore : (w.length+3) % 2^16 = (w ++ ascii "://").length := by
    rw [List.length_append]
    exact Nat.mod_eq_of_lt hoff
  rw [hbefore, ← List.append_assoc, List.drop_left, List.take_left] at hends
  obtain ⟨a, rfl⟩ := authority_of_ends a _ hends
  exact ⟨⟨w, a, t, hw⟩, rfl, rfl⟩

/-- An accepted text starts with a slash or an asterisk, and then has no scheme, or it is one
of the grammar. -/
theorem accepted {s : Bytes} (hlen : s.length < 2^16) (h : parseUrl strict s false = some u) :
    u.field .schema = none ∨ ∃ x : UrlText strict, s = x.text := by
  obtain ⟨u', fa, hloop, hschema, hkept, -⟩ := parse_some h
  have hlive := urlLoop_live s (by decide) hloop
  cases s with
  | nil => cases h
  | cons c s =>
    cases hc : isAlpha c with
    | false =>
      left
      have hpath : parseUrlChar strict .reqSpacesBeforeUrl c = .reqPath := by
        have hstep : parseUrlChar strict .reqSpacesBeforeUrl c ≠ .dead := by
          intro hd
          rw [List.foldl_cons, hd, Machine.foldl_dead (dead_stays strict)] at hlive
          exact hlive rfl
        rcases start_leaves hc hstep with rfl | rfl <;> cases strict <;> decide
      rw [urlLoop_begin hpath rfl (by decide)] at hloop
      obtain ⟨hs, hh, -⟩ := urlLoop_untouched s (by decide) hloop
      rw [field_span, if_neg (by decide)] at hs hh
      rw [hkept hh, hs]
      rfl
    | true =>
      right
      have henter := (alpha_enters strict c hc).1
      rw [List.foldl_cons, henter] at hlive
      obtain ⟨w, r, rfl, hw, hhead⟩ : ∃ w r, s = w ++ r ∧ (∀ d ∈ w, isAlpha d = true) ∧
          ∀ d ∈ r.head?, isAlpha d = false := by
        obtain ⟨w, hw, rfl | ⟨d, r, rfl, hd, -⟩⟩ := Machine.split isAlpha s hlive
          fun d hd => (alpha_enters strict d hd).2.1
        · exact ⟨s, [], (List.append_nil s).symm, hw, by simp⟩
        · exact ⟨w, d::r, rfl, hw, by simpa using hd⟩
      have hscheme : c::w ≠ [] ∧ ∀ d ∈ c::w, isAlpha d = true :=
        ⟨List.cons_ne_nil c w, List.forall_mem_cons.mpr ⟨hc, hw⟩⟩
      rw [← List.cons_append] at hloop h hlen ⊢
      rw [List.length_append] at hlen
      rw [urlLoop_field (t := .reqSchema) rfl (by decide) (by decide)
        (fun d hd => (alpha_enters strict d (hscheme.2 d (List.mem_of_mem_head? hd))).1)
        (fun d hd => (alpha_enters strict d (hscheme.2 d (List.mem_of_mem_tail hd))).2.1)
        (by omega), if_neg hscheme.1, if_neg hscheme.1, put_ne_nil hscheme.1] at hloop
      have hset : u'.field .schema ≠ none := by
        refine urlLoop_set r ?_ hloop
        rw [field_span, if_pos rfl]
        exact Option.some_ne_none _
      obtain ⟨l, rfl, -⟩ := separator_of_loop r hhead rfl hloop
        (hschema (Option.isSome_iff_ne_none.mpr hset))
      have hsep : (ascii "://").length = 3 := rfl
      rw [List.length_append, hsep] at hlen
      obtain ⟨x, -, hx⟩ := accepted_behind hscheme (by omega) (by omega) h
      exact ⟨x, hx⟩

theorem tail_head (t : Tail strict) : ∀ c ∈ t.text.head?, leaves c = true := by
  intro c hc
  rw [Tail.text] at hc
  by_cases hpath : t.path = []
  · rw [hpath, List.nil_append] at hc
    cases hq : t.query with
    | none =>
      cases hf : t.fragment with
      | none => simp [Tail.queryText, Tail.fragmentText, hq, hf] at hc
      | some f =>
        have hapart := t.apart
        simp [hpath, hq, hf] at hapart
    | some q =>
      rw [Tail.queryText, hq] at hc
      obtain rfl := Option.some.inj hc
      decide
  · obtain ⟨p, path, hcons⟩ := List.exists_cons_of_ne_nil hpath
    rw [hcons] at hc
    obtain rfl := Option.some.inj hc
    rw [(t.path_ok p (by rw [hcons]; rfl)).1]
    decide

/-- A text that starts with an authority shows where it ends. -/
theorem takeWhile_leaves {w l : Bytes} (hw : ∀ c ∈ w, leaves c = false)
    (hl : ∀ c ∈ l.head?, leaves c = true) : (w ++ l).takeWhile (fun c => !leaves c) = w := by
  rw [List.takeWhile_append_of_pos fun c hc => by simp [hw c hc]]
  cases l with
  | nil => rw [List.takeWhile_nil, List.append_nil]
  | cons c l => rw [List.takeWhile_cons_of_neg (by simp [hl c rfl]), List.append_nil]

end UrlMachine

end Lamb.UrlAccepted
