import NativeBridge.Proofs.Session.Effects

/-! # What the registry, the libraries and the hooks have in common

The registry, the libraries with what they export and with their exit hooks, and the hooks that are
pending are kept in step by operations that call each other, up to a hook that closes its library and
finds itself gone from the queue. Each operation is one of a few changes: hooks that close no library
come and go, a library is loaded, gets its hook, or is closed together with its hook.
-/
namespace NativeBridge

variable {κ : Type}

/-- Whether a name loads does not depend on when symbols are resolved. -/
def Loader.Steady (loader : Loader κ) : Prop :=
  ∀ name mode exports, loader.load mode name = .ok exports →
    ∀ mode', ∃ exports', loader.load mode' name = .ok exports'

namespace Session

variable {s : Session κ} {requested : List Nat} {name : String} {i j : Nat} {l : SharedLibrary κ}
  {id : HookId}

/-- Library `i` is open under a name. -/
def Open (s : Session κ) (name : String) (i : Nat) : Prop :=
  ∃ l, s.library? i = some l ∧ l.isOpen = true ∧ l.name = name

/-- The hook of an identifier waits to close library `i`. -/
def Closes (s : Session κ) (id : HookId) (i : Nat) : Prop :=
  (id, ExitAction.closeLibrary i) ∈ s.hooks.pending

/-- The registry, the libraries, the hooks and the requests to close at exit agree. -/
structure Coherent (s : Session κ) (requested : List Nat) : Prop where
  steady : s.loader.Steady
  /-- Whatever was opened can be opened again. -/
  loads : ∀ i l, s.library? i = some l →
    hasNul l.name = false ∧ ∃ mode exports, s.loader.load mode l.name = .ok exports
  registry_iff : ∀ name i, (name, i) ∈ s.registry ↔ s.Open name i
  names_nodup : (s.registry.map Prod.fst).Nodup
  closes_iff : ∀ id i, s.Closes id i ↔ ∃ l, s.library? i = some l ∧ l.exitHook = some id
  hooked_iff : ∀ i l, s.library? i = some l →
    (l.exitHook ≠ none ↔ l.isOpen = true ∧ i ∈ requested)
  requested_lt : ∀ i ∈ requested, i < s.libraries.length
  /-- The hooks that can be removed by their numbers close no library. -/
  numbered : ∀ id ∈ s.numbered, id.raw < s.hooks.upcoming ∧ ∀ i, ¬s.Closes id i

theorem coherent_start (config : Config) {loader : Loader κ} (h : loader.Steady) :
    Coherent (start config loader) [] where
  steady := h
  loads := fun _ _ h => nomatch h
  registry_iff _ _ := iff_of_false (fun h => nomatch h) fun ⟨_, h, _⟩ => nomatch h
  names_nodup := List.nodup_nil
  closes_iff _ _ := iff_of_false (fun h => nomatch h) fun ⟨_, h, _⟩ => nomatch h
  hooked_iff := fun _ _ h => nomatch h
  requested_lt := fun _ h => nomatch h
  numbered := fun _ h => nomatch h

/-- The index of a name is that of its only entry. -/
theorem registered?_eq_some_iff (h : (s.registry.map Prod.fst).Nodup) :
    s.registered? name = some i ↔ (name, i) ∈ s.registry := by
  unfold registered?
  rw [Option.map_eq_some_iff]
  constructor
  · rintro ⟨⟨name', i'⟩, hfind, rfl⟩
    have hname : name' = name := by simpa using List.find?_some hfind
    rw [← hname]
    exact List.mem_of_find?_eq_some hfind
  · intro hmem
    cases hfind : s.registry.find? fun entry => entry.1 == name with
    | none =>
      have hne := List.find?_eq_none.1 hfind (name, i) hmem
      exact absurd (beq_self_eq_true name) hne
    | some entry =>
      have hname : entry.1 = name := by simpa using List.find?_some hfind
      have heq := List.inj_on_of_nodup_map h (List.mem_of_find?_eq_some hfind) hmem hname
      exact ⟨entry, rfl, congrArg Prod.snd heq⟩

theorem registered?_eq_none_iff : s.registered? name = none ↔ ∀ i, (name, i) ∉ s.registry := by
  unfold registered?
  rw [Option.map_eq_none_iff, List.find?_eq_none]
  constructor
  · intro h i hmem
    exact h (name, i) hmem (beq_self_eq_true name)
  · intro h entry hmem hname
    have hname : entry.1 = name := by simpa using hname
    rw [← hname] at h
    exact h entry.2 hmem

theorem Coherent.registered?_iff (h : s.Coherent requested) :
    s.registered? name = some i ↔ s.Open name i := by
  rw [registered?_eq_some_iff h.names_nodup]
  exact h.registry_iff name i

/-- A hook closes a library just where the library knows it as its own. -/
theorem Coherent.closes_iff_exitHook (h : s.Coherent requested) (hl : s.library? i = some l) :
    s.Closes id i ↔ l.exitHook = some id := by
  rw [h.closes_iff]
  constructor
  · rintro ⟨y, hy, hid⟩
    rw [hl] at hy
    rw [Option.some.inj hy]
    exact hid
  · intro hid
    exact ⟨l, hl, hid⟩

theorem open_iff (hl : s.library? i = some l) :
    s.Open name i ↔ l.isOpen = true ∧ l.name = name := by
  constructor
  · rintro ⟨y, hy, hopen⟩
    rw [hl] at hy
    rw [Option.some.inj hy]
    exact hopen
  · intro hopen
    exact ⟨l, hl, hopen⟩

/-- What the libraries are once one of them has been replaced. -/
theorem library?_set_iff {x y : SharedLibrary κ} (hl : s.library? i = some l) :
    (s.libraries.set i x)[j]? = some y ↔ j = i ∧ y = x ∨ j ≠ i ∧ s.library? j = some y := by
  have hlt := (List.getElem?_eq_some_iff.1 hl).1
  by_cases hji : j = i
  · rw [hji, List.getElem?_set_self hlt]
    simp [eq_comm]
  · rw [List.getElem?_set_ne (Ne.symm hji), library?]
    simp [hji]

/-- Hooks that close no library come and go. -/
theorem Coherent.rehooked {hooks : HookQueue ExitAction} {numbered : List HookId}
    {log : List LogEntry} {arena : Option Arena} (h : s.Coherent requested)
    (hcloses : ∀ id i, (id, ExitAction.closeLibrary i) ∈ hooks.pending ↔ s.Closes id i)
    (hnumbered : ∀ id ∈ numbered, id.raw < hooks.upcoming ∧ ∀ i, ¬s.Closes id i) :
    Coherent { s with hooks, numbered, log, arena } requested where
  steady := h.steady
  loads := h.loads
  registry_iff := h.registry_iff
  names_nodup := h.names_nodup
  closes_iff id i := (hcloses id i).trans (h.closes_iff id i)
  hooked_iff := h.hooked_iff
  requested_lt := h.requested_lt
  numbered id hid := by
    obtain ⟨hlt, hno⟩ := hnumbered id hid
    exact ⟨hlt, fun i hi => hno i ((hcloses id i).1 hi)⟩

theorem library?_loaded {exports : Exports κ} (s : Session κ) :
    (s.loaded name exports).library? i = some l ↔
      s.library? i = some l ∨ i = s.libraries.length ∧ l = ⟨name, some exports, none⟩ := by
  let new : SharedLibrary κ := ⟨name, some exports, none⟩
  change (s.libraries ++ [new])[i]? = some l ↔ s.libraries[i]? = some l ∨ _ ∧ l = new
  rcases Nat.lt_trichotomy i s.libraries.length with hlt | rfl | hlt
  · rw [List.getElem?_append_left hlt]
    exact (or_iff_left fun h => Nat.ne_of_lt hlt h.1).symm
  · rw [List.getElem?_concat_length, List.getElem?_eq_none (Nat.le_refl _)]
    simp [eq_comm]
  · have hend : (s.libraries ++ [new]).length ≤ i := by
      rw [List.length_append]
      exact hlt
    rw [List.getElem?_eq_none hend, List.getElem?_eq_none (Nat.le_of_lt hlt)]
    simp [Nat.ne_of_gt hlt]

theorem Coherent.loaded {mode : LinkMode} {exports : Exports κ} (h : s.Coherent requested)
    (hname : s.registered? name = none) (hclean : hasNul name = false)
    (hload : s.loader.load mode name = .ok exports) :
    (s.loaded name exports).Coherent requested where
  steady := h.steady
  loads i l hl := by
    rcases (library?_loaded s).1 hl with hl | ⟨_, rfl⟩
    · exact h.loads i l hl
    · exact ⟨hclean, mode, exports, hload⟩
  registry_iff name' i := by
    have hmem : (name', i) ∈ (s.loaded name exports).registry ↔
        (name' = name ∧ i = s.libraries.length) ∨ s.Open name' i := by
      change (name', i) ∈ (name, s.libraries.length) :: s.registry ↔ _
      rw [List.mem_cons, Prod.mk.injEq, h.registry_iff]
    rw [hmem]
    constructor
    · rintro (⟨rfl, rfl⟩ | ⟨l, hl, hopen, rfl⟩)
      · exact ⟨_, (library?_loaded s).2 (.inr ⟨rfl, rfl⟩), rfl, rfl⟩
      · exact ⟨l, (library?_loaded s).2 (.inl hl), hopen, rfl⟩
    · rintro ⟨l, hl, hopen, rfl⟩
      rcases (library?_loaded s).1 hl with hl | ⟨rfl, rfl⟩
      · exact .inr ⟨l, hl, hopen, rfl⟩
      · exact .inl ⟨rfl, rfl⟩
  names_nodup := by
    change (name :: s.registry.map Prod.fst).Nodup
    refine List.nodup_cons.2 ⟨?_, h.names_nodup⟩
    intro hmem
    obtain ⟨entry, hentry, rfl⟩ := List.mem_map.1 hmem
    exact registered?_eq_none_iff.1 hname entry.2 hentry
  closes_iff id i := by
    refine (h.closes_iff id i).trans ⟨?_, ?_⟩
    · rintro ⟨l, hl, hid⟩
      exact ⟨l, (library?_loaded s).2 (.inl hl), hid⟩
    · rintro ⟨l, hl, hid⟩
      rcases (library?_loaded s).1 hl with hl | ⟨_, rfl⟩
      · exact ⟨l, hl, hid⟩
      · cases hid
  hooked_iff i l hl := by
    rcases (library?_loaded s).1 hl with hl | ⟨rfl, rfl⟩
    · exact h.hooked_iff i l hl
    · -- nobody can have asked for a library that was not there
      have hnot : s.libraries.length ∉ requested := fun hmem =>
        Nat.lt_irrefl _ (h.requested_lt _ hmem)
      exact iff_of_false (fun hne => hne rfl) fun hreq => hnot hreq.2
  requested_lt i hi := by
    have hlt := h.requested_lt i hi
    change i < (s.libraries ++ [_]).length
    rw [List.length_append]
    exact Nat.lt_add_right _ hlt
  numbered := h.numbered

/-- A request that has no effect: the library is closed or has its hook. -/
theorem Coherent.request (h : s.Coherent requested) (hl : s.library? i = some l)
    (hhook : l.isOpen = true → l.exitHook ≠ none) : s.Coherent (i :: requested) where
  steady := h.steady
  loads := h.loads
  registry_iff := h.registry_iff
  names_nodup := h.names_nodup
  closes_iff := h.closes_iff
  hooked_iff j l' hl' := by
    rw [h.hooked_iff j l' hl', List.mem_cons]
    constructor
    · rintro ⟨hopen, hmem⟩
      exact ⟨hopen, .inr hmem⟩
    · rintro ⟨hopen, rfl | hmem⟩
      · rw [hl] at hl'
        rw [Option.some.inj hl'] at hhook
        exact (h.hooked_iff j l' (hl.trans hl')).1 (hhook hopen)
      · exact ⟨hopen, hmem⟩
  requested_lt j hj := by
    rcases List.mem_cons.1 hj with rfl | hj
    · exact (List.getElem?_eq_some_iff.1 hl).1
    · exact h.requested_lt j hj
  numbered := h.numbered

theorem closes_hooked : (s.hooked i l).Closes id j ↔
    s.Closes id j ∨ id = ⟨s.hooks.upcoming⟩ ∧ j = i := by
  change (id, ExitAction.closeLibrary j) ∈ s.hooks.pending ++ [_] ↔ _
  rw [List.mem_append, List.mem_singleton, Prod.mk.injEq, ExitAction.closeLibrary.injEq, Closes]

theorem Coherent.hooked (h : s.Coherent requested) (hl : s.library? i = some l)
    (hopen : l.isOpen = true) (hnone : l.exitHook = none) :
    (s.hooked i l).Coherent (i :: requested) where
  steady := h.steady
  loads j y hy := by
    rcases (library?_set_iff hl).1 hy with ⟨_, rfl⟩ | ⟨_, hy⟩
    · exact h.loads i l hl
    · exact h.loads j y hy
  registry_iff name j := by
    refine (h.registry_iff name j).trans ⟨?_, ?_⟩
    · intro hname
      by_cases hji : j = i
      · rw [hji] at hname
        exact ⟨_, (library?_set_iff hl).2 (.inl ⟨hji, rfl⟩), (open_iff hl).1 hname⟩
      · obtain ⟨y, hy, hyopen⟩ := hname
        exact ⟨y, (library?_set_iff hl).2 (.inr ⟨hji, hy⟩), hyopen⟩
    · rintro ⟨y, hy, hyopen⟩
      rcases (library?_set_iff hl).1 hy with ⟨rfl, rfl⟩ | ⟨_, hy⟩
      · exact (open_iff hl).2 hyopen
      · exact ⟨y, hy, hyopen⟩
  names_nodup := h.names_nodup
  closes_iff id j := by
    rw [closes_hooked, h.closes_iff]
    constructor
    · rintro (⟨y, hy, hid⟩ | ⟨rfl, rfl⟩)
      · have hji : j ≠ i := by
          rintro rfl
          have hown := (h.closes_iff_exitHook hl).1 ((h.closes_iff id j).2 ⟨y, hy, hid⟩)
          rw [hnone] at hown
          cases hown
        exact ⟨y, (library?_set_iff hl).2 (.inr ⟨hji, hy⟩), hid⟩
      · exact ⟨_, (library?_set_iff hl).2 (.inl ⟨rfl, rfl⟩), rfl⟩
    · rintro ⟨y, hy, hid⟩
      rcases (library?_set_iff hl).1 hy with ⟨rfl, rfl⟩ | ⟨_, hy⟩
      · exact .inr ⟨(Option.some.inj hid).symm, rfl⟩
      · exact .inl ⟨y, hy, hid⟩
  hooked_iff j y hy := by
    rcases (library?_set_iff hl).1 hy with ⟨rfl, rfl⟩ | ⟨hji, hy⟩
    · exact iff_of_true (fun hid => nomatch hid) ⟨hopen, List.mem_cons_self⟩
    · rw [h.hooked_iff j y hy, List.mem_cons, or_iff_right hji]
  requested_lt j hj := by
    change j < (s.libraries.set i _).length
    rw [List.length_set]
    rcases List.mem_cons.1 hj with rfl | hj
    · exact (List.getElem?_eq_some_iff.1 hl).1
    · exact h.requested_lt j hj
  numbered id hid := by
    obtain ⟨hlt, hno⟩ := h.numbered id hid
    refine ⟨Nat.lt_succ_of_lt hlt, ?_⟩
    intro j hj
    rcases closes_hooked.1 hj with hj | ⟨rfl, _⟩
    · exact hno j hj
    · exact Nat.lt_irrefl _ hlt

/-- A library is closed, and the hook that would close it is gone. -/
theorem Coherent.closing {hooks : HookQueue ExitAction} (h : s.Coherent requested)
    (hl : s.library? i = some l) (hupcoming : hooks.upcoming = s.hooks.upcoming)
    (hcloses : ∀ id j, (id, ExitAction.closeLibrary j) ∈ hooks.pending ↔ s.Closes id j ∧ j ≠ i) :
    Coherent { s with
      hooks
      libraries := s.libraries.set i { l with exports := none, exitHook := none }
      registry := s.registry.filter fun entry => entry ≠ (l.name, i) } requested where
  steady := h.steady
  loads j y hy := by
    rcases (library?_set_iff hl).1 hy with ⟨_, rfl⟩ | ⟨_, hy⟩
    · exact h.loads i l hl
    · exact h.loads j y hy
  registry_iff name j := by
    rw [List.mem_filter, decide_eq_true_eq, h.registry_iff]
    constructor
    · rintro ⟨hopen, hne⟩
      have hji : j ≠ i := by
        rintro rfl
        rw [((open_iff hl).1 hopen).2] at hne
        exact hne rfl
      obtain ⟨y, hy, hyopen⟩ := hopen
      exact ⟨y, (library?_set_iff hl).2 (.inr ⟨hji, hy⟩), hyopen⟩
    · rintro ⟨y, hy, hyopen, rfl⟩
      rcases (library?_set_iff hl).1 hy with ⟨_, rfl⟩ | ⟨hji, hy⟩
      · cases hyopen
      · exact ⟨⟨y, hy, hyopen, rfl⟩, fun heq => hji (congrArg Prod.snd heq)⟩
  names_nodup := (List.filter_sublist.map Prod.fst).nodup h.names_nodup
  closes_iff id j := by
    refine (hcloses id j).trans ?_
    rw [h.closes_iff]
    constructor
    · rintro ⟨⟨y, hy, hid⟩, hji⟩
      exact ⟨y, (library?_set_iff hl).2 (.inr ⟨hji, hy⟩), hid⟩
    · rintro ⟨y, hy, hid⟩
      rcases (library?_set_iff hl).1 hy with ⟨_, rfl⟩ | ⟨hji, hy⟩
      · cases hid
      · exact ⟨⟨y, hy, hid⟩, hji⟩
  hooked_iff j y hy := by
    rcases (library?_set_iff hl).1 hy with ⟨_, rfl⟩ | ⟨_, hy⟩
    · exact iff_of_false (fun hne => hne rfl) fun hopen => nomatch hopen.1
    · exact h.hooked_iff j y hy
  requested_lt j hj := by
    change j < (s.libraries.set i _).length
    rw [List.length_set]
    exact h.requested_lt j hj
  numbered id hid := by
    obtain ⟨hlt, hno⟩ := h.numbered id hid
    refine ⟨Nat.lt_of_lt_of_eq hlt hupcoming.symm, ?_⟩
    intro j hj
    exact hno j ((hcloses id j).1 hj).1

/-- The hooks of other libraries are other hooks. -/
theorem Coherent.ne_iff_of_closes {own : HookId} (h : s.Coherent requested)
    (ha : s.hooks.Accounted) (hl : s.library? i = some l) (hown : l.exitHook = some own)
    (hj : s.Closes id j) : id ≠ own ↔ j ≠ i := by
  refine not_congr ⟨?_, ?_⟩
  · rintro rfl
    have hi : s.Closes id i := (h.closes_iff_exitHook hl).2 hown
    exact ExitAction.closeLibrary.inj (ha.eq_of_mem_pending hj hi)
  · rintro rfl
    rw [h.closes_iff_exitHook hl, hown] at hj
    exact (Option.some.inj hj).symm

end Session

end NativeBridge
