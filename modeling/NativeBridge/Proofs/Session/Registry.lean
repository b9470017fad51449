import NativeBridge.Proofs.Session.Upkeep

/-! # The registry and the libraries that are open

A name leads to the only library that is open under it, the hooks that wait to close a library are those
of the open libraries for which that was requested, and a library that was closed stays closed while its
name can be opened again.
-/
namespace NativeBridge

variable {κ : Type}

/-- The library that a hook closes. -/
def ExitAction.library? : ExitAction → Option Nat
  | .closeLibrary i => some i
  | _ => none

namespace Session

variable {s : Session κ} {requested : List Nat} {i : Nat} {l : SharedLibrary κ}

/-- The libraries that pending hooks are going to close. -/
def libraryHooks (s : Session κ) : List Nat := s.hooks.pending.filterMap (·.2.library?)

theorem library?_eq_some_iff {action : ExitAction} :
    action.library? = some i ↔ action = .closeLibrary i := by
  cases action with
  | closeLibrary j => simp [ExitAction.library?]
  | releaseStack => simp [ExitAction.library?]
  | script steps => simp [ExitAction.library?]

theorem mem_libraryHooks_iff : i ∈ s.libraryHooks ↔ ∃ id, s.Closes id i := by
  unfold libraryHooks
  rw [List.mem_filterMap]
  constructor
  · rintro ⟨⟨id, action⟩, hmem, haction⟩
    have hclose : action = .closeLibrary i := library?_eq_some_iff.1 haction
    rw [hclose] at hmem
    exact ⟨id, hmem⟩
  · rintro ⟨id, hmem⟩
    exact ⟨_, hmem, rfl⟩

/-- No library is closed by two hooks. -/
theorem Coherent.nodup_libraryHooks (h : s.Coherent requested) (ha : s.hooks.Accounted) :
    s.libraryHooks.Nodup := by
  have hpending : s.hooks.pending.Nodup := List.Nodup.of_map _ ha.nodup_waiting
  refine List.pairwise_filterMap.2 (hpending.imp_of_mem ?_)
  rintro ⟨id, action⟩ ⟨id', action'⟩ hmem hmem' hne i hi j hj rfl
  have haction : action = .closeLibrary i := library?_eq_some_iff.1 hi
  have haction' : action' = .closeLibrary i := library?_eq_some_iff.1 hj
  rw [haction] at hmem hne
  rw [haction'] at hmem' hne
  obtain ⟨l, hl, hid⟩ := (h.closes_iff id i).1 hmem
  have hid' := (h.closes_iff_exitHook hl).1 hmem'
  rw [hid] at hid'
  exact hne (congrArg (·, ExitAction.closeLibrary i) (Option.some.inj hid'))

theorem Coherent.mem_libraryHooks_iff (h : s.Coherent requested) :
    i ∈ s.libraryHooks ↔ i ∈ requested ∧ ∃ name, s.Open name i := by
  rw [Session.mem_libraryHooks_iff]
  constructor
  · rintro ⟨id, hid⟩
    obtain ⟨l, hl, hown⟩ := (h.closes_iff id i).1 hid
    have hne : l.exitHook ≠ none := by
      rw [hown]
      exact Option.some_ne_none id
    obtain ⟨hopen, hreq⟩ := (h.hooked_iff i l hl).1 hne
    exact ⟨hreq, l.name, l, hl, hopen, rfl⟩
  · rintro ⟨hreq, name, l, hl, hopen, _⟩
    obtain ⟨id, hid⟩ := Option.ne_none_iff_exists'.1 ((h.hooked_iff i l hl).2 ⟨hopen, hreq⟩)
    exact ⟨id, (h.closes_iff id i).2 ⟨l, hl, hid⟩⟩

/-- What can be done with library `i` once it is closed: nothing, but its name can be opened again. -/
structure Spent (s : Session κ) (i : Nat) (l : SharedLibrary κ) : Prop where
  close_eq : closeLibrary i s = ((), s)
  find_eq : ∀ symbol, hasNul symbol = false → l.find symbol = .error (.libraryClosed l.name)
  get_eq : ∀ symbol, hasNul symbol = false → l.get symbol = .error (.libraryClosed l.name)
  reopens : ∀ mode atExit, ∃ j, (openLibrary [l.name] mode atExit s).1 = .ok j ∧ j ≠ i ∧
    (openLibrary [l.name] mode atExit s).2.Open l.name j ∧
    (s.registered? l.name = none → j = s.libraries.length)

/-- The registry and the libraries that are open agree. -/
structure Agrees (s : Session κ) (requested : List Nat) : Prop where
  registered_iff : ∀ name i, s.registered? name = some i ↔ s.Open name i
  /-- No name has two entries or two open libraries. -/
  names_nodup : (s.registry.map Prod.fst).Nodup
  unique : ∀ name i j, s.Open name i → s.Open name j → i = j
  opens : ∀ candidates mode atExit, s.Outcome candidates mode atExit
  /-- The hooks that wait to close a library are those of the open libraries for which that was
  requested, one for each. -/
  hooks_nodup : s.libraryHooks.Nodup
  hooks_iff : ∀ i, i ∈ s.libraryHooks ↔ i ∈ requested ∧ ∃ name, s.Open name i
  closes : ∀ i l, s.library? i = some l →
    ∃ l', (closeLibrary i s).2.library? i = some l' ∧ l'.name = l.name ∧ l'.isOpen = false
  spent : ∀ i l, s.library? i = some l → l.isOpen = false → s.Spent i l

theorem closeLibrary_closes (hl : s.library? i = some l) :
    ∃ l', (closeLibrary i s).2.library? i = some l' ∧ l'.name = l.name ∧ l'.isOpen = false := by
  rcases closeLibrary_cases i s with ⟨heq, hclosed⟩ | ⟨l', hl', hopen, heq⟩
  · rw [heq]
    exact ⟨l, hl, rfl, hclosed l hl⟩
  · rw [heq]
    rw [hl] at hl'
    rw [← Option.some.inj hl']
    exact ⟨_, (library?_set_iff hl).2 (.inl ⟨rfl, rfl⟩), rfl, rfl⟩

/-- A name that was opened once is not refused. -/
theorem Coherent.not_refuses {mode : LinkMode} {reason : String} (h : s.Coherent requested)
    (hl : s.library? i = some l) : ¬Refuses s mode l.name reason := by
  obtain ⟨hclean, mode', exports, hload⟩ := h.loads i l hl
  intro hr
  cases hr with
  | nul unknown nul =>
    rw [hclean] at nul
    cases nul
  | fails unknown clean fails =>
    obtain ⟨exports', hload'⟩ := h.steady l.name mode' exports hload mode
    rw [hload'] at fails
    cases fails

theorem Coherent.reopens (h : s.Coherent requested) (hl : s.library? i = some l)
    (hclosed : l.isOpen = false) (mode : LinkMode) (atExit : Bool) :
    ∃ j, (Session.openLibrary [l.name] mode atExit s).1 = .ok j ∧ j ≠ i ∧
      (Session.openLibrary [l.name] mode atExit s).2.Open l.name j ∧
      (s.registered? l.name = none → j = s.libraries.length) := by
  have hcoherent := h.openLibrary [l.name] mode atExit
  cases outcome_openLibrary s [l.name] mode atExit with
  | fails refused opened tried =>
    cases refused with
    | cons hr _ => exact absurd hr (h.not_refuses hl)
  | @succeeds front back name j s' t split refused accepts opened tried registry_eq hooks =>
    have hname : name = l.name := by
      have hmem : name ∈ [l.name] := by
        rw [split]
        exact List.mem_append_right _ List.mem_cons_self
      exact List.mem_singleton.1 hmem
    rw [hname] at accepts
    obtain ⟨hcoherent', hopen'⟩ := accepts.coherent h
    rw [opened] at hcoherent ⊢
    refine ⟨j, rfl, ?_, ?_, ?_⟩
    · rintro rfl
      cases accepts with
      | known known =>
        obtain ⟨hopen, _⟩ := (open_iff hl).1 (h.registered?_iff.1 known)
        rw [hclosed] at hopen
        cases hopen
      | loads unknown clean loads =>
        exact Nat.lt_irrefl _ (List.getElem?_eq_some_iff.1 hl).1
    · refine (hcoherent.registry_iff l.name j).1 ?_
      dsimp only
      rw [registry_eq]
      exact (hcoherent'.registry_iff l.name j).2 hopen'
    · intro hnone
      cases accepts with
      | known known =>
        rw [hnone] at known
        cases known
      | loads unknown clean loads => rfl

theorem Coherent.spent (h : s.Coherent requested) (hl : s.library? i = some l)
    (hclosed : l.isOpen = false) : s.Spent i l := by
  have hnone : l.exports = none := by
    unfold SharedLibrary.isOpen at hclosed
    exact Option.not_isSome_iff_eq_none.1 (Bool.eq_false_iff.1 hclosed)
  have hfind : ∀ symbol, hasNul symbol = false → l.find symbol = .error (.libraryClosed l.name) := by
    intro symbol hclean
    rw [SharedLibrary.find, hclean, hnone]
    rfl
  refine ⟨?_, hfind, ?_, h.reopens hl hclosed⟩
  · rcases closeLibrary_cases i s with ⟨heq, _⟩ | ⟨l', hl', hopen, _⟩
    · exact Prod.ext rfl heq
    · rw [hl] at hl'
      rw [← Option.some.inj hl', hclosed] at hopen
      cases hopen
  · intro symbol hclean
    rw [SharedLibrary.get, hfind symbol hclean]

theorem Coherent.agrees (h : s.Coherent requested) (ha : s.hooks.Accounted) :
    s.Agrees requested where
  registered_iff _ _ := h.registered?_iff
  names_nodup := h.names_nodup
  unique name i j hi hj := by
    have hname := h.registered?_iff.2 hi
    rw [h.registered?_iff.2 hj] at hname
    exact (Option.some.inj hname).symm
  opens := outcome_openLibrary s
  hooks_nodup := h.nodup_libraryHooks ha
  hooks_iff _ := h.mem_libraryHooks_iff
  closes _ _ hl := closeLibrary_closes hl
  spent _ _ hl hclosed := h.spent hl hclosed

end Session

namespace Moment

variable {m : Moment κ}

/-- However libraries are opened, closed and requested to be closed at exit, by the program or by its
hooks, the registry, the open libraries and their hooks agree, also after a run of the hooks. -/
theorem agrees_of_reached {config : Config} {loader : Loader κ} (hl : loader.Steady)
    (h : Reached config loader m) : m.session.Agrees m.requested ∧
      (m.working = true → (Session.runHooks m.session).2.Agrees m.requested) := by
  refine ⟨(coherent_of_reached hl h).agrees (Balanced.reached h).accounted, ?_⟩
  intro hw
  obtain ⟨hooks, nested, hsteps, _⟩ := completes_runHooks hw
  have hafter := h.trans hsteps
  exact (coherent_of_reached hl hafter).agrees (Balanced.reached hafter).accounted

/-- Loads one name and no other. -/
def onlyA : Loader Unit := ⟨fun _ name => if name = "a" then .ok fun _ => none else .error "absent"⟩

theorem steady_onlyA : onlyA.Steady := fun _ _ exports h _ => ⟨exports, h⟩

/-- A library is to be closed at exit, but is closed before and opened again. -/
def reopened : Moment Unit :=
  ((((start default onlyA).does (.openLibrary ["x", "a"] .lazy true)).does (.closeAtExit 0)).does
    (.closeLibrary 0)).does (.openLibrary ["a"] .now true)

theorem agrees_of_reached_reopened :
    onlyA.Steady ∧ Reached default onlyA reopened ∧ reopened.requested = [1, 0, 0] ∧
      reopened.session.Open "a" 1 ∧ reopened.session.libraryHooks = [1] ∧
      (∃ l, reopened.session.library? 0 = some l ∧ reopened.session.Spent 0 l) ∧
      ∀ i, ¬(Session.runHooks reopened.session).2.Open "a" i := by
  have hm : Reached default onlyA reopened :=
    (((Relation.ReflTransGen.single (.does rfl _)).tail (.does rfl _)).tail (.does rfl _)).tail
      (.does rfl _)
  obtain ⟨hbefore, hafter⟩ := agrees_of_reached steady_onlyA hm
  have hname : reopened.session.registered? "a" = some 1 := by decide +kernel
  have hgone : (Session.runHooks reopened.session).2.registered? "a" = none := by decide +kernel
  have hrequested : reopened.requested = [1, 0, 0] := by decide +kernel
  have hhooks : reopened.session.libraryHooks = [1] := by decide +kernel
  refine ⟨steady_onlyA, hm, hrequested, (hbefore.registered_iff "a" 1).1 hname, hhooks, ?_, ?_⟩
  · have hclosed : (reopened.session.library? 0).map SharedLibrary.isOpen = some false := by
      decide +kernel
    obtain ⟨l, hl, hopen⟩ := Option.map_eq_some_iff.1 hclosed
    exact ⟨l, hl, hbefore.spent 0 l hl hopen⟩
  · intro i hi
    have hsome := ((hafter rfl).registered_iff "a" i).2 hi
    rw [hgone] at hsome
    cases hsome

end Moment

end NativeBridge
