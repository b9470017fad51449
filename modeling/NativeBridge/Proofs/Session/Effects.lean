import NativeBridge.Proofs.Exit.Account
import NativeBridge.Session.Exit

/-! # What the operations of a session do

For each operation the session that it leaves, by the cases that it tells apart.
-/
namespace NativeBridge.Session

variable {κ : Type} {s s' : Session κ} {i : Nat} {name : String} {mode : LinkMode}

/-- Library `i` has got the next hook. -/
def hooked (s : Session κ) (i : Nat) (l : SharedLibrary κ) : Session κ :=
  { s with
    hooks := (s.hooks.register (.closeLibrary i)).2
    libraries := s.libraries.set i { l with exitHook := some ⟨s.hooks.upcoming⟩ } }

/-- Library `i` was open and is closed. -/
def closed (s : Session κ) (i : Nat) (l : SharedLibrary κ) : Session κ :=
  { s with
    hooks := match l.exitHook with
      | none => s.hooks
      | some id => (s.hooks.unregister id).2
    libraries := s.libraries.set i { l with exports := none, exitHook := none }
    registry := s.registry.filter fun entry => entry ≠ (l.name, i) }

/-- A library has been loaded and registered. -/
def loaded (s : Session κ) (name : String) (exports : Exports κ) : Session κ :=
  { s with
    libraries := s.libraries ++ [⟨name, some exports, none⟩]
    registry := (name, s.libraries.length) :: s.registry }

theorem get_bind {α : Type} (f : Session κ → SessionM κ α) (s : Session κ) :
    (get >>= f : SessionM κ α) s = f s s := rfl

theorem bind_of_eq {α β : Type} {p : SessionM κ α} {a : α} (h : p s = (a, s'))
    (f : α → SessionM κ β) : (p >>= f) s = f a s' := by
  have hget : (p >>= f) s = f (p s).1 (p s).2 := rfl
  rw [hget, h]

/-- Only an open library without a hook gets one. -/
theorem closeAtExit_cases (i : Nat) (s : Session κ) :
    (closeAtExit i s).2 = s ∧
        (∀ l, s.library? i = some l → l.isOpen = true → l.exitHook ≠ none) ∨
      ∃ l, s.library? i = some l ∧ l.isOpen = true ∧ l.exitHook = none ∧
        (closeAtExit i s).2 = s.hooked i l := by
  rw [closeAtExit, get_bind]
  cases s.library? i with
  | none => exact .inl ⟨rfl, fun _ h => nomatch h⟩
  | some l =>
    have hiff : (l.exitHook.isNone && l.isOpen) = true ↔ l.exitHook = none ∧ l.isOpen = true := by
      rw [Bool.and_eq_true, Option.isNone_iff_eq_none]
    dsimp only
    split
    · rename_i h
      obtain ⟨hnone, hopen⟩ := hiff.1 h
      exact .inr ⟨l, rfl, hopen, hnone, rfl⟩
    · rename_i h
      refine .inl ⟨rfl, ?_⟩
      intro l' hl hopen hnone
      rw [← Option.some.inj hl] at hopen hnone
      exact h (hiff.2 ⟨hnone, hopen⟩)

/-- Only an open library is closed. -/
theorem closeLibrary_cases (i : Nat) (s : Session κ) :
    (closeLibrary i s).2 = s ∧ (∀ l, s.library? i = some l → l.isOpen = false) ∨
      ∃ l, s.library? i = some l ∧ l.isOpen = true ∧ (closeLibrary i s).2 = s.closed i l := by
  rw [closeLibrary, get_bind]
  cases s.library? i with
  | none => exact .inl ⟨rfl, fun _ h => nomatch h⟩
  | some l =>
    dsimp only
    split
    · rename_i h
      refine .inr ⟨l, rfl, h, ?_⟩
      unfold closed
      cases l.exitHook with
      | none => rfl
      | some id => rfl
    · rename_i h
      refine .inl ⟨rfl, ?_⟩
      intro l' hl
      rw [← Option.some.inj hl]
      exact Bool.eq_false_iff.2 h

theorem unregisterNumber_cases (n : Nat) (s : Session κ) :
    (unregisterNumber n s).2 = s ∨ ∃ id ∈ s.numbered,
      (unregisterNumber n s).2 = { s with hooks := (s.hooks.unregister id).2 } := by
  rw [unregisterNumber, get_bind]
  cases hn : s.numbered[n]? with
  | none => exact .inl rfl
  | some id => exact .inr ⟨id, List.mem_of_getElem? hn, rfl⟩

theorem threadArena_cases (s : Session κ) : ∃ arena, threadArena s = (arena, s) ∨ threadArena s =
    (arena, { s with arena := some arena, hooks := (s.hooks.register .releaseStack).2 }) := by
  obtain ⟨config, loader, hooks, numbered, log, libraries, registry, arena⟩ := s
  cases arena with
  | some arena => exact ⟨arena, .inl rfl⟩
  | none => exact ⟨Arena.ofCapacity config.stackSize, .inr rfl⟩

theorem onThreadArena_of_eq {α : Type} {arena : Arena} (op : Arena.ArenaM α)
    (h : threadArena s = (arena, s')) :
    ∃ a, (onThreadArena op s).2 = { s' with arena := some a } := by
  rw [onThreadArena, bind_of_eq h]
  cases op arena with
  | ok a b => exact ⟨b, rfl⟩
  | error e b => exact ⟨b, rfl⟩

/-- The first use of the stack registers the hook that gives it back. -/
theorem onThreadArena_cases {α : Type} (op : Arena.ArenaM α) (s : Session κ) :
    ∃ a, (onThreadArena op s).2 = { s with arena := some a } ∨ (onThreadArena op s).2 =
      { s with arena := some a, hooks := (s.hooks.register .releaseStack).2 } := by
  obtain ⟨arena, h | h⟩ := threadArena_cases s
  · obtain ⟨a, ha⟩ := onThreadArena_of_eq op h
    exact ⟨a, .inl ha⟩
  · obtain ⟨a, ha⟩ := onThreadArena_of_eq op h
    exact ⟨a, .inr ha⟩

theorem startFirst_of_none (h : s.hooks.start? = none) : startFirst s = (none, s) := by
  rw [startFirst, h]

theorem startFirst_of_some {action : ExitAction} {hooks : HookQueue ExitAction}
    (h : s.hooks.start? = some (action, hooks)) :
    startFirst s = (some action, { s with hooks }) := by
  rw [startFirst, h]

/-! ## Changes of the queue -/

theorem edit_closeAtExit (i : Nat) (s : Session κ) :
    HookQueue.Edit s.hooks (closeAtExit i s).2.hooks := by
  rcases closeAtExit_cases i s with ⟨h, _⟩ | ⟨l, _, _, _, h⟩
  · rw [h]
    exact .none
  · rw [h]
    exact .register _

theorem edit_closed (s : Session κ) (i : Nat) (l : SharedLibrary κ) :
    HookQueue.Edit s.hooks (s.closed i l).hooks := by
  unfold closed
  cases l.exitHook with
  | none => exact .none
  | some id => exact .unregister id

theorem edit_closeLibrary (i : Nat) (s : Session κ) :
    HookQueue.Edit s.hooks (closeLibrary i s).2.hooks := by
  rcases closeLibrary_cases i s with ⟨h, _⟩ | ⟨l, _, _, h⟩
  · rw [h]
    exact .none
  · rw [h]
    exact edit_closed s i l

theorem edit_unregisterNumber (n : Nat) (s : Session κ) :
    HookQueue.Edit s.hooks (unregisterNumber n s).2.hooks := by
  rcases unregisterNumber_cases n s with h | ⟨id, _, h⟩
  · rw [h]
    exact .none
  · rw [h]
    exact .unregister id

theorem edit_onThreadArena {α : Type} (op : Arena.ArenaM α) (s : Session κ) :
    HookQueue.Edit s.hooks (onThreadArena op s).2.hooks := by
  obtain ⟨a, h | h⟩ := onThreadArena_cases op s
  · rw [h]
    exact .none
  · rw [h]
    exact .register _

/-! ## Opening -/

/-- The reason why a candidate cannot be used. -/
inductive Refuses (s : Session κ) (mode : LinkMode) : String → String → Prop
  | nul {name : String} (unknown : s.registered? name = none) (nul : hasNul name = true) :
      Refuses s mode name (Text.escape name ++ ": contains a NUL byte")
  | fails {name reason : String} (unknown : s.registered? name = none)
      (clean : hasNul name = false) (fails : s.loader.load mode name = .error reason) :
      Refuses s mode name (name ++ ": " ++ reason)

/-- The library that a candidate leads to, and the session with it. -/
inductive Accepts (s : Session κ) (mode : LinkMode) : String → Nat → Session κ → Prop
  | known {name : String} {i : Nat} (known : s.registered? name = some i) :
      Accepts s mode name i s
  | loads {name : String} {exports : Exports κ} (unknown : s.registered? name = none)
      (clean : hasNul name = false) (loads : s.loader.load mode name = .ok exports) :
      Accepts s mode name s.libraries.length (s.loaded name exports)

/-- The first candidate that is not refused is opened, and where there is none the reasons against all
are told. -/
inductive Opens (s : Session κ) (mode : LinkMode) (candidates : List String) :
    Except (List String) Nat → Session κ → Prop
  | refused {reasons : List String} (refused : List.Forall₂ (Refuses s mode) candidates reasons) :
      Opens s mode candidates (.error reasons) s
  | accepted (front : List String) {back : List String} {name : String} {i : Nat} {s' : Session κ}
      (split : candidates = front ++ name :: back)
      (refused : ∀ c ∈ front, ∃ reason, Refuses s mode c reason)
      (accepts : Accepts s mode name i s') : Opens s mode candidates (.ok i) s'

theorem Opens.skip {candidates : List String} {reason : String} {opened : Except (List String) Nat}
    (hr : Refuses s mode name reason) (ho : Opens s mode candidates opened s') :
    Opens s mode (name :: candidates) (opened.mapError (reason :: ·)) s' := by
  cases ho with
  | refused refused => exact .refused (.cons hr refused)
  | accepted front split refused accepts =>
    refine .accepted (name :: front) (congrArg (name :: ·) split) ?_ accepts
    intro c hc
    rcases List.mem_cons.1 hc with rfl | hc
    · exact ⟨reason, hr⟩
    · exact refused c hc

theorem opens_openFirst (s : Session κ) (mode : LinkMode) (candidates : List String) :
    Opens s mode candidates (openFirst mode candidates s).1 (openFirst mode candidates s).2 := by
  induction candidates with
  | nil => exact .refused .nil
  | cons name rest ih =>
    rw [openFirst, get_bind]
    cases hname : s.registered? name with
    | some i => exact .accepted [] rfl (fun _ h => nomatch h) (.known hname)
    | none =>
      dsimp only
      split
      · rename_i hnul
        exact ih.skip (.nul hname hnul)
      · rename_i hclean
        have hclean := Bool.eq_false_iff.2 hclean
        cases hload : s.loader.load mode name with
        | ok exports =>
          exact .accepted [] rfl (fun _ h => nomatch h) (.loads hname hclean hload)
        | error reason => exact ih.skip (.fails hname hclean hload)

theorem Opens.hooks_eq {candidates : List String} {opened : Except (List String) Nat}
    (ho : Opens s mode candidates opened s') : s'.hooks = s.hooks := by
  cases ho with
  | refused refused => rfl
  | accepted front split refused accepts =>
    cases accepts with
    | known known => rfl
    | loads unknown clean loads => rfl

theorem openLibrary_of_error {candidates reasons : List String}
    (h : openFirst mode candidates s = (.error reasons, s')) (atExit : Bool) :
    openLibrary candidates mode atExit s = (.error (.libraryNotFound candidates reasons), s') := by
  rw [openLibrary, bind_of_eq h]
  rfl

theorem openLibrary_of_ok {candidates : List String}
    (h : openFirst mode candidates s = (.ok i, s')) (atExit : Bool) :
    openLibrary candidates mode atExit s =
      (.ok i, if atExit then (closeAtExit i s').2 else s') := by
  rw [openLibrary, bind_of_eq h]
  cases atExit with
  | true => rfl
  | false => rfl

theorem edit_openLibrary (candidates : List String) (mode : LinkMode) (atExit : Bool)
    (s : Session κ) : HookQueue.Edit s.hooks (openLibrary candidates mode atExit s).2.hooks := by
  have hhooks := (opens_openFirst s mode candidates).hooks_eq
  rcases hopened : openFirst mode candidates s with ⟨opened, s'⟩
  rw [hopened] at hhooks
  cases opened with
  | error reasons =>
    rw [openLibrary_of_error hopened, ← hhooks]
    exact .none
  | ok i =>
    rw [openLibrary_of_ok hopened, ← hhooks]
    cases atExit with
    | true => exact edit_closeAtExit i s'
    | false => exact .none

theorem registry_closeAtExit (i : Nat) (s : Session κ) :
    (closeAtExit i s).2.registry = s.registry := by
  rcases closeAtExit_cases i s with ⟨h, _⟩ | ⟨l, _, _, _, h⟩
  · rw [h]
  · rw [h, hooked]

theorem tryOpenLibrary_eq (candidates : List String) (mode : LinkMode) (atExit : Bool)
    (s : Session κ) : tryOpenLibrary candidates mode atExit s =
      ((openLibrary candidates mode atExit s).1.toOption,
        (openLibrary candidates mode atExit s).2) := rfl

/-- What comes of a request to open one of several libraries: all candidates are refused, and nothing
changes, or the first that is not refused is opened, and at most its own entry is added. -/
inductive Outcome (s : Session κ) (candidates : List String) (mode : LinkMode) (atExit : Bool) : Prop
  | fails {reasons : List String} (refused : List.Forall₂ (Refuses s mode) candidates reasons)
      (opened : openLibrary candidates mode atExit s =
        (.error (.libraryNotFound candidates reasons), s))
      (tried : tryOpenLibrary candidates mode atExit s = (none, s))
  | succeeds (front : List String) {back : List String} {name : String} {i : Nat}
      {s' t : Session κ} (split : candidates = front ++ name :: back)
      (refused : ∀ c ∈ front, ∃ reason, Refuses s mode c reason)
      (accepts : Accepts s mode name i s')
      (opened : openLibrary candidates mode atExit s = (.ok i, t))
      (tried : tryOpenLibrary candidates mode atExit s = (some i, t))
      (registry_eq : t.registry = s'.registry)
      (hooks : t = if atExit then (closeAtExit i s').2 else s')

theorem outcome_openLibrary (s : Session κ) (candidates : List String) (mode : LinkMode)
    (atExit : Bool) : Outcome s candidates mode atExit := by
  have htry := tryOpenLibrary_eq candidates mode atExit s
  have hopens := opens_openFirst s mode candidates
  rcases hopened : openFirst mode candidates s with ⟨opened, s'⟩
  rw [hopened] at hopens
  cases hopens with
  | refused refused =>
    have heq := openLibrary_of_error hopened atExit
    rw [heq] at htry
    exact .fails refused heq htry
  | accepted front split refused accepts =>
    have heq := openLibrary_of_ok hopened atExit
    rw [heq] at htry
    refine .succeeds front split refused accepts heq htry ?_ rfl
    cases atExit with
    | true => exact registry_closeAtExit _ s'
    | false => rfl

end NativeBridge.Session
