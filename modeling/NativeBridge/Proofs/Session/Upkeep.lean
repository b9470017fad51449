import NativeBridge.Proofs.Session.Coherence
import NativeBridge.Proofs.Session.Hooks

/-! # The libraries through a run

Each operation of a session, each hook and so each step of a run keeps the registry, the libraries and
the hooks coherent. That the identifiers of hooks are accounted for tells the hook of one library from
those of the others.
-/
namespace NativeBridge

variable {κ : Type}

namespace Session

variable {s : Session κ} {requested : List Nat} {name : String} {i : Nat} {l : SharedLibrary κ}
  {id : HookId}

theorem Coherent.closed (h : s.Coherent requested) (ha : s.hooks.Accounted)
    (hl : s.library? i = some l) : (s.closed i l).Coherent requested := by
  unfold Session.closed
  cases hown : l.exitHook with
  | none =>
    refine h.closing hl rfl fun id j => (and_iff_left_of_imp ?_).symm
    rintro hj rfl
    have hnone := (h.closes_iff_exitHook hl).1 hj
    rw [hown] at hnone
    cases hnone
  | some own =>
    refine h.closing hl (HookQueue.upcoming_unregister _ own) fun id j => ?_
    rw [ha.mem_pending_unregister]
    exact and_congr_right fun hj => h.ne_iff_of_closes ha hl hown hj

theorem Coherent.closeLibrary (h : s.Coherent requested) (ha : s.hooks.Accounted) (i : Nat) :
    (closeLibrary i s).2.Coherent requested := by
  rcases closeLibrary_cases i s with ⟨heq, _⟩ | ⟨l, hl, _, heq⟩
  · rw [heq]
    exact h
  · rw [heq]
    exact h.closed ha hl

/-- A hook that closes no library is started. -/
theorem Coherent.started {action : ExitAction} {queue : HookQueue ExitAction} (arena : Option Arena)
    (h : s.Coherent requested) (hstart : s.hooks.start? = some (action, queue))
    (hne : ∀ i, action ≠ .closeLibrary i) :
    Coherent { s with hooks := queue, arena } requested := by
  obtain ⟨own, rest, hpending, rfl⟩ := HookQueue.start?_eq_some_iff.1 hstart
  refine h.rehooked (fun id i => ?_) h.numbered
  rw [Closes, hpending, List.mem_cons]
  exact (or_iff_right fun heq => hne i (congrArg Prod.snd heq).symm).symm

/-- A library is closed by its hook, which is no longer in the queue. -/
theorem Coherent.served {queue : HookQueue ExitAction} (h : s.Coherent requested)
    (ha : s.hooks.Accounted) (hstart : s.hooks.start? = some (.closeLibrary i, queue)) :
    (Session.closeLibrary i { s with hooks := queue }).2.Coherent requested := by
  obtain ⟨own, rest, hpending, hqueue⟩ := HookQueue.start?_eq_some_iff.1 hstart
  have hi : s.Closes own i := by
    rw [Closes, hpending]
    exact List.mem_cons_self
  obtain ⟨l, hl, hown⟩ := (h.closes_iff own i).1 hi
  have hopen : l.isOpen = true := by
    refine ((h.hooked_iff i l hl).1 ?_).1
    rw [hown]
    exact Option.some_ne_none own
  rcases closeLibrary_cases i { s with hooks := queue } with ⟨_, hclosed⟩ | ⟨l', hl', _, heq⟩
  · have hfalse := hclosed l hl
    rw [hopen] at hfalse
    cases hfalse
  · have hsame : l' = l := Option.some.inj (hl'.symm.trans hl)
    rw [heq, hsame, Session.closed, hown]
    refine h.closing hl ?_ fun id j => ?_
    · rw [hqueue]
      exact HookQueue.upcoming_unregister _ own
    · rw [(ha.start hstart).mem_pending_unregister, ← and_congr_right
        fun hj => h.ne_iff_of_closes ha hl hown hj, Closes, hpending, hqueue, List.mem_cons]
      refine and_congr_left fun hne => (or_iff_right ?_).symm
      exact fun heq => hne (congrArg Prod.fst heq)

/-! ## Opening -/

theorem Accepts.coherent {mode : LinkMode} {s' : Session κ} (ha : Accepts s mode name i s')
    (h : s.Coherent requested) : s'.Coherent requested ∧ s'.Open name i := by
  cases ha with
  | known known => exact ⟨h, h.registered?_iff.1 known⟩
  | loads unknown clean loads =>
    exact ⟨h.loaded unknown clean loads, _, (library?_loaded s).2 (.inr ⟨rfl, rfl⟩), rfl, rfl⟩

theorem Coherent.closeAtExit (h : s.Coherent requested) (hl : s.library? i = some l) :
    (closeAtExit i s).2.Coherent (i :: requested) := by
  rcases closeAtExit_cases i s with ⟨heq, hhook⟩ | ⟨l', hl', hopen, hnone, heq⟩
  · rw [heq]
    exact h.request hl (hhook l hl)
  · rw [heq]
    exact h.hooked hl' hopen hnone

/-- Where there is no library there is nothing to be closed at exit. -/
theorem Coherent.closeAtExit_none (h : s.Coherent requested) (hl : s.library? i = none) :
    (Session.closeAtExit i s).2.Coherent requested := by
  rcases closeAtExit_cases i s with ⟨heq, _⟩ | ⟨l, hl', _⟩
  · rw [heq]
    exact h
  · rw [hl] at hl'
    cases hl'

theorem Coherent.openLibrary (h : s.Coherent requested) (candidates : List String)
    (mode : LinkMode) (atExit : Bool) : Coherent (openLibrary candidates mode atExit s).2
      ((if atExit then (openLibrary candidates mode atExit s).1.toOption else none).toList ++
        requested) := by
  have hopens := opens_openFirst s mode candidates
  rcases hopened : openFirst mode candidates s with ⟨opened, s'⟩
  rw [hopened] at hopens
  cases hopens with
  | refused refused =>
    rw [openLibrary_of_error hopened]
    cases atExit with
    | true => exact h
    | false => exact h
  | accepted front split refused accepts =>
    obtain ⟨hcoherent, l, hl, _⟩ := accepts.coherent h
    rw [openLibrary_of_ok hopened]
    cases atExit with
    | true => exact hcoherent.closeAtExit hl
    | false => exact hcoherent

theorem closes_register {action : ExitAction} (hne : ∀ i, action ≠ .closeLibrary i) :
    (id, ExitAction.closeLibrary i) ∈ (s.hooks.register action).2.pending ↔ s.Closes id i := by
  change (id, ExitAction.closeLibrary i) ∈ s.hooks.pending ++ [_] ↔ _
  rw [List.mem_append, List.mem_singleton]
  exact or_iff_left fun heq => hne i (congrArg Prod.snd heq).symm

theorem Coherent.registerSteps (h : s.Coherent requested) (ha : s.hooks.Accounted)
    (steps : List HookStep) : (registerSteps steps s).2.Coherent requested := by
  refine h.rehooked (fun _ _ => closes_register fun _ => nofun) ?_
  intro id hid
  rcases List.mem_append.1 hid with hid | hid
  · obtain ⟨hlt, hno⟩ := h.numbered id hid
    exact ⟨Nat.lt_succ_of_lt hlt, hno⟩
  · rw [List.mem_singleton.1 hid]
    refine ⟨Nat.lt_succ_self _, ?_⟩
    intro i hi
    exact Nat.lt_irrefl _ (ha.lt_of_mem_waiting (HookQueue.mem_waiting_of_mem_pending hi))

/-- A hook that was given a number closes no library. -/
theorem Coherent.unregisterNumber (h : s.Coherent requested) (ha : s.hooks.Accounted) (n : Nat) :
    (unregisterNumber n s).2.Coherent requested := by
  rcases unregisterNumber_cases n s with heq | ⟨own, hown, heq⟩
  · rw [heq]
    exact h
  · rw [heq]
    refine h.rehooked ?_ ?_
    · intro id i
      rw [ha.mem_pending_unregister]
      refine and_iff_left_of_imp ?_
      rintro hi rfl
      exact (h.numbered id hown).2 i hi
    · intro id hid
      rw [HookQueue.upcoming_unregister]
      exact h.numbered id hid

theorem Coherent.onThreadArena {α : Type} (h : s.Coherent requested) (op : Arena.ArenaM α) :
    (onThreadArena op s).2.Coherent requested := by
  obtain ⟨a, heq | heq⟩ := onThreadArena_cases op s
  · rw [heq]
    exact h.rehooked (fun _ _ => Iff.rfl) h.numbered
  · rw [heq]
    refine h.rehooked (fun _ _ => closes_register fun _ => nofun) ?_
    intro id hid
    obtain ⟨hlt, hno⟩ := h.numbered id hid
    exact ⟨Nat.lt_succ_of_lt hlt, hno⟩

theorem Coherent.perform (h : s.Coherent requested) (ha : s.hooks.Accounted) (d : Deed) :
    (d.perform s).2.Coherent ((d.perform s).1.toList ++ requested) := by
  cases d with
  | log entry => exact h.rehooked (fun _ _ => Iff.rfl) h.numbered
  | register steps => exact h.registerSteps ha steps
  | unregister n => exact h.unregisterNumber ha n
  | useStack op => exact h.onThreadArena op
  | openLibrary candidates mode atExit => exact h.openLibrary candidates mode atExit
  | closeAtExit i =>
    have hget : (Deed.closeAtExit i).perform s =
        ((s.library? i).map fun _ => i, (Session.closeAtExit i s).2) := rfl
    rw [hget]
    cases hl : s.library? i with
    | none => exact h.closeAtExit_none hl
    | some l => exact h.closeAtExit hl
  | closeLibrary i => exact h.closeLibrary ha i

end Session

namespace Moment

open Session

variable {m m' : Moment κ}

theorem coherent_of_step (h : m.session.Coherent m.requested) (ha : m.hooks.Accounted)
    (hs : Step m m') : m'.session.Coherent m'.requested := by
  cases hs with
  | does working d => exact h.perform ha d
  | call working => exact h
  | start draining innermost next run => exact h.started _ run fun _ => nofun
  | ends working innermost => exact h
  | @serve c rest id action queue nested draining innermost next run own =>
    cases action with
    | releaseStack => exact h.started _ run fun _ => nofun
    | closeLibrary i => exact h.served ha run
    | script steps => exact absurd rfl (own steps)
  | returns draining innermost run => exact h

theorem coherent_of_reached {config : Config} {loader : Loader κ} (hl : loader.Steady)
    (h : Reached config loader m) : m.session.Coherent m.requested := by
  induction h with
  | refl => exact coherent_start config hl
  | tail hm hs ih => exact coherent_of_step ih (Balanced.reached hm).accounted hs

end Moment

end NativeBridge
