import Mathlib.Algebra.Order.Ring.Nat
import NativeBridge.Proofs.Session.Draining

/-! # Every hook once and in turn

Whatever the program and its hooks do, the hooks that calls of `runHooks` started are those that the
queue has started, each call has counted its own, and a hook that is at work is the only one of its call
that is not counted yet. The rest is the account of the queue, which every step keeps.
-/
namespace NativeBridge

variable {κ : Type} {m m' : Moment κ}

theorem Deed.edit (d : Deed) (s : Session κ) :
    HookQueue.Edit s.hooks (d.perform s).2.hooks := by
  cases d with
  | log entry => exact .none
  | register steps => exact .register _
  | unregister n => exact Session.edit_unregisterNumber n s
  | useStack op => exact Session.edit_onThreadArena op s
  | openLibrary candidates mode atExit =>
    exact Session.edit_openLibrary candidates mode atExit s
  | closeAtExit i => exact Session.edit_closeAtExit i s
  | closeLibrary i => exact Session.edit_closeLibrary i s

namespace Moment

theorem edit_does (m : Moment κ) (d : Deed) : HookQueue.Edit m.hooks (m.does d).hooks :=
  d.edit m.session

/-- What a hook without steps of its own does to the queue. -/
theorem edit_perform {action : ExitAction} (own : ∀ steps, action ≠ .script steps)
    (nested : SessionM κ Nat) (s : Session κ) :
    HookQueue.Edit s.hooks (Session.perform nested action s).2.hooks := by
  cases action with
  | releaseStack => exact .none
  | closeLibrary i => exact Session.edit_closeLibrary i s
  | script steps => exact absurd rfl (own steps)

/-- The hooks that calls have started, those of the calls that have returned first. -/
def begun (m : Moment κ) : List HookId := (m.returned ++ m.calls).flatMap Call.hooks

/-- The queue is accounted for, and so are the counts of all calls. -/
structure Balanced (m : Moment κ) : Prop where
  accounted : m.hooks.Accounted
  begun_perm : m.begun.Perm m.hooks.started
  returned_eq : ∀ c ∈ m.returned, c.ran = c.hooks.length
  working_eq : m.working = true → ∀ c ∈ m.calls, c.ran + 1 = c.hooks.length
  draining_eq : m.working = false → ∀ c rest, m.calls = c :: rest →
    c.ran = c.hooks.length ∧ ∀ d ∈ rest, d.ran + 1 = d.hooks.length

theorem balanced_start (config : Config) (loader : Loader κ) : Balanced (start config loader) where
  accounted := HookQueue.accounted_empty
  begun_perm := .nil
  returned_eq := fun _ h => nomatch h
  working_eq := fun _ _ h => nomatch h
  draining_eq := fun h => nomatch h

theorem begun_eq {c : Call} {rest : List Call} (h : m.calls = c :: rest) :
    m.begun = m.returned.flatMap Call.hooks ++ (c.hooks ++ rest.flatMap Call.hooks) := by
  rw [begun, h, List.flatMap_append, List.flatMap_cons]

/-- One more hook has been started by the innermost call. -/
theorem Balanced.begun_perm_started {c c' : Call} {rest : List Call} {id : HookId}
    {action : ExitAction} {queue : HookQueue ExitAction} (h : m.Balanced)
    (innermost : m.calls = c :: rest) (next : m.hooks.waiting.head? = some id)
    (run : m.hooks.start? = some (action, queue)) (hc : c'.hooks = c.hooks ++ [id]) :
    ((m.returned ++ c' :: rest).flatMap Call.hooks).Perm queue.started := by
  obtain ⟨id', hwaiting, hstarted, _⟩ := HookQueue.account_of_start? run
  rw [hwaiting, List.head?_cons] at next
  have hperm := h.begun_perm
  rw [begun_eq innermost] at hperm
  rw [hstarted, Option.some.inj next, List.flatMap_append, List.flatMap_cons, hc]
  refine List.Perm.trans ?_ (hperm.append_right [id])
  rw [List.append_assoc, List.append_assoc, List.append_assoc]
  exact (List.perm_append_comm.append_left c.hooks).append_left _

theorem Balanced.step (h : m.Balanced) (hs : Step m m') : m'.Balanced := by
  cases hs with
  | does working d =>
    have hedit := m.edit_does d
    refine ⟨h.accounted.edit hedit, ?_, h.returned_eq, h.working_eq, h.draining_eq⟩
    rw [hedit.started_eq]
    exact h.begun_perm
  | call working =>
    refine ⟨h.accounted, ?_, h.returned_eq, fun h => (nomatch h), ?_⟩
    · have hbegun := h.begun_perm
      rwa [begun, List.flatMap_append] at hbegun ⊢
    · intro _ c rest hc
      obtain ⟨rfl, rfl⟩ := List.cons.inj hc
      exact ⟨rfl, h.working_eq working⟩
  | start draining innermost next run =>
    obtain ⟨hidle, hbusy⟩ := h.draining_eq draining _ _ innermost
    refine ⟨h.accounted.start run, h.begun_perm_started innermost next run rfl, h.returned_eq, ?_,
      fun h => (nomatch h)⟩
    intro _ d hd
    rcases List.mem_cons.1 hd with rfl | hd
    · rw [hidle, List.length_append, List.length_singleton]
    · exact hbusy d hd
  | ends working innermost =>
    have hbusy := h.working_eq working
    have hperm := h.begun_perm
    rw [innermost] at hbusy
    refine ⟨h.accounted, ?_, h.returned_eq, fun h => (nomatch h), ?_⟩
    · rw [begun_eq innermost] at hperm
      rwa [begun_eq rfl]
    · intro _ d rest hd
      obtain ⟨rfl, rfl⟩ := List.cons.inj hd
      rw [List.forall_mem_cons] at hbusy
      exact hbusy
  | @serve c rest id action queue nested draining innermost next run own =>
    obtain ⟨hidle, hbusy⟩ := h.draining_eq draining _ _ innermost
    have hedit := edit_perform own nested { m.session with hooks := queue }
    refine ⟨(h.accounted.start run).edit hedit, ?_, h.returned_eq, fun h => (nomatch h), ?_⟩
    · rw [hooks, hedit.started_eq]
      exact h.begun_perm_started innermost next run rfl
    · intro _ d rest hd
      obtain ⟨rfl, rfl⟩ := List.cons.inj hd
      refine ⟨?_, hbusy⟩
      rw [hidle, List.length_append, List.length_singleton]
  | returns draining innermost run =>
    obtain ⟨hidle, hbusy⟩ := h.draining_eq draining _ _ innermost
    have hperm := h.begun_perm
    refine ⟨h.accounted, ?_, ?_, fun _ => hbusy, fun h => (nomatch h)⟩
    · rw [begun, innermost] at hperm
      exact (List.perm_middle.symm.flatMap_right Call.hooks).trans hperm
    · exact List.forall_mem_cons.2 ⟨hidle, h.returned_eq⟩

theorem Balanced.reached {config : Config} {loader : Loader κ} (h : Reached config loader m) :
    m.Balanced := by
  induction h with
  | refl => exact balanced_start config loader
  | tail _ hs ih => exact ih.step hs

/-- Hooks run at most once and in turn, and the calls of `runHooks` count them. -/
structure Accountable (m : Moment κ) : Prop where
  /-- A hook that was registered was started, was removed or waits, but one of these and once. -/
  once : m.hooks.registered.Nodup ∧
    (m.hooks.started ++ m.hooks.removed ++ m.hooks.waiting).Perm m.hooks.registered
  in_order : (m.hooks.started ++ m.hooks.waiting).Sublist m.hooks.registered
  /-- To remove a hook succeeds where it waits, and only then one is removed. -/
  removes : ∀ id, ((Session.removeHook id m.session).1 = true ↔ id ∈ m.hooks.waiting) ∧
    (Session.removeHook id m.session).2.hooks.removed =
      m.hooks.removed ++ if (Session.removeHook id m.session).1 then [id] else []
  /-- A call that returns leaves nothing to be started. -/
  settled : ∀ m', Step m m' → m'.returned ≠ m.returned → m'.hooks.waiting = []
  /-- Every hook that was started was started by one call. -/
  begun_perm : m.begun.Perm m.hooks.started
  counted : (∀ c ∈ m.returned, c.ran = c.hooks.length) ∧
    (m.returned.map Call.ran).sum = (m.returned.flatMap Call.hooks).length
  /-- A call that is made now returns. -/
  completes : m.working = true → m.Completes Session.runHooks

theorem removeHook_spec (id : HookId) (s : Session κ) :
    ((Session.removeHook id s).1 = true ↔ id ∈ s.hooks.waiting) ∧
      (Session.removeHook id s).2.hooks.removed =
        s.hooks.removed ++ if (Session.removeHook id s).1 then [id] else [] := by
  have hget : Session.removeHook id s =
      ((s.hooks.unregister id).1, { s with hooks := (s.hooks.unregister id).2 }) := rfl
  rw [hget, HookQueue.unregister_eq]
  by_cases hid : id ∈ s.hooks.waiting
  · rw [if_pos hid]
    exact ⟨iff_of_true rfl hid, HookQueue.removed_without s.hooks id⟩
  · rw [if_neg hid]
    exact ⟨iff_of_false Bool.false_ne_true hid, (List.append_nil _).symm⟩

theorem waiting_of_returns (hs : Step m m') (hne : m'.returned ≠ m.returned) :
    m'.hooks.waiting = [] := by
  cases hs with
  | returns draining innermost run =>
    have hpending : m.hooks.pending = [] := HookQueue.start?_eq_none_iff.1 run
    exact congrArg (List.map Prod.fst) hpending
  | _ => exact absurd rfl hne

/-- Hooks may register and remove others, run those that are pending and panic: in every run all hooks
are started once and in turn, or removed, and counted. -/
theorem accountable_of_reached {config : Config} {loader : Loader κ}
    (h : Reached config loader m) : Accountable m where
  once := ⟨(Balanced.reached h).accounted.nodup, (Balanced.reached h).accounted.once⟩
  in_order := (Balanced.reached h).accounted.in_order
  removes id := removeHook_spec id m.session
  settled _ hs hne := waiting_of_returns hs hne
  begun_perm := (Balanced.reached h).begun_perm
  counted := by
    have hreturned := (Balanced.reached h).returned_eq
    refine ⟨hreturned, ?_⟩
    rw [List.length_flatMap, List.map_congr_left hreturned]
  completes := completes_runHooks

/-- Once all calls have returned, their counts add up to the number of all hooks that were started. -/
theorem Accountable.sum_eq (h : Accountable m) (hc : m.calls = []) :
    (m.returned.map Call.ran).sum = m.hooks.started.length := by
  have hbegun := h.begun_perm.length_eq
  rw [begun, hc, List.append_nil] at hbegun
  rw [h.counted.2]
  exact hbegun

/-- The first hook removes the third, has another registered, runs all that are pending and panics. -/
def entangled : Moment Unit :=
  (((start default ⟨fun _ _ => .error ""⟩).does
    (.register [.unregister 2, .register [.note "d"], .runPending, .panic, .note "a"])).does
      (.register [.note "b"])).does (.register [.note "c"])

theorem accountable_of_reached_entangled :
    ∃ m : Moment Unit, Reached default ⟨fun _ _ => .error ""⟩ m ∧ m.calls = [] ∧
      m.session.hooks.started = [⟨0⟩, ⟨1⟩, ⟨3⟩] ∧ m.session.hooks.removed = [⟨2⟩] ∧
      m.session.hooks.waiting = [] ∧
      m.session.log = [.flag true, .text "b", .text "d", .count 2] ∧
      (m.returned.map Call.ran).sum = 3 := by
  have hm : Reached default ⟨fun _ _ => .error ""⟩ entangled :=
    ((Relation.ReflTransGen.single (.does rfl _)).tail (.does rfl _)).tail (.does rfl _)
  have hstarted : (Session.runHooks entangled.session).2.hooks.started = [⟨0⟩, ⟨1⟩, ⟨3⟩] := by
    decide +kernel
  have hremoved : (Session.runHooks entangled.session).2.hooks.removed = [⟨2⟩] := by
    decide +kernel
  have hlog : (Session.runHooks entangled.session).2.log =
      [.flag true, .text "b", .text "d", .count 2] := by
    decide +kernel
  obtain ⟨hooks, nested, hsteps, hnone⟩ := (accountable_of_reached hm).completes rfl
  generalize (Session.runHooks entangled.session).2 = s at *
  have hlast := accountable_of_reached (hm.trans hsteps)
  refine ⟨_, hm.trans hsteps, rfl, hstarted, hremoved, congrArg (List.map Prod.fst) hnone, hlog, ?_⟩
  rw [hlast.sum_eq rfl]
  exact congrArg List.length hstarted

end Moment

end NativeBridge
