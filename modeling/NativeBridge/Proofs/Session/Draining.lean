import NativeBridge.Proofs.Session.Moments

/-! # A run of the hooks, step by step

What `runHooks` does is a course of steps, from a call to its return, in which hooks with steps of
their own are at work one by one and calls that they make return before they end. The weight of what
is pending bounds the hooks that can still start: it never grows by more than the step that is done
weighs. So the bound under which `runHooks` goes on is never met before the queue is empty.
-/
namespace NativeBridge

namespace Session

variable {κ : Type} {s : Session κ} {limit : Nat}

theorem weightOf_append (xs ys : List (HookId × ExitAction)) :
    weightOf (xs ++ ys) = weightOf xs + weightOf ys := by
  induction xs with
  | nil => rw [List.nil_append, weightOf, Nat.zero_add]
  | cons x xs ih => rw [List.cons_append, weightOf, weightOf, ih, Nat.add_assoc]

theorem weightOf_le_of_sublist {xs ys : List (HookId × ExitAction)} (h : xs.Sublist ys) :
    weightOf xs ≤ weightOf ys := by
  induction h with
  | slnil => exact Nat.le_refl _
  | cons y h ih => exact Nat.le_trans ih (Nat.le_add_left _ _)
  | cons_cons y h ih => exact Nat.add_le_add_left ih _

theorem weight_pos (action : ExitAction) : 0 < action.weight := by
  cases action with
  | releaseStack => exact Nat.one_pos
  | closeLibrary i => exact Nat.one_pos
  | script steps => exact Nat.succ_pos _

theorem weightOf_unregister_le (q : HookQueue ExitAction) (id : HookId) :
    weightOf (q.unregister id).2.pending ≤ weightOf q.pending := by
  rw [HookQueue.unregister_eq]
  split
  · exact weightOf_le_of_sublist List.eraseP_sublist
  · exact Nat.le_refl _

theorem weightOf_unregisterNumber_le (n : Nat) (s : Session κ) :
    weightOf (unregisterNumber n s).2.hooks.pending ≤ weightOf s.hooks.pending := by
  rcases unregisterNumber_cases n s with h | ⟨id, _, h⟩
  · exact Nat.le_of_eq (congrArg (fun s => weightOf s.hooks.pending) h)
  · rw [h]
    exact weightOf_unregister_le s.hooks id

theorem weightOf_closeLibrary_le (i : Nat) (s : Session κ) :
    weightOf (closeLibrary i s).2.hooks.pending ≤ weightOf s.hooks.pending := by
  rcases closeLibrary_cases i s with ⟨h, _⟩ | ⟨l, _, _, h⟩
  · exact Nat.le_of_eq (congrArg (fun s => weightOf s.hooks.pending) h)
  · rw [h, closed]
    cases l.exitHook with
    | none => exact Nat.le_refl _
    | some id => exact weightOf_unregister_le s.hooks id

/-- A hook without steps of its own brings about no others. -/
theorem weightOf_perform_le {action : ExitAction} (own : ∀ steps, action ≠ .script steps)
    (run : SessionM κ Nat) (s : Session κ) :
    weightOf (perform run action s).2.hooks.pending ≤ weightOf s.hooks.pending := by
  cases action with
  | releaseStack => exact Nat.le_refl _
  | closeLibrary i => exact weightOf_closeLibrary_le i s
  | script steps => exact absurd rfl (own steps)

theorem runWithin_of_none (h : s.hooks.start? = none) (limit : Nat) :
    runWithin limit s = (0, s) := by
  cases limit with
  | zero => rfl
  | succ limit =>
    rw [runWithin, bind_of_eq (startFirst_of_none h)]
    rfl

theorem runWithin_of_some {action : ExitAction} {queue : HookQueue ExitAction}
    (h : s.hooks.start? = some (action, queue)) (limit : Nat) : runWithin (limit + 1) s =
      let s' := (perform (runWithin limit) action { s with hooks := queue }).2
      ((runWithin limit s').1 + 1, (runWithin limit s').2) := by
  rw [runWithin, bind_of_eq (startFirst_of_some h)]
  rfl

end Session

namespace Moment

open Session

variable {κ : Type} {m : Moment κ} {limit : Nat} {run : SessionM κ Nat}

/-- A call of `run` that is made now comes to its return, and then nothing is pending. -/
def Completes (m : Moment κ) (run : SessionM κ Nat) : Prop :=
  ∃ hooks nested, Relation.ReflTransGen Step m { m with
      session := (run m.session).2
      returned := ⟨(run m.session).1, hooks⟩ :: (nested ++ m.returned) } ∧
    (run m.session).2.hooks.pending = []

/-- A call that is about to start its next hook comes to its return, the rest of it being `run`. -/
def Finishes (m : Moment κ) (c : Call) (rest : List Call) (run : SessionM κ Nat) : Prop :=
  ∃ hooks nested, Relation.ReflTransGen Step m
      ⟨(run m.session).2, rest, true, ⟨c.ran + (run m.session).1, hooks⟩ :: (nested ++ m.returned),
        m.requested⟩ ∧
    (run m.session).2.hooks.pending = []

theorem completes_of_finishes (hw : m.working = true)
    (h : Finishes { m with calls := ⟨0, []⟩ :: m.calls, working := false } ⟨0, []⟩ m.calls run) :
    m.Completes run := by
  obtain ⟨hooks, nested, hsteps, hnone⟩ := h
  refine ⟨hooks, nested, ?_, hnone⟩
  rw [Nat.zero_add] at hsteps
  have hcalled : Step m { m with calls := ⟨0, []⟩ :: m.calls, working := false } := .call hw
  obtain ⟨session, calls, working, returned, requested⟩ := m
  cases hw
  exact hsteps.head hcalled

/-- What the steps of a hook lead to. -/
structure Leads (m : Moment κ) (s : Session κ) (weight : Nat) : Prop where
  steps : ∃ nested, Relation.ReflTransGen Step m
    { m with session := s, returned := nested ++ m.returned }
  weight_le : weightOf s.hooks.pending ≤ weight

theorem leads_performStep (hrun : weightOf m.hooks.pending ≤ limit → m.Completes run)
    (hw : m.working = true) (hl : weightOf m.hooks.pending ≤ limit) (step : HookStep) :
    m.Leads (performStep run step m.session).2 (weightOf m.hooks.pending + step.weight) := by
  cases step with
  | note text =>
    exact ⟨⟨[], .single (.does hw (.log (.text text)))⟩, Nat.le_refl _⟩
  | register steps =>
    refine ⟨⟨[], .single (.does hw (.register steps))⟩, ?_⟩
    exact Nat.le_of_eq (weightOf_append _ _)
  | unregister n =>
    have hdone : Step m (m.does (.unregister n)) := .does hw _
    have hnoted : Step (m.does (.unregister n)) _ :=
      .does (by exact hw) (.log (.flag (unregisterNumber n m.session).1))
    refine ⟨⟨[], (Relation.ReflTransGen.single hdone).tail hnoted⟩, ?_⟩
    exact weightOf_unregisterNumber_le n m.session
  | countPending =>
    exact ⟨⟨[], .single (.does hw (.log (.count m.hooks.size)))⟩, Nat.le_refl _⟩
  | runPending =>
    obtain ⟨hooks, nested, hsteps, hnone⟩ := hrun hl
    have hnoted : Step { m with
        session := (run m.session).2
        returned := ⟨(run m.session).1, hooks⟩ :: (nested ++ m.returned) } _ :=
      .does (by exact hw) (.log (.count (run m.session).1))
    have hpending : (performStep run .runPending m.session).2.hooks.pending = [] := hnone
    refine ⟨⟨⟨_, hooks⟩ :: nested, hsteps.tail hnoted⟩, ?_⟩
    rw [hpending]
    exact Nat.zero_le _
  | panic => exact ⟨⟨[], .refl⟩, Nat.le_refl _⟩

/-- A hook with steps of its own comes to its end, and leaves no more pending than the weight of its
steps allows. -/
theorem leads_performSteps
    (hrun : ∀ m : Moment κ, m.working = true → weightOf m.hooks.pending ≤ limit → m.Completes run)
    (hw : m.working = true) (steps : List HookStep)
    (hl : weightOf m.hooks.pending + HookStep.weights steps ≤ limit) :
    m.Leads (performSteps run steps m.session).2 limit := by
  induction steps generalizing m with
  | nil => exact ⟨⟨[], .refl⟩, hl⟩
  | cons step rest ih =>
    by_cases hpanic : step = .panic
    · rw [hpanic]
      exact ⟨⟨[], .refl⟩, Nat.le_trans (Nat.le_add_right _ _) hl⟩
    · have hget : performSteps run (step :: rest) m.session =
          performSteps run rest (performStep run step m.session).2 := by
        cases step with
        | panic => exact absurd rfl hpanic
        | _ => rfl
      rw [HookStep.weights, ← Nat.add_assoc] at hl
      have hroom := Nat.le_trans (Nat.le_trans (Nat.le_add_right _ _) (Nat.le_add_right _ _)) hl
      obtain ⟨⟨nested, hfirst⟩, hweight⟩ := leads_performStep (hrun m hw) hw hroom step
      obtain ⟨⟨later, hrest⟩, hle⟩ :=
        ih (m := { m with
          session := (performStep run step m.session).2
          returned := nested ++ m.returned }) hw (Nat.le_trans (Nat.add_le_add_right hweight _) hl)
      rw [hget]
      refine ⟨⟨later ++ nested, ?_⟩, hle⟩
      rw [List.append_assoc]
      exact hfirst.trans hrest

theorem finishes_of_none {c : Call} {rest : List Call} (hd : m.working = false)
    (hc : m.calls = c :: rest) (hstart : m.hooks.start? = none) (limit : Nat) :
    m.Finishes c rest (runWithin limit) := by
  have hrun : runWithin limit m.session = (0, m.session) := runWithin_of_none hstart limit
  refine ⟨c.hooks, [], ?_, ?_⟩
  · rw [hrun]
    exact .single (.returns hd hc hstart)
  · rw [hrun]
    exact HookQueue.start?_eq_none_iff.1 hstart

/-- One hook comes to its end, and the call goes on. -/
theorem finishes_of_some {c : Call} {rest : List Call} {hooks : List HookId}
    {action : ExitAction} {queue : HookQueue ExitAction} {s : Session κ} (nested : List Call)
    (hstart : m.hooks.start? = some (action, queue))
    (hs : s = (perform (runWithin limit) action { m.session with hooks := queue }).2)
    (hsteps : Relation.ReflTransGen Step m
      ⟨s, ⟨c.ran + 1, hooks⟩ :: rest, false, nested ++ m.returned, m.requested⟩)
    (hrest : Finishes ⟨s, ⟨c.ran + 1, hooks⟩ :: rest, false, nested ++ m.returned, m.requested⟩
      ⟨c.ran + 1, hooks⟩ rest (runWithin limit)) : m.Finishes c rest (runWithin (limit + 1)) := by
  have hrun : runWithin (limit + 1) m.session =
      ((runWithin limit s).1 + 1, (runWithin limit s).2) := by
    rw [hs]
    exact runWithin_of_some hstart limit
  obtain ⟨all, later, hlater, hnone⟩ := hrest
  refine ⟨all, later ++ nested, ?_, ?_⟩
  · rw [hrun, List.append_assoc, Nat.add_comm (runWithin limit s).1, ← Nat.add_assoc]
    exact hsteps.trans hlater
  · rw [hrun]
    exact hnone

/-- By induction on the bound: each hook that is started weighs at least one, and what it leaves behind
is within what remains. -/
theorem finishes_runWithin (limit : Nat) : ∀ (m : Moment κ) (c : Call) (rest : List Call),
    m.working = false → m.calls = c :: rest → weightOf m.hooks.pending ≤ limit →
    m.Finishes c rest (runWithin limit) := by
  induction limit with
  | zero =>
    intro m c rest hd hc hl
    apply finishes_of_none hd hc
    rw [HookQueue.start?_eq_none_iff]
    cases hpending : m.hooks.pending with
    | nil => rfl
    | cons entry later =>
      rw [hpending, weightOf] at hl
      exact absurd hl (Nat.not_le_of_gt (Nat.add_pos_left (weight_pos _) _))
  | succ limit ih =>
    intro m c rest hd hc hl
    cases hstart : m.hooks.start? with
    | none => exact finishes_of_none hd hc hstart _
    | some started =>
      obtain ⟨action, queue⟩ := started
      obtain ⟨id, later, hpending, hqueue⟩ := HookQueue.start?_eq_some_iff.1 hstart
      have hnext : m.hooks.waiting.head? = some id := by
        rw [HookQueue.waiting, hpending]
        rfl
      have hlater : queue.pending = later := congrArg HookQueue.pending hqueue
      rw [hpending, weightOf, ← hlater] at hl
      by_cases own : ∀ steps, action ≠ .script steps
      · have hserved := Step.serve (runWithin limit) hd hc hnext hstart own
        have hleft := weightOf_perform_le own (runWithin limit) { m.session with hooks := queue }
        have hpos := weight_pos action
        refine finishes_of_some [] hstart rfl (.single hserved) (ih _ _ _ rfl rfl ?_)
        change _ ≤ weightOf queue.pending at hleft
        exact Nat.le_trans hleft (by omega)
      · obtain ⟨steps, hsteps⟩ := not_forall_not.1 own
        rw [hsteps] at hstart hl
        have hbegun := Step.start hd hc hnext hstart
        rw [ExitAction.weight] at hl
        obtain ⟨⟨nested, hsteps⟩, hle⟩ := leads_performSteps
          (fun m hw hl => completes_of_finishes hw (ih _ _ _ rfl rfl hl)) (m := { m with
            session := { m.session with hooks := queue }
            calls := { c with hooks := c.hooks ++ [id] } :: rest
            working := true }) rfl steps (by change weightOf queue.pending + _ ≤ _; omega)
        have hended := (hsteps.head hbegun).tail (.ends (c := ⟨c.ran, c.hooks ++ [id]⟩) rfl rfl)
        exact finishes_of_some nested hstart rfl hended (ih _ _ _ rfl rfl hle)

/-- The hooks that are pending and all that come of them are run, and counted by the call or by calls
that their steps make. -/
theorem completes_runHooks (hw : m.working = true) : m.Completes runHooks :=
  completes_of_finishes hw (finishes_runWithin _ _ _ _ rfl rfl (Nat.le_refl _))

end Moment

end NativeBridge
