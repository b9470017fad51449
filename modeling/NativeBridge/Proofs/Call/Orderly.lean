import NativeBridge.Proofs.Call.Guards

/-! # Frames are closed the last first

Whatever was dropped or left behind, the frame at the depth of a guard that is still held is the guard's
own, so that dropping it either takes the stack back to where it was before or changes nothing.
-/
namespace NativeBridge.Tower

open Arena

variable {n : Nat}

/-- What every step preserves. -/
structure Sound (t : Tower) : Prop where
  standing : Standing t.befores t.standing t.arena.stack.frames
  held_standing : ∀ n ∈ t.held, n ∈ t.standing
  held_guard : ∀ n ∈ t.held, ∃ guard before, t.openings[n]? = some ⟨some guard, before⟩
  fits : ∀ o ∈ t.openings, o.Fits t.arena.stack.limit

variable {t t' : Tower} {a : Arena} {guard : Guard} {before : Stack}

theorem befores_of_opening {o : Opening} (h : t.openings[n]? = some o) :
    t.befores[n]? = some o.before := by
  rw [befores, List.getElem?_map, h, Option.map_some]

theorem sound_ofExtent (base capacity : Nat) (memory : Memory) :
    Sound (ofExtent base capacity memory) where
  standing := .nothing
  held_standing _ hn := absurd hn List.not_mem_nil
  held_guard _ hn := absurd hn List.not_mem_nil
  fits _ ho := absurd ho List.not_mem_nil

theorem Sound.kept (h : Sound t) (hk : Stack.Kept t.arena.stack a.stack) :
    Sound { t with arena := a } where
  standing := hk.frames_eq ▸ h.standing
  held_standing := h.held_standing
  held_guard := h.held_guard
  fits o ho := hk.limit_eq ▸ h.fits o ho

theorem Sound.fits_of_holds (h : Sound t) (hg : t.Holds n guard before) :
    Opening.Fits t.arena.stack.limit ⟨some guard, before⟩ :=
  h.fits _ (List.mem_of_getElem? hg.opening)

/-- A guard finds the depth that it remembers just where its frame was the last to be opened of those
that stand. -/
theorem Sound.depth_eq_iff (h : Sound t) (hg : t.Holds n guard before) :
    t.arena.stack.depth = guard.frame.depth ↔ ∀ m ∈ t.standing, m ≤ n := by
  rw [(h.fits_of_holds hg).depth_eq guard rfl]
  exact h.standing.length_frames_eq_iff (h.held_standing n hg.held) (befores_of_opening hg.opening)

/-- Of the frames that stand the last one opened goes back to the stack as it was before. -/
theorem Sound.pop_eq (h : Sound t) (hn : n ∈ t.standing) (hb : t.befores[n]? = some before)
    (hl : ∀ m ∈ t.standing, m ≤ n) :
    Stack.pop t.arena.stack = .ok () (t.arena.stack.backTo before) := by
  obtain ⟨_, hframes, _⟩ := h.standing.of_last hn hb hl
  exact Stack.pop_eq_ok_iff.2 ⟨_, _, hframes, rfl⟩

theorem Sound.popped (h : Sound t) (hn : n ∈ t.standing) (hb : t.befores[n]? = some before)
    (hl : ∀ m ∈ t.standing, m ≤ n) {held : List Nat} (hsub : ∀ m ∈ held, m ∈ t.held ∧ m ≠ n) :
    Sound ⟨{ t.arena with stack := t.arena.stack.backTo before }, t.openings, t.standing.tail,
      held⟩ := by
  obtain ⟨hnumbers, _, hbelow⟩ := h.standing.of_last hn hb hl
  refine ⟨hbelow, ?_, fun m hm => h.held_guard m (hsub m hm).1, h.fits⟩
  intro m hm
  obtain ⟨hheld, hne⟩ := hsub m hm
  have hstands := h.held_standing m hheld
  rw [hnumbers] at hstands
  exact (List.mem_cons.1 hstands).resolve_left hne

/-- Dropped in order, a guard takes the stack back to where it was; dropped out of order, it ends in a
fault and changes nothing. -/
theorem Sound.drop_eq (h : Sound t) (hg : t.Holds n guard before) : guard.drop t.arena =
    if ∀ m ∈ t.standing, m ≤ n then .ok () { t.arena with stack := t.arena.stack.backTo before }
    else .error (.releasedOutOfOrder guard.frame.depth t.arena.stack.depth) t.arena := by
  rw [Guard.drop_eq, onStack, Stack.close_eq]
  by_cases hl : ∀ m ∈ t.standing, m ≤ n
  · rw [if_pos ((h.depth_eq_iff hg).2 hl), if_pos hl,
      h.pop_eq (h.held_standing n hg.held) (befores_of_opening hg.opening) hl]
  · rw [if_neg (mt (h.depth_eq_iff hg).1 hl), if_neg hl]

theorem Sound.dropQuietly_eq (h : Sound t) (hg : t.Holds n guard before) :
    guard.dropQuietly t.arena = .ok ()
      (if ∀ m ∈ t.standing, m ≤ n then { t.arena with stack := t.arena.stack.backTo before }
      else t.arena) := by
  rw [Guard.dropQuietly_eq, onStack, Stack.closeQuietly_eq]
  by_cases hl : ∀ m ∈ t.standing, m ≤ n
  · rw [if_pos ((h.depth_eq_iff hg).2 hl), if_pos hl,
      h.pop_eq (h.held_standing n hg.held) (befores_of_opening hg.opening) hl]
  · rw [if_neg (mt (h.depth_eq_iff hg).1 hl), if_neg hl]

theorem Sound.dropped_last (h : Sound t) (hg : t.Holds n guard before)
    (hl : ∀ m ∈ t.standing, m ≤ n) : Sound (t.dropped
      { t.arena with stack := t.arena.stack.backTo before } n t.standing.tail) := by
  refine h.popped (h.held_standing n hg.held) (befores_of_opening hg.opening) hl ?_
  intro m hm
  rw [List.mem_filter, decide_eq_true_eq] at hm
  exact hm

/-- The frame of a guard that was dropped out of order stands for good. -/
theorem Sound.dropped_leaked (h : Sound t) (n : Nat) : Sound (t.dropped t.arena n t.standing) where
  standing := h.standing
  held_standing m hm := h.held_standing m (List.mem_filter.1 hm).1
  held_guard m hm := h.held_guard m (List.mem_filter.1 hm).1
  fits := h.fits

/-- A frame is opened on top of those that stand. -/
theorem Sound.opened {o : Opening} {stack : Stack} {held : List Nat} (h : Sound t) (memory : Memory)
    (hbefore : o.before = t.arena.stack)
    (hframes : stack.frames = t.arena.stack.top :: t.arena.stack.frames)
    (hlimit : stack.limit = t.arena.stack.limit) (hfits : o.Fits t.arena.stack.limit)
    (hheld : ∀ n ∈ held, n ∈ t.held ∨ n = t.openings.length ∧ o.guard ≠ none) :
    Sound ⟨⟨stack, memory⟩, t.openings ++ [o], t.openings.length :: t.standing, held⟩ := by
  have hbefores : (t.openings ++ [o]).map Opening.before = t.befores ++ [t.arena.stack] := by
    rw [List.map_append, List.map_singleton, hbefore, befores]
  have hlength : t.befores.length = t.openings.length := List.length_map _
  refine ⟨?_, ?_, ?_, ?_⟩
  · dsimp only [befores]
    rw [hbefores, hframes, ← hlength]
    exact h.standing.opened rfl
  · intro n hn
    rcases hheld n hn with hn | ⟨rfl, _⟩
    · exact List.mem_cons_of_mem _ (h.held_standing n hn)
    · exact List.mem_cons_self
  · intro n hn
    rcases hheld n hn with hn | ⟨rfl, hguard⟩
    · obtain ⟨guard, before, ho⟩ := h.held_guard n hn
      have hlt := (List.getElem?_eq_some_iff.1 ho).1
      exact ⟨guard, before, (List.getElem?_append_left hlt).trans ho⟩
    · obtain ⟨guard, hguard⟩ := Option.ne_none_iff_exists'.1 hguard
      refine ⟨guard, o.before, ?_⟩
      rw [List.getElem?_concat_length, ← hguard]
  · intro o' ho
    dsimp only
    rw [hlimit]
    rcases List.mem_append.1 ho with ho | ho
    · exact h.fits o' ho
    · rw [List.mem_singleton.1 ho]
      exact hfits

/-- A frame is opened that a guard will close. -/
theorem Sound.guarded {stack : Stack} (h : Sound t) (memory : Memory)
    (hframes : stack.frames = t.arena.stack.top :: t.arena.stack.frames)
    (hlimit : stack.limit = t.arena.stack.limit)
    (hfits : Opening.Fits t.arena.stack.limit ⟨some guard, t.arena.stack⟩) :
    Sound (t.opened ⟨stack, memory⟩ guard) := by
  refine h.opened memory rfl hframes hlimit hfits ?_
  intro n hn
  rcases List.mem_cons.1 hn with rfl | hn
  · exact .inr ⟨rfl, Option.some_ne_none guard⟩
  · exact .inl hn

/-- A buffer that is written to is still the guard of its frame. -/
theorem Sound.written {b b' : ArgumentBuffer} (h : Sound t) (hg : t.Holds n (.buffer b) before)
    (hk : Stack.Kept t.arena.stack a.stack) (hscope : b'.scope = b.scope)
    (hbase : b'.base = b.base) :
    Sound { t with arena := a, openings := t.openings.set n ⟨some (.buffer b'), before⟩ } := by
  have hbefores : (t.openings.set n ⟨some (.buffer b'), before⟩).map Opening.before =
      t.befores := by
    obtain ⟨hlt, hsame⟩ := List.getElem?_eq_some_iff.1 (befores_of_opening hg.opening)
    rw [List.map_set, ← befores]
    exact hsame ▸ List.set_getElem_self hlt
  refine ⟨?_, h.held_standing, ?_, ?_⟩
  · dsimp only [befores]
    rw [hbefores, hk.frames_eq]
    exact h.standing
  · intro m hm
    by_cases hmn : m = n
    · refine ⟨.buffer b', before, ?_⟩
      rw [hmn]
      exact List.getElem?_set_self (List.getElem?_eq_some_iff.1 hg.opening).1
    · obtain ⟨guard, before', ho⟩ := h.held_guard m hm
      exact ⟨guard, before', (List.getElem?_set_ne (Ne.symm hmn)).trans ho⟩
  · intro o ho
    dsimp only
    rw [hk.limit_eq]
    rcases List.mem_or_eq_of_mem_set ho with ho | rfl
    · exact h.fits o ho
    · have hfits := h.fits_of_holds hg
      refine ⟨?_, ?_⟩
      · intro guard hguard
        rw [← Option.some.inj hguard]
        exact (congrArg Scope.depth hscope).trans (hfits.depth_eq (.buffer b) rfl)
      · intro c hc
        rw [← Guard.buffer.inj (Option.some.inj hc), hbase]
        exact hfits.base_eq b rfl

theorem Sound.step (h : Sound t) (hs : Step t t') : Sound t' := by
  cases hs with
  | scope run =>
    obtain ⟨stack, hstack, rfl⟩ := onStack_eq_ok_iff.1 run
    obtain ⟨rfl, rfl⟩ := Stack.scope_eq_ok_iff.1 hstack
    refine h.guarded _ rfl rfl ⟨?_, ?_⟩
    · intro guard hguard
      rw [← Option.some.inj hguard]
      rfl
    · intro b hb
      cases hb
  | acquire run =>
    obtain ⟨_, hroom, hb, rfl⟩ := ArgumentBuffer.acquire_eq_ok_iff.1 run
    refine h.guarded _ rfl rfl ⟨?_, ?_⟩
    · intro guard hguard
      rw [← Option.some.inj hguard, hb]
      rfl
    · intro c hc
      rw [← Guard.buffer.inj (Option.some.inj hc)]
      exact ⟨congrArg ArgumentBuffer.base hb, hroom⟩
  | acquireFaults run =>
    rw [Thread.eq_of_acquire_eq_error run]
    exact h
  | drop holds run =>
    rw [h.drop_eq holds] at run
    split at run
    · rename_i hl
      cases run
      exact h.dropped_last holds hl
    · cases run
  | dropFaults holds run =>
    rw [h.drop_eq holds] at run
    split at run
    · cases run
    · cases run
      exact h.dropped_leaked _
  | dropQuietly holds run =>
    rw [h.dropQuietly_eq holds] at run
    cases run
    simp only [Stack.isInnermost, beq_iff_eq, h.depth_eq_iff holds]
    split
    · rename_i hl
      exact h.dropped_last holds hl
    · exact h.dropped_leaked _
  | push run =>
    obtain ⟨stack, hstack, rfl⟩ := onStack_eq_ok_iff.1 run
    obtain rfl := Stack.push_eq_ok_iff.1 hstack
    refine h.opened _ rfl rfl rfl ⟨?_, ?_⟩ fun n hn => .inl hn
    · intro guard hguard
      cases hguard
    · intro b hb
      cases hb
  | pop innermost byHand run =>
    have hl := h.standing.le_of_head innermost
    have hn := List.mem_of_head? innermost
    have hb := befores_of_opening byHand
    obtain ⟨stack, hstack, rfl⟩ := onStack_eq_ok_iff.1 run
    rw [h.pop_eq hn hb hl] at hstack
    cases hstack
    refine h.popped hn hb hl fun m hm => ⟨hm, ?_⟩
    -- no guard that is held stands for a frame that was pushed by hand
    rintro rfl
    obtain ⟨guard, before, hguard⟩ := h.held_guard m hm
    rw [byHand] at hguard
    cases hguard
  | allocate run => exact h.kept (kept_of_allocate run)
  | reallocate run => exact h.kept (kept_of_reallocate run)
  | put holds run =>
    obtain ⟨hkept, hscope, hbase⟩ := BufferM.kept_of_append run
    exact h.written holds hkept hscope hbase
  | release => exact h.kept ⟨rfl, rfl⟩

theorem Sound.steps (h : Sound t) (hs : Relation.ReflTransGen Step t t') : Sound t' := by
  induction hs with
  | refl => exact h
  | tail _ hs ih => exact ih.step hs

/-- Guards stand for their own frames only, and close them the last first. -/
structure Orderly (t : Tower) : Prop where
  depth_inj : ∀ m n guard before guard' before', t.Holds m guard before →
    t.Holds n guard' before' → guard.frame.depth = guard'.frame.depth → m = n
  /-- Every frame that was opened later is closed. -/
  drop_last : ∀ n guard before, t.Holds n guard before → (∀ m ∈ t.standing, m ≤ n) →
    guard.drop t.arena = .ok () { t.arena with stack := t.arena.stack.backTo before } ∧
      guard.dropQuietly t.arena = .ok () { t.arena with stack := t.arena.stack.backTo before }
  /-- A frame that was opened later stands. -/
  drop_not_last : ∀ n guard before, t.Holds n guard before → ¬(∀ m ∈ t.standing, m ≤ n) →
    guard.drop t.arena =
        .error (.releasedOutOfOrder guard.frame.depth t.arena.stack.depth) t.arena ∧
      guard.dropQuietly t.arena = .ok () t.arena
  /-- The frame that a guard closes is the one that it opened. -/
  own_frame : ∀ n guard before a, t.Holds n guard before → guard.drop t.arena = .ok () a →
    t.standing.head? = some n ∧ t.arena.stack.frames = before.top :: before.frames
  acquire_faults : ∀ e a, ArgumentBuffer.acquire t.arena = .error e a → a = t.arena
  reacquire : ∀ n b before a, t.Holds n (.buffer b) before → b.release t.arena = .ok () a →
    a.stack.live = true → ∃ b' c, ArgumentBuffer.acquire a = .ok b' c ∧ b'.base = b.base

theorem Sound.own_frame (h : Sound t) (hg : t.Holds n guard before)
    (hd : guard.drop t.arena = .ok () a) :
    t.standing.head? = some n ∧ t.arena.stack.frames = before.top :: before.frames := by
  rw [h.drop_eq hg] at hd
  split at hd
  · rename_i hl
    obtain ⟨hnumbers, hframes, _⟩ :=
      h.standing.of_last (h.held_standing n hg.held) (befores_of_opening hg.opening) hl
    rw [hnumbers, List.head?_cons]
    exact ⟨rfl, hframes⟩
  · cases hd

/-- Where a buffer was, the next one begins. -/
theorem Sound.acquire_after_release {b : ArgumentBuffer} (h : Sound t)
    (hg : t.Holds n (.buffer b) before) (hr : b.release t.arena = .ok () a)
    (hlive : a.stack.live = true) :
    ∃ b' c, ArgumentBuffer.acquire a = .ok b' c ∧ b'.base = b.base := by
  have hdrop : (Guard.buffer b).drop t.arena = .ok () a := hr
  rw [h.drop_eq hg] at hdrop
  split at hdrop
  · cases hdrop
    obtain ⟨hbase, hroom⟩ := (h.fits_of_holds hg).base_eq b rfl
    rw [hbase] at hroom
    exact ⟨_, _, ArgumentBuffer.acquire_eq_ok_iff.2 ⟨hlive, hroom, rfl, rfl⟩, hbase.symm⟩
  · cases hdrop

theorem Sound.orderly (h : Sound t) : Orderly t where
  depth_inj m n guard before guard' before' hm hn hd := by
    rw [(h.fits_of_holds hm).depth_eq guard rfl, (h.fits_of_holds hn).depth_eq guard' rfl] at hd
    exact h.standing.eq_of_length_eq (h.held_standing m hm.held) (befores_of_opening hm.opening)
      (h.held_standing n hn.held) (befores_of_opening hn.opening) (Nat.succ.inj hd)
  drop_last n guard before hg hl := by
    rw [h.drop_eq hg, h.dropQuietly_eq hg, if_pos hl, if_pos hl]
    exact ⟨rfl, rfl⟩
  drop_not_last n guard before hg hl := by
    rw [h.drop_eq hg, h.dropQuietly_eq hg, if_neg hl, if_neg hl]
    exact ⟨rfl, rfl⟩
  own_frame _ _ _ _ hg hd := h.own_frame hg hd
  acquire_faults _ _ he := Thread.eq_of_acquire_eq_error he
  reacquire _ _ _ _ hg hr hlive := h.acquire_after_release hg hr hlive

/-- On one stack frames are opened, closed, left behind and filled in any order, and still every guard
closes its own frame or none. -/
theorem orderly_of_steps {base capacity : Nat} {memory : Memory}
    (ht : Relation.ReflTransGen Step (ofExtent base capacity memory) t) : Orderly t :=
  ((sound_ofExtent base capacity memory).steps ht).orderly

/-- The scope below a buffer is dropped first and leaves its frame behind; the buffer still closes its
own, and the next one begins where it began. -/
theorem orderly_of_steps_leaked :
    let b : ArgumentBuffer := ⟨⟨2⟩, 1048592, [], 0, 0, 0⟩
    ∃ t before, Relation.ReflTransGen Step (ofExtent 1048576 64 .blank) t ∧
      t.Holds 1 (.buffer b) before ∧ t.held = [1] ∧ t.standing = [1, 0] ∧ before.top = 1048581 ∧
      ∃ a, b.release t.arena = .ok () a ∧ a.stack.top = 1048581 ∧ a.stack.depth = 1 ∧
        ∃ b' c, ArgumentBuffer.acquire a = .ok b' c ∧ b'.base = 1048592 := by
  intro b
  let arena (top : Nat) (frames : List Nat) : Arena := ⟨⟨1048576, 64, top, frames, true⟩, .blank⟩
  let below : Opening := ⟨some (.scope ⟨1⟩), ⟨1048576, 64, 1048576, [], true⟩⟩
  let before : Stack := ⟨1048576, 64, 1048581, [1048576], true⟩
  have hscope : Relation.ReflTransGen Step (ofExtent 1048576 64 .blank)
      ⟨arena 1048576 [1048576], [below], [0], [0]⟩ := .single (.scope rfl)
  have hplace : Stack.allocate 5 1 ⟨1048576, 64, 1048576, [1048576], true⟩ =
    .ok 1048576 ⟨1048576, 64, 1048581, [1048576], true⟩ := rfl
  have hblock : Relation.ReflTransGen Step (ofExtent 1048576 64 .blank)
      ⟨arena 1048581 [1048576], [below], [0], [0]⟩ :=
    hscope.tail (.allocate (.inl ⟨1048576, onStack_eq_ok_iff.2 ⟨_, hplace, rfl⟩⟩))
  have hacquire : ArgumentBuffer.acquire ⟨⟨1048576, 64, 1048581, [1048576], true⟩, .blank⟩ =
      .ok ⟨⟨2⟩, 1048592, [], 0, 0, 0⟩ ⟨⟨1048576, 64, 1048592, [1048581, 1048576], true⟩, .blank⟩ :=
    ArgumentBuffer.acquire_eq_ok_iff.2 ⟨rfl, by decide, by decide, rfl⟩
  have hbuffer : Relation.ReflTransGen Step (ofExtent 1048576 64 .blank)
      ⟨arena 1048592 [1048581, 1048576], [below, ⟨some (.buffer b), before⟩], [1, 0], [1, 0]⟩ :=
    hblock.tail (.acquire hacquire)
  have ht : Relation.ReflTransGen Step (ofExtent 1048576 64 .blank)
      ⟨arena 1048592 [1048581, 1048576], [below, ⟨some (.buffer b), before⟩], [1, 0], [1]⟩ :=
    hbuffer.tail (@Step.dropFaults _ _ 0 (.scope ⟨1⟩) below.before _ ⟨by decide, rfl⟩ rfl)
  have hg : Holds ⟨arena 1048592 [1048581, 1048576], [below, ⟨some (.buffer b), before⟩], [1, 0],
      [1]⟩ 1 (.buffer b) before := ⟨by decide, rfl⟩
  have ho := orderly_of_steps ht
  have hdrop := (ho.drop_last 1 (.buffer b) before hg (by decide)).1
  exact ⟨_, before, ht, hg, rfl, rfl, rfl, _, hdrop, rfl, rfl,
    ho.reacquire 1 b before _ hg hdrop rfl⟩

end NativeBridge.Tower
