import Mathlib.Data.List.Nodup
import NativeBridge.Exit.Queue

/-! # The account of a hook queue

The journal tells which hooks were registered, which were started and which were removed, each in
turn. Together with those that wait they add up: a hook that was registered is in one of the three
lists, and in it once. Hooks that were started come in the order of registration, and before those
that wait.
-/
namespace NativeBridge

namespace HookEvent

def registered? : HookEvent → Option HookId
  | registered id => some id
  | _ => none

def started? : HookEvent → Option HookId
  | started id => some id
  | _ => none

def removed? : HookEvent → Option HookId
  | removed id => some id
  | _ => none

end HookEvent

namespace HookQueue

variable {α : Type} {q q' : HookQueue α} {id : HookId} {action : α}

def waiting (q : HookQueue α) : List HookId := q.pending.map Prod.fst

def registered (q : HookQueue α) : List HookId :=
  q.journal.reverse.filterMap HookEvent.registered?

def started (q : HookQueue α) : List HookId := q.journal.reverse.filterMap HookEvent.started?

def removed (q : HookQueue α) : List HookId := q.journal.reverse.filterMap HookEvent.removed?

/-- The queue once the hook of an identifier has been taken out. -/
def without (q : HookQueue α) (id : HookId) : HookQueue α :=
  { q with
    pending := q.pending.eraseP fun entry => entry.1 == id
    journal := .removed id :: q.journal }

theorem isPending_iff : q.isPending id = true ↔ id ∈ q.waiting := by
  simp [isPending, waiting]

/-- There is a hook to remove exactly where one waits. -/
theorem unregister_eq (q : HookQueue α) (id : HookId) :
    q.unregister id = if id ∈ q.waiting then (true, q.without id) else (false, q) := by
  by_cases h : id ∈ q.waiting
  · rw [if_pos h, unregister, if_pos (isPending_iff.2 h), without]
  · rw [if_neg h, unregister, if_neg (mt isPending_iff.1 h)]

theorem start?_eq_none_iff : q.start? = none ↔ q.pending = [] := by
  unfold start?
  cases q.pending with
  | nil => simp
  | cons entry rest => simp

theorem start?_eq_some_iff : q.start? = some (action, q') ↔
    ∃ id rest, q.pending = (id, action) :: rest ∧
      q' = { q with pending := rest, journal := .started id :: q.journal } := by
  unfold start?
  cases q.pending with
  | nil => simp
  | cons entry rest =>
    obtain ⟨id, a⟩ := entry
    simp only [Option.some.injEq, Prod.mk.injEq, List.cons.injEq]
    constructor
    · rintro ⟨rfl, rfl⟩
      exact ⟨id, rest, ⟨⟨rfl, rfl⟩, rfl⟩, rfl⟩
    · rintro ⟨_, _, ⟨⟨rfl, rfl⟩, rfl⟩, rfl⟩
      exact ⟨rfl, rfl⟩

/-- The journal and the identifiers agree with what waits. -/
structure Accounted (q : HookQueue α) : Prop where
  registered_eq : q.registered = (List.range q.upcoming).map HookId.mk
  in_order : (q.started ++ q.waiting).Sublist q.registered
  once : (q.started ++ q.removed ++ q.waiting).Perm q.registered

theorem accounted_empty : Accounted (empty : HookQueue α) := ⟨rfl, .slnil, .nil⟩

theorem Accounted.nodup (h : q.Accounted) : q.registered.Nodup := by
  rw [h.registered_eq]
  exact List.nodup_range.map fun m n hmn => congrArg HookId.raw hmn

theorem Accounted.nodup_waiting (h : q.Accounted) : q.waiting.Nodup :=
  ((List.sublist_append_right _ _).trans h.in_order).nodup h.nodup

/-- Identifiers that are still to come were never given out. -/
theorem Accounted.lt_of_mem_waiting (h : q.Accounted) (hid : id ∈ q.waiting) :
    id.raw < q.upcoming := by
  have hmem := h.in_order.subset (List.mem_append_right _ hid)
  rw [h.registered_eq] at hmem
  obtain ⟨n, hn, rfl⟩ := List.mem_map.1 hmem
  exact List.mem_range.1 hn

/-- What can happen to a queue besides the start of a hook. -/
inductive Edit : HookQueue α → HookQueue α → Prop
  | none {q : HookQueue α} : Edit q q
  | register {q : HookQueue α} (action : α) : Edit q (q.register action).2
  | unregister {q : HookQueue α} (id : HookId) : Edit q (q.unregister id).2

section Register

variable (q) (action : α)

theorem waiting_register : (q.register action).2.waiting = q.waiting ++ [⟨q.upcoming⟩] :=
  List.map_append

theorem registered_register :
    (q.register action).2.registered = q.registered ++ [⟨q.upcoming⟩] := by
  simp [registered, register, List.filterMap_append, HookEvent.registered?]

theorem started_register : (q.register action).2.started = q.started := by
  simp [started, register, List.filterMap_append, HookEvent.started?]

theorem removed_register : (q.register action).2.removed = q.removed := by
  simp [removed, register, List.filterMap_append, HookEvent.removed?]

end Register

section Without

variable (q) (id : HookId)

theorem waiting_without : (q.without id).waiting = q.waiting.erase id := by
  rw [waiting, waiting, List.erase_eq_eraseP', List.eraseP_map]
  rfl

theorem registered_without : (q.without id).registered = q.registered := by
  simp [registered, without, List.filterMap_append, HookEvent.registered?]

theorem started_without : (q.without id).started = q.started := by
  simp [started, without, List.filterMap_append, HookEvent.started?]

theorem removed_without : (q.without id).removed = q.removed ++ [id] := by
  simp [removed, without, List.filterMap_append, HookEvent.removed?]

end Without

theorem Accounted.register (h : q.Accounted) (action : α) : (q.register action).2.Accounted where
  registered_eq := by
    rw [registered_register, h.registered_eq]
    exact (List.map_append.symm.trans
      (congrArg (List.map HookId.mk) List.range_succ.symm))
  in_order := by
    rw [started_register, waiting_register, registered_register, ← List.append_assoc]
    exact h.in_order.append (List.Sublist.refl _)
  once := by
    rw [started_register, removed_register, waiting_register, registered_register,
      ← List.append_assoc]
    exact h.once.append_right _

theorem Accounted.without (h : q.Accounted) (hid : id ∈ q.waiting) :
    (q.without id).Accounted where
  registered_eq := by
    rw [registered_without]
    exact h.registered_eq
  in_order := by
    rw [started_without, waiting_without, registered_without]
    exact ((List.Sublist.refl _).append List.erase_sublist).trans h.in_order
  once := by
    rw [started_without, removed_without, waiting_without, registered_without]
    have hsplit : ([id] ++ q.waiting.erase id).Perm q.waiting := (List.perm_cons_erase hid).symm
    have hmove : q.started ++ (q.removed ++ [id]) ++ q.waiting.erase id =
        q.started ++ q.removed ++ ([id] ++ q.waiting.erase id) := by
      simp only [List.append_assoc]
    rw [hmove]
    exact (hsplit.append_left _).trans h.once

theorem Accounted.edit (h : q.Accounted) (he : Edit q q') : q'.Accounted := by
  cases he with
  | none => exact h
  | register action => exact h.register action
  | unregister id =>
    rw [unregister_eq]
    split
    · rename_i hid
      exact h.without hid
    · exact h

/-- One identifier is not given to two hooks. -/
theorem Accounted.eq_of_mem_pending {a b : α} (h : q.Accounted) (ha : (id, a) ∈ q.pending)
    (hb : (id, b) ∈ q.pending) : a = b :=
  congrArg Prod.snd (List.inj_on_of_nodup_map h.nodup_waiting ha hb rfl)

theorem mem_waiting_of_mem_pending {entry : HookId × α} (h : entry ∈ q.pending) :
    entry.1 ∈ q.waiting :=
  List.mem_map_of_mem h

theorem Accounted.mem_pending_unregister {entry : HookId × α} (h : q.Accounted) (id : HookId) :
    entry ∈ (q.unregister id).2.pending ↔ entry ∈ q.pending ∧ entry.1 ≠ id := by
  rw [unregister_eq]
  by_cases hid : id ∈ q.waiting
  · rw [if_pos hid]
    by_cases hentry : entry.1 = id
    · refine iff_of_false ?_ fun hmem => hmem.2 hentry
      intro hmem
      have hgone : entry.1 ∈ (q.without id).waiting := mem_waiting_of_mem_pending hmem
      rw [waiting_without, hentry] at hgone
      exact h.nodup_waiting.not_mem_erase hgone
    · have hkept : entry ∈ (q.without id).pending ↔ entry ∈ q.pending := by
        apply List.mem_eraseP_of_neg
        rw [beq_iff_eq]
        exact hentry
      exact hkept.trans (and_iff_left hentry).symm
  · rw [if_neg hid]
    refine (and_iff_left_of_imp ?_).symm
    rintro hmem rfl
    exact hid (mem_waiting_of_mem_pending hmem)

theorem upcoming_unregister (q : HookQueue α) (id : HookId) :
    (q.unregister id).2.upcoming = q.upcoming := by
  rw [unregister_eq]
  split
  · rfl
  · rfl

theorem Edit.started_eq (he : Edit q q') : q'.started = q.started := by
  cases he with
  | none => rfl
  | register action => exact started_register q action
  | unregister id =>
    rw [unregister_eq]
    split
    · exact started_without q id
    · rfl

/-- The hook that is started is the one that was registered first among those that wait. -/
theorem account_of_start? (h : q.start? = some (action, q')) :
    ∃ id, q.waiting = id :: q'.waiting ∧ q'.started = q.started ++ [id] ∧
      q'.removed = q.removed ∧ q'.registered = q.registered ∧ q'.upcoming = q.upcoming := by
  obtain ⟨id, rest, hpending, rfl⟩ := start?_eq_some_iff.1 h
  refine ⟨id, ?_, ?_, ?_, ?_, rfl⟩
  · rw [waiting, hpending]
    rfl
  · simp [started, List.filterMap_append, HookEvent.started?]
  · simp [removed, List.filterMap_append, HookEvent.removed?]
  · simp [registered, List.filterMap_append, HookEvent.registered?]

theorem Accounted.start (h : q.Accounted) (hs : q.start? = some (action, q')) : q'.Accounted := by
  obtain ⟨id, hwaiting, hstarted, hremoved, hregistered, hupcoming⟩ := account_of_start? hs
  have horder := h.in_order
  have honce := h.once
  rw [hwaiting] at horder honce
  refine ⟨?_, ?_, ?_⟩
  · rw [hregistered, hupcoming]
    exact h.registered_eq
  · rw [hstarted, hregistered, List.append_assoc]
    exact horder
  · have hmove : (id :: (q.removed ++ q'.waiting)).Perm (q.removed ++ id :: q'.waiting) :=
      List.perm_middle.symm
    rw [hstarted, hremoved, hregistered, List.append_assoc, List.append_assoc]
    refine (hmove.append_left q.started).trans ?_
    rw [← List.append_assoc]
    exact honce

end HookQueue

end NativeBridge
