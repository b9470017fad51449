import NativeBridge.Memory.Stack
import NativeBridge.Proofs.Basic
import NativeBridge.Proofs.Memory.Address

/-! # What the operations of a stack do

Each operation by its results: when it succeeds, with what, and which stack it leaves. Whatever
faults leaves the stack alone.
-/
namespace NativeBridge

namespace Stack

variable {s t : Stack} {size alignment start : Nat} {e : Fault} {u : Unit}

/-- Where an extent ends before the greatest address no block in it is cut off there. -/
theorem limit_lt_endOf_iff (h : s.limit + 1 < addressLimit) :
    s.limit < endOf start size ↔ s.limit < start + size := by
  rw [endOf]
  omega

/-- The three ways of an allocation, told apart by what it asks for. -/
theorem allocate_eq (h : s.limit + 1 < addressLimit) : allocate size alignment s =
    if s.live = false then .error .stackReleased s
    else if isPowerOfTwo alignment = false then .error (.alignmentNotPower alignment) s
    else if s.limit < alignUp s.top alignment + size then
      .error (.stackOverflow size alignment (s.limit - min (alignUp s.top alignment) s.limit)
        s.capacity) s
    else .ok (alignUp s.top alignment) { s with top := alignUp s.top alignment + size } := by
  have hl := @limit_lt_endOf_iff s size (alignUp s.top alignment) h
  unfold allocate
  by_cases hlive : s.live = true
  · by_cases hp : isPowerOfTwo alignment = true
    · by_cases hroom : s.limit < alignUp s.top alignment + size
      · simp only [hlive, hp, hl, hroom, Bool.not_true, Bool.false_eq_true, Bool.true_eq_false,
          if_false, if_true]
      · have hstop : endOf (alignUp s.top alignment) size = alignUp s.top alignment + size :=
          min_eq_left (by omega)
        simp only [hlive, hp, hstop, hroom, Bool.not_true, Bool.false_eq_true, Bool.true_eq_false,
          if_false]
    · simp only [Bool.not_eq_true] at hp
      simp [hlive, hp]
  · simp only [Bool.not_eq_true] at hlive
    simp [hlive]

theorem allocate_eq_ok_iff (h : s.limit + 1 < addressLimit) :
    allocate size alignment s = .ok start t ↔ s.live = true ∧ isPowerOfTwo alignment = true ∧
      start = alignUp s.top alignment ∧ start + size ≤ s.limit ∧
      t = { s with top := start + size } := by
  rw [allocate_eq h]
  split
  · rename_i hlive
    simp [hlive]
  split
  · rename_i hp
    simp [hp]
  rename_i hlive hp
  rw [Bool.not_eq_false] at hlive hp
  split
  · rename_i hroom
    simp only [reduceCtorEq, false_iff, not_and]
    rintro _ _ rfl hle
    omega
  · rename_i hroom
    simp only [EStateM.Result.ok.injEq, hlive, hp, true_and]
    constructor
    · rintro ⟨rfl, rfl⟩
      exact ⟨rfl, not_lt.1 hroom, rfl⟩
    · rintro ⟨rfl, _, rfl⟩
      exact ⟨rfl, rfl⟩

/-- An allocation faults where the stack is dead, the alignment none, or the room too small. -/
theorem allocate_faults_iff (h : s.limit + 1 < addressLimit) :
    (∃ e t, allocate size alignment s = .error e t) ↔ s.live = false ∨
      isPowerOfTwo alignment = false ∨ s.limit < alignUp s.top alignment + size := by
  rw [allocate_eq h]
  split
  · rename_i hlive
    simp [hlive]
  split
  · rename_i hp
    simp [hp]
  rename_i hlive hp
  split
  · rename_i hroom
    simp [hroom]
  · rename_i hroom
    simp [hlive, hp, hroom]

theorem eq_of_allocate_eq_error (h : allocate size alignment s = .error e t) : t = s := by
  unfold allocate at h
  dsimp only at h
  split at h
  · cases h
    rfl
  split at h
  · cases h
    rfl
  split at h
  · cases h
    rfl
  · cases h

theorem push_eq_ok_iff : push s = .ok u t ↔ t = { s with frames := s.top :: s.frames } :=
  Run.modify_eq_ok_iff

theorem pop_eq_ok_iff : pop s = .ok u t ↔
    ∃ saved frames, s.frames = saved :: frames ∧ t = { s with top := saved, frames } := by
  unfold pop
  cases s.frames with
  | nil => simp
  | cons saved frames =>
    simp only [EStateM.Result.ok.injEq, List.cons.injEq]
    constructor
    · rintro ⟨_, rfl⟩
      exact ⟨saved, frames, ⟨rfl, rfl⟩, rfl⟩
    · rintro ⟨_, _, ⟨rfl, rfl⟩, rfl⟩
      exact ⟨trivial, rfl⟩

theorem eq_of_pop_eq_error (h : pop s = .error e t) : t = s := by
  unfold pop at h
  split at h
  · cases h
    rfl
  · cases h

theorem scope_eq_ok_iff {scope : Scope} : Stack.scope s = .ok scope t ↔
    scope = ⟨s.depth + 1⟩ ∧ t = { s with frames := s.top :: s.frames } := by
  simp only [Stack.scope, Run.bind_eq_ok_iff, push_eq_ok_iff, Run.get_eq_ok_iff,
    Run.pure_eq_ok_iff]
  constructor
  · rintro ⟨_, _, rfl, _, _, ⟨rfl, rfl⟩, rfl, rfl⟩
    exact ⟨rfl, rfl⟩
  · rintro ⟨rfl, rfl⟩
    exact ⟨(), _, rfl, _, _, ⟨rfl, rfl⟩, rfl, rfl⟩

theorem eq_of_scope_eq_error (h : Stack.scope s = .error e t) : t = s := by
  simp only [Stack.scope, push, Run.bind_eq_error_iff, Run.modify_ne_error, Run.get_ne_error,
    false_or] at h
  obtain ⟨_, _, _, _, _, _, h⟩ := h
  exact absurd h Run.pure_ne_error

theorem close_eq_ok_iff {scope : Scope} : close scope s = .ok u t ↔
    s.depth = scope.depth ∧ pop s = .ok u t := by
  simp only [close, Run.bind_eq_ok_iff, Run.get_eq_ok_iff, isInnermost, beq_iff_eq]
  constructor
  · rintro ⟨_, _, ⟨rfl, rfl⟩, h⟩
    split at h
    · exact ⟨‹_›, h⟩
    · exact absurd h Run.throw_ne_ok
  · rintro ⟨hd, h⟩
    exact ⟨s, s, ⟨rfl, rfl⟩, by rwa [if_pos hd]⟩

theorem eq_of_close_eq_error {scope : Scope} (h : close scope s = .error e t) : t = s := by
  simp only [close, Run.bind_eq_error_iff, Run.get_eq_ok_iff] at h
  obtain h | ⟨_, _, ⟨rfl, rfl⟩, h⟩ := h
  · exact absurd h Run.get_ne_error
  · split at h
    · exact eq_of_pop_eq_error h
    · exact (Run.throw_eq_error_iff.1 h).2

theorem closeQuietly_eq_ok_iff {scope : Scope} : closeQuietly scope s = .ok u t ↔
    (s.depth = scope.depth ∧ pop s = .ok u t) ∨ (s.depth ≠ scope.depth ∧ t = s) := by
  simp only [closeQuietly, Run.bind_eq_ok_iff, Run.get_eq_ok_iff, isInnermost, beq_iff_eq]
  constructor
  · rintro ⟨_, _, ⟨rfl, rfl⟩, h⟩
    split at h
    · exact .inl ⟨‹_›, h⟩
    · exact .inr ⟨‹_›, (Run.pure_eq_ok_iff.1 h).2⟩
  · rintro (⟨hd, h⟩ | ⟨hd, rfl⟩)
    · exact ⟨s, s, ⟨rfl, rfl⟩, by rwa [if_pos hd]⟩
    · exact ⟨t, t, ⟨rfl, rfl⟩, by rw [if_neg hd]; rfl⟩

theorem eq_of_closeQuietly_eq_error {scope : Scope} (h : closeQuietly scope s = .error e t) :
    t = s := by
  simp only [closeQuietly, Run.bind_eq_error_iff, Run.get_eq_ok_iff] at h
  obtain h | ⟨_, _, ⟨rfl, rfl⟩, h⟩ := h
  · exact absurd h Run.get_ne_error
  · split at h
    · exact eq_of_pop_eq_error h
    · exact absurd h Run.pure_ne_error

end Stack

namespace Arena

variable {α : Type} {a b : Arena} {e : Fault}

theorem isPowerOfTwo_extentAlignment : isPowerOfTwo extentAlignment = true := by decide

/-- An extent that may be asked for ends below the greatest address. -/
theorem eq_of_withCapacity_eq_ok {capacity : Nat} {arena : Arena} (h : withCapacity capacity = .ok arena) :
    arena = ofCapacity capacity ∧ (ofCapacity capacity).stack.limit + 1 < addressLimit := by
  unfold withCapacity at h
  split_ifs at h with hrequest
  refine ⟨(Except.ok.inj h).symm, ?_⟩
  have hspan : max capacity 1 + extentAlignment ≤ greatestSpan := of_decide_eq_true hrequest
  have hrest : extentBase + greatestSpan + 1 < addressLimit := by decide
  change extentBase + capacity + 1 < addressLimit
  omega

theorem alignUp_extentBase : alignUp extentBase extentAlignment = extentBase := by decide

theorem onStack_eq_ok_iff {op : Stack.StackM α} {x : α} : onStack op a = .ok x b ↔
    ∃ t, op a.stack = .ok x t ∧ b = { a with stack := t } := by
  unfold onStack
  cases op a.stack with
  | ok y t =>
    simp only [EStateM.Result.ok.injEq]
    constructor
    · rintro ⟨rfl, rfl⟩
      exact ⟨t, ⟨rfl, rfl⟩, rfl⟩
    · rintro ⟨_, ⟨rfl, rfl⟩, rfl⟩
      exact ⟨rfl, rfl⟩
  | error f t => simp

theorem onStack_eq_error_iff {op : Stack.StackM α} : onStack op a = .error e b ↔
    ∃ t, op a.stack = .error e t ∧ b = { a with stack := t } := by
  unfold onStack
  cases op a.stack with
  | ok y t => simp
  | error f t =>
    simp only [EStateM.Result.error.injEq]
    constructor
    · rintro ⟨rfl, rfl⟩
      exact ⟨t, ⟨rfl, rfl⟩, rfl⟩
    · rintro ⟨_, ⟨rfl, rfl⟩, rfl⟩
      exact ⟨rfl, rfl⟩

theorem eq_of_onStack_eq_error {op : Stack.StackM α}
    (hop : ∀ s e t, op s = .error e t → t = s) (h : onStack op a = .error e b) : b = a := by
  obtain ⟨t, ht, rfl⟩ := onStack_eq_error_iff.1 h
  rw [hop _ _ _ ht]

/-- A block is given a new place, to which the memory of an old block may have been copied. -/
theorem reallocate_eq_ok_iff {old : Option Nat} {size alignment fresh : Nat} :
    reallocate old size alignment a = .ok fresh b ↔
      ∃ t, Stack.allocate size alignment a.stack = .ok fresh t ∧ b = ⟨t, match old with
        | none => a.memory
        | some address => a.memory.copy fresh address (min size (a.stack.top - address))⟩ := by
  simp only [reallocate, Run.bind_eq_ok_iff, Run.get_eq_ok_iff, onStack_eq_ok_iff]
  cases old with
  | none =>
    simp only [Run.pure_eq_ok_iff]
    constructor
    · rintro ⟨_, _, ⟨rfl, rfl⟩, _, _, ⟨t, h, rfl⟩, rfl, rfl⟩
      exact ⟨t, h, rfl⟩
    · rintro ⟨t, h, rfl⟩
      exact ⟨a, a, ⟨rfl, rfl⟩, fresh, _, ⟨t, h, rfl⟩, rfl, rfl⟩
  | some address =>
    simp only [Run.bind_eq_ok_iff, Run.modify_eq_ok_iff, Run.pure_eq_ok_iff]
    constructor
    · rintro ⟨_, _, ⟨rfl, rfl⟩, _, _, ⟨t, h, rfl⟩, _, _, rfl, rfl, rfl⟩
      exact ⟨t, h, rfl⟩
    · rintro ⟨t, h, rfl⟩
      exact ⟨a, a, ⟨rfl, rfl⟩, fresh, _, ⟨t, h, rfl⟩, (), _, rfl, rfl, rfl⟩

theorem eq_of_reallocate_eq_error {old : Option Nat} {size alignment : Nat}
    (h : reallocate old size alignment a = .error e b) : b = a := by
  simp only [reallocate, Run.bind_eq_error_iff, Run.get_eq_ok_iff] at h
  obtain h | ⟨_, _, ⟨rfl, rfl⟩, h | ⟨fresh, c, _, h⟩⟩ := h
  · exact absurd h Run.get_ne_error
  · exact eq_of_onStack_eq_error (fun _ _ _ => Stack.eq_of_allocate_eq_error) h
  · -- behind the allocation nothing can fault
    cases old with
    | none => exact absurd h Run.pure_ne_error
    | some address =>
      simp only [Run.bind_eq_error_iff] at h
      obtain h | ⟨_, _, _, h⟩ := h
      · exact absurd h Run.modify_ne_error
      · exact absurd h Run.pure_ne_error

end Arena

end NativeBridge
